import StashMachine.Proofs.Places

/-!
# StashMachine.Proofs.Creation — an object is made as a whole or not at all

* `Class.Repeats c xs y`: the lineage of `c` declares the different fields `xs`, and then one of them, `y`, again.
* `Spares env env'`: everything in `env` is in `env'` as it was, and code goes on in the same frame.
* `Creates env env' c f`: besides, `env'` has an object of the class `c` with the frame `f` that `env` lacks, and
  its fields are at their defaults.
* `creation_all_or_nothing`: when the step that makes an object fails, and what is left in either case.
-/

namespace StashMachine

open Environment Machine

/-! ### Names that are taken -/

namespace Class

/-- Along its lineage the class declares the fields `xs` under different names, and then `y` again. -/
def Repeats (c : Class) (xs : List String) (y : String) : Prop :=
  xs.Nodup ∧ y ∈ xs ∧ xs ++ [y] <+: c.allInstanceVars.map Prod.fst

/-- The first name that is taken stands behind different ones that are not. -/
theorem exists_of_repeated? {seen xs : List String} {y : String} (h : repeated? seen xs = some y) :
    ∃ front, front.Nodup ∧ (∀ x ∈ front, x ∉ seen) ∧ (y ∈ seen ∨ y ∈ front) ∧ front ++ [y] <+: xs := by
  induction xs generalizing seen with
  | nil => cases h
  | cons x xs ih =>
    rw [repeated?] at h
    by_cases hx : x ∈ seen
    · rw [if_pos (List.contains_iff_mem.mpr hx)] at h
      cases h
      exact ⟨[], .nil, List.forall_mem_nil _, .inl hx, ⟨xs, rfl⟩⟩
    · rw [if_neg (fun h => hx (List.contains_iff_mem.mp h))] at h
      obtain ⟨front, hnodup, hfree, hy, hfront⟩ := ih h
      refine ⟨x :: front, List.nodup_cons.mpr ⟨fun hmem => hfree x hmem (.head _), hnodup⟩, ?_, ?_,
        List.cons_prefix_cons.mpr ⟨rfl, hfront⟩⟩
      · intro z hz
        rcases List.mem_cons.mp hz with rfl | hz
        · exact hx
        · exact fun hseen => hfree z hz (.tail _ hseen)
      · rcases hy with hy | hy
        · rcases List.mem_cons.mp hy with rfl | hy
          · exact .inr (.head _)
          · exact .inl hy
        · exact .inr (.tail _ hy)

/-- The field that is refused is the first that repeats one. -/
theorem repeats_of_repeatedField? {c : Class} {y : String} (h : c.repeatedField? = some y) : ∃ xs, c.Repeats xs y := by
  obtain ⟨xs, hnodup, -, hy, hfront⟩ := exists_of_repeated? h
  exact ⟨xs, hnodup, hy.resolve_left List.not_mem_nil, hfront⟩

end Class

namespace Environment

variable {env : Environment}

/-- A name that a frame binds anew is bound to a new variable. -/
theorem bound?_addVariables_fresh {vs : List Variable} {f : FrameId} {x : String} {id : VarId}
    (h : (env.addVariables vs).bound? f x = some (.var id)) :
    env.bound? f x = some (.var id) ∨ env.var? id = none := by
  induction vs generalizing env with
  | nil => exact .inl h
  | cons v vs ih =>
    have hnone : ∀ {n}, (env.addVariable v).var? n = none → env.var? n = none := by
      intro n hn
      by_contra hold
      obtain ⟨w, hw⟩ := Option.ne_none_iff_exists'.mp hold
      rw [show (env.addVariable v).var? n = some w from Lasts.var?_of_allocate hw] at hn
      cases hn
    rcases ih h with hold | hnew
    · rw [bound?_addVariable] at hold
      split at hold
      · cases hold
        exact .inr (Array.getElem?_eq_none (Nat.le_refl _))
      · exact .inl hold
    · exact .inr (hnone hnew)

/-- Everything in `env` is in `env'` as it was, and the same frame is current. -/
structure Spares (env env' : Environment) : Prop where
  current : env'.current = env.current
  frames : ∀ g < env.frames.size, env'.frame g = env.frame g
  vars : ∀ id v, env.var? id = some v → env'.var? id = some v

theorem Spares.refl (env : Environment) : Spares env env := ⟨rfl, fun _ _ => rfl, fun _ _ h => h⟩

/-- Besides, `env'` has an object of the class `c` with the frame `f` that `env` lacks, and no other frame. -/
structure Creates (env env' : Environment) (c : Class) (f : FrameId) : Prop extends Spares env env' where
  isNew : f = env.frames.size ∧ env'.frames.size = env.frames.size + 1
  each : ∀ x t, (x, t) ∈ c.allInstanceVars → ∃ id, env'.bound? f x = some (.var id) ∧
    env'.var? id = some ⟨x, t, some (Value.default t)⟩ ∧ env.var? id = none
  only : ∀ x b, env'.bound? f x = some b → ∃ t, (x, t) ∈ c.allInstanceVars

/-- Making an object, finished or not, changes nothing that is there. -/
theorem spares_instantiate (env : Environment) (c : Class) : Spares env (env.instantiate c).2 :=
  ⟨rfl, fun _ hg => frame_instantiate_of_ne env c (Nat.ne_of_lt hg), fun _ _ hv => var?_instantiate env c hv⟩

/-- A class that repeats no field makes an object with each of its fields once. -/
theorem creates_instantiate {c : Class} (h : c.repeatedField? = none) :
    Creates env (env.instantiate c).2 c env.frames.size := by
  have hsize : (env.extend c.frame objectFrame).current < (env.extend c.frame objectFrame).frames.size := by
    rw [size_extend]
    exact Nat.lt_succ_self _
  refine ⟨spares_instantiate env c, ⟨rfl, size_instantiate env c⟩, fun x t hx => ?_, (bindsFields_instantiate h).only⟩
  rw [snd_instantiate h]
  obtain ⟨id, hbound, hid⟩ := exists_of_mem_addVariables _ hsize
    (map_name_freshField c ▸ Class.repeatedField?_eq_none.mp h) (List.mem_map_of_mem hx)
  refine ⟨id, hbound, hid, ?_⟩
  rcases bound?_addVariables_fresh hbound with hold | hnew
  · replace hold : (env.extend c.frame objectFrame).bound? env.frames.size x = some (.var id) := hold
    rw [bound?_extend, bound?_eq_none_of_size_le (Nat.le_refl _)] at hold
    cases hold
  · exact hnew

end Environment

/-! ### The step -/

section Machine

variable {natives : Natives} {m : Machine} {x : String} {control : List Item}

/-- The step that makes an object fails if and only if the class is not registered or a name of its fields
occurs twice along its lineage; the fault names the class or the first such field, and control is one item shorter,
but stash, output and everything in the environment are as they were.  A step that does not fail pushes one object,
whose frame binds the fields of the lineage at their defaults, and nothing else is different. -/
theorem creation_all_or_nothing (hc : m.registers.control = .new x :: control) :
    ((∃ e m', evaluate natives 1 m = .error e m') ↔ (∀ c, m.registers.env.findClass x ≠ .ok c) ∨
      ∃ c, m.registers.env.findClass x = .ok c ∧ ¬ (c.allInstanceVars.map Prod.fst).Nodup) ∧
    (∀ e m', evaluate natives 1 m = .error e m' →
      m'.registers.control = control ∧ m'.registers.stash = m.registers.stash ∧
      m'.registers.output = m.registers.output ∧ Spares m.registers.env m'.registers.env ∧
      (e = .undeclaredClass x ∧ m'.registers.env = m.registers.env ∨
        ∃ c xs y, m.registers.env.findClass x = .ok c ∧ c.Repeats xs y ∧ e = .redeclaration y)) ∧
    ∀ m', evaluate natives 1 m = .ok () m' → ∃ c f, m.registers.env.findClass x = .ok c ∧
      m'.registers.control = control ∧ m'.registers.stash = .value (.object c f) :: m.registers.stash ∧
      m'.registers.output = m.registers.output ∧ Creates m.registers.env m'.registers.env c f := by
  obtain ⟨⟨_, stash, env, output⟩, steps⟩ := m
  obtain rfl := hc
  have hends := Step.new_ends x ⟨control, stash, env, output⟩
  rw [evaluate_one_cons]
  show (_ ↔ (∀ c, env.findClass x ≠ .ok c) ∨ _) ∧ _
  cases hperform : Step.perform natives (.new x) ⟨control, stash, env, output⟩ with
  | ok a r =>
    obtain ⟨c, hfind, hnone, rfl⟩ := hends.of_ok hperform
    refine ⟨⟨?_, ?_⟩, ?_, ?_⟩
    · rintro ⟨e, m', h⟩
      cases h
    · rintro (hno | ⟨c', hfind', hno⟩)
      · exact absurd hfind (hno c)
      · obtain rfl := Except.ok.inj (hfind.symm.trans hfind')
        exact absurd (Class.repeatedField?_eq_none.mp hnone) hno
    · intro e m' h
      cases h
    · intro m' h
      cases h
      exact ⟨c, _, hfind, rfl, rfl, rfl, creates_instantiate hnone⟩
  | error e r =>
    refine ⟨iff_of_true ⟨e, _, rfl⟩ ?_, ?_, ?_⟩
    · rcases hends.of_error hperform with ⟨hfind, -⟩ | ⟨c, y, hfind, hy, -⟩
      · refine .inl (fun c hok => ?_)
        rw [hfind] at hok
        cases hok
      · refine .inr ⟨c, hfind, fun hnodup => ?_⟩
        rw [Class.repeatedField?_eq_none.mpr hnodup] at hy
        cases hy
    · intro e' m' h
      cases h
      rcases hends.of_error hperform with ⟨hfind, rfl⟩ | ⟨c, y, hfind, hy, rfl, rfl⟩
      · exact ⟨rfl, rfl, rfl, .refl env, .inl ⟨findClass_error hfind, rfl⟩⟩
      · obtain ⟨xs, hrepeats⟩ := Class.repeats_of_repeatedField? hy
        exact ⟨rfl, rfl, rfl, spares_instantiate env c, .inr ⟨c, xs, y, hfind, hrepeats, rfl⟩⟩
    · intro m' h
      cases h

/-- A source with a class that declares a field its superclass has. -/
def repeatedSource : String :=
  "class A \x7b int y; int x; \x7d class B extends A \x7b int z; int x; \x7d "
    ++ "class M \x7b public static void main(String[] a) \x7b B b = new B(); \x7d \x7d"

/-- Whether the next step makes an object of the class `B` and is refused because of the field `x`. -/
def refusesField (m : Machine) : Bool :=
  match m.registers.control, evaluate Natives.empty 1 m with
  | .new "B" :: _, .error (.redeclaration "x") _ => true
  | _, _ => false

/-- No object is made of the class, and the failed step spares the store. -/
theorem creation_all_or_nothing_repeated : ∃ p m m' control, Program.parse repeatedSource = .ok p ∧
    Reached Natives.empty p m ∧ m.registers.control = .new "B" :: control ∧
    evaluate Natives.empty 1 m = .error (.redeclaration "x") m' ∧
    m'.registers.stash = m.registers.stash ∧ Spares m.registers.env m'.registers.env ∧
    ((∀ c, m.registers.env.findClass "B" ≠ .ok c) ∨
      ∃ c, m.registers.env.findClass "B" = .ok c ∧ ¬ (c.allInstanceVars.map Prod.fst).Nodup) := by
  have hrun : (sample? repeatedSource 26).any refusesField = true := by
    rw [sample?_eq_parseDecoded?]
    decide +kernel
  obtain ⟨m, hm, hrefuses⟩ := (Option.any_eq_true _ _).mp hrun
  obtain ⟨p, hp, hreached⟩ := exists_of_sample? hm
  unfold refusesField at hrefuses
  split at hrefuses
  · rename_i control m' hc herror
    have hall := @creation_all_or_nothing Natives.empty m "B" control hc
    obtain ⟨-, hstash, -, hspares, -⟩ := hall.2.1 _ m' herror
    exact ⟨p, m, m', control, hp, hreached, hc, herror, hstash, hspares, hall.1.mp ⟨_, m', herror⟩⟩
  · cases hrefuses

end Machine

end StashMachine
