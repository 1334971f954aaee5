import StashMachine.Proofs.ClassOrder
import StashMachine.Proofs.Finish
import StashMachine.Proofs.Lookup

/-!
# StashMachine.Proofs.ClassQueue — classes wait for their superclasses

The order of elaboration follows the extends clauses of a program, and a class without one needs the root of the
hierarchy as well.

* `SupersFirst p ds`: the order `ds` has the root in front, and every class behind its superclass.
* `Program.Foremost p d`: the furthest ancestor of the first class, which the order begins with; `supersFirst_iff`: all
  depends on whether that is the root.
* `Supplies`: what native code changes about a step; `Machine.Next.findClass`: only declarations register classes.
* `InTurn ds done r`: of the order `ds` the classes `done` are registered, each after its superclass, and the others
  wait on control; `InTurn.next`: one step keeps the classes in turn; `inTurn_of_reached`: so does every run.
* `LacksSuper natives p`: a class fails for want of a superclass that the program provides; `lacksSuper_iff`.
* `elaboration_order`: in which programs the classes find their superclasses.
-/

namespace StashMachine

open Environment Step Machine

/-! ### The order -/

/-- The program has a class of the name, be it only the root that every program has. -/
def Program.Provides (p : Program) (x : String) : Prop := ∃ d ∈ p.classes, d.name = x

/-- The root of the hierarchy comes first, and every class behind its superclass, if the program provides that. -/
structure SupersFirst (p : Program) (ds : List ClassDecl) : Prop where
  root : ∀ front d, front ++ [d] <+: ds → d.name ≠ rootName → ∃ e ∈ front, e.name = rootName
  supers : ∀ front d s, front ++ [d] <+: ds → d.superName? = some s → p.Provides s → ∃ e ∈ front, e.name = s

/-- The furthest ancestor of the first class of a program. -/
def Program.Foremost (p : Program) (d : ClassDecl) : Prop :=
  ∃ i, Relation.ReflTransGen p.HasSuper 0 i ∧ p.superIndex? i = none ∧ p[i]? = some d

/-- A program that declares the root of the hierarchy has it as the furthest ancestor of its first class. -/
def Program.RootLeads (p : Program) : Prop :=
  (∃ d ∈ p, d.name = rootName) → ∃ d, p.Foremost d ∧ d.name = rootName

section Order

variable {p : Program} {q ds front : List ClassDecl} {d e : ClassDecl} {s : String}

/-- Only the root is without a superclass. -/
theorem name_of_superName? (h : d.superName? = none) : d.name = rootName := by
  unfold ClassDecl.superName? at h
  split at h
  · cases h
  · by_contra hname
    rw [if_neg hname] at h
    cases h

theorem superName?_cases (h : d.superName? = some s) :
    d.superclass = some s ∨ d.superclass = none ∧ d.name ≠ rootName ∧ s = rootName := by
  unfold ClassDecl.superName? at h
  split at h
  · rename_i hsuper
    cases h
    exact .inl hsuper
  · rename_i hsuper
    split at h
    · cases h
    · rename_i hname
      cases h
      exact .inr ⟨hsuper, hname, rfl⟩

theorem any_root_iff : p.any (fun c => c.name == rootName) = true ↔ ∃ d ∈ p, d.name = rootName := by
  simp [List.any_eq_true]

/-- A program that declares the root provides what it declares. -/
theorem Program.provides_of_root (hroot : ∃ d ∈ p, d.name = rootName) : p.Provides s ↔ ∃ d ∈ p, d.name = s := by
  rw [Provides, classes, if_pos (any_root_iff.mpr hroot), List.nil_append]

/-- A program that does not declare the root provides it besides. -/
theorem Program.provides_of_no_root (hroot : ¬ ∃ d ∈ p, d.name = rootName) :
    p.Provides s ↔ s = rootName ∨ ∃ d ∈ p, d.name = s := by
  rw [Provides, classes, if_neg (fun h => hroot (any_root_iff.mp h)), List.singleton_append,
    List.exists_mem_cons_iff]
  exact or_congr_left eq_comm

/-- The order of a program that declares the root, and of one that does not. -/
theorem Program.elaborationOrder_cases (h : p.elaborationOrder = .ok ds) :
    (∃ d ∈ p, d.name = rootName) ∧ p.superclassesFirst = .ok ds ∨
      (¬ ∃ d ∈ p, d.name = rootName) ∧ ∃ q, p.superclassesFirst = .ok q ∧ ds = ClassDecl.root :: q := by
  cases hq : p.superclassesFirst with
  | error e =>
    rw [elaborationOrder, hq] at h
    cases h
  | ok q =>
    rw [elaborationOrder_of_ok hq] at h
    cases h
    rw [← any_root_iff]
    split
    · rename_i hroot
      exact .inl ⟨hroot, rfl⟩
    · rename_i hroot
      exact .inr ⟨hroot, q, rfl, rfl⟩

theorem Program.exists_placed (h : p.superclassesFirst = .ok q) :
    ∃ order, q = order.filterMap (fun i => p[i]?) ∧ Placed p p.length order := by
  rcases superclassesFirst_cases p with ⟨order, hok, hplaced⟩ | ⟨j, herror, -⟩
  · rw [h] at hok
    cases hok
    exact ⟨order, rfl, hplaced⟩
  · rw [h] at herror
    cases herror

/-- A superclass that is declared comes first. -/
theorem Program.superclass_before (h : p.superclassesFirst = .ok q) (hd : front ++ [d] <+: q)
    (hs : d.superclass = some s) (hdeclared : ∃ e ∈ p, e.name = s) : ∃ e ∈ front, e.name = s := by
  obtain ⟨order, rfl, hplaced⟩ := exists_placed h
  obtain ⟨back, hq⟩ := hd
  rw [List.append_assoc, List.singleton_append, eq_comm, List.filterMap_eq_append_iff] at hq
  obtain ⟨l₁, l, rfl, rfl, hl⟩ := hq
  obtain ⟨skipped, i, l₂, rfl, hskipped, hi, -⟩ := List.filterMap_eq_cons_iff.mp hl
  obtain ⟨e, he, rfl⟩ := hdeclared
  obtain ⟨j, hj⟩ := exists_indexOf? he
  obtain ⟨e', he', hname⟩ := exists_of_indexOf? hj
  have hsuper : p.HasSuper i j := by
    rw [HasSuper, superIndex?, hi, Option.bind_eq_bind, Option.bind_some, hs]
    exact hj
  have hmem := hplaced.closed (l₁ ++ skipped) i l₂ (List.append_assoc ..).symm j hsuper
  rcases List.mem_append.mp hmem with hmem | hmem
  · exact ⟨e', List.mem_filterMap.mpr ⟨j, hmem, he'⟩, hname⟩
  · rw [hskipped j hmem] at he'
    cases he'

/-- A superclass that a class names comes first, if the program provides it. -/
theorem Program.named_before (h : p.elaborationOrder = .ok ds) (hd : front ++ [d] <+: ds)
    (hs : d.superclass = some s) (hprovides : p.Provides s) : ∃ e ∈ front, e.name = s := by
  rcases elaborationOrder_cases h with ⟨hroot, hq⟩ | ⟨hroot, q, hq, rfl⟩
  · exact superclass_before hq hd hs ((provides_of_root hroot).mp hprovides)
  · cases front with
    | nil =>
      obtain ⟨rfl, -⟩ := List.cons_prefix_cons.mp hd
      cases hs
    | cons e front =>
      obtain ⟨rfl, hrest⟩ := List.cons_prefix_cons.mp hd
      rcases (provides_of_no_root hroot).mp hprovides with rfl | hdeclared
      · exact ⟨_, .head _, rfl⟩
      · obtain ⟨e, he, hname⟩ := superclass_before hq hrest hs hdeclared
        exact ⟨e, .tail _ he, hname⟩

theorem SupersFirst.of_root (h : p.elaborationOrder = .ok ds)
    (hroot : ∀ front d, front ++ [d] <+: ds → d.name ≠ rootName → ∃ e ∈ front, e.name = rootName) :
    SupersFirst p ds := by
  refine ⟨hroot, fun front d s hd hs hprovides => ?_⟩
  rcases superName?_cases hs with hs | ⟨-, hname, rfl⟩
  · exact Program.named_before h hd hs hprovides
  · exact hroot front d hd hname

/-- A list whose first class is the root. -/
theorem root_before (he : e.name = rootName) (hd : front ++ [d] <+: e :: q) (hname : d.name ≠ rootName) :
    ∃ e ∈ front, e.name = rootName := by
  cases front with
  | nil =>
    obtain ⟨rfl, -⟩ := List.cons_prefix_cons.mp hd
    exact absurd he hname
  | cons e' front =>
    obtain ⟨rfl, -⟩ := List.cons_prefix_cons.mp hd
    exact ⟨_, .head _, he⟩

/-- The order begins with the furthest ancestor of the first class. -/
theorem Program.Placed.foremost {i : Nat} {order : List Nat} (h : Placed p p.length (i :: order)) :
    Relation.ReflTransGen p.HasSuper 0 i ∧ p.superIndex? i = none := by
  refine ⟨?_, Option.eq_none_iff_forall_ne_some.mpr (fun j hj => ?_)⟩
  · obtain ⟨k, hk, hneeded⟩ := h.needed i (.head _)
    rcases List.mem_cons.mp (h.done 0 (Nat.zero_lt_of_lt hk)) with rfl | hzero
    · exact .refl
    · rcases Nat.eq_zero_or_pos i with rfl | hpos
      · exact .refl
      · obtain ⟨k, hk, hanc⟩ := List.rel_of_pairwise_cons h.stable hzero hpos
        obtain rfl := Nat.le_zero.mp hk
        exact hanc.to_reflTransGen
  · exact absurd (h.closed [] i order rfl j hj) List.not_mem_nil

theorem Program.hasSuper_rightUnique (p : Program) : Relator.RightUnique p.HasSuper :=
  fun _ _ _ h h' => Option.some.inj (h.symm.trans h')

/-- A class without a superclass is its only ancestor. -/
theorem Program.eq_of_reaches {i j : Nat} (htop : p.superIndex? i = none) (h : Relation.ReflTransGen p.HasSuper i j) :
    i = j := by
  rcases Relation.ReflTransGen.cases_head h with heq | ⟨k, hk, -⟩
  · exact heq
  · rw [HasSuper, htop] at hk
    cases hk

theorem Program.foremost_iff (hq : p.superclassesFirst = .ok q) : p.Foremost d ↔ q.head? = some d := by
  obtain ⟨order, rfl, hplaced⟩ := exists_placed hq
  cases order with
  | nil =>
    refine iff_of_false ?_ (by simp)
    rintro ⟨i, -, -, hi⟩
    exact List.not_mem_nil (hplaced.done i (List.getElem?_eq_some_iff.mp hi).1)
  | cons i order =>
    obtain ⟨hreach, htop⟩ := hplaced.foremost
    have hlt : i < p.length := List.mem_range.mp (hplaced.perm.mem_iff.mp (.head _))
    rw [List.filterMap_cons_some (List.getElem?_eq_getElem hlt), List.head?_cons, Option.some_inj]
    constructor
    · rintro ⟨j, hreach', htop', hj⟩
      obtain rfl : i = j := by
        rcases Relation.ReflTransGen.total_of_right_unique p.hasSuper_rightUnique hreach hreach' with h | h
        · exact eq_of_reaches htop h
        · exact (eq_of_reaches htop' h).symm
      exact Option.some.inj ((List.getElem?_eq_getElem hlt).symm.trans hj)
    · rintro rfl
      exact ⟨i, hreach, htop, List.getElem?_eq_getElem hlt⟩

/-- The order is the one that elaboration needs if and only if the root leads. -/
theorem supersFirst_iff (h : p.elaborationOrder = .ok ds) : SupersFirst p ds ↔ p.RootLeads := by
  rcases Program.elaborationOrder_cases h with ⟨hroot, hq⟩ | ⟨hroot, q, -, rfl⟩
  · constructor
    · intro hfirst _
      cases ds with
      | nil =>
        obtain ⟨d, hd, -⟩ := hroot
        exact absurd (Program.mem_superclassesFirst hq hd) List.not_mem_nil
      | cons e q =>
        refine ⟨e, (Program.foremost_iff hq).mpr rfl, ?_⟩
        by_contra hname
        obtain ⟨_, hmem, -⟩ := hfirst.root [] e (List.prefix_append [e] q) hname
        exact absurd hmem List.not_mem_nil
    · intro hleads
      obtain ⟨e, he, hname⟩ := hleads hroot
      obtain ⟨q, rfl⟩ := List.head?_eq_some_iff.mp ((Program.foremost_iff hq).mp he)
      exact .of_root h (fun front d hd => root_before hname hd)
  · exact ⟨fun _ hdeclared => absurd hdeclared hroot, fun _ => .of_root h (fun front d hd => root_before rfl hd)⟩

end Order

/-! ### Native code -/

/-- Native code that registers no classes, and takes none away. -/
def Natives.LeaveClasses (natives : Natives) : Prop :=
  ∀ key native r r', natives.get? key = some native → native.call r = .ok () r' →
    ∀ x c, r'.env.findClass x = .ok c ↔ r.env.findClass x = .ok c

theorem Natives.leaveClasses_empty : Natives.empty.LeaveClasses := by
  intro key native r r' h
  cases h

/-- The second step does what the first does, or it calls native code that is missing to the first. -/
def Supplies (natives : Natives) (x y : Step Unit) : Prop :=
  ∀ r, y r = x r ∨ ∃ key native r₀, natives.get? key = some native ∧ x r = .error (.noNative key) r₀ ∧
    y r = native.call r₀

section Natives

variable {natives : Natives} {α : Type} {x : Step Unit}

theorem Supplies.refl (natives : Natives) (x : Step Unit) : Supplies natives x x := fun _ => .inl rfl

theorem Supplies.bind (x : Step α) {f g : α → Step Unit} (h : ∀ a, Supplies natives (f a) (g a)) :
    Supplies natives (x >>= f) (x >>= g) := by
  intro r
  show EStateM.bind x g r = EStateM.bind x f r ∨ ∃ key native r₀, natives.get? key = some native ∧
    EStateM.bind x f r = .error (.noNative key) r₀ ∧ EStateM.bind x g r = native.call r₀
  unfold EStateM.bind
  cases x r with
  | ok a r' => exact h a r'
  | error e r' => exact .inl rfl

theorem Supplies.ite {c : Prop} [Decidable c] {x' y y' : Step Unit} (h : Supplies natives x x')
    (h' : Supplies natives y y') : Supplies natives (if c then x else y) (if c then x' else y') := by
  split
  · exact h
  · exact h'

theorem supplies_callNative (natives : Natives) (k : Closure) :
    Supplies natives (callNative Natives.empty k) (callNative natives k) := by
  refine .bind _ (fun _ r => ?_)
  cases hget : natives.get? k.nativeName with
  | none => exact .inl rfl
  | some native => exact .inr ⟨_, native, r, hget, rfl, rfl⟩

theorem supplies_enter (natives : Natives) (k : Closure) :
    Supplies natives (enter Natives.empty k) (enter natives k) := by
  unfold enter
  split
  · exact .refl _ _
  · split
    · exact supplies_callNative natives k
    · exact .refl _ _

/-- With native code a step does what it does without, or it calls native code. -/
theorem supplies_perform (natives : Natives) (i : Item) :
    Supplies natives (perform Natives.empty i) (perform natives i) := by
  cases i with
  | invoke n =>
    refine .bind _ (fun args => .bind _ (fun k => .ite ?_ ?_))
    · exact fun _ => .inl rfl
    · refine .bind _ (fun f => .bind _ (fun _ => .bind _ (fun found => .bind _ (fun _ => ?_))))
      obtain ⟨object, args⟩ := found
      cases object with
      | some object => exact .bind _ (fun _ => .bind _ (fun _ => supplies_enter natives k))
      | none => exact .bind _ (fun _ => supplies_enter natives k)
  | _ => exact .refl _ _

end Natives

/-! ### What waits on control -/

/-- The class that an item declares. -/
def Item.declared? : Item → Option ClassDecl
  | .classDecl d => some d
  | _ => none

/-- The classes that wait on control to be declared. -/
def queued (c : List Item) : List ClassDecl := c.filterMap Item.declared?

section Queued

variable {g : Regime} {b : Base} {c K : List Item} {s : List StashItem} {env : Environment} {p : Program}
  {natives : Natives} {m m₁ : Machine} {i : Item} {r : Registers} {out : List String}

@[simp] theorem queued_append (c K : List Item) : queued (c ++ K) = queued c ++ queued K :=
  List.filterMap_append

@[simp] theorem queued_classDecls (ds : List ClassDecl) : queued (ds.map .classDecl) = ds := by
  rw [queued, List.filterMap_map]
  exact List.filterMap_some

@[simp] theorem queued_callables (ks : List Callable) : queued (ks.map Callable.item) = [] := by
  rw [queued, List.filterMap_map, List.filterMap_eq_nil_iff]
  intro k _
  cases k <;> rfl

@[simp] theorem queued_fields (fds : List FieldDecl) : queued (fds.map .field) = [] := by
  rw [queued, List.filterMap_map, List.filterMap_eq_nil_iff]
  exact fun _ _ => rfl

/-- Code begins neither with a program nor with a class. -/
theorem not_flows {l : Level} {f : FrameId} {σ : List Kind} (hi : (∃ q, i = .program q) ∨ ∃ d, i = .classDecl d) :
    ¬ Flows g b (i :: c) l f σ := by
  intro h
  rcases hi with ⟨q, rfl⟩ | ⟨d, rfl⟩
  all_goals
    cases l with
    | pending left all => cases left <;> exact h.elim
    | _ => exact h.elim

/-- Code declares no classes. -/
theorem queued_of_flows {l : Level} {f : FrameId} {σ : List Kind} (h : Flows g b c l f σ) : queued c = [] := by
  refine List.filterMap_eq_nil_iff.mpr (fun i hi => ?_)
  cases i with
  | classDecl d => exact absurd hi (h.notMem (fun _ _ _ _ => not_flows (.inr ⟨d, rfl⟩)))
  | _ => rfl

theorem queued_of_track (h : OnTrack g b c s env) : queued c = [] := by
  obtain ⟨l, σ, -, hflows, -⟩ := h
  exact queued_of_flows hflows

/-- A step of code leaves alone what waits. -/
theorem queued_of_code (hneutral : natives.Neutral) (hsound : Sound .loose env) (hb : ∀ f, b ≠ .statement f)
    (ht : OnTrack .loose b (i :: c) s env)
    (hperform : perform natives i ⟨c ++ K, s, env, out⟩ = .ok () r) : queued r.control = queued (c ++ K) := by
  have hgoes := @perform_goes _ _ K _ [] _ _ out _ hneutral False.elim hsound False.elim _ (fun _ _ => trivial) ht
  rw [List.append_nil] at hgoes
  have hnone : queued [i] ++ queued c = [] := (queued_append [i] c).symm.trans (queued_of_track ht)
  rw [queued_append, (List.append_eq_nil_iff.mp hnone).2]
  rcases hgoes.of_ok hperform with ⟨-, c', s', hcontrol, -, htrack⟩ | ⟨j, -, ⟨f, hf⟩, -⟩
  · rw [hcontrol, queued_append, queued_of_track htrack]
  · exact absurd hf (hb f)

theorem bindCallable_control (k : Callable) (r : Registers) :
    Ends (bindCallable k) r (fun _ r' => r'.control = r.control) (fun _ _ => True) := by
  simp only [bindCallable, ends_bind, ends_get, ends_defineClosure]
  exact ⟨fun _ => trivial, fun _ => trivial⟩

/-- A step of declarations declares no class but the one that it performs. -/
theorem queued_of_declares (hneutral : natives.Neutral) (hsound : Sound .loose env) {careful : Prop}
    (hd : Declares careful env.current (i :: c)) (hi : ∀ d, i ≠ .classDecl d)
    (hperform : perform natives i ⟨c, [], env, out⟩ = .ok () r) : queued r.control = queued c := by
  cases i with
  | expr e =>
    cases hd
    have ht : OnTrack .loose (.value env.current) [.expr e] [] env := ⟨.value, [], trivial, .inl ⟨rfl, rfl⟩, .nil⟩
    exact queued_of_code (K := []) hneutral hsound (by simp) ht hperform
  | classDecl d => exact absurd rfl (hi d)
  | method k => exact congrArg queued ((bindCallable_control (.method k) _).of_ok hperform)
  | constructor k => exact congrArg queued ((bindCallable_control (.constructor k) _).of_ok hperform)
  | field fd =>
    rcases (declareStatic_queues fd).of_ok hperform with ⟨fds, rfl⟩ | ⟨-, c', s', hcontrol, -, htrack⟩
    · rw [queued_append, queued_fields, List.nil_append]
    · rw [hcontrol, queued_append, queued_of_track htrack, List.nil_append]
  | restore f =>
    cases hperform
    rfl
  | _ => exact hd.elim

/-- Classes wait until they are declared. -/
theorem Machine.Next.queued (hneutral : natives.Neutral) (hm : Reached natives p m) (hnext : Next natives m m₁)
    (hc : m.registers.control = i :: c) (hprogram : ∀ q, i ≠ .program q) (hi : ∀ d, i ≠ .classDecl d) :
    queued m₁.registers.control = queued c := by
  have hsound := sound_of_reached hneutral hm
  have hphase := phase_of_reached hneutral hm
  obtain ⟨⟨control, stash, env, out⟩, steps⟩ := m
  cases hc
  obtain ⟨_, _, hc, hperform, -⟩ := next_iff.mp hnext
  cases hc
  rcases hphase with ⟨hc, -, -⟩ | ⟨rfl, hd, -⟩ | ⟨c', below, f, hc, ht, hd, -, -⟩ | ⟨f, ht, -⟩
  · cases hc
    exact absurd rfl (hprogram p)
  · exact queued_of_declares hneutral hsound hd hi hperform
  · cases c' with
    | nil =>
      rcases ht.nil with ⟨f', hf', -⟩ | ⟨f', hf' | hf', hcurrent, rfl⟩
      · cases hf'
      · cases hf'
      · cases hf'
        replace hc : i :: c = below := hc
        subst hc
        exact queued_of_declares hneutral hsound (hcurrent ▸ hd) hi hperform
    | cons i' c' =>
      cases hc
      exact queued_of_code hneutral hsound (by simp) ht hperform
  · rw [← List.append_nil c] at hperform ⊢
    exact queued_of_code hneutral hsound (by simp) ht hperform

end Queued

/-! ### What is registered -/

section Registered

variable {natives : Natives} {m m₁ : Machine} {i : Item} {c : List Item} {x : String}

/-- Classes are registered by their declarations only. -/
theorem Machine.Next.findClass (hnatives : natives.LeaveClasses) (hnext : Next natives m m₁)
    (hc : m.registers.control = i :: c) (hi : ∀ d, i ≠ .classDecl d) {k : Class} :
    m₁.registers.env.findClass x = .ok k ↔ m.registers.env.findClass x = .ok k := by
  have hperform := hnext.perform hc
  rcases supplies_perform natives i { m.registers with control := c } with
    hsame | ⟨key, native, r₀, hget, hmissing, hcall⟩
  · have houtcome := (perform_outcome i _).of_ok (hsame.symm.trans hperform)
    rcases houtcome with ⟨-, hmoves⟩ | ⟨b, -, hfree, hr⟩ | ⟨d, _, _, _, hd, -⟩
    · exact hmoves.env.lasts.findClass
    · have hhere : m.registers.env.bindsHere b.descriptor = false := bindsHere_eq_false.mpr hfree
      rw [hr]
      exact findClass_addClosure (k := ⟨b, m.registers.env.current, m.registers.env.currentName⟩) hhere
    · exact absurd hd (hi d)
  · rw [hcall] at hperform
    exact (hnatives key native r₀ _ hget hperform x k).trans ((perform_outcome i _).of_error hmissing).lasts.findClass

/-- At first no class is registered. -/
theorem not_findClass_initial (x : String) : ¬ ∃ k, Environment.initial.findClass x = .ok k := by
  rintro ⟨k, hk⟩
  rw [findClass_eq_ok, bound?_initial] at hk
  cases hk

/-- A class that is declared is registered besides the others. -/
theorem exists_findClass_addClass {env : Environment} {around : FrameId} {name : String} {new : Class}
    (hfree : env.bound? global new.name = none) :
    (∃ k, ((env.extend around name).addClass new).findClass x = .ok k) ↔
      (∃ k, env.findClass x = .ok k) ∨ new.name = x := by
  constructor
  · rintro ⟨k, hk⟩
    rcases bound?_addClass (findClass_eq_ok.mp hk) with hold | ⟨-, rfl, -⟩
    · exact .inl ⟨k, findClass_eq_ok.mpr hold⟩
    · exact .inr rfl
  · rintro (⟨k, hk⟩ | rfl)
    · exact ⟨k, findClass_addClass_of_free hfree hk⟩
    · exact ⟨new, findClass_addClass env around name new⟩

/-- The declaration of a class stops at a superclass that is not registered. -/
theorem elaborateClass_stops {d : ClassDecl} {r : Registers} (hs : d.superName? = some x)
    (hmissing : ¬ ∃ k, r.env.findClass x = .ok k) :
    Ends (elaborateClass d) r (fun _ _ => False) (fun e _ => e = .undeclaredClass x) := by
  rw [elaborateClass, superclassOf, hs]
  simp only [ends_bind, ends_ask, ends_pure]
  exact ⟨fun k hk => absurd ⟨k, hk⟩ hmissing, fun e he => findClass_error he⟩

/-- No other class is ever missing when a class is declared. -/
theorem elaborateClass_misses (d : ClassDecl) (r : Registers) :
    Ends (elaborateClass d) r (fun _ _ => True)
      (fun e _ => ∀ x, e = .undeclaredClass x → d.superName? = some x ∧ ¬ ∃ k, r.env.findClass x = .ok k) := by
  have hsuper : Ends (superclassOf d) r (fun _ _ => True)
      (fun e _ => ∀ x, e = .undeclaredClass x → d.superName? = some x ∧ ¬ ∃ k, r.env.findClass x = .ok k) := by
    unfold superclassOf
    split
    · rename_i s hs
      simp only [ends_bind, ends_ask, ends_pure]
      refine ⟨fun _ _ => trivial, fun e he x hx => ?_⟩
      rw [findClass_error he] at hx
      cases hx
      exact ⟨hs, by simp [he]⟩
    · trivial
  rw [elaborateClass, ends_bind]
  refine hsuper.mono (fun superclass r' _ => ?_) (fun _ _ h => h)
  simp only [ends_bind, ends_here, ends_extend, ends_defineClass, ends_schedule]
  exact ⟨fun _ => trivial, fun _ x hx => by cases hx⟩

end Registered

/-! ### In turn -/

/-- The classes `done` of the order `ds` are registered, each behind its superclass, and the others wait on control. -/
structure InTurn (ds done : List ClassDecl) (r : Registers) : Prop where
  split : ds = done ++ queued r.control
  registered : ∀ x, (∃ k, r.env.findClass x = .ok k) ↔ ∃ d ∈ done, d.name = x
  behind : ∀ front d s, front ++ [d] <+: done → d.superName? = some s → ∃ e ∈ front, e.name = s

section InTurn

variable {p : Program} {natives : Natives} {m m₁ : Machine} {ds done : List ClassDecl} {d : ClassDecl} {i : Item}
  {c : List Item}

theorem inTurn_of_loaded (hds : p.elaborationOrder = .ok ds) (hnext : Next natives m m₁)
    (hc : m.registers.control = [.program p]) (henv : m.registers.env = .initial) :
    (∃ e, p.IsMainCall e ∧ m₁.registers.control = ds.map .classDecl ++ [.expr e]) ∧ InTurn ds [] m₁.registers := by
  have hperform := hnext.perform hc
  obtain ⟨ds', e, hds', he, hr⟩ := (start_queues p _).of_ok hperform
  rw [hds] at hds'
  cases hds'
  have hcontrol : m₁.registers.control = ds.map .classDecl ++ [.expr e] := by rw [hr]
  refine ⟨⟨e, he, hcontrol⟩, ?_, fun x => ?_, by simp⟩
  · rw [hcontrol, queued_append, queued_classDecls]
    exact (List.append_nil ds).symm
  · have henv₁ : m₁.registers.env = .initial := by
      rw [hr]
      exact henv
    rw [henv₁]
    exact iff_of_false (not_findClass_initial x) (by simp)

/-- The first class that waits is declared. -/
theorem InTurn.classDecl (h : InTurn ds done m.registers) (hnext : Next natives m m₁)
    (hc : m.registers.control = .classDecl d :: c) : InTurn ds (done ++ [d]) m₁.registers := by
  have hperform := hnext.perform hc
  obtain ⟨superclass, new, ks, hsuper, rfl, hfree, -, hcontrol, -, henv⟩ := (elaborateClass_ends d _).of_ok hperform
  refine ⟨?_, fun x => ?_, fun front d' s hd' hs => ?_⟩
  · rw [h.split, hc, hcontrol, queued_append, queued_callables, queued_append, queued_fields, List.append_assoc]
    rfl
  · rw [henv, exists_findClass_addClass hfree]
    simp only [List.mem_append, List.mem_singleton, or_and_right, exists_or, exists_eq_left]
    exact or_congr (h.registered x) Iff.rfl
  · rcases List.prefix_concat_iff.mp hd' with heq | hd'
    · obtain ⟨rfl, hlast⟩ := List.append_inj' heq rfl
      cases hlast
      rcases hsuper with ⟨x, k, hx, hk, -⟩ | ⟨hnone, -⟩
      · rw [hs] at hx
        cases hx
        exact (h.registered s).mp ⟨k, hk⟩
      · rw [hs] at hnone
        cases hnone
    · exact h.behind front d' s hd' hs

/-- Any other item leaves the classes as they are. -/
theorem InTurn.keep (hneutral : natives.Neutral) (hnatives : natives.LeaveClasses) (hm : Reached natives p m)
    (h : InTurn ds done m.registers) (hnext : Next natives m m₁) (hc : m.registers.control = i :: c)
    (hprogram : ∀ q, i ≠ .program q) (hi : ∀ d, i ≠ .classDecl d) : InTurn ds done m₁.registers where
  split := by
    rw [h.split, hnext.queued hneutral hm hc hprogram hi, hc]
    cases i with
    | classDecl d => exact absurd rfl (hi d)
    | _ => rfl
  registered := by
    intro x
    rw [← h.registered x]
    exact exists_congr (fun k => hnext.findClass hnatives hc hi)
  behind := h.behind

/-- The only program that is ever on control is the one that has just been loaded. -/
theorem Phase.of_program {g : Regime} {r : Registers} {q : Program} (h : Phase g p r)
    (hc : r.control = .program q :: c) : r.control = [.program p] ∧ r.env = .initial := by
  have htrack : ∀ {g b c s env}, ¬ OnTrack g b (.program q :: c) s env := by
    rintro g b c s env ⟨l, σ, -, hflows, -⟩
    exact not_flows (.inl ⟨q, rfl⟩) hflows
  rcases h with ⟨hc', -, henv⟩ | ⟨-, hd, -⟩ | ⟨c', K, f, hc', ht, hd, -, -⟩ | ⟨f, ht, -⟩
  · exact ⟨hc', henv⟩
  · rw [hc] at hd
    exact hd.elim
  · rw [hc'] at hc
    cases c' with
    | nil =>
      rw [List.nil_append] at hc
      rw [hc] at hd
      exact hd.elim
    | cons i c' =>
      cases hc
      exact absurd ht htrack
  · rw [hc] at ht
    exact absurd ht htrack

/-- One step keeps the classes in turn. -/
theorem InTurn.next (hneutral : natives.Neutral) (hnatives : natives.LeaveClasses)
    (hds : p.elaborationOrder = .ok ds) (hm : Reached natives p m) (h : InTurn ds done m.registers)
    (hnext : Next natives m m₁) : ∃ done', InTurn ds done' m₁.registers := by
  obtain ⟨i, c, hc, -⟩ := next_iff.mp hnext
  cases i with
  | program q =>
    obtain ⟨hc, henv⟩ := (phase_of_reached hneutral hm).of_program hc
    exact ⟨[], (inTurn_of_loaded hds hnext hc henv).2⟩
  | classDecl d => exact ⟨done ++ [d], h.classDecl hnext hc⟩
  | _ => exact ⟨done, h.keep hneutral hnatives hm hnext hc nofun nofun⟩

/-- Once a run has started, its program has a main method, and the classes are in turn. -/
theorem inTurn_of_reached (hneutral : natives.Neutral) (hnatives : natives.LeaveClasses)
    (hds : p.elaborationOrder = .ok ds) (hm : Reached natives p m) :
    m = initial.loadProgram p ∨ (∃ e, p.IsMainCall e) ∧ ∃ done, InTurn ds done m.registers := by
  refine hm.induction (P := fun m => m = initial.loadProgram p ∨ (∃ e, p.IsMainCall e) ∧
    ∃ done, InTurn ds done m.registers) (.inl rfl) (fun m m₁ hm h hnext => .inr ?_)
  rcases h with rfl | ⟨hmain, done, h⟩
  · obtain ⟨⟨e, he, -⟩, hturn⟩ := inTurn_of_loaded hds hnext rfl rfl
    exact ⟨⟨e, he⟩, [], hturn⟩
  · exact ⟨hmain, h.next hneutral hnatives hds hm hnext⟩

end InTurn

/-! ### Classes that fail -/

/-- In a run of the program a class fails for want of a superclass that the program provides. -/
def LacksSuper (natives : Natives) (p : Program) : Prop :=
  ∃ m m' d c x, Reached natives p m ∧ m.registers.control = .classDecl d :: c ∧ p.Provides x ∧
    evaluate natives 1 m = .error (.undeclaredClass x) m'

section LacksSuper

variable {p : Program} {natives : Natives} {ds done : List ClassDecl} {d : ClassDecl} {x : String}

/-- A step that does not end well is a fault of the machine. -/
theorem exists_error (natives : Natives) {m : Machine} {i : Item} {c : List Item} {F : Fault → Prop}
    (hc : m.registers.control = i :: c)
    (h : Ends (perform natives i) { m.registers with control := c } (fun _ _ => False) (fun e _ => F e)) :
    ∃ e m', evaluate natives 1 m = .error e m' ∧ F e := by
  obtain ⟨⟨control, stash, env, out⟩, steps⟩ := m
  cases hc
  cases hperform : perform natives i ⟨c, stash, env, out⟩ with
  | ok _ r => exact (h.of_ok hperform).elim
  | error e r =>
    refine ⟨e, ⟨r, steps⟩, ?_, h.of_error hperform⟩
    rw [evaluate_one_cons, hperform]

/-- A program that has a main method and an order starts. -/
theorem start_succeeds (hds : p.elaborationOrder = .ok ds) {e : Expr} (he : p.IsMainCall e) (r : Registers) :
    Ends (start p) r (fun _ r' => r'.control = ds.map .classDecl ++ .expr e :: r.control ∧ r'.env = r.env)
      (fun _ _ => False) := by
  obtain ⟨main, hmain, rfl⟩ := he
  unfold start
  rw [hmain]
  simp only [ends_bind, ends_ofExcept, ends_schedule]
  refine ⟨fun q hq => ?_, fun e he => ?_⟩
  · rw [Program.elaborationOrder_of_ok hq] at hds
    cases hds
    exact ⟨List.append_assoc .., trivial⟩
  · rw [Program.elaborationOrder, he] at hds
    cases hds

/-- A class that lacks its superclass is the first to be declared, and has no extends clause. -/
theorem InTurn.foremost_of_missing (hds : p.elaborationOrder = .ok ds) {r : Registers} (h : InTurn ds done r)
    (hnext : done ++ [d] <+: ds) (hsuper : d.superName? = some x) (hprovides : p.Provides x)
    (hmissing : ¬ ∃ k, r.env.findClass x = .ok k) : ¬ p.RootLeads ∧ p.Foremost d ∧ d.superclass = none := by
  have hnone : ¬ ∃ e ∈ done, e.name = x := fun hfound => hmissing ((h.registered x).mpr hfound)
  have hleads : ¬ p.RootLeads :=
    fun hleads => hnone (((supersFirst_iff hds).mpr hleads).supers done d x hnext hsuper hprovides)
  refine ⟨hleads, ?_⟩
  rcases superName?_cases hsuper with hs | ⟨hs, -, rfl⟩
  · exact absurd (Program.named_before hds hnext hs hprovides) hnone
  · obtain ⟨hroot, hfar⟩ := Classical.not_imp.mp hleads
    rcases Program.elaborationOrder_cases hds with ⟨-, hq⟩ | ⟨hno, -⟩
    · cases done with
      | nil =>
        obtain ⟨rest, rfl⟩ := hnext
        exact ⟨(Program.foremost_iff hq).mpr rfl, hs⟩
      | cons e done =>
        -- the first class was declared before any other, so it is the root
        have htop : e.superName? = none := by
          refine Option.eq_none_iff_forall_ne_some.mpr (fun s he => ?_)
          obtain ⟨_, hmem, -⟩ := h.behind [] e s (List.prefix_append [e] done) he
          exact List.not_mem_nil hmem
        obtain ⟨rest, rfl⟩ := hnext
        exact absurd ⟨e, (Program.foremost_iff hq).mpr rfl, name_of_superName? htop⟩ hfar
    · exact absurd hroot hno

/-- A class lacks its superclass if and only if the first one to be declared has no extends clause, and is not the root
that the program declares. -/
theorem lacksSuper_iff (hneutral : natives.Neutral) (hnatives : natives.LeaveClasses)
    (hds : p.elaborationOrder = .ok ds) : LacksSuper natives p ↔
      (∃ e, p.IsMainCall e) ∧ ¬ p.RootLeads ∧ ∃ d, p.Foremost d ∧ d.superclass = none := by
  constructor
  · rintro ⟨m, m', d, c, x, hm, hc, hprovides, herror⟩
    obtain ⟨_, _, hc', hperform⟩ := evaluate_one_error herror
    rw [hc] at hc'
    cases hc'
    obtain ⟨hsuper, hmissing⟩ := (elaborateClass_misses d _).of_error hperform x rfl
    rcases inTurn_of_reached hneutral hnatives hds hm with rfl | ⟨hmain, done, hturn⟩
    · cases hc
    · have hnext : done ++ [d] <+: ds := by
        rw [hturn.split, hc]
        exact ⟨queued c, List.append_assoc ..⟩
      obtain ⟨hleads, hfirst⟩ := hturn.foremost_of_missing hds hnext hsuper hprovides hmissing
      exact ⟨hmain, hleads, d, hfirst⟩
  · rintro ⟨⟨e, he⟩, hleads, d, hd, hsuper⟩
    obtain ⟨hroot, hfar⟩ := Classical.not_imp.mp hleads
    rcases Program.elaborationOrder_cases hds with ⟨-, hq⟩ | ⟨hno, -⟩
    · obtain ⟨rest, rfl⟩ := List.head?_eq_some_iff.mp ((Program.foremost_iff hq).mp hd)
      obtain ⟨m, hnext, hcontrol, henv⟩ :=
        exists_next natives (m := initial.loadProgram p) rfl (start_succeeds hds he _)
      have hs : d.superName? = some rootName := by
        rw [ClassDecl.superName?, hsuper]
        exact if_neg (fun hname => hfar ⟨d, hd, hname⟩)
      have hmissing : ¬ ∃ k, m.registers.env.findClass rootName = .ok k := by
        rw [henv]
        exact not_findClass_initial rootName
      obtain ⟨e, m', herror, rfl⟩ := exists_error natives hcontrol (elaborateClass_stops hs hmissing)
      have hprovides := (Program.provides_of_root hroot).mpr hroot
      exact ⟨m, m', d, _, rootName, Reached.start.next hnext, hcontrol, hprovides, herror⟩
    · exact absurd hroot hno

/-- A program in which no class is its own ancestor has an order of elaboration, which starts its run.  Superclasses
that are named come first in it.  All superclasses do if and only if a root that is declared leads; otherwise the run
stops at the first class, for want of the root, unless that class has an extends clause. -/
theorem elaboration_order (hneutral : natives.Neutral) (hnatives : natives.LeaveClasses)
    (hacyclic : ∀ i, ¬ p.HasAncestor i i) : ∃ ds, p.elaborationOrder = .ok ds ∧ ds.Perm p.classes ∧
      (∀ m, Next natives (initial.loadProgram p) m →
        ∃ e, p.IsMainCall e ∧ m.registers.control = ds.map .classDecl ++ [.expr e]) ∧
      (∀ front d s, front ++ [d] <+: ds → d.superclass = some s → p.Provides s → ∃ e ∈ front, e.name = s) ∧
      (SupersFirst p ds ↔ p.RootLeads) ∧
      (LacksSuper natives p ↔ (∃ e, p.IsMainCall e) ∧ ¬ p.RootLeads ∧ ∃ d, p.Foremost d ∧ d.superclass = none) := by
  rcases Program.superclassesFirst_cases p with ⟨order, hq, hplaced⟩ | ⟨j, -, hj⟩
  · have hds := Program.elaborationOrder_of_ok hq
    have hperm := hplaced.perm.filterMap (fun i => p[i]?)
    rw [Program.filterMap_range] at hperm
    refine ⟨_, hds, hperm.append_left _, fun m hnext => ?_, fun front d s => Program.named_before hds,
      supersFirst_iff hds, lacksSuper_iff hneutral hnatives hds⟩
    exact (inTurn_of_loaded hds hnext rfl rfl).1
  · exact absurd hj (hacyclic j)

theorem acyclic_of_ok {q : Program} (hq : p.superclassesFirst = .ok q) (i : Nat) : ¬ p.HasAncestor i i := by
  obtain ⟨order, -, hplaced⟩ := Program.exists_placed hq
  exact hplaced.acyclic i

/-- A source that declares the root behind its main class. -/
def rootSource (clause : String) : String :=
  "class M" ++ clause ++ "\x7bstatic int r; public static void main(String[] a)\x7br=1;\x7d\x7d class Object\x7b\x7d"

/-- The root moves in front of a class that names it. -/
theorem elaboration_order_named : ∃ p ds, Program.parse (rootSource " extends Object") = .ok p ∧
    (∀ i, ¬ p.HasAncestor i i) ∧ p.elaborationOrder = .ok ds ∧ ds.map ClassDecl.name = ["Object", "M"] ∧
    SupersFirst p ds ∧ ¬ LacksSuper Natives.empty p := by
  have hrun : (Program.parse (rootSource " extends Object")).toOption.any (fun p =>
      (p.superclassesFirst).toOption.any (fun q => q.map ClassDecl.name == ["Object", "M"]) &&
      p.any (fun c => c.name == rootName)) = true := by
    rw [Program.parse_eq_parseDecoded?]
    decide +kernel
  obtain ⟨p, hp, hrun⟩ := (Option.any_eq_true _ _).mp hrun
  rw [Bool.and_eq_true, Option.any_eq_true] at hrun
  obtain ⟨⟨q, hq, hnames⟩, hroot⟩ := hrun
  replace hq := eq_ok_of_toOption hq
  obtain ⟨ds, hds, -, -, -, hfirst, hlacks⟩ :=
    elaboration_order Natives.neutral_empty Natives.leaveClasses_empty (acyclic_of_ok hq)
  obtain rfl : q = ds := by
    rcases Program.elaborationOrder_cases hds with ⟨-, hq'⟩ | ⟨hno, -⟩
    · exact Except.ok.inj (hq.symm.trans hq')
    · exact absurd (any_root_iff.mp hroot) hno
  have hnames := beq_iff_eq.mp hnames
  have hleads : p.RootLeads := by
    intro _
    obtain ⟨d, rest, rfl, hname, -⟩ := List.map_eq_cons_iff.mp hnames
    exact ⟨d, (Program.foremost_iff hq).mpr rfl, hname⟩
  exact ⟨p, q, eq_ok_of_toOption hp, acyclic_of_ok hq, hds, hnames, hfirst.mpr hleads,
    fun h => (hlacks.mp h).2.1 hleads⟩

/-- The class that the next step is to declare, by name, and the class that it fails for want of. -/
def lacking? (m : Machine) : Option (String × String) :=
  match m.registers.control, evaluate Natives.empty 1 m with
  | .classDecl d :: _, .error (.undeclaredClass x) _ => some (d.name, x)
  | _, _ => none

theorem of_lacking? {m : Machine} {y : String} (h : lacking? m = some (y, x)) :
    ∃ d c m', d.name = y ∧ m.registers.control = .classDecl d :: c ∧
      evaluate Natives.empty 1 m = .error (.undeclaredClass x) m' := by
  unfold lacking? at h
  split at h
  · rename_i d c x' m' hc herror
    cases h
    exact ⟨d, c, m', rfl, hc, herror⟩
  · cases h

/-- The root stays behind a class that does not name it, and that class fails for want of it. -/
theorem root_stays_behind : ∃ p ds, Program.parse (rootSource "") = .ok p ∧ (∀ i, ¬ p.HasAncestor i i) ∧
    p.elaborationOrder = .ok ds ∧ ds.map ClassDecl.name = ["M", "Object"] ∧ ¬ SupersFirst p ds ∧
    LacksSuper Natives.empty p := by
  have hrun : (Program.parse (rootSource "")).toOption.any (fun p =>
      (p.superclassesFirst).toOption.any (fun q => q.map ClassDecl.name == ["M", "Object"]) &&
      p.any (fun c => c.name == rootName) &&
      ((initial.loadProgram p).after? Natives.empty 1).any (fun m => lacking? m == some ("M", "Object"))) = true := by
    rw [Program.parse_eq_parseDecoded?]
    decide +kernel
  obtain ⟨p, hp, hrun⟩ := (Option.any_eq_true _ _).mp hrun
  rw [Bool.and_eq_true, Bool.and_eq_true, Option.any_eq_true, Option.any_eq_true] at hrun
  obtain ⟨⟨⟨q, hq, hnames⟩, hroot⟩, m, hm, hlacking⟩ := hrun
  replace hq := eq_ok_of_toOption hq
  have hroot := any_root_iff.mp hroot
  have hnames := beq_iff_eq.mp hnames
  obtain ⟨d, c, m', -, hc, herror⟩ := of_lacking? (beq_iff_eq.mp hlacking)
  have hds : p.elaborationOrder = .ok q := by
    rw [Program.elaborationOrder_of_ok hq, if_pos (any_root_iff.mpr hroot), List.nil_append]
  refine ⟨p, q, eq_ok_of_toOption hp, acyclic_of_ok hq, hds, hnames, fun hfirst => ?_, m, m', d, c, "Object",
    ⟨1, after?_eq_some.mp hm⟩, hc, (Program.provides_of_root hroot).mpr hroot, herror⟩
  obtain ⟨e, rest, rfl, hname, -⟩ := List.map_eq_cons_iff.mp hnames
  obtain ⟨_, hmem, -⟩ := hfirst.root [] e (List.prefix_append [e] rest) (by rw [hname]; decide)
  exact List.not_mem_nil hmem

end LacksSuper

end StashMachine
