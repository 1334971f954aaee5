import StashMachine.Proofs.Store
import StashMachine.Proofs.StepLogic

/-!
# StashMachine.Proofs.Objects — the frame of a new object

The fields of a new object are bound one by one, until one of them is refused.

* `Class.repeatedField?`: the first field of the lineage whose name is taken already.
* `declareAll_fst`, `exists_declareAll`: what binding variables one by one comes to, and what it leaves.
* `fst_instantiate`, `snd_instantiate`, `exists_instantiate`: the same for the fields of an object.
* `Step.new_ends`: how the step that makes an object ends.
-/

namespace StashMachine

open Environment

/-! ### Names that are taken -/

namespace Class

/-- The first name of a list that is among `seen` or repeats an earlier one. -/
def repeated? (seen : List String) : List String → Option String
  | [] => none
  | x :: xs => if seen.contains x then some x else repeated? (x :: seen) xs

/-- The first instance field of the lineage whose name is taken already. -/
def repeatedField? (c : Class) : Option String := repeated? [] (c.allInstanceVars.map Prod.fst)

theorem repeated?_eq_none {seen xs : List String} :
    repeated? seen xs = none ↔ xs.Nodup ∧ ∀ x ∈ xs, x ∉ seen := by
  induction xs generalizing seen with
  | nil => simp [repeated?]
  | cons x xs ih =>
    rw [repeated?]
    by_cases hx : x ∈ seen
    · rw [if_pos (List.contains_iff_mem.mpr hx)]
      exact iff_of_false nofun (fun h => h.2 x (.head _) hx)
    · rw [if_neg (fun h => hx (List.contains_iff_mem.mp h)), ih, List.nodup_cons]
      constructor
      · rintro ⟨hnodup, hseen⟩
        refine ⟨⟨fun hmem => hseen x hmem (.head _), hnodup⟩, fun y hy => ?_⟩
        rcases List.mem_cons.mp hy with rfl | hy
        · exact hx
        · exact fun hmem => hseen y hy (.tail _ hmem)
      · rintro ⟨⟨hfresh, hnodup⟩, hseen⟩
        refine ⟨hnodup, fun y hy hmem => ?_⟩
        rcases List.mem_cons.mp hmem with rfl | hmem
        · exact hfresh hy
        · exact hseen y (.tail _ hy) hmem

/-- No field is refused if and only if no name of the fields occurs twice. -/
theorem repeatedField?_eq_none {c : Class} :
    c.repeatedField? = none ↔ (c.allInstanceVars.map Prod.fst).Nodup := by
  rw [repeatedField?, repeated?_eq_none]
  exact and_iff_left (fun _ _ => List.not_mem_nil)

end Class

namespace Environment

variable {env : Environment}

/-! ### Variables bound one by one -/

theorem declare_of_bindsHere {v : Variable} (h : env.bindsHere v.name = true) :
    env.declare v = .error (.redeclaration v.name) := by
  rw [declare, checkFree, if_pos h]
  rfl

theorem declare_of_not_bindsHere {v : Variable} (h : env.bindsHere v.name = false) :
    env.declare v = .ok (env.addVariable v) := by
  rw [declare, checkFree, if_neg (Bool.eq_false_iff.mp h)]
  rfl

/-- The variables up to the refused one are bound, and all of them if none is. -/
theorem exists_declareAll (env : Environment) (vs : List Variable) : ∃ front, front <+: vs ∧
    (env.declareAll vs).2 = env.addVariables front ∧ ((env.declareAll vs).1 = .ok () → front = vs) := by
  induction vs generalizing env with
  | nil => exact ⟨[], List.prefix_refl _, rfl, fun _ => rfl⟩
  | cons v vs ih =>
    rw [declareAll]
    cases hv : env.bindsHere v.name with
    | true =>
      rw [declare_of_bindsHere hv]
      exact ⟨[], List.nil_prefix, rfl, nofun⟩
    | false =>
      rw [declare_of_not_bindsHere hv]
      obtain ⟨front, hfront, henv, hall⟩ := ih (env.addVariable v)
      exact ⟨v :: front, List.cons_prefix_cons.mpr ⟨rfl, hfront⟩, henv, fun h => congrArg (v :: ·) (hall h)⟩

/-- The first name that is bound already, before the first variable or by one of them, is refused. -/
theorem declareAll_fst (hsize : env.current < env.frames.size) {seen : List String}
    (hseen : ∀ x, env.bindsHere x = seen.contains x) (vs : List Variable) :
    (env.declareAll vs).1 = match Class.repeated? seen (vs.map Variable.name) with
      | some x => .error (.redeclaration x)
      | none => .ok () := by
  induction vs generalizing env seen with
  | nil => rfl
  | cons v vs ih =>
    rw [declareAll, List.map_cons, Class.repeated?, ← hseen]
    cases hv : env.bindsHere v.name with
    | true =>
      rw [declare_of_bindsHere hv]
      rfl
    | false =>
      rw [declare_of_not_bindsHere hv, if_neg Bool.false_ne_true]
      have hsize' : (env.addVariable v).current < (env.addVariable v).frames.size := by
        rw [addVariable, addBinding, Array.size_modify]
        exact hsize
      refine ih hsize' (fun x => ?_)
      -- the new frame binds the new name and the ones before it
      rw [List.contains_cons, ← hseen]
      show ((env.addVariable v).bound? env.current x).isSome = (x == v.name || (env.bound? env.current x).isSome)
      rw [bound?_addVariable]
      by_cases hx : x = v.name
      · rw [if_pos ⟨rfl, hsize, hx⟩, hx, beq_self_eq_true]
        rfl
      · rw [if_neg (fun h => hx h.2.2), beq_eq_false_iff_ne.mpr hx]
        rfl

/-! ### The fields of an object -/

theorem map_name_freshField (c : Class) :
    (c.allInstanceVars.map freshField).map Variable.name = c.allInstanceVars.map Prod.fst := by
  rw [List.map_map]
  rfl

/-- The frame of a new object takes every name once. -/
theorem declareFields_fst (env : Environment) (c : Class) :
    ((env.createObject c).2.declareAll (c.allInstanceVars.map freshField)).1 = match c.repeatedField? with
      | some x => .error (.redeclaration x)
      | none => .ok () := by
  rw [Class.repeatedField?, ← map_name_freshField]
  refine declareAll_fst ?_ (fun x => ?_) _
  · show env.frames.size < (env.frames.push _).size
    rw [Array.size_push]
    exact Nat.lt_succ_self _
  · have hnew : (env.extend c.frame objectFrame).bound? env.frames.size x = none := by
      rw [bound?_extend, bound?_eq_none_of_size_le (Nat.le_refl _)]
    exact bindsHere_eq_false.mpr hnew

/-- An object is made unless a name of its fields is repeated. -/
theorem fst_instantiate (env : Environment) (c : Class) :
    (env.instantiate c).1 = match c.repeatedField? with
      | some x => .error (.redeclaration x)
      | none => .ok (.object c env.frames.size) := by
  show ((env.createObject c).2.declareAll _).1.map (fun _ => (env.createObject c).1) = _
  rw [declareFields_fst]
  cases c.repeatedField? <;> rfl

/-- Either way the frame has been made, and the fields up to the refused one are bound in it. -/
theorem exists_instantiate (env : Environment) (c : Class) :
    ∃ front, front <+: c.allInstanceVars.map freshField ∧ (env.instantiate c).2 =
      ((env.extend c.frame objectFrame).addVariables front).restore env.current := by
  obtain ⟨front, hfront, henv, -⟩ := exists_declareAll (env.createObject c).2 (c.allInstanceVars.map freshField)
  exact ⟨front, hfront, congrArg (fun env' : Environment => env'.restore env.current) henv⟩

/-- The frame of an object that is made has all fields. -/
theorem snd_instantiate {c : Class} (h : c.repeatedField? = none) : (env.instantiate c).2 =
    ((env.extend c.frame objectFrame).addVariables (c.allInstanceVars.map freshField)).restore env.current := by
  obtain ⟨front, -, henv, hall⟩ := exists_declareAll (env.createObject c).2 (c.allInstanceVars.map freshField)
  rw [hall (by rw [declareFields_fst, h])] at henv
  exact congrArg (fun env' : Environment => env'.restore env.current) henv

@[simp] theorem current_instantiate (c : Class) : (env.instantiate c).2.current = env.current := rfl

theorem Lasts.instantiate (env : Environment) (c : Class) : Lasts env (env.instantiate c).2 := by
  obtain ⟨front, -, henv⟩ := exists_instantiate env c
  rw [henv]
  exact (((refl env).extend c.frame objectFrame).addVariables _ (Nat.le_refl _)).restore _

end Environment

/-- The step that makes an object looks up the class, and pushes an object with all its fields unless the lineage
repeats one; it then leaves the frame of the object behind. -/
theorem Step.new_ends (x : String) (r : Registers) : Ends (Step.new x) r
    (fun _ r' => ∃ c, r.env.findClass x = .ok c ∧ c.repeatedField? = none ∧ r' =
      { r with stash := .value (.object c r.env.frames.size) :: r.stash, env := (r.env.instantiate c).2 })
    (fun e r' => r.env.findClass x = .error e ∧ r' = r ∨
      ∃ c y, r.env.findClass x = .ok c ∧ c.repeatedField? = some y ∧ e = .redeclaration y ∧
        r' = { r with env := (r.env.instantiate c).2 }) := by
  simp only [Step.new, ends_bind, ends_ask, ends_useEnv, ends_ofExcept, ends_pushValue]
  refine ⟨fun c hfind => ?_, fun e hfind => .inl ⟨hfind, trivial⟩⟩
  rw [fst_instantiate]
  cases hrepeated : c.repeatedField? with
  | none =>
    refine ⟨fun v hv => ?_, fun e he => ?_⟩
    · cases hv
      exact ⟨c, hfind, hrepeated, rfl⟩
    · cases he
  | some y =>
    refine ⟨fun v hv => ?_, fun e he => ?_⟩
    · cases hv
    · cases he
      exact .inr ⟨c, y, hfind, hrepeated, rfl, rfl⟩

end StashMachine
