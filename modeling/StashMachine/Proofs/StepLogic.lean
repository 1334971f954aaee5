import StashMachine.Machine.Run

/-!
# StashMachine.Proofs.StepLogic — a small program logic for steps

`Step.Ends x r Q F` says how the step `x` ends when it is started in the registers `r`: with a result
and registers that satisfy `Q`, or with a fault and registers that satisfy `F`.

* One rule for each way steps are put together: `ends_bind`, `ends_ite`, `ends_ask`, ….
* One rule for each move of the registers: `ends_schedule`, `ends_push`, `ends_pop`, ….
* `Ends.mono`, `Ends.and`, `Ends.of_ok`, `Ends.of_error`: using what is known about a step.
-/

namespace StashMachine
namespace Step

variable {α β : Type} {r : Registers} {F : Fault → Registers → Prop}

/-- `x` started in `r` ends with a result that satisfies `Q` or with a fault that satisfies `F`. -/
def Ends (x : Step α) (r : Registers) (Q : α → Registers → Prop) (F : Fault → Registers → Prop) :
    Prop :=
  match x r with
  | .ok a r' => Q a r'
  | .error e r' => F e r'

/-! ### Using what is known about a step -/

section Use

variable {x : Step α} {Q Q' : α → Registers → Prop} {F' : Fault → Registers → Prop}

theorem Ends.mono (h : Ends x r Q F) (hQ : ∀ a r', Q a r' → Q' a r')
    (hF : ∀ e r', F e r' → F' e r') : Ends x r Q' F' := by
  unfold Ends at h ⊢
  split at h
  · exact hQ _ _ h
  · exact hF _ _ h

theorem Ends.and (h : Ends x r Q F) (h' : Ends x r Q' F') :
    Ends x r (fun a r' => Q a r' ∧ Q' a r') (fun e r' => F e r' ∧ F' e r') := by
  unfold Ends at h h' ⊢
  cases hx : x r <;> simp only [hx] at h h' ⊢ <;> exact ⟨h, h'⟩

theorem Ends.of_ok (h : Ends x r Q F) {a : α} {r' : Registers} (hx : x r = .ok a r') : Q a r' := by
  simpa only [Ends, hx] using h

theorem Ends.of_error (h : Ends x r Q F) {e : Fault} {r' : Registers} (hx : x r = .error e r') :
    F e r' := by
  simpa only [Ends, hx] using h

end Use

/-! ### Putting steps together -/

@[simp] theorem ends_pure {Q : α → Registers → Prop} (a : α) : Ends (pure a) r Q F ↔ Q a r := Iff.rfl

@[simp] theorem ends_throw {Q : α → Registers → Prop} (e : Fault) :
    Ends (throw e) r Q F ↔ F e r := Iff.rfl

@[simp] theorem ends_bind {Q : α → Registers → Prop} (x : Step β) (f : β → Step α) :
    Ends (x >>= f) r Q F ↔ Ends x r (fun a r' => Ends (f a) r' Q F) F := by
  unfold Ends
  simp only [bind, EStateM.bind]
  cases x r <;> rfl

@[simp] theorem ends_map {Q : α → Registers → Prop} (f : β → α) (x : Step β) :
    Ends (f <$> x) r Q F ↔ Ends x r (fun a r' => Q (f a) r') F := by
  unfold Ends
  simp only [Functor.map, EStateM.map]
  cases x r <;> rfl

@[simp] theorem ends_get {Q : Registers → Registers → Prop} : Ends get r Q F ↔ Q r r := Iff.rfl

theorem get_bind (f : Registers → Step α) (r : Registers) : (get >>= f) r = f r r := rfl

@[simp] theorem ends_set {Q : PUnit → Registers → Prop} (r' : Registers) :
    Ends (set r') r Q F ↔ Q ⟨⟩ r' := Iff.rfl

@[simp] theorem ends_modify {Q : PUnit → Registers → Prop} (f : Registers → Registers) :
    Ends (modify f) r Q F ↔ Q ⟨⟩ (f r) := Iff.rfl

@[simp] theorem ends_ite {Q : α → Registers → Prop} (c : Prop) [Decidable c] (x y : Step α) :
    Ends (if c then x else y) r Q F ↔ (c → Ends x r Q F) ∧ (¬ c → Ends y r Q F) := by
  by_cases h : c <;> simp [h]

@[simp] theorem ends_ofExcept {Q : α → Registers → Prop} (x : Except Fault α) :
    Ends (ofExcept x) r Q F ↔ (∀ a, x = .ok a → Q a r) ∧ ∀ e, x = .error e → F e r := by
  cases x <;> simp [ofExcept]

@[simp] theorem ends_ask {Q : α → Registers → Prop} (f : Environment → Except Fault α) :
    Ends (ask f) r Q F ↔ (∀ a, f r.env = .ok a → Q a r) ∧ ∀ e, f r.env = .error e → F e r := by
  simp [ask]

/-! ### Moves of the registers -/

@[simp] theorem ends_changeEnv {Q : Unit → Registers → Prop} (f : Environment → Environment) :
    Ends (changeEnv f) r Q F ↔ Q () { r with env := f r.env } := Iff.rfl

@[simp] theorem ends_useEnv {Q : α → Registers → Prop} (f : Environment → α × Environment) :
    Ends (useEnv f) r Q F ↔ Q (f r.env).1 { r with env := (f r.env).2 } := Iff.rfl

@[simp] theorem ends_schedule {Q : Unit → Registers → Prop} (items : List Item) :
    Ends (schedule items) r Q F ↔ Q () { r with control := items ++ r.control } := Iff.rfl

@[simp] theorem ends_push {Q : Unit → Registers → Prop} (item : StashItem) :
    Ends (push item) r Q F ↔ Q () { r with stash := item :: r.stash } := Iff.rfl

@[simp] theorem ends_pushValue {Q : Unit → Registers → Prop} (v : Value) :
    Ends (pushValue v) r Q F ↔ Q () { r with stash := .value v :: r.stash } := Iff.rfl

@[simp] theorem ends_here {Q : FrameId → Registers → Prop} :
    Ends here r Q F ↔ Q r.env.current r := Iff.rfl

@[simp] theorem ends_describe {Q : String → Registers → Prop} (item : StashItem) :
    Ends (describe item) r Q F ↔ Q (item.text r.env) r := Iff.rfl

@[simp] theorem ends_typeOfVar {Q : TypeName → Registers → Prop} (x : VarId) :
    Ends (typeOfVar x) r Q F ↔ Q (((r.env.var? x).map Variable.type).getD .void) r := Iff.rfl

@[simp] theorem ends_extend {Q : Unit → Registers → Prop} (around : FrameId) (name : String) :
    Ends (extend around name) r Q F ↔ Q () { r with env := r.env.extend around name } := Iff.rfl

@[simp] theorem ends_fresh {Q : VarId → Registers → Prop} (v : Variable) :
    Ends (fresh v) r Q F ↔ Q (r.env.allocate v).newestVariable { r with env := r.env.allocate v } :=
  Iff.rfl

/-- A variable is declared if the current frame does not bind its name yet. -/
@[simp] theorem ends_declare {Q : VarId → Registers → Prop} (v : Variable) :
    Ends (declare v) r Q F ↔
      (r.env.bindsHere v.name = false →
        Q (r.env.addVariable v).newestVariable { r with env := r.env.addVariable v }) ∧
      (r.env.bindsHere v.name = true → F (.redeclaration v.name) r) := by
  cases h : r.env.bindsHere v.name <;> simp [declare, Environment.checkFree, h]

section Pop

variable {control : List Item} {stash : List StashItem} {env : Environment} {output : List String}

@[simp] theorem ends_pop {Q : StashItem → Registers → Prop} (item : StashItem) :
    Ends pop ⟨control, item :: stash, env, output⟩ Q F ↔ Q item ⟨control, stash, env, output⟩ := by
  simp [pop]

@[simp] theorem ends_popValue_value {Q : Value → Registers → Prop} (v : Value) :
    Ends popValue ⟨control, .value v :: stash, env, output⟩ Q F ↔
      Q v ⟨control, stash, env, output⟩ := by
  simp [popValue]

@[simp] theorem ends_popValue_cls {Q : Value → Registers → Prop} (c : Class) :
    Ends popValue ⟨control, .cls c :: stash, env, output⟩ Q F ↔
      F (.internal (.expected .value ("class " ++ c.name))) ⟨control, stash, env, output⟩ := by
  simp [popValue, StashItem.text]

@[simp] theorem ends_popType_type {Q : TypeName → Registers → Prop} (t : TypeName) :
    Ends popType ⟨control, .type t :: stash, env, output⟩ Q F ↔
      Q t ⟨control, stash, env, output⟩ := by
  simp [popType]

@[simp] theorem ends_popClosure_closure {Q : Closure → Registers → Prop} (k : Closure) :
    Ends popClosure ⟨control, .closure k :: stash, env, output⟩ Q F ↔
      Q k ⟨control, stash, env, output⟩ := by
  simp [popClosure]

@[simp] theorem ends_popTarget_var {Q : VarId → Registers → Prop} (x : VarId) :
    Ends popTarget ⟨control, .var x :: stash, env, output⟩ Q F ↔
      Q x ⟨control, stash, env, output⟩ := by
  simp [popTarget]

@[simp] theorem ends_popTarget_cls {Q : VarId → Registers → Prop} (c : Class) :
    Ends popTarget ⟨control, .cls c :: stash, env, output⟩ Q F ↔
      F (.typeMismatch (.target ("class " ++ c.name))) ⟨control, stash, env, output⟩ := by
  simp [popTarget, StashItem.text]

end Pop

end Step
end StashMachine
