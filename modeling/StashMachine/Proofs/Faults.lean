import StashMachine.Machine.Run

/-!
# StashMachine.Proofs.Faults — computations that blame the program only

`Flawless x`: if `x` stops with a fault, the fault is a tame one: no defect of the machine, no jump that
finds no marker, and no call without a qualifier.  Conversions, operators, labels and lookups are flawless
whatever they are given.
-/

namespace StashMachine

variable {α β : Type}

theorem except_bind_eq_ok {ε : Type} {x : Except ε α} {f : α → Except ε β} {b : β} :
    x >>= f = .ok b ↔ ∃ a, x = .ok a ∧ f a = .ok b := by
  cases x with
  | ok a =>
    refine ⟨fun h => ⟨a, rfl, h⟩, ?_⟩
    rintro ⟨a', ha, h⟩
    cases ha
    exact h
  | error e =>
    refine ⟨nofun, ?_⟩
    rintro ⟨a, ha, -⟩
    cases ha

/-- A fault that is neither a defect of the machine nor a jump that finds no marker. -/
@[simp] def Fault.Ordinary : Fault → Prop
  | .internal _ | .noMarker _ => False
  | _ => True

/-- An ordinary fault that is not that of a call without a qualifier. -/
@[simp] def Fault.Tame : Fault → Prop
  | .internal _ | .noMarker _ | .unsupported (.bareCall _) => False
  | _ => True

theorem Fault.Tame.ordinary {e : Fault} (h : e.Tame) : e.Ordinary := by
  cases e <;> trivial

/-- `x` stops with tame faults only. -/
def Flawless (x : Except Fault α) : Prop := ∀ e, x = .error e → e.Tame

namespace Flawless

@[simp] theorem ok (a : α) : Flawless (.ok a : Except Fault α) := by
  intro e h
  cases h

@[simp] theorem pure (a : α) : Flawless (pure a : Except Fault α) := ok a

@[simp] theorem error (e : Fault) :
    Flawless (.error e : Except Fault α) ↔ e.Tame := by
  simp [Flawless]

theorem bind {x : Except Fault α} {f : α → Except Fault β} (hx : Flawless x)
    (hf : ∀ a, x = .ok a → Flawless (f a)) : Flawless (x >>= f) := by
  cases x with
  | ok a => exact hf a rfl
  | error e =>
    intro e' h
    cases h
    exact hx e rfl

theorem map {x : Except Fault α} (hx : Flawless x) (f : α → β) : Flawless (x.map f) := by
  cases x with
  | ok a => exact ok (f a)
  | error e =>
    intro e' h
    cases h
    exact hx e rfl

end Flawless

/-! ### Conversions and operators -/

namespace Value

theorem flawless_coerce (v : Value) (t : TypeName) : Flawless (v.coerce t) := by
  unfold coerce coercePrimitive
  repeat' split
  all_goals simp

theorem flawless_castNumber (n : Number) (p : Primitive) : Flawless (castNumber n p) := by
  unfold castNumber
  repeat' split
  all_goals simp

theorem flawless_narrow (v : Value) (t : TypeName) : Flawless (v.narrow t) := by
  unfold narrow
  split
  · split
    · exact flawless_castNumber _ _
    · exact flawless_coerce _ _
  · exact flawless_coerce _ _

theorem flawless_arithmetic (op : BinaryOp) (a b : Number) : Flawless (Number.arithmetic op a b) := by
  unfold Number.arithmetic
  split
  · simp
  · split
    · refine Flawless.map ?_ _
      unfold BinaryOp.applyLong
      split <;> simp
    · refine Flawless.map ?_ _
      unfold BinaryOp.applyInt
      split <;> simp

theorem flawless_onNumbers {op : BinaryOp} {a b : Value} {f : Number → Number → Except Fault Value}
    (hf : ∀ m n, Flawless (f m n)) : Flawless (onNumbers op a b f) := by
  unfold onNumbers
  split
  · exact hf _ _
  · simp [badOperands]

theorem flawless_binary (op : BinaryOp) (a b : Value) : Flawless (binary op a b) := by
  have harith : ∀ m n, Flawless ((Number.arithmetic op m n).map number) :=
    fun m n => (flawless_arithmetic op m n).map _
  cases op with
  | add =>
    simp only [binary]
    split
    · simp
    · exact flawless_onNumbers harith
  | sub | mul | div | rem => exact flawless_onNumbers harith
  | lt | le | gt | ge => exact flawless_onNumbers (fun m n => by simp)
  | eq | ne => simp [binary]
  | and | or =>
    simp only [binary]
    split <;> simp [badOperands]

theorem flawless_unary (op : UnaryOp) (v : Value) : Flawless (unary op v) := by
  unfold unary
  repeat' split
  all_goals simp

end Value

namespace Step

theorem flawless_coerceAll (t : TypeName) (vs : List Value) : Flawless (coerceAll t vs) := by
  induction vs with
  | nil => simp [coerceAll]
  | cons v vs ih => exact (v.flawless_coerce t).bind (fun _ _ => ih.bind (fun _ _ => by simp))

/-! ### Labels -/

theorem flawless_labelValue (e : Expr) : Flawless (labelValue e) := by
  unfold labelValue
  split
  · simp
  · exact Value.flawless_unary _ _
  · simp

theorem flawless_labelled (v : Value) (labels : List Label) : Flawless (labelled v labels) := by
  fun_induction labelled v labels with
  | case1 => simp
  | case2 _ ih => exact ih
  | case3 e rest ih =>
    refine (flawless_labelValue e).bind (fun w _ => ?_)
    split
    · simp
    · exact ih

theorem flawless_entered? (v : Value) (arms : List (Arm Stmt)) : Flawless (entered? v arms) := by
  fun_induction entered? v arms with
  | case1 => simp
  | case2 arm arms ih =>
    refine (flawless_labelled v arm.labels).bind (fun b _ => ?_)
    split
    · simp
    · exact ih

end Step

/-! ### Lookups -/

namespace Environment

variable (env : Environment)

theorem flawless_findName (x : String) : Flawless (env.findName x) := by
  unfold findName
  split <;> simp

theorem flawless_findVariable (x : String) : Flawless (env.findVariable x) := by
  unfold findVariable
  split <;> simp

theorem flawless_findClass (x : String) : Flawless (env.findClass x) := by
  unfold findClass
  split <;> simp

theorem flawless_value (id : VarId) : Flawless (env.value id) := by
  unfold value
  split <;> simp

theorem flawless_nameType (x : String) : Flawless (env.nameType x) := by
  refine (env.flawless_findName x).bind (fun b _ => ?_)
  cases b <;> simp

theorem flawless_fieldType (t : TypeName) (x : String) : Flawless (env.fieldType t x) := by
  unfold fieldType
  split
  · simp
  · refine (env.flawless_findClass _).bind (fun c _ => ?_)
    split <;> simp

theorem flawless_pathType (p : Path) : Flawless (env.pathType p) := by
  induction p with
  | simple x => exact env.flawless_nameType x
  | field p x ih => exact ih.bind (fun t _ => env.flawless_fieldType t x)

theorem flawless_binaryType (op : BinaryOp) (l r : TypeName) : Flawless (binaryType op l r) := by
  unfold binaryType
  repeat' split
  all_goals simp

theorem flawless_unaryType (op : UnaryOp) (t : TypeName) : Flawless (unaryType op t) := by
  unfold unaryType
  repeat' split
  all_goals simp

end Environment
end StashMachine
