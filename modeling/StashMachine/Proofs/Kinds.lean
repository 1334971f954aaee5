import StashMachine.Proofs.Faults

/-!
# StashMachine.Proofs.Kinds — which values variables of a primitive type can hold

* `Value.isOf v p`: `v` is of the kind that stands for the primitive type `p`.
* `Value.fits v t`: a variable of the type `t` may hold `v`; only primitive types restrict their values.
* `Value.isSimple`: neither an object nor an array.
* `Primitive.carrier p`: the widest type of the kind of `p`, whose values the variables of type `p` hold.

Conversions give values that fit, and so do the defaults of all types.  Operators and conversions make no
objects and no arrays.
-/

namespace StashMachine

/-- The widest type of the kind of a primitive type, whose values the variables of the type hold. -/
def Primitive.carrier : Primitive → Primitive
  | .byte | .short | .int => .int
  | .float | .double => .double
  | t => t

namespace Value

variable {v w : Value} {t : TypeName} {p : Primitive}

/-- Whether a value is of the kind that stands for a primitive type.  The smaller integral types share the
kind of `int`, and `float` that of `double`. -/
def isOf : Value → Primitive → Bool
  | boolean _, .boolean => true
  | char _, .char => true
  | number (.int _), .byte => true
  | number (.int _), .short => true
  | number (.int _), .int => true
  | number (.long _), .long => true
  | number (.double _), .float => true
  | number (.double _), .double => true
  | _, _ => false

/-- Whether a variable of a declared type may hold a value. -/
def fits (v : Value) : TypeName → Bool
  | .primitive p => v.isOf p
  | _ => true

/-- Whether a value is neither an object nor an array. -/
def isSimple : Value → Bool
  | object _ _ => false
  | array _ _ _ => false
  | _ => true

/-! ### Conversions -/

theorem isOf_coercePrimitive (h : v.coercePrimitive p = .ok w) : w.isOf p = true := by
  cases p <;> simp only [coercePrimitive] at h <;> repeat' split at h
  all_goals first
    | cases h; rfl
    | cases h

/-- The values of the kind of a primitive type are those that its conversion leaves as they are. -/
theorem isOf_iff : v.isOf p = true ↔ v.coercePrimitive p = .ok v := by
  constructor
  · intro h
    unfold isOf at h
    split at h <;> first | rfl | cases h
  · exact isOf_coercePrimitive

/-- A value of one kind is of another one only if the two are the same. -/
theorem isOf_iff_carrier {q : Primitive} (h : v.isOf p = true) : v.isOf q = true ↔ p.carrier = q.carrier := by
  unfold isOf at h
  split at h
  all_goals first
    | exact absurd h Bool.false_ne_true
    | cases q <;> simp [isOf, Primitive.carrier]

theorem fits_iff_carrier (h : v.isOf p = true) : v.fits t = true ↔ ∀ q, t = .primitive q → p.carrier = q.carrier := by
  cases t with
  | primitive q =>
    refine (isOf_iff_carrier h).trans ⟨fun hkind q' hq => ?_, fun hkind => hkind q rfl⟩
    cases hq
    exact hkind
  | _ => exact iff_of_true rfl nofun

theorem isSimple_of_isOf (h : v.isOf p = true) : v.isSimple = true := by
  cases v with
  | object c f => simp [isOf] at h
  | array id t vs => simp [isOf] at h
  | _ => rfl

theorem fits_coerce (h : v.coerce t = .ok w) : w.fits t = true := by
  cases t with
  | primitive p => exact isOf_coercePrimitive h
  | _ => rfl

/-- A conversion keeps the value or makes a simple one. -/
theorem coerce_eq_or_isSimple (h : v.coerce t = .ok w) : w = v ∨ w.isSimple = true := by
  cases t with
  | primitive p => exact .inr (isSimple_of_isOf (isOf_coercePrimitive h))
  | _ =>
    cases h
    exact .inl rfl

theorem isOf_castNumber {n : Number} (hp : p.isNumeric = true) (h : castNumber n p = .ok w) :
    w.isOf p = true := by
  cases p with
  | boolean => cases hp
  | char =>
    simp only [castNumber] at h
    split at h <;> cases h
    rfl
  | _ =>
    cases h
    rfl

theorem fits_narrow (h : v.narrow t = .ok w) : w.fits t = true := by
  unfold narrow at h
  split at h
  · split at h
    · rename_i hp
      exact isOf_castNumber hp h
    · exact fits_coerce h
  · exact fits_coerce h

theorem narrow_eq_or_isSimple (h : v.narrow t = .ok w) : w = v ∨ w.isSimple = true := by
  have hfits := fits_narrow h
  cases t with
  | primitive p => exact .inr (isSimple_of_isOf hfits)
  | _ =>
    refine coerce_eq_or_isSimple (t := .void) ?_
    cases v <;> exact h

/-! ### Defaults and literals -/

theorem isSimple_ofLiteral (l : Literal) : (ofLiteral l).isSimple = true := by
  cases l <;> rfl

/-- The default of a type fits it. -/
theorem fits_default (t : TypeName) : (default t).fits t = true := by
  cases t with
  | primitive p => cases p <;> rfl
  | _ => rfl

/-! ### Operators -/

theorem isSimple_onNumbers {op : BinaryOp} {a b : Value} {f : Number → Number → Except Fault Value}
    (hf : ∀ m n, f m n = .ok v → v.isSimple = true) (h : onNumbers op a b f = .ok v) :
    v.isSimple = true := by
  unfold onNumbers at h
  split at h
  · exact hf _ _ h
  · cases h

theorem isSimple_map_number {x : Except Fault Number} (h : x.map number = .ok v) :
    v.isSimple = true := by
  cases x with
  | ok n =>
    cases h
    rfl
  | error e => cases h

theorem isSimple_binary {op : BinaryOp} {a b : Value} (h : binary op a b = .ok v) :
    v.isSimple = true := by
  have hcompare : ∀ m n, (.ok (boolean (Number.compare op m n)) : Except Fault Value) = .ok v →
      v.isSimple = true := by
    intro m n h
    cases h
    rfl
  cases op with
  | add =>
    simp only [binary] at h
    split at h
    · cases h
      rfl
    · exact isSimple_onNumbers (fun m n => isSimple_map_number) h
  | sub | mul | div | rem => exact isSimple_onNumbers (fun m n => isSimple_map_number) h
  | lt | le | gt | ge => exact isSimple_onNumbers hcompare h
  | eq | ne =>
    cases h
    rfl
  | and | or =>
    simp only [binary] at h
    split at h <;> cases h
    rfl

theorem isSimple_unary {op : UnaryOp} (h : unary op v = .ok w) : w.isSimple = true := by
  unfold unary at h
  repeat' split at h
  all_goals first
    | cases h; rfl
    | cases h

end Value

/-! ### Arrays -/

namespace Step

/-- The elements of an array fit its element type, and each is an argument or a simple value. -/
theorem of_mem_coerceAll {t : TypeName} {vs ws : List Value} (h : coerceAll t vs = .ok ws) :
    ∀ w ∈ ws, w.fits t = true ∧ (w ∈ vs ∨ w.isSimple = true) := by
  induction vs generalizing ws with
  | nil =>
    cases h
    simp
  | cons v vs ih =>
    obtain ⟨w, hv, h⟩ := except_bind_eq_ok.mp h
    obtain ⟨ws', hvs, h⟩ := except_bind_eq_ok.mp h
    cases h
    intro w' hw'
    rcases List.mem_cons.mp hw' with rfl | hw'
    · refine ⟨Value.fits_coerce hv, ?_⟩
      rcases Value.coerce_eq_or_isSimple hv with rfl | hsimple
      · exact .inl (by simp)
      · exact .inr hsimple
    · obtain ⟨hfits, hmem | hsimple⟩ := ih hvs w' hw'
      · exact ⟨hfits, .inl (by simp [hmem])⟩
      · exact ⟨hfits, .inr hsimple⟩

end Step
end StashMachine
