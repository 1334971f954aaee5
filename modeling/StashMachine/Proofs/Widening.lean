import Mathlib.Data.List.Forall2
import StashMachine.Machine.Dispatch
import StashMachine.Proofs.Assignability
import StashMachine.Proofs.Integral
import StashMachine.Proofs.StepLogic

/-!
# StashMachine.Proofs.Widening — arguments that are accepted can be bound

The table of widening conversions selects methods, and `Value.coerce` binds their parameters.

* `Number.widen`: the number that a variable of a primitive type holds for a number it accepts.
* `Primitive.hasIntegers`: the types whose values stand for integers; `Widens v w p`: a variable of the type `p` takes
  `v` as `w`, and the integer is the same.
* `Value.exists_widened`: conversions to an accepting type give the widened number; `Number.widen_widen`: in two steps
  as in one.
* `accepted_arguments_bind`: what a parameter accepts by its type, it takes as a value; lists of parameters bind all
  arguments that they accept.
-/

namespace StashMachine

open Environment Step

/-- Whether the values of a primitive type stand for integers; those of characters are their codes. -/
def Primitive.hasIntegers : Primitive → Bool
  | byte | short | char | int | long => true
  | float | double | boolean => false

/-- The number that a variable of a primitive type holds for a narrower number. -/
def Number.widen (m : Number) : Primitive → Number
  | .long =>
    match m with
    | int n => long n.toInt64
    | _ => m
  | .float | .double => double m.toFloat
  | _ => m

/-- A variable of a primitive type takes `v` as `w`, which stands for the same integer if the type has integers. -/
structure Widens (v w : Value) (p : Primitive) : Prop where
  coerced : v.coerce (.primitive p) = .ok w
  isOf : w.isOf p = true
  integer : p.hasIntegers = true → ∃ i, v.integer? = some i ∧ w.integer? = some i

variable {env : Environment} {p q r : Primitive} {v w : Value} {m : Number}

/-! ### Types -/

theorem assignable_primitive_iff :
    env.assignable (.primitive p) (.primitive q) = true ↔ p = q ∨ p ∈ q.widenings := by
  simp [assignable, or_iff_not_imp_left]

/-- Primitive types accept primitive types only. -/
theorem exists_of_assignable_primitive {s : TypeName} (h : env.assignable (.primitive p) s = true) :
    ∃ q, s = .primitive q := by
  cases s with
  | primitive q => exact ⟨q, rfl⟩
  | _ => simp [assignable] at h

/-! ### Numbers -/

namespace Number

/-- Both integral numbers and their widened ones become the double that is nearest to their integer. -/
theorem toFloat_widen (m : Number) (p : Primitive) : (m.widen p).toFloat = m.toFloat := by
  cases p with
  | long =>
    cases m with
    | int n => exact congrArg Float.ofInt (Int32.toInt_toInt64 n)
    | _ => rfl
  | _ => rfl

/-- Widening in two steps is widening in one. -/
theorem widen_widen (h : p ∈ q.widenings) (m : Number) : (m.widen q).widen p = m.widen p := by
  cases p with
  | float | double => exact congrArg Number.double (m.toFloat_widen q)
  | _ =>
    -- the types that widen to these leave numbers alone
    cases q <;> first
      | rfl
      | exact absurd h (by decide)

end Number

namespace Value

/-- The number that a character or a number counts as stands for its integer. -/
theorem integer?_of_number? (h : v.number? = some m) : v.integer? = (number m).integer? := by
  cases v with
  | char c =>
    cases h
    have hvalid : c.toNat.isValidChar := c.valid
    have hc : c.toNat < 2 ^ 31 := by
      rw [Nat.isValidChar] at hvalid
      omega
    exact congrArg some (Int32.toInt_ofNat_of_lt hc).symm
  | number n =>
    cases h
    rfl
  | _ => cases h

/-- A type that accepts the type of a number or a character takes its number, widened. -/
theorem exists_widened (h : p ∈ q.widenings) (hv : v.isOf q = true) :
    ∃ m, v.number? = some m ∧ v.coerce (.primitive p) = .ok (number (m.widen p)) := by
  unfold isOf at hv
  split at hv
  case h_1 => exact absurd h (by cases p <;> decide)
  case h_9 => cases hv
  all_goals
    cases p <;> first
      | exact ⟨_, rfl, rfl⟩
      | exact absurd h (by decide)

/-- Widened numbers stand for the same integers. -/
theorem integer?_widen (h : (number (m.widen p)).isOf p = true) (hp : p.hasIntegers = true) :
    ∃ i, (number m).integer? = some i ∧ (number (m.widen p)).integer? = some i := by
  cases p with
  | long =>
    cases m with
    | int n => exact ⟨n.toInt, rfl, congrArg some (Int32.toInt_toInt64 n)⟩
    | long n => exact ⟨n.toInt, rfl, rfl⟩
    | double x => cases h
  | byte | short | int =>
    cases m with
    | int n => exact ⟨n.toInt, rfl, rfl⟩
    | _ => cases h
  | char => cases m <;> cases h
  | _ => cases hp

/-- A value of a type with integers stands for one. -/
theorem exists_integer_of_isOf (h : v.isOf p = true) (hp : p.hasIntegers = true) : ∃ i, v.integer? = some i := by
  unfold isOf at h
  split at h <;> first
    | exact ⟨_, rfl⟩
    | cases hp
    | cases h

/-- What a type accepts by the type, it takes as a value. -/
theorem exists_widens (h : p = q ∨ p ∈ q.widenings) (hv : v.isOf q = true) : ∃ w, Widens v w p := by
  rcases h with rfl | h
  · refine ⟨v, isOf_iff.mp hv, hv, fun hp => ?_⟩
    obtain ⟨i, hi⟩ := exists_integer_of_isOf hv hp
    exact ⟨i, hi, hi⟩
  · obtain ⟨m, hm, hcoerce⟩ := exists_widened h hv
    have hw := isOf_coercePrimitive hcoerce
    refine ⟨_, hcoerce, hw, fun hp => ?_⟩
    rw [integer?_of_number? hm]
    exact integer?_widen hw hp

/-- A conversion in two steps is the conversion in one. -/
theorem coerce_coerce (h : q = r ∨ q ∈ r.widenings) (h' : p = q ∨ p ∈ q.widenings) (hv : v.isOf r = true) :
    (do (← v.coerce (.primitive q)).coerce (.primitive p)) = v.coerce (.primitive p) := by
  rcases h with rfl | h
  · rw [show v.coerce (.primitive q) = .ok v from isOf_iff.mp hv]
    rfl
  obtain ⟨m, hm, hfirst⟩ := exists_widened h hv
  have hw := isOf_coercePrimitive hfirst
  rw [hfirst]
  change (number (m.widen q)).coerce (.primitive p) = _
  rcases h' with rfl | h'
  · rw [hfirst]
    exact isOf_iff.mp hw
  · obtain ⟨m₁, hm₁, hsecond⟩ := exists_widened h' hw
    obtain ⟨m₂, hm₂, honce⟩ := exists_widened (Primitive.widenings_trans h' h) hv
    obtain rfl : m.widen q = m₁ := Option.some.inj hm₁
    obtain rfl : m = m₂ := Option.some.inj (hm.symm.trans hm₂)
    rw [hsecond, honce, Number.widen_widen h']

/-- A parameter takes the arguments that it accepts by their types. -/
theorem exists_of_assignable {t s : TypeName} (h : env.assignable t s = true) (hv : v.fits s = true) :
    ∃ w, v.coerce t = .ok w := by
  cases t with
  | primitive p =>
    obtain ⟨q, rfl⟩ := exists_of_assignable_primitive h
    obtain ⟨w, hw⟩ := exists_widens (assignable_primitive_iff.mp h) hv
    exact ⟨w, hw.coerced⟩
  | _ => exact ⟨v, rfl⟩

end Value

/-! ### Parameters -/

/-- Binding parameters to arguments whose types they accept fails only where a name is taken. -/
theorem ends_bindParams {params : List Param} {types : List TypeName} {args : List Value}
    (happlicable : env.applicable (params.map Param.type) types = true)
    (hargs : List.Forall₂ (fun v t => v.fits t = true) args types) (r : Registers) :
    Ends (bindParams params args) r (fun _ _ => True) (fun e _ => ∃ x ∈ params, e = .redeclaration x.name) := by
  induction hargs generalizing params r with
  | nil =>
    cases params with
    | nil => exact trivial
    | cons x xs => simp [applicable] at happlicable
  | @cons v t args types hv _ ih =>
    cases params with
    | nil => simp [applicable] at happlicable
    | cons x xs =>
      rw [List.map_cons, applicable, Bool.and_eq_true] at happlicable
      obtain ⟨w, hw⟩ := Value.exists_of_assignable happlicable.1 hv
      simp only [bindParams, ends_bind, ends_ofExcept, ends_declare]
      refine ⟨fun w' _ => ⟨fun _ => ?_, fun _ => ⟨x, by simp, rfl⟩⟩, fun e he => ?_⟩
      · refine (ih happlicable.2 _).mono (fun _ _ h => h) ?_
        rintro e - ⟨y, hy, rfl⟩
        exact ⟨y, .tail _ hy, rfl⟩
      · rw [hw] at he
        cases he

/-- A primitive type that accepts the type of a value takes the value itself, and if it has integers the integer stays
the same; a chain of such conversions gives what its ends give directly.  Parameters can therefore be bound to all
arguments that they accept, unless two of them share a name. -/
theorem accepted_arguments_bind (env : Environment) :
    (∀ (target source : Primitive) (v : Value), env.assignable (.primitive target) (.primitive source) = true →
      v.isOf source = true → ∃ w, Widens v w target) ∧
    (∀ (target mid source : Primitive) (v : Value), env.assignable (.primitive mid) (.primitive source) = true →
      env.assignable (.primitive target) (.primitive mid) = true → v.isOf source = true →
      (do (← v.coerce (.primitive mid)).coerce (.primitive target)) = v.coerce (.primitive target)) ∧
    ∀ (params : List Param) (types : List TypeName) (args : List Value) (r : Registers),
      env.applicable (params.map Param.type) types = true →
      List.Forall₂ (fun v t => v.fits t = true) args types →
      Ends (bindParams params args) r (fun _ _ => True) (fun e _ => ∃ x ∈ params, e = .redeclaration x.name) := by
  refine ⟨fun target source v h hv => ?_, fun target mid source v h h' hv => ?_, fun params types args r h hargs => ?_⟩
  · exact Value.exists_widens (assignable_primitive_iff.mp h) hv
  · exact Value.coerce_coerce (assignable_primitive_iff.mp h) (assignable_primitive_iff.mp h') hv
  · exact ends_bindParams h hargs r

/-- A character is taken as an `int`, as a double by way of `long`, and by a parameter of the type `int`. -/
theorem accepted_arguments_bind_char :
    (∃ w, Widens (.char 'x') w .int) ∧
    (do (← (Value.char 'x').coerce (.primitive .long)).coerce (.primitive .double))
      = (Value.char 'x').coerce (.primitive .double) ∧
    Ends (bindParams [⟨.primitive .int, "code"⟩] [.char 'x']) .initial (fun _ _ => True)
      (fun e _ => ∃ x ∈ [(⟨.primitive .int, "code"⟩ : Param)], e = .redeclaration x.name) := by
  obtain ⟨hone, hchain, hparams⟩ := accepted_arguments_bind .initial
  exact ⟨hone .int .char _ (by decide) rfl, hchain .double .long .char _ (by decide) (by decide) rfl,
    hparams _ [.primitive .char] _ _ (by decide) (.cons rfl .nil)⟩

end StashMachine
