import Mathlib.Algebra.Group.Nat.Defs
import StashMachine.Proofs.OperatorTypes

/-!
# StashMachine.Proofs.Integral — integral arithmetic is exact, and then reduced

* `Value.integer?`: the integer that a character, an `int` or a `long` stands for.
* `Integral`: the kinds of integral numbers; `k.value i`: the value of a kind that an integer is reduced to.
* `BinaryOp.exact`: the operations on integers.
* `Value.binary_of_integers`: an operation computes with integers and reduces what comes out once.
* `Value.quotient_and_remainder`: a quotient times the divisor, and the remainder, add up to the dividend.
* `integral_arithmetic`: when an operation divides by zero, and else the kind and the integer of its result; arithmetic
  on `int` is arithmetic on `long` that is narrowed.
-/

namespace StashMachine

/-! ### Kinds of integral numbers -/

/-- The kinds of integral numbers. -/
inductive Integral
  | int
  | long
deriving DecidableEq

namespace Integral

/-- How many bits a number of a kind has. -/
def bits : Integral → Nat
  | int => 32
  | long => 64

/-- The type of the numbers of a kind. -/
def primitive : Integral → Primitive
  | int => .int
  | long => .long

/-- The number of a kind that an integer is reduced to. -/
def number : Integral → Int → Number
  | int, i => .int (Int32.ofInt i)
  | long, i => .long (Int64.ofInt i)

/-- The value of a kind that an integer is reduced to. -/
def value (k : Integral) (i : Int) : Value := .number (k.number i)

end Integral

namespace Value

/-- The integer that a value stands for; that of a character is its code. -/
def integer? : Value → Option Int
  | char c => some c.toNat
  | number (.int n) => some n.toInt
  | number (.long n) => some n.toInt
  | _ => none

/-- Whether the value is a `long`. -/
def isLong : Value → Bool
  | number n => n.isLong
  | _ => false

end Value

/-- The kind that arithmetic on two values is done in. -/
def Integral.common (a b : Value) : Integral := if a.isLong || b.isLong then .long else .int

/-- The operations on integers: quotients are cut toward zero, and remainders have the sign of the dividend. -/
def BinaryOp.exact (op : BinaryOp) (x y : Int) : Int :=
  match op with
  | .add => x + y
  | .sub => x - y
  | .mul => x * y
  | .div => x.tdiv y
  | _ => x.tmod y

/-- Whether an operation with an integer on its right divides by zero. -/
def BinaryOp.DividesByZero (op : BinaryOp) (y : Int) : Prop := (op = .div ∨ op = .rem) ∧ y = 0

instance (op : BinaryOp) (y : Int) : Decidable (op.DividesByZero y) := inferInstanceAs (Decidable (_ ∧ _))

/-! ### Reduced integers -/

namespace Integral

variable {k : Integral} {i j : Int}

/-- Integers that differ by a multiple of the range are reduced to the same value. -/
theorem value_congr (h : i.bmod (2 ^ k.bits) = j.bmod (2 ^ k.bits)) : k.value i = k.value j := by
  cases k with
  | int =>
    have hn : Int32.ofInt i = Int32.ofInt j := Int32.toInt.inj (by rwa [Int32.toInt_ofInt, Int32.toInt_ofInt])
    exact congrArg Value.int hn
  | long =>
    have hn : Int64.ofInt i = Int64.ofInt j := Int64.toInt.inj (by rwa [Int64.toInt_ofInt, Int64.toInt_ofInt])
    exact congrArg Value.long hn

theorem integer?_value (k : Integral) (i : Int) : (k.value i).integer? = some (i.bmod (2 ^ k.bits)) := by
  cases k with
  | int => exact congrArg some Int32.toInt_ofInt
  | long => exact congrArg some Int64.toInt_ofInt

theorem type_value (k : Integral) (i : Int) : (k.value i).type = .primitive k.primitive := by
  cases k <;> rfl

theorem isLong_value (k : Integral) (i : Int) : (k.value i).isLong = (k == .long) := by
  cases k <;> rfl

theorem common_self (k : Integral) (i j : Int) : common (k.value i) (k.value j) = k := by
  cases k <;> rfl

/-- A result and an operand have the kind of the result in common. -/
theorem common_value (a b : Value) (i : Int) : common ((common a b).value i) b = common a b := by
  unfold common
  rw [isLong_value]
  cases a.isLong <;> cases b.isLong <;> rfl

theorem narrow_long (i : Int) : (long.value i).narrow (.primitive .int) = .ok (int.value i) :=
  congrArg (fun n => Except.ok (Value.int n)) Int64.toInt32_ofInt

end Integral

/-! ### Operations -/

namespace BinaryOp

theorem applyInt_eq (op : BinaryOp) (a b : Int32) : op.applyInt a b =
    if op.DividesByZero b.toInt then .error .divisionByZero
    else .ok (Int32.ofInt (op.exact a.toInt b.toInt)) := by
  have hzero : (b == 0 && (op == .div || op == .rem)) = true ↔ op.DividesByZero b.toInt := by
    rw [DividesByZero, ← Int32.toInt_zero, Int32.toInt_inj]
    simp [and_comm]
  simp only [applyInt, hzero]
  refine ite_congr rfl (fun _ => rfl) (fun _ => congrArg Except.ok (Int32.toInt.inj ?_))
  rw [Int32.toInt_ofInt]
  cases op with
  | add => exact Int32.toInt_add a b
  | sub => exact Int32.toInt_sub a b
  | mul => exact Int32.toInt_mul a b
  | div => exact Int32.toInt_div a b
  | _ =>
    have hmod : (a % b).toInt.bmod (2 ^ 32) = (a % b).toInt := Int32.toInt_bmod _
    rw [← hmod, Int32.toInt_mod]
    rfl

theorem applyLong_eq (op : BinaryOp) (a b : Int64) : op.applyLong a b =
    if op.DividesByZero b.toInt then .error .divisionByZero
    else .ok (Int64.ofInt (op.exact a.toInt b.toInt)) := by
  have hzero : (b == 0 && (op == .div || op == .rem)) = true ↔ op.DividesByZero b.toInt := by
    rw [DividesByZero, ← Int64.toInt_zero, Int64.toInt_inj]
    simp [and_comm]
  simp only [applyLong, hzero]
  refine ite_congr rfl (fun _ => rfl) (fun _ => congrArg Except.ok (Int64.toInt.inj ?_))
  rw [Int64.toInt_ofInt]
  cases op with
  | add => exact Int64.toInt_add a b
  | sub => exact Int64.toInt_sub a b
  | mul => exact Int64.toInt_mul a b
  | div => exact Int64.toInt_div a b
  | _ =>
    have hmod : (a % b).toInt.bmod (2 ^ 64) = (a % b).toInt := Int64.toInt_bmod _
    rw [← hmod, Int64.toInt_mod]
    rfl

end BinaryOp

namespace Value

variable {op : BinaryOp} {a b v : Value} {x y : Int}

/-- The number that an integral value counts as. -/
theorem exists_number_of_integer? (h : v.integer? = some x) : ∃ n, v.number? = some n ∧ n.isDouble = false ∧
    n.isLong = v.isLong ∧ n.toInt64.toInt = x ∧ (v.isLong = false → n.toInt32.toInt = x) := by
  unfold integer? at h
  split at h
  · rename_i c
    have hc : (Int32.ofNat c.toNat).toInt = c.toNat := by
      have hvalid : c.toNat.isValidChar := c.valid
      exact Int32.toInt_ofNat_of_lt (by rw [Nat.isValidChar] at hvalid; omega)
    cases h
    exact ⟨_, rfl, rfl, rfl, by rw [Number.toInt64, Int32.toInt_toInt64, hc], fun _ => hc⟩
  · rename_i n
    cases h
    exact ⟨_, rfl, rfl, rfl, Int32.toInt_toInt64 n, fun _ => rfl⟩
  · cases h
    exact ⟨_, rfl, rfl, rfl, rfl, by rintro ⟨⟩⟩
  · cases h

/-- An operation on integral values computes with their integers, and reduces what comes out once. -/
theorem binary_of_integers (hop : op.isArithmetic = true) (ha : a.integer? = some x) (hb : b.integer? = some y) :
    binary op a b = if op.DividesByZero y then .error .divisionByZero
      else .ok ((Integral.common a b).value (op.exact x y)) := by
  obtain ⟨m, hm, hmdouble, hmlong, hmx, hmx'⟩ := exists_number_of_integer? ha
  obtain ⟨n, hn, hndouble, hnlong, hny, hny'⟩ := exists_number_of_integer? hb
  rw [binary_of_numbers hop hm hn, Number.arithmetic, hmdouble, hndouble, hmlong, hnlong, Integral.common]
  cases hlong : a.isLong || b.isLong with
  | true =>
    simp only [Bool.or_false, Bool.false_eq_true, if_false, if_true, op.applyLong_eq, hmx, hny]
    split <;> rfl
  | false =>
    rw [Bool.or_eq_false_iff] at hlong
    simp only [Bool.or_false, Bool.false_eq_true, if_false, op.applyInt_eq, hmx' hlong.1, hny' hlong.2]
    split <;> rfl

/-- The integer of an operand is in the range of the common kind. -/
theorem bmod_of_integer? (ha : a.integer? = some x) (b : Value) : x.bmod (2 ^ (Integral.common a b).bits) = x := by
  obtain ⟨m, -, -, -, hmx, hmx'⟩ := exists_number_of_integer? ha
  rw [Integral.common]
  split
  · rw [← hmx]
    exact Int64.toInt_bmod _
  · rename_i hlong
    rw [Bool.not_eq_true, Bool.or_eq_false_iff] at hlong
    rw [← hmx' hlong.1]
    exact Int32.toInt_bmod _

/-- Values of one integer are equal, whatever their kinds. -/
theorem equal_of_integer? (ha : a.integer? = some x) (hb : b.integer? = some x) : a.equal b = true := by
  obtain ⟨m, hm, hmdouble, -, hmx, -⟩ := exists_number_of_integer? ha
  obtain ⟨n, hn, hndouble, -, hnx, -⟩ := exists_number_of_integer? hb
  have hmn : m.toInt64 = n.toInt64 := Int64.toInt.inj (hmx.trans hnx.symm)
  simp [equal, hm, hn, Number.equal, hmdouble, hndouble, hmn]

/-- Reduced integers add up to the reduced sum. -/
theorem binary_add_value (k : Integral) (i j : Int) : binary .add (k.value i) (k.value j) = .ok (k.value (i + j)) := by
  rw [binary_of_integers rfl (k.integer?_value i) (k.integer?_value j), if_neg (by simp [BinaryOp.DividesByZero]),
    Integral.common_self]
  refine congrArg Except.ok (Integral.value_congr ?_)
  rw [BinaryOp.exact, Int.bmod_add_bmod, Int.add_bmod_bmod]

/-- A quotient times the divisor, and the remainder, add up to the dividend. -/
theorem quotient_and_remainder (ha : a.integer? = some x) (hb : b.integer? = some y) (hy : y ≠ 0) :
    (do
      let p ← binary .mul (← binary .div a b) b
      binary .add p (← binary .rem a b)) = .ok ((Integral.common a b).value x) := by
  have hquotient : binary .div a b = .ok ((Integral.common a b).value (x.tdiv y)) := by
    rw [binary_of_integers rfl ha hb, if_neg (fun h => hy h.2)]
    rfl
  have hremainder : binary .rem a b = .ok ((Integral.common a b).value (x.tmod y)) := by
    rw [binary_of_integers rfl ha hb, if_neg (fun h => hy h.2)]
    rfl
  have hproduct : binary .mul ((Integral.common a b).value (x.tdiv y)) b =
      .ok ((Integral.common a b).value (x.tdiv y * y)) := by
    rw [binary_of_integers rfl (Integral.integer?_value _ _) hb, if_neg (by simp [BinaryOp.DividesByZero]),
      Integral.common_value]
    refine congrArg Except.ok (Integral.value_congr ?_)
    rw [BinaryOp.exact, Int.bmod_mul_bmod]
  simp only [hquotient, hremainder, bind, Except.bind, hproduct, binary_add_value, Int.tdiv_mul_add_tmod]

end Value

/-- Arithmetic on characters, `int` and `long` is exact arithmetic on their integers, reduced once to 64 bits if an
operand is a `long` and else to 32 bits.  It fails only where it divides by zero.  A quotient times the divisor, and the
remainder, add up to the dividend.  Arithmetic on `int` is arithmetic on `long` that is narrowed. -/
theorem integral_arithmetic {op : BinaryOp} {a b : Value} {x y : Int} (hop : op.isArithmetic = true)
    (ha : a.integer? = some x) (hb : b.integer? = some y) :
    (Value.binary op a b = .error .divisionByZero ↔ op.DividesByZero y) ∧
    (¬ op.DividesByZero y → ∃ v, Value.binary op a b = .ok v ∧
      v.type = .primitive (if a.isLong || b.isLong then .long else .int) ∧
      v.integer? = some ((op.exact x y).bmod (2 ^ if a.isLong || b.isLong then 64 else 32))) ∧
    (y ≠ 0 → ∃ v, (do
        let p ← Value.binary .mul (← Value.binary .div a b) b
        Value.binary .add p (← Value.binary .rem a b)) = .ok v ∧ v.integer? = some x ∧ v.equal a = true) ∧
    ∀ m n : Int32, Value.binary op (.int m) (.int n) =
      (do (← Value.binary op (.long m.toInt64) (.long n.toInt64)).narrow (.primitive .int)) := by
  have heq := Value.binary_of_integers hop ha hb
  refine ⟨?_, fun hzero => ?_, fun hy => ?_, fun m n => ?_⟩
  · rw [heq]
    split
    · rename_i hzero
      exact iff_of_true rfl hzero
    · rename_i hzero
      exact iff_of_false (by rintro ⟨⟩) hzero
  · rw [heq, if_neg hzero]
    refine ⟨_, rfl, ?_, ?_⟩
    · rw [Integral.type_value, Integral.common]
      split <;> rfl
    · rw [Integral.integer?_value, Integral.common]
      split <;> rfl
  · have hx : ((Integral.common a b).value x).integer? = some x := by
      rw [Integral.integer?_value, Value.bmod_of_integer? ha b]
    exact ⟨_, Value.quotient_and_remainder ha hb hy, hx, Value.equal_of_integer? hx ha⟩
  · have hint := @Value.binary_of_integers op (.int m) (.int n) _ _ hop rfl rfl
    have hlong := @Value.binary_of_integers op (.long m.toInt64) (.long n.toInt64) _ _ hop rfl rfl
    rw [Int32.toInt_toInt64, Int32.toInt_toInt64] at hlong
    rw [hint, hlong]
    split
    · rfl
    · exact (Integral.narrow_long _).symm

/-- The least `int` divided by -1 is itself, as an `int`; in `long` it is not.  A character promotes to `int`. -/
theorem integral_arithmetic_least :
    (∃ v, Value.binary .div (.int Int32.minValue) (.int (-1)) = .ok v ∧ v.integer? = some (-2147483648)) ∧
    (∃ v, Value.binary .div (.int Int32.minValue) (.long (-1)) = .ok v ∧ v.integer? = some 2147483648) ∧
    (∃ v, Value.binary .rem (.char 'a') (.int (-10)) = .ok v ∧ v.integer? = some 7) ∧
    Value.binary .rem (.int (-7)) (.char (Char.ofNat 0)) = .error .divisionByZero := by
  obtain ⟨v, hv, -, hint⟩ :=
    (@integral_arithmetic .div (.int Int32.minValue) (.int (-1)) _ _ rfl rfl rfl).2.1 (by decide)
  obtain ⟨w, hw, -, hlong⟩ :=
    (@integral_arithmetic .div (.int Int32.minValue) (.long (-1)) _ _ rfl rfl rfl).2.1 (by decide)
  obtain ⟨u, hu, -, hchar⟩ := (@integral_arithmetic .rem (.char 'a') (.int (-10)) _ _ rfl rfl rfl).2.1 (by decide)
  have hzero := (@integral_arithmetic .rem (.int (-7)) (.char (Char.ofNat 0)) _ _ rfl rfl rfl).1.mpr ⟨.inr rfl, rfl⟩
  exact ⟨⟨v, hv, hint⟩, ⟨w, hw, hlong⟩, ⟨u, hu, hchar⟩, hzero⟩

end StashMachine
