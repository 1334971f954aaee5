import StashMachine.Proofs.Kinds
import StashMachine.Resolution.Typing

/-!
# StashMachine.Proofs.OperatorTypes — the types of operations, and what they yield

The type of an operation is found from the declared types of its operands, its result from the values that are
there.  Both promote, the one among types and the other among kinds of numbers, and both choose between adding
numbers and joining texts.

* `BinaryOp.Yields op x P`: `x` is a result that satisfies `P`, unless `op` divides by zero.
* `Number.arithmetic_yields`, `Number.type_negate`: arithmetic promotes numbers as it promotes their types.
* `Value.exists_number`: the number that a value of a numeric type counts as.
* `Value.HasType v t`: the value `v` may stand where the type `t` is expected.
* `binary_isOf`, `unary_isOf`: an operation of a primitive type yields a value of the kind of that type.
* `operators_keep_types`: an arithmetic operation on operands of its types yields a value of its type, unless its
  type is that of texts and there is no text to join.
* `null_is_not_joined`: a `String` that is `null` is joined to no number.
-/

namespace StashMachine

open Environment

/-! ### Numbers -/

/-- `x` is a result that satisfies `P`, or the fault of a division by zero. -/
def BinaryOp.Yields {α : Type} (op : BinaryOp) (x : Except Fault α) (P : α → Prop) : Prop :=
  (∃ a, x = .ok a ∧ P a) ∨ x = .error .divisionByZero ∧ (op = .div ∨ op = .rem)

namespace BinaryOp

variable {α β : Type} {op : BinaryOp} {x : Except Fault α} {P : α → Prop} {Q : β → Prop}

theorem Yields.map (h : op.Yields x P) {f : α → β} (hf : ∀ a, P a → Q (f a)) : op.Yields (x.map f) Q := by
  rcases h with ⟨a, rfl, ha⟩ | ⟨rfl, hop⟩
  · exact .inl ⟨f a, rfl, hf a ha⟩
  · exact .inr ⟨rfl, hop⟩

theorem applyInt_yields (op : BinaryOp) (a b : Int32) : op.Yields (op.applyInt a b) (fun _ => True) := by
  unfold applyInt
  split
  · rename_i hzero
    simp only [Bool.and_eq_true, Bool.or_eq_true, beq_iff_eq] at hzero
    exact .inr ⟨rfl, hzero.2⟩
  · exact .inl ⟨_, rfl, trivial⟩

theorem applyLong_yields (op : BinaryOp) (a b : Int64) : op.Yields (op.applyLong a b) (fun _ => True) := by
  unfold applyLong
  split
  · rename_i hzero
    simp only [Bool.and_eq_true, Bool.or_eq_true, beq_iff_eq] at hzero
    exact .inr ⟨rfl, hzero.2⟩
  · exact .inl ⟨_, rfl, trivial⟩

end BinaryOp

namespace Number

/-- Arithmetic promotes numbers as it promotes their types. -/
theorem arithmetic_yields (op : BinaryOp) (a b : Number) :
    op.Yields (arithmetic op a b) (fun n => n.type = a.type.promote b.type) := by
  cases a with
  | double x => cases b <;> exact .inl ⟨_, rfl, rfl⟩
  | long x =>
    cases b with
    | double y => exact .inl ⟨_, rfl, rfl⟩
    | int y | long y => exact (op.applyLong_yields _ _).map (fun _ _ => rfl)
  | int x =>
    cases b with
    | double y => exact .inl ⟨_, rfl, rfl⟩
    | long y => exact (op.applyLong_yields _ _).map (fun _ _ => rfl)
    | int y => exact (op.applyInt_yields _ _).map (fun _ _ => rfl)

theorem type_negate (n : Number) : n.negate.type = n.type := by
  cases n <;> rfl

end Number

/-! ### Values of numeric types -/

theorem exists_primitive {t : TypeName} (h : t.isNumeric = true) : ∃ p, t = .primitive p ∧ p.isNumeric = true := by
  cases t with
  | primitive p => exact ⟨p, rfl, h⟩
  | _ => cases h

/-- Numeric types promote as what their values count as in arithmetic. -/
theorem Primitive.promote_eq (p q : Primitive) : (TypeName.primitive p).promote (.primitive q) =
    ((TypeName.primitive p).promote (.primitive .int)).promote
      ((TypeName.primitive q).promote (.primitive .int)) := by
  cases p <;> cases q <;> rfl

namespace Value

variable {op : BinaryOp} {a b v : Value} {m n : Number} {p q : Primitive} {t u : TypeName}

/-- The number that a value of a numeric type counts as. -/
theorem exists_number (h : v.isOf p = true) (hp : p.isNumeric = true) :
    ∃ n, v.number? = some n ∧ n.type = (TypeName.primitive p).promote (.primitive .int) := by
  unfold isOf at h
  split at h
  · cases hp
  all_goals first
    | exact ⟨_, rfl, rfl⟩
    | cases h

theorem isOf_number (h : n.type = .primitive p) : (number n).isOf p = true := by
  cases n <;> cases h <;> rfl

theorem isString_of_number? (h : v.number? = some n) : v.isString = false := by
  cases v <;> first | rfl | cases h

/-- Arithmetic on values that count as numbers. -/
theorem binary_of_numbers (hop : op.isArithmetic = true) (ha : a.number? = some m) (hb : b.number? = some n) :
    binary op a b = (Number.arithmetic op m n).map number := by
  have hnumbers : ∀ f : Number → Number → Except Fault Value, onNumbers op a b f = f m n := by
    intro f
    rw [onNumbers, ha, hb]
  cases op with
  | add => rw [binary, isString_of_number? ha, isString_of_number? hb, hnumbers]; rfl
  | sub | mul | div | rem => exact hnumbers _
  | _ => cases hop

/-- Arithmetic on values of numeric types. -/
theorem binary_yields (hop : op.isArithmetic = true) (hp : p.isNumeric = true) (hq : q.isNumeric = true)
    (ha : a.isOf p = true) (hb : b.isOf q = true) :
    op.Yields (binary op a b) (fun v => ∃ n, v = number n ∧
      n.type = (TypeName.primitive p).promote (.primitive q)) := by
  obtain ⟨m, hm, hmtype⟩ := exists_number ha hp
  obtain ⟨n, hn, hntype⟩ := exists_number hb hq
  rw [binary_of_numbers hop hm hn, Primitive.promote_eq, ← hmtype, ← hntype]
  exact (Number.arithmetic_yields op m n).map (fun r hr => ⟨r, rfl, hr⟩)

/-- Comparisons and the operations on truth values yield a truth value. -/
theorem isOf_boolean_of_binary (hop : ¬ op.isArithmetic = true) (h : binary op a b = .ok v) :
    v.isOf .boolean = true := by
  cases op with
  | add | sub | mul | div | rem => exact absurd rfl hop
  | lt | le | gt | ge =>
    simp only [binary, onNumbers] at h
    split at h
    · cases h
      rfl
    · cases h
  | eq | ne =>
    cases h
    rfl
  | and | or =>
    simp only [binary] at h
    split at h
    · cases h
      rfl
    · cases h

/-! ### Values of all types -/

/-- The value may stand where the type is expected: a value of its kind for a primitive type, a text or `null`
for `String`, and whatever a reference can be for every other reference type. -/
inductive HasType : Value → TypeName → Prop
  | primitive {v : Value} {p : Primitive} : v.isOf p = true → HasType v (.primitive p)
  | null {t : TypeName} : t.isReference = true → HasType .null t
  | string {t : TypeName} (s : String) : t.isReference = true → HasType (.string s) t
  | object {t : TypeName} (c : Class) (f : FrameId) : t.isReference = true → t ≠ .string →
    HasType (.object c f) t
  | array {t : TypeName} (id : Nat) (u : TypeName) (vs : List Value) : t.isReference = true → t ≠ .string →
    HasType (.array id u vs) t

theorem hasType_number (n : Number) : (number n).HasType n.type := by
  cases n <;> exact .primitive rfl

/-- A `String` that is no text is `null`. -/
theorem HasType.eq_null (h : v.HasType .string) (hv : v.isString = false) : v = .null := by
  cases h with
  | null => rfl
  | string s => cases hv
  | object c f _ hne | array id u vs _ hne => exact absurd rfl hne

theorem hasType_primitive_iff : v.HasType (.primitive p) ↔ v.isOf p = true := by
  refine ⟨fun h => ?_, .primitive⟩
  cases h with
  | primitive hv => exact hv
  | null href | string s href | object c f href | array id u vs href => cases href

end Value

open Value

variable {op : BinaryOp} {a b : Value} {t u w : TypeName}

/-- No text stands where texts are to be joined. -/
def LacksText (t : TypeName) (a b : Value) : Prop := t = .string ∧ a.isString = false ∧ b.isString = false

/-- The type of an operation that joins texts, and of one that computes a number. -/
theorem binaryType_cases (hop : op.isArithmetic = true) (h : binaryType op t u = .ok w) :
    (op = .add ∧ (t = .string ∨ u = .string) ∧ w = .string) ∨
      t.isNumeric = true ∧ u.isNumeric = true ∧ w = t.promote u := by
  unfold binaryType at h
  split at h
  · rename_i hjoin
    cases h
    exact .inl ⟨hjoin.1, hjoin.2, rfl⟩
  · split at h
    · rename_i hnumeric
      cases h
      rw [Bool.and_eq_true] at hnumeric
      exact .inr ⟨hnumeric.1, hnumeric.2, rfl⟩
    · cases h

/-- A primitive type that is found for an operation is the kind of what the operation yields, if so are the
primitive types of its operands. -/
theorem binary_isOf {p : Primitive} {v : Value} (ht : binaryType op t u = .ok (.primitive p))
    (ha : ∀ q, t = .primitive q → a.isOf q = true) (hb : ∀ q, u = .primitive q → b.isOf q = true)
    (hv : Value.binary op a b = .ok v) : v.isOf p = true := by
  by_cases hop : op.isArithmetic = true
  · rcases binaryType_cases hop ht with ⟨-, -, hstring⟩ | ⟨htnum, hunum, hpromote⟩
    · cases hstring
    · obtain ⟨q, rfl, hq⟩ := exists_primitive htnum
      obtain ⟨r, rfl, hr⟩ := exists_primitive hunum
      rcases binary_yields hop hq hr (ha q rfl) (hb r rfl) with ⟨_, hw, n, rfl, hn⟩ | ⟨herror, -⟩
      · rw [hv] at hw
        cases hw
        exact isOf_number (hn.trans hpromote.symm)
      · rw [hv] at herror
        cases herror
  · have hboolean : binaryType op t u = .ok (.primitive .boolean) := by
      cases op <;> first | rfl | exact absurd rfl hop
    rw [ht] at hboolean
    cases hboolean
    exact isOf_boolean_of_binary hop hv

/-- The same for an operation on one operand. -/
theorem unary_isOf {op : UnaryOp} {p : Primitive} {v w : Value} (ht : unaryType op t = .ok (.primitive p))
    (hv : ∀ q, t = .primitive q → v.isOf q = true) (hw : Value.unary op v = .ok w) : w.isOf p = true := by
  have hnumber : t.isNumeric = true → ∃ n, v.number? = some n ∧ n.type = t.promote (.primitive .int) := by
    intro htnum
    obtain ⟨q, rfl, hq⟩ := exists_primitive htnum
    exact exists_number (hv q rfl) hq
  cases op with
  | not =>
    cases ht
    simp only [Value.unary] at hw
    split at hw
    · cases hw
      rfl
    · cases hw
  | minus | plus =>
    simp only [unaryType] at ht
    split at ht
    · rename_i htnum
      obtain ⟨n, hn, htype⟩ := hnumber htnum
      simp only [Value.unary, hn] at hw
      cases hw
      refine isOf_number ?_
      simp only [Number.type_negate, htype]
      exact Except.ok.inj ht
    · cases ht

/-- A type that numeric types are promoted to is not the type of texts. -/
theorem promote_ne_string (t u : TypeName) : t.promote u ≠ .string := by
  unfold TypeName.promote
  split
  · nofun
  · split <;> nofun

theorem binary_of_lacksText (h : LacksText w a b) (ha : a.HasType t) (hb : b.HasType u)
    (ht : t = .string ∨ u = .string) : Value.binary .add a b = .error (badOperands .add a b) ∧
      (t = .string ∧ a = .null ∨ u = .string ∧ b = .null) := by
  obtain ⟨-, hastring, hbstring⟩ := h
  simp only [Value.binary, hastring, hbstring, Bool.or_self, Bool.false_eq_true, if_false]
  rcases ht with rfl | rfl
  · obtain rfl := ha.eq_null hastring
    exact ⟨rfl, .inl ⟨rfl, rfl⟩⟩
  · obtain rfl := hb.eq_null hbstring
    refine ⟨?_, .inr ⟨rfl, rfl⟩⟩
    cases a <;> rfl

/-- An arithmetic operation on operands of its types yields a value of the type that is found for it, or divides
by zero.  The one exception is the joining of texts where a `String` is `null` and the other operand is no text:
there the operation stops with a mismatch of types. -/
theorem operators_keep_types (hop : op.isArithmetic = true) (ht : binaryType op t u = .ok w)
    (ha : a.HasType t) (hb : b.HasType u) :
    (¬ LacksText w a b → op.Yields (Value.binary op a b) (fun v => v.HasType w)) ∧
    (LacksText w a b → Value.binary op a b = .error (badOperands op a b) ∧
      (t = .string ∧ a = .null ∨ u = .string ∧ b = .null)) := by
  rcases binaryType_cases hop ht with ⟨rfl, hjoin, rfl⟩ | ⟨htnum, hunum, rfl⟩
  · refine ⟨fun hlacks => ?_, fun hlacks => binary_of_lacksText hlacks ha hb hjoin⟩
    cases htext : a.isString || b.isString with
    | false => exact absurd ⟨rfl, Bool.or_eq_false_iff.mp htext⟩ hlacks
    | true =>
      refine .inl ⟨_, ?_, .string (a.text ++ b.text) rfl⟩
      simp only [Value.binary, htext, if_true]
  · refine ⟨fun _ => ?_, fun hlacks => absurd hlacks.1 (promote_ne_string t u)⟩
    obtain ⟨p, rfl, hp⟩ := exists_primitive htnum
    obtain ⟨q, rfl, hq⟩ := exists_primitive hunum
    rcases Value.binary_yields hop hp hq (hasType_primitive_iff.mp ha) (hasType_primitive_iff.mp hb) with
      ⟨_, hv, n, rfl, hn⟩ | hzero
    · exact .inl ⟨_, hv, hn ▸ hasType_number n⟩
    · exact .inr hzero

/-- A character and a `long` add up to a `long`. -/
theorem operators_keep_types_promoted :
    ∃ v, Value.binary .add (.char 'a') (.long 1) = .ok v ∧ v.HasType (.primitive .long) := by
  have hsum := (@operators_keep_types .add (.char 'a') (.long 1) (.primitive .char) (.primitive .long) _ rfl rfl
    (.primitive rfl) (.primitive rfl)).1 (fun hlacks => nomatch hlacks.1)
  rcases hsum with hv | ⟨-, hop | hop⟩
  · exact hv
  · cases hop
  · cases hop

/-- A `String` that is `null` is joined to no number, although the type of the operation is that of texts. -/
theorem null_is_not_joined : binaryType .add .string (.primitive .int) = .ok .string ∧
    Value.null.HasType .string ∧ (Value.int 5).HasType (.primitive .int) ∧
    ¬ BinaryOp.add.Yields (Value.binary .add .null (.int 5)) (fun v => v.HasType .string) := by
  refine ⟨rfl, .null rfl, .primitive rfl, ?_⟩
  rintro (⟨v, hv, -⟩ | ⟨-, hop | hop⟩)
  · cases hv
  · cases hop
  · cases hop

end StashMachine
