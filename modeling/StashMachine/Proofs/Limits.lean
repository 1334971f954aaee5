import StashMachine.Proofs.IntegralUpdates
import StashMachine.Proofs.Stored
import StashMachine.Proofs.Widening

/-!
# StashMachine.Proofs.Limits — the integers that small variables hold

* `Primitive.limits?`: the least and the greatest integer of `byte`, `short` and `char`; `Value.inLimits`.
* `Value.inLimits_coerce`, `Value.inLimits_narrow`: conversions leave an integer alone, wherever it lies; casts cut what
  an operation yields.
* `Converts r i x y u`: the step converts `u` for the variable `x`, as the operand of an assignment or as an argument;
  `GotBy p m x y u`: an earlier step of the run has done so.
* `small_variables`: a variable holds an integer beyond the limits of its type if and only if it got it from a step that
  has converted a value beyond them.
* `byte_out_of_limits`: a `byte` that holds 300.
-/

namespace StashMachine

open Environment Step Machine

/-- The least and the greatest integer of a type whose values take up less than those of `int`. -/
def Primitive.limits? : Primitive → Option (Int × Int)
  | byte => some (-128, 127)
  | short => some (-32768, 32767)
  | char => some (0, 0xFFFF)
  | _ => none

/-- Whether a value stands for an integer within the limits of a type, if there are any. -/
def Value.inLimits (v : Value) (p : Primitive) : Bool :=
  match p.limits? with
  | some (low, high) => v.integer?.any (fun i => decide (low ≤ i) && decide (i ≤ high))
  | none => true

namespace Value

variable {op : BinaryOp} {a b u v w : Value} {p : Primitive} {n : Number} {c : Char}

theorem inLimits_of_limits? (h : p.limits? = none) : v.inLimits p = true := by
  rw [inLimits, h]

theorem inLimits_of_integer? {low high i : Int} (h : p.limits? = some (low, high)) (hi : v.integer? = some i)
    (hlow : low ≤ i) (hhigh : i ≤ high) : v.inLimits p = true := by
  simp [inLimits, h, hi, hlow, hhigh]

/-! ### Conversions -/

/-- The character with a code has this code. -/
theorem toNat_of_charOf? {k : Nat} (h : charOf? k = some c) : c.toNat = k ∧ k < 0x110000 := by
  unfold charOf? at h
  split at h
  · rename_i hvalid
    cases h
    refine ⟨?_, ?_⟩
    · rw [Char.ofNat, dif_pos hvalid]
      rfl
    · rw [Nat.isValidChar] at hvalid
      omega
  · cases h

/-- An integer that is the code of a character is not negative. -/
theorem toInt_of_charOf? {k : Int32} (h : charOf? k.toUInt32.toNat = some c) : k.toInt = c.toNat := by
  obtain ⟨hc, hk⟩ := toNat_of_charOf? h
  have htoInt : k.toInt = if 2 * k.toUInt32.toNat < 2 ^ 32 then (k.toUInt32.toNat : Int)
      else k.toUInt32.toNat - ((2 ^ 32 : Nat) : Int) := BitVec.toInt_eq_toNat_cond _
  rw [htoInt, hc, if_pos (by omega)]

/-- Conversions to small types take numbers and characters, and leave their integers alone. -/
theorem of_coerce (hp : p.limits? ≠ none) (h : u.coerce (.primitive p) = .ok w) :
    u.number?.isSome = true ∧ w.integer? = u.integer? := by
  cases p with
  | byte | short =>
    simp only [coerce, coercePrimitive] at h
    split at h
    · rename_i k hk
      cases h
      exact ⟨by rw [hk]; rfl, (integer?_of_number? hk).symm⟩
    · cases h
  | char =>
    simp only [coerce, coercePrimitive] at h
    split at h
    · cases h
      exact ⟨rfl, rfl⟩
    · split at h
      · rename_i k c hc
        cases h
        exact ⟨rfl, congrArg some (toInt_of_charOf? hc).symm⟩
      · cases h
    · cases h
  | _ => exact absurd rfl hp

/-- A conversion stays within the limits of a type if and only if it starts within them. -/
theorem inLimits_coerce (h : u.coerce (.primitive p) = .ok w) : w.inLimits p = u.inLimits p := by
  by_cases hp : p.limits? = none
  · rw [inLimits_of_limits? hp, inLimits_of_limits? hp]
  · rw [inLimits, inLimits, (of_coerce hp h).2]

/-! ### Casts -/

/-- No operation yields a character. -/
theorem ne_char_of_binary (h : binary op a b = .ok u) : u ≠ char c := by
  rintro rfl
  have hnumbers : onNumbers op a b (fun m n => (Number.arithmetic op m n).map number) ≠ .ok (char c) := by
    intro h
    unfold onNumbers at h
    split at h
    · rename_i m n _ _
      replace h : (Number.arithmetic op m n).map number = .ok (char c) := h
      cases hr : Number.arithmetic op m n <;> rw [hr] at h <;> cases h
    · cases h
  by_cases hop : op.isArithmetic = true
  · cases op with
    | add =>
      simp only [binary] at h
      split at h
      · cases h
      · exact hnumbers h
    | sub | mul | div | rem => exact hnumbers h
    | _ => cases hop
  · cases isOf_boolean_of_binary hop h

/-- A number is cut to the width of a small type. -/
theorem inLimits_castNumber (h : castNumber n p = .ok w) : w.inLimits p = true := by
  cases p with
  | byte =>
    cases h
    have hi : (n.toInt32.toInt8.toInt32).toInt = n.toInt32.toInt8.toInt := Int8.toInt_toInt32 _
    refine inLimits_of_integer? rfl (congrArg some hi) ?_ ?_
    · exact Int8.le_toInt _
    · have := Int8.toInt_lt n.toInt32.toInt8
      omega
  | short =>
    cases h
    have hi : (n.toInt32.toInt16.toInt32).toInt = n.toInt32.toInt16.toInt := Int16.toInt_toInt32 _
    refine inLimits_of_integer? rfl (congrArg some hi) ?_ ?_
    · exact Int16.le_toInt _
    · have := Int16.toInt_lt n.toInt32.toInt16
      omega
  | char =>
    simp only [castNumber] at h
    split at h
    · rename_i c hc
      cases h
      have hcode := (toNat_of_charOf? hc).1
      have hlt := UInt16.toNat_lt n.toInt32.toInt16.toUInt16
      exact inLimits_of_integer? (i := c.toNat) rfl rfl (by omega) (by omega)
    · cases h
  | _ => exact inLimits_of_limits? rfl

/-- Casting the result of an operation cuts it to the width of the type. -/
theorem inLimits_narrow (hu : binary op a b = .ok u) (h : u.narrow (.primitive p) = .ok w) : w.inLimits p = true := by
  by_cases hp : p.limits? = none
  · exact inLimits_of_limits? hp
  have hcoerced : ∀ v : Value, v.narrow (.primitive p) = v.coerce (.primitive p) →
      v.narrow (.primitive p) = .ok w → v.number?.isSome = true := by
    intro v heq hv
    exact (of_coerce hp (heq ▸ hv)).1
  cases u with
  | number n =>
    have hnumeric : p.isNumeric = true := by
      cases p <;> first | rfl | exact absurd rfl hp
    simp only [narrow, hnumeric, if_true] at h
    exact inLimits_castNumber h
  | char c => exact absurd rfl (ne_char_of_binary hu)
  | void | null | boolean _ | string _ | object _ _ | array _ _ _ =>
    cases hcoerced _ rfl h

theorem inLimits_default {t : TypeName} (ht : t = .primitive p) : (default t).inLimits p = true := by
  subst ht
  cases p <;> rfl

end Value

/-! ### What steps convert -/

/-- The step converts `u` for the variable `x`, which becomes `y`: the operand of an assignment to the variable, or the
argument for a parameter that becomes the variable. -/
inductive Converts (r : Registers) (i : Item) (x : VarId) (y : Variable) (u : Value) : Prop
  | operand {below : List StashItem} : i = .assign → r.stash = .value u :: .var x :: below → Converts r i x y u
  | argument {k : Closure} : Passes r i k ⟨y.type, y.name⟩ u → Converts r i x y u

/-- On its way to `m`, a step of the run has converted `u` for the variable `x`, which became `y`. -/
def GotBy (p : Program) (m : Machine) (x : VarId) (y : Variable) (u : Value) : Prop :=
  ∃ m₁ m₂ i c, Reached Natives.empty p m₁ ∧ m₁.registers.control = i :: c ∧ StepsTo m₁ m₂ ∧ m₂.steps ≤ m.steps ∧
    m₂.registers.env.var? x = some y ∧ Converts { m₁.registers with control := c } i x y u

section Conversions

variable {p : Program} {m m' : Machine} {r : Registers} {i : Item} {x : VarId} {y : Variable} {t : Primitive}
  {u v : Value}

/-- What a step stores in a small variable is within its limits, unless it converts a value. -/
theorem Stored.inLimits_or_converts (h : Stored r i x y) (ht : y.type = .primitive t) (hv : y.value = some v) :
    v.inLimits t = true ∨ ∃ u, Converts r i x y u ∧ u.coerce (.primitive t) = .ok v := by
  cases h with
  | declared => cases hv
  | default | field =>
    cases hv
    exact .inl (Value.inLimits_default ht)
  | length n =>
    cases ht
    exact .inl (Value.inLimits_of_limits? rfl)
  | receiver => cases ht
  | argument hpasses hcoerce =>
    cases hv
    exact .inr ⟨_, .argument hpasses, ht ▸ hcoerce⟩
  | assigned hi hstash hy hcoerce =>
    cases hv
    exact .inr ⟨_, .operand hi hstash, ht ▸ hcoerce⟩
  | narrowed hy hbinary hnarrow =>
    cases hv
    exact .inl (Value.inLimits_narrow hbinary (ht ▸ hnarrow))

/-- Whatever a run visits, a variable of a small type is within its limits, unless it got a value by a conversion. -/
theorem inLimits_or_gotBy (hm : Visited Natives.empty p m) (hy : m.registers.env.var? x = some y)
    (ht : y.type = .primitive t) (hv : y.value = some v) :
    v.inLimits t = true ∨ ∃ u, GotBy p m x y u ∧ u.coerce (.primitive t) = .ok v := by
  refine hm.forall_steps (P := fun m => ∀ x y t v, m.registers.env.var? x = some y → y.type = .primitive t →
    y.value = some v → v.inLimits t = true ∨ ∃ u, GotBy p m x y u ∧ u.coerce (.primitive t) = .ok v)
    (fun x y t v hy => ?_) (fun m₁ m₂ hm₁ ih hstep x y t v hy ht hv => ?_) x y t v hy ht hv
  · cases hy
  · obtain ⟨i, c, hc⟩ := hstep.exists_item
    rcases hstep.stored hc hy with hold | hstored
    · -- the variable is as it was before the step
      refine (ih x y t v hold ht hv).imp id ?_
      rintro ⟨u, ⟨m₃, m₄, i, c, hm₃, hc, hstep', hle, hgot⟩, hcoerce⟩
      exact ⟨u, ⟨m₃, m₄, i, c, hm₃, hc, hstep', Nat.le_trans hle hstep.steps_le, hgot⟩, hcoerce⟩
    · refine (hstored.inLimits_or_converts ht hv).imp id ?_
      rintro ⟨u, hconverts, hcoerce⟩
      exact ⟨u, ⟨m₁, m₂, i, c, hm₁, hc, hstep, Nat.le_refl _, hy, hconverts⟩, hcoerce⟩

/-- An assignment stores what its operand converts to. -/
theorem next_assign {c : List Item} {below : List StashItem} (hc : m.registers.control = .assign :: c)
    (hstash : m.registers.stash = .value u :: .var x :: below) (hy : m.registers.env.var? x = some y)
    (hcoerce : u.coerce y.type = .ok v) : ∃ m', Next Natives.empty m m' ∧
      m'.registers.env.var? x = some { y with value := some v } := by
  obtain ⟨⟨control, stash, env, output⟩, steps⟩ := m
  obtain rfl : control = _ := hc
  obtain rfl : stash = _ := hstash
  replace hy : env.var? x = some y := hy
  refine ⟨⟨⟨c, .value v :: below, env.assign x v, output⟩, steps + 1⟩, next_iff.mpr ⟨_, _, rfl, ?_, rfl⟩, ?_⟩
  · exact eq_ok_of_ends (by simp [perform, Step.assign, hy, hcoerce])
  · show (env.assign x v).var? x = _
    rw [var?_assign, if_pos rfl, hy]
    rfl

end Conversions

/-- In every state that a run visits, a variable of a small type holds an integer beyond the limits of its type if and
only if it got it from a step that converted a value beyond them, as the operand of an assignment or as an argument;
and every assignment stores such a value that its conversion takes. -/
theorem small_variables (p : Program) :
    (∀ m x y t v, Visited Natives.empty p m → m.registers.env.var? x = some y → y.type = .primitive t →
      y.value = some v →
      (v.inLimits t = false ↔ ∃ u, GotBy p m x y u ∧ u.coerce (.primitive t) = .ok v ∧ u.inLimits t = false)) ∧
    ∀ m c u x below y t v, Reached Natives.empty p m → m.registers.control = .assign :: c →
      m.registers.stash = .value u :: .var x :: below → m.registers.env.var? x = some y → y.type = .primitive t →
      u.coerce (.primitive t) = .ok v → u.inLimits t = false →
      ∃ m', Next Natives.empty m m' ∧ m'.registers.env.var? x = some { y with value := some v } ∧
        v.inLimits t = false := by
  refine ⟨fun m x y t v hm hy ht hv => ⟨fun hbeyond => ?_, ?_⟩, ?_⟩
  · rcases inLimits_or_gotBy hm hy ht hv with hlimits | ⟨u, hgot, hcoerce⟩
    · rw [hbeyond] at hlimits
      cases hlimits
    · exact ⟨u, hgot, hcoerce, by rw [← Value.inLimits_coerce hcoerce, hbeyond]⟩
  · rintro ⟨u, -, hcoerce, hbeyond⟩
    rw [Value.inLimits_coerce hcoerce, hbeyond]
  · intro m c u x below y t v _ hc hstash hy ht hcoerce hbeyond
    obtain ⟨m', hnext, hy'⟩ := next_assign hc hstash hy (ht ▸ hcoerce)
    exact ⟨m', hnext, hy', by rw [Value.inLimits_coerce hcoerce, hbeyond]⟩

/-- A program that assigns 300 to a `byte`. -/
def byteSource : String :=
  "class M \x7b static byte b; public static void main(String[] a) \x7b b = 300; \x7d \x7d"

/-- The `int` that is assigned next to a variable, with what is behind the assignment, the variable, and what is below
it. -/
def nextAssigned? (m : Machine) : Option (List Item × Int32 × VarId × Variable × List StashItem) :=
  match m.registers.control, m.registers.stash with
  | .assign :: c, .value (.number (.int n)) :: .var x :: below =>
    (m.registers.env.var? x).map (fun y => (c, n, x, y, below))
  | _, _ => none

theorem nextAssigned?_eq_some {m : Machine} {c : List Item} {n : Int32} {x : VarId} {y : Variable}
    {below : List StashItem} (h : nextAssigned? m = some (c, n, x, y, below)) :
    m.registers.control = .assign :: c ∧ m.registers.stash = .value (.int n) :: .var x :: below ∧
      m.registers.env.var? x = some y := by
  unfold nextAssigned? at h
  split at h
  · rename_i hcontrol hstash
    obtain ⟨y', hy, heq⟩ := Option.map_eq_some_iff.mp h
    cases heq
    exact ⟨hcontrol, hstash, hy⟩
  · cases h

/-- The assignment stores 300 in the `byte`, which got it by a conversion. -/
theorem small_variables_byte : ∃ p m m' x y v, Program.parse byteSource = .ok p ∧ Reached Natives.empty p m ∧
    Next Natives.empty m m' ∧ m'.registers.env.var? x = some y ∧ y.type = .primitive .byte ∧ y.value = some v ∧
    v.inLimits .byte = false ∧
    ∃ u, GotBy p m' x y u ∧ u.coerce (.primitive .byte) = .ok v ∧ u.inLimits .byte = false := by
  have hrun : (sample? byteSource 22).any (fun m => (nextAssigned? m).any (fun next =>
      next.2.1 == 300 && next.2.2.2.1.type == .primitive .byte)) = true := by
    rw [sample?_eq_parseDecoded?]
    decide +kernel
  obtain ⟨m, hm, hrun⟩ := (Option.any_eq_true _ _).mp hrun
  obtain ⟨p, hp, hreached⟩ := exists_of_sample? hm
  obtain ⟨⟨c, n, x, y, below⟩, hnext, hrun⟩ := (Option.any_eq_true _ _).mp hrun
  rw [Bool.and_eq_true, beq_iff_eq, beq_iff_eq] at hrun
  obtain ⟨rfl, htype⟩ : n = 300 ∧ y.type = .primitive .byte := hrun
  obtain ⟨hc, hstash, hy⟩ := nextAssigned?_eq_some hnext
  obtain ⟨hiff, hassign⟩ := small_variables p
  obtain ⟨m', hnext, hy', hbeyond⟩ := hassign m c (.int 300) x below y .byte (.int 300) hreached hc hstash hy htype rfl rfl
  exact ⟨p, m, m', x, _, _, hp, hreached, hnext, hy', htype, rfl, hbeyond,
    (hiff m' x _ .byte _ (.inl (hreached.next hnext)) hy' htype rfl).mp hbeyond⟩

/-- In a state of this run, a variable that is declared `byte` holds 300. -/
theorem byte_out_of_limits : ∃ p m x y, Program.parse byteSource = .ok p ∧ Visited Natives.empty p m ∧
    m.registers.env.var? x = some y ∧ y.type = .primitive .byte ∧ y.value.bind Value.integer? = some 300 := by
  have hrun : (sample? byteSource 23).any (fun m => (m.registers.env.var? 0).any (fun y =>
      y.type == .primitive .byte && y.value.bind Value.integer? == some 300)) = true := by
    rw [sample?_eq_parseDecoded?]
    decide +kernel
  obtain ⟨m, hm, hrun⟩ := (Option.any_eq_true _ _).mp hrun
  obtain ⟨p, hp, hreached⟩ := exists_of_sample? hm
  obtain ⟨y, hy, hrun⟩ := (Option.any_eq_true _ _).mp hrun
  rw [Bool.and_eq_true, beq_iff_eq, beq_iff_eq] at hrun
  exact ⟨p, m, 0, y, hp, .inl hreached, hy, hrun.1, hrun.2⟩

end StashMachine
