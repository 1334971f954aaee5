import Mathlib.Data.List.Forall2
import StashMachine.Proofs.Descent
import StashMachine.Proofs.Integral
import StashMachine.Proofs.Refinement

/-!
# StashMachine.Proofs.IntegralUpdates — updates of an integral variable

* `Update`: a compound assignment with the integer of its operand, or an increment; `Update.exact`: what it makes of
  an integer; `total n us`: the exact result of updates one after the other.
* `Primitive.reduced p i`: the value that a variable of the integral type `p` holds for the integer `i`.
* `Value.exists_narrow`: an update of a value of the type is the exact result, reduced once.
* `Poised`, `Undergoes`: a machine in front of an update of a variable, and the updates that a variable undergoes in a
  run.
* `integral_updates`: whatever else a run does, updates of a variable do not fail, and reduce the exact result of all of
  them once; expressions that update a variable run to their end.
-/

namespace StashMachine

open Environment Step Machine

/-! ### Integral types -/

namespace Primitive

/-- The types of integral variables. -/
def isIntegral : Primitive → Bool
  | byte | short | int | long => true
  | _ => false

/-- How many bits an integral variable has. -/
def bits : Primitive → Nat
  | byte => 8
  | short => 16
  | long => 64
  | _ => 32

/-- The kind of the values of an integral variable. -/
def kind : Primitive → Integral
  | long => .long
  | _ => .int

/-- The value that an integral variable holds for an integer. -/
def reduced (p : Primitive) (i : Int) : Value := p.kind.value (i.bmod (2 ^ p.bits))

end Primitive

/-- The operations that commute with reducing integers. -/
def BinaryOp.isRing : BinaryOp → Bool
  | add | sub | mul => true
  | _ => false

/-- An update of a variable: a compound assignment with an operand that stands for an integer, or an increment. -/
inductive Update
  | compound (op : BinaryOp) (y : Int)
  | increment (op : BinaryOp) (fix : Fixity)

namespace Update

/-- The operation of an update. -/
def op : Update → BinaryOp
  | compound op _ | increment op _ => op

/-- The integer of the operand on the right. -/
def operand : Update → Int
  | compound _ y => y
  | increment _ _ => 1

/-- What an update makes of an integer. -/
def exact (u : Update) (n : Int) : Int := u.op.exact n u.operand

/-- Which value an update leaves on the stash, the old one or the new one. -/
def answer : Update → Value → Value → Value
  | increment _ .post, old, _ => old
  | _, _, new => new

end Update

/-- The exact result of updates one after the other. -/
def total (n : Int) (us : List Update) : Int := us.foldl (fun i u => u.exact i) n

/-- What a variable holds after updates, if it held the value `v` of the integer `n` before them. -/
def updated (p : Primitive) (v : Value) (n : Int) : List Update → Value
  | [] => v
  | us => p.reduced (total n us)

/-! ### Reduced results -/

section Reduced

variable {p : Primitive} {k : Integral} {op : BinaryOp} {i j y n : Int} {v w b : Value} {u : Update}
  {us : List Update}

/-- A reduced integer is left alone by reductions to more bits. -/
theorem bmod_bmod_of_le {a b : Nat} (h : a ≤ b) (i : Int) : (i.bmod (2 ^ a)).bmod (2 ^ b) = i.bmod (2 ^ a) := by
  have hpow : 2 ^ a ≤ 2 ^ b := Nat.pow_le_pow_right (by decide) h
  have hlow := @Int.le_bmod i (2 ^ a) (Nat.two_pow_pos a)
  have hhigh := @Int.bmod_lt i (2 ^ a) (Nat.two_pow_pos a)
  exact Int.bmod_eq_of_le (by omega) (by omega)

namespace Primitive

theorem bits_le (p : Primitive) : p.bits ≤ p.kind.bits := by
  cases p <;> decide

theorem isOf_reduced (hp : p.isIntegral = true) (i : Int) : (p.reduced i).isOf p = true := by
  cases p <;> first | rfl | cases hp

theorem integer?_reduced (p : Primitive) (i : Int) : (p.reduced i).integer? = some (i.bmod (2 ^ p.bits)) := by
  rw [reduced, Integral.integer?_value, bmod_bmod_of_le p.bits_le]

theorem reduced_congr (h : i.bmod (2 ^ p.bits) = j.bmod (2 ^ p.bits)) : p.reduced i = p.reduced j := by
  rw [reduced, h, reduced]

end Primitive

/-- Numbers are cut to the width of a variable. -/
theorem narrow_value (hp : p.isIntegral = true) (hk : p = .long → k = .long) (i : Int) :
    (k.value i).narrow (.primitive p) = .ok (p.reduced i) := by
  have hint : (k.number i).toInt32 = Int32.ofInt i := by
    cases k with
    | int => rfl
    | long => exact Int64.toInt32_ofInt
  cases p with
  | byte =>
    refine congrArg (fun n => Except.ok (Value.int n)) (Int32.toInt.inj ?_)
    rw [hint, Int32.toInt8_ofInt, Int8.toInt_toInt32, Int8.toInt_ofInt, Int32.toInt_ofInt]
    exact (bmod_bmod_of_le (by decide : 8 ≤ 32) i).symm
  | short =>
    refine congrArg (fun n => Except.ok (Value.int n)) (Int32.toInt.inj ?_)
    rw [hint, Int32.toInt16_ofInt, Int16.toInt_toInt32, Int16.toInt_ofInt, Int32.toInt_ofInt]
    exact (bmod_bmod_of_le (by decide : 16 ≤ 32) i).symm
  | int =>
    refine congrArg (fun n => Except.ok (Value.int n)) (Int32.toInt.inj ?_)
    rw [hint, Int32.toInt_ofInt, Int32.toInt_ofInt]
    exact (bmod_bmod_of_le (Nat.le_refl 32) i).symm
  | long =>
    obtain rfl := hk rfl
    refine congrArg (fun n => Except.ok (Value.long n)) (Int64.toInt.inj ?_)
    rw [Integral.number, Number.toInt64, Int64.toInt_ofInt, Int64.toInt_ofInt]
    exact (bmod_bmod_of_le (Nat.le_refl 64) i).symm
  | _ => cases hp

/-- An update computes exactly, and reduces once to the width of the variable. -/
theorem exists_narrow (hp : p.isIntegral = true) (hop : op.isRing = true) (hv : v.isOf p = true)
    (hn : v.integer? = some n) (hb : b.integer? = some y) :
    ∃ r, Value.binary op v b = .ok r ∧ r.narrow (.primitive p) = .ok (p.reduced (op.exact n y)) := by
  have harith : op.isArithmetic = true := by
    cases op <;> first | rfl | cases hop
  have hzero : ¬ op.DividesByZero y := by
    rintro ⟨rfl | rfl, -⟩ <;> cases hop
  refine ⟨(Integral.common v b).value (op.exact n y), ?_, narrow_value hp ?_ (op.exact n y)⟩
  · rw [Value.binary_of_integers harith hn hb, if_neg hzero]
  · rintro rfl
    have hlong : v.isLong = true := by
      unfold Value.isOf at hv
      split at hv <;> simp_all [Value.isLong, Number.isLong]
    rw [Integral.common, hlong, Bool.true_or, if_pos rfl]

/-- Operations commute with reducing the integer on their left. -/
theorem exact_congr {w : Nat} (hop : op.isRing = true) (h : i.bmod w = j.bmod w) (y : Int) :
    (op.exact i y).bmod w = (op.exact j y).bmod w := by
  cases op with
  | add =>
    calc (i + y).bmod w = (i.bmod w + y).bmod w := Int.bmod_add_bmod.symm
      _ = (j + y).bmod w := by rw [h, Int.bmod_add_bmod]
  | sub =>
    calc (i - y).bmod w = (i.bmod w - y).bmod w := Int.bmod_sub_bmod.symm
      _ = (j - y).bmod w := by rw [h, Int.bmod_sub_bmod]
  | mul =>
    calc (i * y).bmod w = (i.bmod w * y).bmod w := Int.bmod_mul_bmod.symm
      _ = (j * y).bmod w := by rw [h, Int.bmod_mul_bmod]
  | _ => cases hop

theorem isOf_updated (hp : p.isIntegral = true) (hv : v.isOf p = true) (n : Int) (us : List Update) :
    (updated p v n us).isOf p = true := by
  cases us with
  | nil => exact hv
  | cons u us => exact Primitive.isOf_reduced hp _

/-- After an update, the exact result of all of them is reduced once. -/
theorem integer?_updated (p : Primitive) (hus : us ≠ []) (v : Value) (n : Int) :
    (updated p v n us).integer? = some ((total n us).bmod (2 ^ p.bits)) := by
  cases us with
  | nil => exact absurd rfl hus
  | cons u us => exact p.integer?_reduced _

/-- One update more of a value that has been updated. -/
theorem exists_updated (hp : p.isIntegral = true) (hv : v.isOf p = true) (hn : v.integer? = some n)
    (hu : u.op.isRing = true) (hb : b.integer? = some u.operand) (us : List Update) :
    ∃ r, Value.binary u.op (updated p v n us) b = .ok r ∧
      r.narrow (.primitive p) = .ok (updated p v n (us ++ [u])) := by
  -- the integer so far is the exact one up to a reduction, with which the next operation commutes
  obtain ⟨i, hi, hbmod⟩ : ∃ i, (updated p v n us).integer? = some i ∧
      i.bmod (2 ^ p.bits) = (total n us).bmod (2 ^ p.bits) := by
    by_cases hus : us = []
    · subst hus
      exact ⟨n, hn, rfl⟩
    · exact ⟨_, integer?_updated p hus v n, bmod_bmod_of_le (Nat.le_refl _) _⟩
  obtain ⟨r, hr, hnarrow⟩ := exists_narrow hp hu (isOf_updated hp hv n us) hi hb
  refine ⟨r, hr, ?_⟩
  have hlast : updated p v n (us ++ [u]) = p.reduced (total n (us ++ [u])) := by
    cases us <;> rfl
  rw [hnarrow, hlast, total, List.foldl_append]
  exact congrArg Except.ok (Primitive.reduced_congr (exact_congr hu hbmod _))

end Reduced

/-! ### Runs -/

/-- The variable is declared with the primitive type, and holds the value. -/
def Environment.Stores (env : Environment) (x : VarId) (p : Primitive) (w : Value) : Prop :=
  ∃ name, env.var? x = some ⟨name, .primitive p, some w⟩

/-- A step that cannot end otherwise ends with the registers that are asked for. -/
theorem Step.eq_ok_of_ends {x : Step Unit} {r r' : Registers}
    (h : Ends x r (fun _ r'' => r'' = r') (fun _ _ => False)) : x r = .ok () r' := by
  unfold Ends at h
  split at h
  · rename_i hx
    rw [hx, h]
  · cases h

namespace Machine

/-- The machine is about to perform an update on the value that the variable holds.  Behind it `K` is to do, and below
its operands `S` is on the stash. -/
def Poised (m : Machine) (x : VarId) (K : List Item) (S : List StashItem) : Update → Prop
  | .compound op y => m.registers.control = .compoundAssign op :: K ∧ ∃ b old, b.integer? = some y ∧
    m.registers.env.value x = .ok old ∧ m.registers.stash = .value b :: .value old :: .var x :: S
  | .increment op fix => m.registers.control = .increment op fix :: K ∧ m.registers.stash = .var x :: S

/-- The run from one machine to another one performs the updates on the variable, and no other step changes it. -/
inductive Undergoes (natives : Natives) (x : VarId) : Machine → List Update → Machine → Prop
  | done {m : Machine} : Undergoes natives x m [] m
  | other {m m₁ m' : Machine} {us : List Update} : m.Next natives m₁ →
    m₁.registers.env.var? x = m.registers.env.var? x → Undergoes natives x m₁ us m' → Undergoes natives x m us m'
  | update {m m₁ m' : Machine} {u : Update} {us : List Update} {K : List Item} {S : List StashItem} :
    m.Poised x K S u → m.Next natives m₁ → Undergoes natives x m₁ us m' → Undergoes natives x m (u :: us) m'

end Machine

section Runs

variable {natives : Natives} {m m' : Machine} {env : Environment} {x : VarId} {p : Primitive} {v w : Value} {n : Int}
  {u : Update} {us : List Update} {K : List Item} {S : List StashItem}

theorem Environment.Stores.value (h : env.Stores x p w) : env.value x = .ok w := by
  obtain ⟨name, hx⟩ := h
  rw [Environment.value, hx]

theorem Environment.Stores.assign (h : env.Stores x p v) (w : Value) : (env.assign x w).Stores x p w := by
  obtain ⟨name, hx⟩ := h
  exact ⟨name, by rw [var?_assign, if_pos rfl, hx]; rfl⟩

/-- A machine performs the update that it is in front of. -/
theorem Machine.Poised.next (natives : Natives) (hp : p.isIntegral = true) (hv : v.isOf p = true)
    (hn : v.integer? = some n) (hu : u.op.isRing = true) (hx : m.registers.env.Stores x p (updated p v n us))
    (h : m.Poised x K S u) :
    m.Next natives ⟨⟨K, .value (u.answer (updated p v n us) (updated p v n (us ++ [u]))) :: S,
      m.registers.env.assign x (updated p v n (us ++ [u])), m.registers.output⟩, m.steps + 1⟩ := by
  obtain ⟨⟨control, stash, env, out⟩, steps⟩ := m
  have hvalue : env.value x = .ok (updated p v n us) := hx.value
  obtain ⟨name, hvar⟩ : ∃ name, env.var? x = some ⟨name, .primitive p, some (updated p v n us)⟩ := hx
  rw [next_iff]
  cases u with
  | compound op y =>
    obtain ⟨hcontrol, b, old, hb, hold, hstash⟩ := h
    obtain rfl : updated p v n us = old := Except.ok.inj (hvalue.symm.trans hold)
    obtain ⟨r, hr, hnarrow⟩ := @exists_updated p n v b (.compound op y) hp hv hn hu hb us
    refine ⟨_, K, hcontrol, eq_ok_of_ends ?_, rfl⟩
    obtain rfl : stash = _ := hstash
    replace hr : Value.binary op (updated p v n us) b = .ok r := hr
    simp [perform, compoundAssign, hr, hvar, hnarrow, Update.answer]
  | increment op fix =>
    obtain ⟨hcontrol, hstash⟩ := h
    obtain ⟨r, hr, hnarrow⟩ := @exists_updated p n v (.int 1) (.increment op fix) hp hv hn hu rfl us
    have hnumeric : p.isNumeric = true := by
      cases p <;> first | rfl | cases hp
    refine ⟨_, K, hcontrol, eq_ok_of_ends ?_, rfl⟩
    obtain rfl : stash = _ := hstash
    replace hr : Value.binary op (updated p v n us) (.int 1) = .ok r := hr
    cases fix <;> simp [perform, increment, hr, hvar, hvalue, hnarrow, hnumeric, TypeName.isNumeric, Update.answer]

/-- What a variable holds after the updates of a run, behind those that are done. -/
theorem Machine.Undergoes.stores (h : m.Undergoes natives x us m') (hp : p.isIntegral = true) (hv : v.isOf p = true)
    (hn : v.integer? = some n) (hus : ∀ u ∈ us, u.op.isRing = true) (done : List Update)
    (hx : m.registers.env.Stores x p (updated p v n done)) :
    m'.registers.env.Stores x p (updated p v n (done ++ us)) := by
  induction h generalizing done with
  | done => rwa [List.append_nil]
  | other _ hkept _ ih => exact ih hus done (by rwa [Environment.Stores, hkept])
  | @update m m₁ m' u us K S hpoised hnext _ ih =>
    have hstep := hpoised.next natives hp hv hn (hus u (.head _)) hx
    obtain rfl := hnext.unique hstep
    rw [← List.singleton_append, ← List.append_assoc]
    exact ih (fun u' hu' => hus u' (.tail _ hu')) (done ++ [u]) (hx.assign _)

end Runs

/-! ### Expressions -/

/-- An expression that updates a variable under a name.  The operand is an integer, whatever the variable holds, and
changes nothing. -/
inductive Update.Denotes (env : Environment) (x : VarId) (name : Path) : Update → Expr → Prop
  | compound {op : BinaryOp} {y : Int} {e : Expr} : e.isCallFree = true →
    (∀ w, ∃ b, e.eval (env.assign x w) = .ok (.value b) (env.assign x w) ∧ b.integer? = some y) →
    Denotes env x name (.compound op y) (.compound op name e)
  | increment {op : BinaryOp} {fix : Fixity} : Denotes env x name (.increment op fix) (.increment op fix name)

/-- What updates leave on the stash, one after the other, behind those that are done. -/
def answersFrom (p : Primitive) (v : Value) (n : Int) (done : List Update) : List Update → List Value
  | [] => []
  | u :: us => u.answer (updated p v n done) (updated p v n (done ++ [u])) :: answersFrom p v n (done ++ [u]) us

section Expressions

variable {env : Environment} {x : VarId} {name : Path} {p : Primitive} {v w : Value} {n : Int} {u : Update} {e : Expr}
  {es : List Expr} {us done : List Update}

theorem Environment.assign_assign (env : Environment) (x : VarId) (v w : Value) :
    (env.assign x v).assign x w = env.assign x w := by
  unfold assign
  congr 1
  refine Array.ext (by simp) (fun i _ _ => ?_)
  by_cases hi : x = i <;> simp [Array.getElem_modify, hi]

theorem Environment.Stores.assign_self (h : env.Stores x p v) : env.assign x v = env := by
  obtain ⟨id, hx⟩ := h
  have hvars : env.vars.modify x (fun y => { y with value := some v }) = env.vars := by
    refine Array.ext (by simp) (fun i _ hi => ?_)
    by_cases hxi : x = i
    · subst hxi
      have hvar : env.vars[x] = ⟨id, .primitive p, some v⟩ := (Array.getElem?_eq_some_iff.mp hx).2
      simp [Array.getElem_modify, hvar]
    · simp [Array.getElem_modify, hxi]
  rw [Environment.assign, hvars]

theorem Update.Denotes.isCallFree (h : u.Denotes env x name e) : e.isCallFree = true := by
  cases h with
  | compound he _ => exact he
  | increment => rfl

/-- The evaluator performs an update. -/
theorem Update.Denotes.eval (h : u.Denotes env x name e)
    (hname : ∀ w, name.place (env.assign x w) = .ok (.var x) (env.assign x w)) (hp : p.isIntegral = true)
    (hv : v.isOf p = true) (hn : v.integer? = some n) (hu : u.op.isRing = true)
    (hx : (env.assign x (updated p v n done)).Stores x p (updated p v n done)) :
    e.eval (env.assign x (updated p v n done)) =
      .ok (.value (u.answer (updated p v n done) (updated p v n (done ++ [u]))))
        (env.assign x (updated p v n (done ++ [u]))) := by
  have hvalue := hx.value
  obtain ⟨id, hvar⟩ := hx
  cases h with
  | @compound op y e _ hoperand =>
    obtain ⟨b, he, hb⟩ := hoperand (updated p v n done)
    obtain ⟨r, hr, hnarrow⟩ := @exists_updated p n v b (.compound op y) hp hv hn hu hb done
    replace hr : Value.binary op (updated p v n done) b = .ok r := hr
    simp [Expr.eval, bind, EStateM.bind, hname, Place.target, Evaluation.ask, hvalue, he, Answer.get,
      Evaluation.check, hr, Evaluation.typeOf, hvar, hnarrow, Evaluation.store, pure, EStateM.pure,
      Environment.assign_assign, Update.answer]
  | @increment op fix =>
    obtain ⟨r, hr, hnarrow⟩ := @exists_updated p n v (.int 1) (.increment op fix) hp hv hn hu rfl done
    replace hr : Value.binary op (updated p v n done) (.int 1) = .ok r := hr
    have hnumeric : p.isNumeric = true := by
      cases p <;> first | rfl | cases hp
    cases fix <;>
      simp [Expr.eval, bind, EStateM.bind, hname, Place.target, Evaluation.ask, hvalue, Evaluation.check, hr,
        Evaluation.typeOf, hvar, hnumeric, TypeName.isNumeric, hnarrow, Evaluation.store, pure, EStateM.pure,
        Environment.assign_assign, Update.answer]

/-- The machine runs expressions that update a variable to their end. -/
theorem evaluate_updates (natives : Natives) (hus : List.Forall₂ (Update.Denotes env x name) us es)
    (hname : ∀ w, name.place (env.assign x w) = .ok (.var x) (env.assign x w)) (hp : p.isIntegral = true)
    (hv : v.isOf p = true) (hn : v.integer? = some n) (hring : ∀ u ∈ us, u.op.isRing = true)
    (hx : env.Stores x p v) (done : List Update) (K : List Item) (S : List StashItem) (out : List String)
    (steps : Nat) : ∃ k,
      evaluate natives k ⟨⟨es.map .expr ++ K, S, env.assign x (updated p v n done), out⟩, steps⟩ =
        .ok () ⟨⟨K, ((answersFrom p v n done us).map .value).reverse ++ S,
          env.assign x (updated p v n (done ++ us)), out⟩, steps + k⟩ := by
  induction hus generalizing done S steps with
  | nil =>
    rw [List.append_nil]
    exact ⟨0, rfl⟩
  | @cons u e us es hu _ ih =>
    have heval := hu.eval hname hp hv hn (hring u (.head _)) (hx.assign (updated p v n done))
    obtain ⟨k, -, hfirst⟩ := expression_refines natives e hu.isCallFree (es.map .expr ++ K) S
      (env.assign x (updated p v n done)) out steps
    rw [heval] at hfirst
    replace hfirst : evaluate natives k
        ⟨⟨(e :: es).map .expr ++ K, S, env.assign x (updated p v n done), out⟩, steps⟩ =
      .ok () ⟨⟨es.map .expr ++ K, .value (u.answer (updated p v n done) (updated p v n (done ++ [u]))) :: S,
        env.assign x (updated p v n (done ++ [u])), out⟩, steps + k⟩ := hfirst
    obtain ⟨l, hrest⟩ := ih (fun u' hu' => hring u' (.tail _ hu')) (done ++ [u])
      (.value (u.answer (updated p v n done) (updated p v n (done ++ [u]))) :: S) (steps + k)
    refine ⟨k + l, ?_⟩
    rw [evaluate_add, hfirst]
    simpa [answersFrom, Nat.add_assoc] using hrest

end Expressions

/-- Updates of an integral variable by sums, differences, products and increments.  Wherever a run performs them, an
update does not fail; it leaves the new value on the stash, or the old one if it is a postfix increment.  After one
update or more the variable holds the exact result of all of them, reduced once to the width of its type.  Expressions
that perform the updates one after the other run to their end. -/
theorem integral_updates (natives : Natives) {x : VarId} {p : Primitive} {v : Value} {n : Int} {us : List Update}
    (hp : p.isIntegral = true) (hv : v.isOf p = true) (hn : v.integer? = some n)
    (hring : ∀ u ∈ us, u.op.isRing = true) :
    (us ≠ [] → (updated p v n us).isOf p = true ∧
      (updated p v n us).integer? = some ((total n us).bmod (2 ^ p.bits))) ∧
    (∀ m m' : Machine, m.registers.env.Stores x p v → m.Undergoes natives x us m' →
      m'.registers.env.Stores x p (updated p v n us) ∧
      ∀ u K S, u.op.isRing = true → m'.Poised x K S u →
        let new := updated p v n (us ++ [u])
        m'.Next natives ⟨⟨K, .value (u.answer (updated p v n us) new) :: S, m'.registers.env.assign x new,
          m'.registers.output⟩, m'.steps + 1⟩) ∧
    ∀ (env : Environment) (name : Path) (es : List Expr), env.Stores x p v →
      (∀ w, name.place (env.assign x w) = .ok (.var x) (env.assign x w)) →
      List.Forall₂ (Update.Denotes env x name) us es → ∀ K S out steps, ∃ k,
        Machine.evaluate natives k ⟨⟨es.map .expr ++ K, S, env, out⟩, steps⟩ =
          .ok () ⟨⟨K, ((answersFrom p v n [] us).map .value).reverse ++ S, env.assign x (updated p v n us), out⟩,
            steps + k⟩ := by
  refine ⟨fun hne => ⟨isOf_updated hp hv n us, integer?_updated p hne v n⟩, fun m m' hx h => ?_, ?_⟩
  · have hx' : m'.registers.env.Stores x p (updated p v n us) := h.stores hp hv hn hring [] hx
    exact ⟨hx', fun u K S hu hpoised => hpoised.next natives hp hv hn hu hx'⟩
  · intro env name es hx hname hus K S out steps
    have hrun := evaluate_updates natives hus hname hp hv hn hring hx [] K S out steps
    have hstart : env.assign x (updated p v n []) = env := hx.assign_self
    rwa [hstart] at hrun

/-- A `byte` that holds 100 wraps around several times.  A postfix increment of 127 leaves 127, and the variable holds
-128. -/
theorem integral_updates_byte :
    let b : Path := .simple "b"
    let es : List Expr := [.compound .add b (.literal (.int 100)), .increment .add .post b,
      .compound .mul b (.literal (.long 3)), .increment .sub .pre b]
    let env := Environment.initial.addVariable ⟨"b", .primitive .byte, some (.int 100)⟩
    (∃ k, Machine.evaluate Natives.empty k ⟨⟨es.map .expr ++ [.pop], [], env, []⟩, 0⟩ =
      .ok () ⟨⟨[.pop], [.value (.int 90), .value (.int 91), .value (.int (-56)), .value (.int (-56))],
        env.assign 0 (.int 90), []⟩, 0 + k⟩) ∧
    ∃ m, Machine.Next Natives.empty ⟨⟨[.increment .add .post], [.var 0], env.assign 0 (.int 127), []⟩, 0⟩ m ∧
      m.registers.stash = [.value (.int 127)] ∧ m.registers.env.Stores 0 .byte (.int (-128)) := by
  intro b es env
  have hring : ∀ u ∈ [Update.compound .add 100, .increment .add .post, .compound .mul 3, .increment .sub .pre],
      u.op.isRing = true := by decide
  have hus : List.Forall₂ (Update.Denotes env 0 b) _ es :=
    .cons (.compound rfl (fun w => ⟨.int 100, rfl, rfl⟩)) (.cons .increment
      (.cons (.compound rfl (fun w => ⟨.long 3, rfl, rfl⟩)) (.cons .increment .nil)))
  constructor
  · obtain ⟨-, -, hrun⟩ := @integral_updates Natives.empty 0 .byte (.int 100) 100 _ rfl rfl rfl hring
    exact hrun env b es ⟨"b", rfl⟩ (fun w => rfl) hus [.pop] [] [] 0
  · have hx : (env.assign 0 (.int 127)).Stores 0 .byte (.int 127) := ⟨"b", rfl⟩
    obtain ⟨-, hbefore, -⟩ := @integral_updates Natives.empty 0 .byte (.int 127) 127 [] rfl rfl rfl (by simp)
    have hnext := (hbefore ⟨⟨[.increment .add .post], [.var 0], env.assign 0 (.int 127), []⟩, 0⟩ _ hx .done).2
      (.increment .add .post) [] [] rfl ⟨rfl, rfl⟩
    obtain ⟨-, hafter, -⟩ :=
      @integral_updates Natives.empty 0 .byte (.int 127) 127 [.increment .add .post] rfl rfl rfl (by decide)
    exact ⟨_, hnext, rfl, (hafter _ _ hx (.update (u := .increment .add .post) ⟨rfl, rfl⟩ hnext .done)).1⟩

end StashMachine
