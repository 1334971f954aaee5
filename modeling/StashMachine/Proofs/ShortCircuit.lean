import StashMachine.Machine.Program
import StashMachine.Proofs.Descent

/-!
# StashMachine.Proofs.ShortCircuit — the operators that may leave their right operand alone

`&&` and `||` are run by a branch on the value of the left operand; the operator itself is never applied.

* `BinaryOp.deciding`: the truth value on the left that decides; `BinaryOp.shortCut`: the branch.
* `EvaluatesTo natives e v m m'`: the run from `m` evaluates `e` to `v` and is at `m'` then.
* `Value.binary_deciding`, `Value.binary_passing`, `Value.binary_refused`: the operators applied to values.
* `AfterLeft`, `ShortCircuits`: where the run stands when the left operand has been evaluated, and what it comes to
  from there.
* `short_circuit`: the branch agrees with the operator on the left operand, and on the right operand exactly if
  that is a truth value.  `right_operand_unchecked`: the machine takes any other value for the result, where the
  operator has none.
-/

namespace StashMachine

open Step Machine

/-- The truth value on the left that decides, whatever is on the right. -/
def BinaryOp.deciding : BinaryOp → Bool
  | .or => true
  | _ => false

/-- What follows the left operand of `&&` or `||` on control. -/
def BinaryOp.shortCut (op : BinaryOp) (r : Expr) : Item :=
  let decided := [.expr (.literal (.boolean op.deciding))]
  if op.deciding then .branch decided [.expr r] else .branch [.expr r] decided

/-- From `m`, where `e` is next on control, the run comes back to what is below `e`, at `m'` and with the value
`v` put on the stash. -/
def Machine.EvaluatesTo (natives : Natives) (e : Expr) (v : Value) (m m' : Machine) : Prop :=
  ∃ K, m.registers.control = .expr e :: K ∧ Until natives K.length m m' ∧ m'.registers.control = K ∧
    m'.registers.stash = .value v :: m.registers.stash

section Operators

variable {op : BinaryOp} {a b : Value}

/-! ### The operators on values -/

theorem Value.binary_deciding (hop : op = .and ∨ op = .or) (c : Bool) :
    Value.binary op (.boolean op.deciding) (.boolean c) = .ok (.boolean op.deciding) := by
  rcases hop with rfl | rfl
  · rfl
  · rfl

/-- The other truth value leaves the result to the right operand. -/
theorem Value.binary_passing (hop : op = .and ∨ op = .or) (c : Bool) :
    Value.binary op (.boolean !op.deciding) (.boolean c) = .ok (.boolean c) := by
  rcases hop with rfl | rfl
  · rfl
  · rfl

theorem Value.binary_refused (hop : op = .and ∨ op = .or)
    (hbad : (∀ c, a ≠ .boolean c) ∨ ∀ c, b ≠ .boolean c) :
    Value.binary op a b = .error (Value.badOperands op a b) := by
  rcases hop with rfl | rfl
  all_goals
    simp only [Value.binary]
    split
    · rcases hbad with ha | hb
      · exact (ha _ rfl).elim
      · exact (hb _ rfl).elim
    · rfl

end Operators

/-! ### The branch -/

section Branch

variable (natives : Natives) {op : BinaryOp} {l r : Expr} {K : List Item} {m m₁ : Machine} {a : Value}

theorem next_shortCircuit (hop : op = .and ∨ op = .or) (hm : m.registers.control = .expr (.binary op l r) :: K) :
    ∃ m₀, Next natives m m₀ ∧ m₀.registers = { m.registers with control := .expr l :: op.shortCut r :: K } := by
  refine exists_next natives (Q := fun r' => r' = { m.registers with control := .expr l :: op.shortCut r :: K })
    hm ?_
  rcases hop with rfl | rfl
  · rfl
  · rfl

/-- A truth value in front of the branch says what comes next. -/
theorem next_shortCut {c : Bool} {s : List StashItem} (hm : m₁.registers.control = op.shortCut r :: K)
    (hs : m₁.registers.stash = .value (.boolean c) :: s) :
    ∃ m₂, Next natives m₁ m₂ ∧ m₂.registers =
      ⟨.expr (if c = op.deciding then .literal (.boolean op.deciding) else r) :: K, s, m₁.registers.env,
        m₁.registers.output⟩ := by
  obtain ⟨⟨control, stash, env, out⟩, steps⟩ := m₁
  replace hs : stash = .value (.boolean c) :: s := hs
  subst hs
  refine exists_next natives (Q := fun r' => r' =
    ⟨.expr (if c = op.deciding then .literal (.boolean op.deciding) else r) :: K, s, env, out⟩) hm ?_
  unfold BinaryOp.shortCut
  cases op.deciding <;> cases c <;> rfl

/-- Any other value stops the branch. -/
theorem evaluate_shortCut {s : List StashItem} (hm : m₁.registers.control = op.shortCut r :: K)
    (hs : m₁.registers.stash = .value a :: s) (ha : ∀ c, a ≠ .boolean c) :
    ∃ m', evaluate natives 1 m₁ = .error (.typeMismatch (.conversion a.type (.primitive .boolean))) m' ∧
      m'.registers = { m₁.registers with control := K, stash := s } := by
  obtain ⟨⟨control, stash, env, out⟩, steps⟩ := m₁
  replace hm : control = op.shortCut r :: K := hm
  replace hs : stash = .value a :: s := hs
  subst hm hs
  rw [evaluate_one_cons]
  have hbranch : ∀ yes no, branch yes no ⟨K, .value a :: s, env, out⟩ =
      .error (.typeMismatch (.conversion a.type (.primitive .boolean))) ⟨K, s, env, out⟩ := by
    intro yes no
    cases a with
    | boolean c => exact (ha c rfl).elim
    | _ => rfl
  unfold BinaryOp.shortCut
  cases op.deciding
  · exact ⟨_, by rw [if_neg Bool.false_ne_true, perform, hbranch], rfl⟩
  · exact ⟨_, by rw [if_pos rfl, perform, hbranch], rfl⟩

end Branch

/-! ### After the left operand -/

/-- From `m` on, where `l op r` is next on control, the run has evaluated `l` to `a` and is at `m₁`. -/
structure Machine.AfterLeft (natives : Natives) (op : BinaryOp) (l r : Expr) (K : List Item) (m : Machine)
    (a : Value) (m₁ : Machine) : Prop where
  start : m.registers.control = .expr (.binary op l r) :: K
  control : m₁.registers.control = op.shortCut r :: K
  stash : m₁.registers.stash = .value a :: m.registers.stash
  /-- The rest of the run makes up the evaluation of the whole. -/
  rest : ∀ m', Until natives K.length m₁ m' → Until natives K.length m m'

/-- What the evaluation of `l op r` from `m` on comes to, after `l` has been evaluated to `a` and the run is at
`m₁`. -/
structure Machine.ShortCircuits (natives : Natives) (op : BinaryOp) (l r : Expr) (K : List Item) (m : Machine)
    (a : Value) (m₁ : Machine) : Prop where
  /-- The deciding truth value is the result after two more steps, and these evaluate a literal.  So it is for the
  operator on it and any truth value. -/
  decided : a = .boolean op.deciding →
    (∃ m₂ m', Next natives m₁ m₂ ∧ m₂.registers.control = .expr (.literal (.boolean op.deciding)) :: K ∧
      Next natives m₂ m' ∧ EvaluatesTo natives (.binary op l r) a m m' ∧
      m'.registers.env = m₁.registers.env ∧ m'.registers.output = m₁.registers.output) ∧
    ∀ c, Value.binary op a (.boolean c) = .ok a
  /-- Anything but a truth value stops the run at the branch, and the operator has no result for it either. -/
  refused : (∀ c, a ≠ .boolean c) →
    (∃ m', evaluate natives 1 m₁ = .error (.typeMismatch (.conversion a.type (.primitive .boolean))) m' ∧
      m'.registers.env = m₁.registers.env ∧ m'.registers.output = m₁.registers.output) ∧
    ∀ b, Value.binary op a b = .error (.typeMismatch (.operands op a.type b.type))
  /-- After the other truth value the right operand is evaluated.  Its value is the result, and it is that of the
  operator exactly if it is a truth value. -/
  passed : a = .boolean !op.deciding → ∃ m₂, Next natives m₁ m₂ ∧
    m₂.registers = ⟨.expr r :: K, m.registers.stash, m₁.registers.env, m₁.registers.output⟩ ∧
    ∀ b m', EvaluatesTo natives r b m₂ m' → EvaluatesTo natives (.binary op l r) b m m' ∧
      ((∃ c, b = .boolean c) → Value.binary op a b = .ok b) ∧
      ((∀ c, b ≠ .boolean c) → Value.binary op a b = .error (.typeMismatch (.operands op a.type b.type)))

section AfterLeft

variable {natives : Natives} {op : BinaryOp} {l r : Expr} {K : List Item} {m m₀ m₁ m' : Machine} {a v : Value}

theorem Machine.EvaluatesTo.afterLeft (hm : m.registers.control = .expr (.binary op l r) :: K)
    (hnext : Next natives m m₀)
    (hm₀ : m₀.registers = { m.registers with control := .expr l :: op.shortCut r :: K })
    (hl : EvaluatesTo natives l a m₀ m₁) : AfterLeft natives op l r K m a m₁ := by
  obtain ⟨K', hcontrol, hu₁, hcontrol₁, hstash₁⟩ := hl
  rw [hm₀] at hcontrol hstash₁
  cases hcontrol
  refine ⟨hm, hcontrol₁, hstash₁, fun m' hu => ?_⟩
  have hheight₀ : K.length < m₀.height := by
    rw [height, hm₀]
    exact Nat.lt_succ_of_lt (Nat.lt_succ_self _)
  have hheight₁ : K.length < m₁.height := by
    rw [height, hcontrol₁]
    exact Nat.lt_succ_self _
  exact .next hnext hheight₀ (hu₁.trans (Nat.le_succ _) hheight₁ hu)

/-- What the branch goes on with is evaluated to the result of the whole. -/
theorem Machine.AfterLeft.evaluatesTo {m₂ : Machine} {e : Expr} (h : AfterLeft natives op l r K m a m₁)
    (hnext : Next natives m₁ m₂)
    (hm₂ : m₂.registers = ⟨.expr e :: K, m.registers.stash, m₁.registers.env, m₁.registers.output⟩)
    (he : EvaluatesTo natives e v m₂ m') : EvaluatesTo natives (.binary op l r) v m m' := by
  obtain ⟨K', hcontrol, hu, hcontrol', hstash'⟩ := he
  rw [hm₂] at hcontrol hstash'
  cases hcontrol
  have hheight : K.length < m₂.height := by
    rw [height, hm₂]
    exact Nat.lt_succ_self _
  exact ⟨K, h.start, h.rest m' (.next hnext hheight hu), hcontrol', hstash'⟩

/-- A literal is evaluated in one step. -/
theorem exists_next_literal {m₂ : Machine} {lit : Literal} {s : List StashItem} {env : Environment}
    {out : List String} (hm₂ : m₂.registers = ⟨.expr (.literal lit) :: K, s, env, out⟩) :
    ∃ m', Next natives m₂ m' ∧ EvaluatesTo natives (.literal lit) (.ofLiteral lit) m₂ m' ∧
      m'.registers.env = env ∧ m'.registers.output = out := by
  have hcontrol : m₂.registers.control = .expr (.literal lit) :: K := by rw [hm₂]
  obtain ⟨m', hnext, hm'⟩ := exists_next natives
    (Q := fun r' => r' = ⟨K, .value (.ofLiteral lit) :: s, env, out⟩) hcontrol (by rw [hm₂]; rfl)
  have hheight : m'.height ≤ K.length := Nat.le_of_eq (by rw [height, hm'])
  refine ⟨m', hnext, ⟨K, hcontrol, .last hnext hheight, ?_, ?_⟩, ?_, ?_⟩
  · rw [hm']
  · rw [hm', hm₂]
  · rw [hm']
  · rw [hm']

theorem Machine.AfterLeft.shortCircuits (hop : op = .and ∨ op = .or) (h : AfterLeft natives op l r K m a m₁) :
    ShortCircuits natives op l r K m a m₁ := by
  refine ⟨?_, fun ha => ⟨?_, fun b => Value.binary_refused hop (.inl ha)⟩, ?_⟩
  · rintro rfl
    refine ⟨?_, Value.binary_deciding hop⟩
    obtain ⟨m₂, hnext₂, hm₂⟩ := next_shortCut natives h.control h.stash
    rw [if_pos rfl] at hm₂
    obtain ⟨m', hnext', hliteral, henv, hout⟩ := exists_next_literal hm₂
    exact ⟨m₂, m', hnext₂, by rw [hm₂], hnext', h.evaluatesTo hnext₂ hm₂ hliteral, henv, hout⟩
  · obtain ⟨m', hfault, hm'⟩ := evaluate_shortCut natives h.control h.stash ha
    exact ⟨m', hfault, by rw [hm'], by rw [hm']⟩
  · rintro rfl
    obtain ⟨m₂, hnext₂, hm₂⟩ := next_shortCut natives h.control h.stash
    rw [if_neg (by simp)] at hm₂
    refine ⟨m₂, hnext₂, hm₂, fun b m' hr => ⟨h.evaluatesTo hnext₂ hm₂ hr, ?_, ?_⟩⟩
    · rintro ⟨c, rfl⟩
      exact Value.binary_passing hop c
    · exact fun hb => Value.binary_refused hop (.inr hb)

end AfterLeft

/-- The left operand of `&&` or `||` is evaluated first, with the right one waiting behind the branch only.  From
its value on, the run short-circuits. -/
theorem short_circuit {natives : Natives} {op : BinaryOp} {l r : Expr} {K : List Item} {m : Machine}
    (hop : op = .and ∨ op = .or) (hm : m.registers.control = .expr (.binary op l r) :: K) :
    ∃ m₀, Next natives m m₀ ∧ m₀.registers = { m.registers with control := .expr l :: op.shortCut r :: K } ∧
      ∀ a m₁, EvaluatesTo natives l a m₀ m₁ → ShortCircuits natives op l r K m a m₁ := by
  obtain ⟨m₀, hnext, hm₀⟩ := next_shortCircuit natives hop hm
  exact ⟨m₀, hnext, hm₀, fun a m₁ hl => (hl.afterLeft hm hnext hm₀).shortCircuits hop⟩

/-- In `1 == 2 || true` the left operand does not decide. -/
theorem short_circuit_passes :
    let l : Expr := .binary .eq (.literal (.int 1)) (.literal (.int 2))
    let r : Expr := .literal (.boolean true)
    let m := Machine.initial.loadExpr (.binary .or l r)
    ∃ m', EvaluatesTo Natives.empty (.binary .or l r) (.boolean true) m m' ∧
      Value.binary .or (.boolean false) (.boolean true) = .ok (.boolean true) := by
  intro l r m
  obtain ⟨m₀, hnext, -, hall⟩ := @short_circuit Natives.empty .or l r [] m (.inr rfl) rfl
  let branch := BinaryOp.shortCut .or r
  let m₁ : Machine := ⟨⟨[branch], [.value (.boolean false)], .initial, []⟩, 5⟩
  let m₃ : Machine := ⟨⟨[], [.value (.boolean true)], .initial, []⟩, 7⟩
  have hfirst : Next Natives.empty m ⟨⟨[.expr l, branch], [], .initial, []⟩, 1⟩ := ⟨rfl, rfl⟩
  cases hnext.unique hfirst
  have hleft : EvaluatesTo Natives.empty l (.boolean false) ⟨⟨[.expr l, branch], [], .initial, []⟩, 1⟩ m₁ :=
    ⟨[branch], rfl, until_of_until? (n := 4) rfl, rfl, rfl⟩
  obtain ⟨m₂, hnext₂, -, hright⟩ := (hall _ _ hleft).passed rfl
  have hbranch : Next Natives.empty m₁ ⟨⟨[.expr r], [], .initial, []⟩, 6⟩ := ⟨rfl, rfl⟩
  cases hnext₂.unique hbranch
  obtain ⟨hwhole, hagrees, -⟩ := hright _ m₃ ⟨[], rfl, until_of_until? (n := 1) rfl, rfl, rfl⟩
  exact ⟨m₃, hwhole, hagrees ⟨true, rfl⟩⟩

/-- `true && 5` is evaluated to `5`, although the operator has no result for such operands. -/
theorem right_operand_unchecked :
    let l : Expr := .literal (.boolean true)
    let r : Expr := .literal (.int 5)
    let m := Machine.initial.loadExpr (.binary .and l r)
    (Machine.runExpr "true && 5" Budget.standard).map Prod.fst = .ok (.int 5) ∧
    (∃ m₀ m₁ m₂ m', Next Natives.empty m m₀ ∧ EvaluatesTo Natives.empty l (.boolean true) m₀ m₁ ∧
      Next Natives.empty m₁ m₂ ∧ EvaluatesTo Natives.empty r (.int 5) m₂ m' ∧
      EvaluatesTo Natives.empty (.binary .and l r) (.int 5) m m') ∧
    Value.binary .and (.boolean true) (.int 5) =
      .error (.typeMismatch (.operands .and (.primitive .boolean) (.primitive .int))) := by
  intro l r m
  let branch := BinaryOp.shortCut .and r
  let m₀ : Machine := ⟨⟨[.expr l, branch], [], .initial, []⟩, 1⟩
  let m₁ : Machine := ⟨⟨[branch], [.value (.boolean true)], .initial, []⟩, 2⟩
  let m₂ : Machine := ⟨⟨[.expr r], [], .initial, []⟩, 3⟩
  let m' : Machine := ⟨⟨[], [.value (.int 5)], .initial, []⟩, 4⟩
  have h₀ : Next Natives.empty m m₀ := ⟨rfl, rfl⟩
  have h₁ : Next Natives.empty m₀ m₁ := ⟨rfl, rfl⟩
  have h₂ : Next Natives.empty m₁ m₂ := ⟨rfl, rfl⟩
  have h₃ : Next Natives.empty m₂ m' := ⟨rfl, rfl⟩
  refine ⟨rfl, ⟨m₀, m₁, m₂, m', h₀, ?_, h₂, ?_, ?_⟩, rfl⟩
  · exact ⟨[branch], rfl, .last h₁ (by decide), rfl, rfl⟩
  · exact ⟨[], rfl, .last h₃ (by decide), rfl, rfl⟩
  · exact ⟨[], rfl, .next h₀ (by decide) (.next h₁ (by decide) (.next h₂ (by decide) (.last h₃ (by decide)))),
      rfl, rfl⟩

end StashMachine
