import StashMachine.Proofs.Leads
import StashMachine.Proofs.Rendering
import Mathlib.Tactic.IntervalCases

/-!
# StashMachine.Proofs.Operands — expressions are read back from their tokens

* `operand k`: the pattern of the operands of a level; `Stops k s`: tokens that no operator of the level `k` or a
  tighter one goes on with.
* `Readable j e us`: the tokens `us` are read as the expression `e`, in every place that asks for a level up to `j`.
* `Chained k e us`: the first operand of a chain of a level and the rounds behind it fold to `e`, whatever rounds follow.
* `readable`: the ways to write a proper expression are readable.
-/

namespace StashMachine

open Grammar Pattern

/-! ### Levels of the grammar -/

/-- The pattern of the operands of a level. -/
def operand : Nat → Pattern
  | 0 => rule .expression
  | 1 => rule .conditionalOr
  | 2 => rule .conditionalAnd
  | 3 => rule .equality
  | 4 => rule .relational
  | 5 => rule .additive
  | 6 => rule .multiplicative
  | _ => Grammar.unary

/-- The rule of the chains of a level. -/
def chainRule : Nat → Rule
  | 1 => .conditionalOr
  | 2 => .conditionalAnd
  | 3 => .equality
  | 4 => .relational
  | 5 => .additive
  | _ => .multiplicative

/-- The rule of the operators of a level. -/
def operatorRule : Nat → Rule
  | 1 => .orOp
  | 2 => .andOp
  | 3 => .equalityOp
  | 4 => .relationalOp
  | 5 => .additiveOp
  | _ => .multiplicativeOp

/-- An operator and the operand behind it. -/
def round (k : Nat) : Pattern := seq (rule (operatorRule k)) (operand (k + 1))

/-- The symbols that may follow an operand of a level: closing ones, and the operators that bind less tightly. -/
def enders (k : Nat) : List Token :=
  [")", "\x7d", ",", ";", ":"] ++ (BinaryOp.all.filter (fun op => op.level < k)).map BinaryOp.symbol

/-- Nothing follows, or a symbol that ends an operand of the level. -/
def Stops (k : Nat) (s : List Token) : Prop := ∀ t s', s = t :: s' → t ∈ enders k

/-- How the source goes on behind an operand of a level. -/
def stopLeads (k : Nat) : List Lead := .done :: (enders k).map .symbol

section Levels

variable {k : Nat} {s : List Token}

theorem Stops.leads (h : Stops k s) : ∃ l ∈ stopLeads k, Leads l s := by
  cases s with
  | nil => exact ⟨.done, .head _, leads_nil⟩
  | cons t s => exact ⟨.symbol t, .tail _ (List.mem_map_of_mem (h t s rfl)), leads_symbol t s⟩

theorem Stops.mono {k' : Nat} (h : Stops k s) (hk : k ≤ k') : Stops k' s := by
  intro t s' hs
  have ht := h t s' hs
  simp only [enders, List.mem_append, List.mem_map, List.mem_filter, decide_eq_true_eq] at ht ⊢
  rcases ht with ht | ⟨op, ⟨hall, hop⟩, rfl⟩
  · exact .inl ht
  · exact .inr ⟨op, ⟨hall, by omega⟩, rfl⟩

theorem stops_cons {t : Token} (h : t ∈ enders k) (s : List Token) : Stops k (t :: s) := by
  intro t' s' hs
  cases hs
  exact h

theorem BinaryOp.mem_all (op : BinaryOp) : op ∈ BinaryOp.all := by
  cases op <;> decide

/-- An operator ends the operands of tighter levels. -/
theorem stops_operator {op : BinaryOp} (h : op.level < k) (s : List Token) : Stops k (op.symbol :: s) := by
  refine stops_cons ?_ s
  simp only [enders, List.mem_append, List.mem_map, List.mem_filter, decide_eq_true_eq]
  exact .inr ⟨op, ⟨op.mem_all, h⟩, rfl⟩

theorem chainRule_spacing (k : Nat) : (chainRule k).spacing = .free := by
  unfold chainRule
  split <;> rfl

theorem operand_eq (h : 1 ≤ k) (h' : k ≤ 6) : operand k = rule (chainRule k) := by
  interval_cases k <;> rfl

theorem chainRule_body (h : 1 ≤ k) (h' : k ≤ 6) :
    (chainRule k).body = seq (operand (k + 1)) (many (round k)) := by
  interval_cases k <;> rfl

theorem ofTree_chain (h : 1 ≤ k) (h' : k ≤ 6) (start : Nat) (text : String) (first : Tree) (more : List Tree) :
    Expr.ofTree (.node (chainRule k) start text (first :: more)) =
      (do Expr.chainOf (← Expr.ofTree first) more) := by
  interval_cases k <;> rfl

/-- Where an operand of a level ends, so does the chain of the level. -/
theorem Stops.fails_round (h : Stops k s) (hk : 1 ≤ k) (hk' : k ≤ 6) : Fails (round k) s := by
  have hall : ∀ k : Fin 6, (rule (operatorRule (k + 1))).failsAt (stopLeads (k + 1)) = true := by
    decide
  obtain ⟨n, rfl⟩ : ∃ n, k = n + 1 := ⟨k - 1, by omega⟩
  exact (Fails.of_leads h.leads (hall ⟨n, by omega⟩)).seqFirst

/-- An operator is read. -/
theorem gives_operator (op : BinaryOp) (s : List Token) :
    Gives (rule (operatorRule op.level)) (op.symbol :: s) s (Leaf (operatorRule op.level) op.symbol) := by
  cases op
  case or => exact @gives_sign _ ["||"] _ rfl rfl (by decide) (by decide) s
  case and => exact @gives_sign _ ["&&"] _ rfl rfl (by decide) (by decide) s
  case eq | ne => exact @gives_sign _ ["==", "!="] _ rfl rfl (by decide) (by decide) s
  case lt | le | gt | ge => exact @gives_sign _ ["<=", ">=", "<", ">"] _ rfl rfl (by decide) (by decide) s
  case add | sub => exact @gives_sign _ ["+", "-"] _ rfl rfl (by decide) (by decide) s
  case mul | div | rem => exact @gives_sign _ ["*", "/", "%"] _ rfl rfl (by decide) (by decide) s

end Levels

/-! ### Readable tokens -/

/-- One tree, which is read as the expression. -/
def ReadsAs (e : Expr) (ts : List Tree) : Prop := ∃ t, ts = [t] ∧ Expr.ofTree t = .ok e

/-- In front of what may follow, the tokens are an operand of the level and read as the expression. -/
def IsOperand (k : Nat) (e : Expr) (us : List Token) : Prop :=
  ∀ s, Stops k s → Gives (operand k) (us ++ s) s (ReadsAs e)

/-- The tokens are the beginning of a chain of the level: whatever rounds follow, the first operand and the rounds
before them fold to the expression. -/
def Chained (k : Nat) (e : Expr) (us : List Token) : Prop :=
  ∀ s, Stops (k + 1) s → ∃ e₀ s₁, Gives (operand (k + 1)) (us ++ s) s₁ (ReadsAs e₀) ∧
    ∀ s' Q, Gives (many (round k)) s s' Q → Gives (many (round k)) s₁ s'
      (fun ts => ∃ vs ws, ts = vs ++ ws ∧ Q ws ∧ ∀ more, Expr.chainOf e₀ (vs ++ more) = Expr.chainOf e more)

/-- The tokens are read as the expression in every place that asks for a level up to `j`. -/
structure Readable (j : Nat) (e : Expr) (us : List Token) : Prop where
  operand : ∀ k ≤ j, IsOperand k e us
  chained : ∀ k, 1 ≤ k → k ≤ 6 → k ≤ j → Chained k e us
  /-- They are not taken for an assignment. -/
  unassigned : 1 ≤ j → ∀ s, Stops 7 s → Fails (rule .assignment) (us ++ s)

section Chains

variable {k : Nat} {e l r : Expr} {us vs : List Token} {op : BinaryOp}

/-- A single operand is a chain. -/
theorem IsOperand.chained (h : IsOperand (k + 1) e us) : Chained k e us := by
  intro s hs
  refine ⟨e, s, h s hs, fun s' Q hQ => hQ.mono (fun ts hts => ?_)⟩
  exact ⟨[], ts, rfl, hts, fun more => rfl⟩

/-- A chain is an operand of its level. -/
theorem Chained.isOperand (h : Chained k e us) (hk : 1 ≤ k) (hk' : k ≤ 6) : IsOperand k e us := by
  intro s hs
  obtain ⟨e₀, s₁, hfirst, hrounds⟩ := h s (hs.mono (Nat.le_succ k))
  have hend : Gives (many (round k)) s s Bare := .manyNone (hs.fails_round hk hk')
  have hall := hfirst.seq (hrounds s Bare hend)
  rw [← chainRule_body hk hk'] at hall
  rw [operand_eq hk hk']
  refine (hall.rule (chainRule_spacing k)).mono ?_
  rintro _ ⟨start, text, _, rfl, _, _, rfl, ⟨t, rfl, ht⟩, ws, _, rfl, rfl, hfold⟩
  refine ⟨_, rfl, ?_⟩
  rw [List.singleton_append, ofTree_chain hk hk', ht]
  change Expr.chainOf e₀ (ws ++ []) = .ok e
  rw [hfold]
  rfl

/-- One operator more. -/
theorem Chained.binary (hl : Chained op.level l us) (hr : IsOperand (op.level + 1) r vs) :
    Chained op.level (.binary op l r) (us ++ op.symbol :: vs) := by
  intro s hs
  have hnext : Stops (op.level + 1) (op.symbol :: (vs ++ s)) := stops_operator (Nat.lt_succ_self _) _
  obtain ⟨e₀, s₁, hfirst, hrounds⟩ := hl _ hnext
  refine ⟨e₀, s₁, by rwa [List.append_assoc, List.cons_append], fun s' Q hQ => ?_⟩
  have hround : Gives (round op.level) (op.symbol :: (vs ++ s)) s _ := (gives_operator op _).seq (hr s hs)
  refine (hrounds s' _ (hround.manyMore hQ)).mono ?_
  rintro _ ⟨ws, _, rfl, ⟨_, us', rfl, ⟨_, _, rfl, ⟨start, rfl⟩, t, rfl, ht⟩, hus'⟩, hfold⟩
  refine ⟨ws ++ [.node (operatorRule op.level) start op.symbol [], t], us', by simp, hus', fun more => ?_⟩
  have hop : BinaryOp.ofTree (.node (operatorRule op.level) start op.symbol []) = .ok op := by
    rw [BinaryOp.ofTree, Tree.text, BinaryOp.ofSymbol?_symbol]
  rw [List.append_assoc, hfold, List.cons_append, List.singleton_append, Expr.chainOf, hop, ht]
  rfl

/-- An operand of the first level that is not taken for an assignment is an expression. -/
theorem IsOperand.expression (h : IsOperand 1 e us) (hfails : ∀ s, Stops 7 s → Fails (rule .assignment) (us ++ s)) :
    IsOperand 0 e us := by
  intro s hs
  have hall := Gives.altSecond (hfails s (hs.mono (by decide))) (h s (hs.mono (by decide)))
  refine (Gives.rule (r := .expression) rfl hall).mono ?_
  rintro _ ⟨start, text, _, rfl, t, rfl, ht⟩
  refine ⟨_, rfl, ?_⟩
  rw [Expr.ofTree]
  exact ht

/-- What is readable in places that ask for a level is so in places that ask for a lower one. -/
theorem Readable.of_chained {j : Nat} (hj : j ≤ 6) (h : Chained j e us)
    (hfails : ∀ s, Stops 7 s → Fails (rule .assignment) (us ++ s)) (hj' : 1 ≤ j) : Readable j e us := by
  -- level by level downwards, a chain is an operand of its level and a chain of the next lower one
  have hdown : ∀ n k, k + n = j → 1 ≤ k → Chained k e us := by
    intro n
    induction n with
    | zero =>
      rintro k rfl -
      exact h
    | succ n ih =>
      intro k hk hk'
      have hnext := ih (k + 1) (by omega) (by omega)
      exact (hnext.isOperand (by omega) (by omega)).chained
  have hchained : ∀ k, 1 ≤ k → k ≤ j → Chained k e us := fun k hk hkj => hdown (j - k) k (by omega) hk
  have hoperand : ∀ k, 1 ≤ k → k ≤ j → IsOperand k e us := fun k hk hkj =>
    (hchained k hk hkj).isOperand hk (by omega)
  refine ⟨fun k hk => ?_, fun k hk _ hkj => hchained k hk hkj, fun _ => hfails⟩
  cases k with
  | zero => exact (hoperand 1 (Nat.le_refl _) hj').expression hfails
  | succ k => exact hoperand (k + 1) (by omega) hk

/-- An operand of the tightest level is readable everywhere. -/
theorem Readable.of_unary (h : IsOperand 7 e us) (hfails : ∀ s, Stops 7 s → Fails (rule .assignment) (us ++ s)) :
    Readable 7 e us := by
  have hsix : Readable 6 e us := .of_chained (Nat.le_refl _) h.chained hfails (by decide)
  refine ⟨fun k hk => ?_, fun k hk hk' _ => hsix.chained k hk hk' hk', fun _ => hfails⟩
  rcases Nat.lt_or_eq_of_le hk with hlt | rfl
  · exact hsix.operand k (by omega)
  · exact h

end Chains

end StashMachine
