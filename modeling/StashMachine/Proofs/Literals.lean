import StashMachine.Proofs.ExprRoundTrip
import StashMachine.Proofs.Integral
import StashMachine.Proofs.Refinement
import StashMachine.Proofs.SourceReading
import StashMachine.Machine.Program

/-!
# StashMachine.Proofs.Literals — what literals are read as

* `literals_are_decoded`: a quotation is read as the text or the character that is spelled in it, whatever it holds.
* `ReadTo Q`: one tree, whose reading satisfies `Q`; `Expr.parse_of_gives`: a source that is one token.
* `Integral.parse_digits`, `Integral.parse_negative`: what digits are read as, without a sign and behind a minus.
* `Tree.unsigned`: the number literals of a tree that no minus sign stands right in front of.
* `integral_literals`: in which sources the digits of an integral literal are in range.
-/

namespace StashMachine

open Grammar Pattern

/-! ### Quotations -/

/-- Every spelling of a text in double quotes is read as the text, and every spelling of a character in single quotes as
the character. -/
theorem literals_are_decoded :
    (∀ (s : String) (cs : List Char), SpellsChars '"' s.toList cs →
      Expr.parse (quotation '"' cs) = .ok (.literal (.string s))) ∧
    ∀ (c : Char) (cs : List Char), SpellsChar '\'' c cs →
      Expr.parse (quotation '\'' cs) = .ok (.literal (.char c)) := by
  constructor
  · intro s cs h
    exact Expr.parse_of_written (e := .literal (.string s)) trivial ⟨cs, h, rfl⟩ .last
  · intro c cs h
    exact Expr.parse_of_written (e := .literal (.char c)) trivial ⟨cs, h, rfl⟩ .last

/-- White space, the opening of a comment, an escaped and a bare line break, and a letter behind a backslash for no
reason. -/
theorem literals_are_decoded_comment :
    Expr.parse "\" /*\\n\n\\é//\\\\\"" = .ok (.literal (.string " /*\n\né//\\")) ∧
      Expr.parse "'\\''" = .ok (.literal (.char '\'')) := by
  have hstring : SpellsChars '"' " /*\n\né//\\".toList
      ([' '] ++ (['/'] ++ (['*'] ++ (['\\', 'n'] ++ (['\n'] ++ (['\\', 'é'] ++ (['/'] ++ (['/'] ++
        (['\\', '\\'] ++ []))))))))) := by
    have hplain : ∀ x ∈ [' ', '/', '*', '\n'], SpellsChar '"' x [x] := by
      intro x hx
      refine .plain ?_ ?_ <;> rintro rfl <;> revert hx <;> decide
    have hslash : SpellsChar '"' '/' ['/'] := hplain '/' (by decide)
    exact .cons (hplain ' ' (by decide)) (.cons hslash (.cons (hplain '*' (by decide)) (.cons (.behind 'n')
      (.cons (hplain '\n' (by decide)) (.cons (.behind 'é') (.cons hslash (.cons hslash
        (.cons (.behind '\\') .nil))))))))
  exact ⟨literals_are_decoded.1 _ _ hstring, literals_are_decoded.2 _ _ (.behind '\'')⟩

/-! ### Sources of one token -/

/-- One tree, whose reading satisfies the property. -/
def ReadTo (Q : Reading Expr → Prop) (ts : List Tree) : Prop := ∃ t, ts = [t] ∧ Q (Expr.ofTree t)

section Tokens

variable {Q : Reading Expr → Prop} {t : Token} {s : List Token}

/-- An operand that ends the source is read on every level as on the tightest one. -/
theorem gives_operand (h : Gives Grammar.unary s [] (ReadTo Q)) {k : Nat} (hk : 1 ≤ k) (hk' : k ≤ 7) :
    Gives (operand k) s [] (ReadTo Q) := by
  obtain ⟨n, rfl⟩ : ∃ n, k = 7 - n := ⟨7 - k, by omega⟩
  induction n with
  | zero => exact h
  | succ n ih =>
    have hlevel : 7 - (n + 1) + 1 = 7 - n := by omega
    have hend : Gives (many (round (7 - (n + 1)))) [] [] Bare := by
      refine .manyNone (Stops.fails_round ?_ hk (by omega))
      rintro t s' ⟨⟩
    have hall := (ih (by omega) (by omega)).seq hend
    rw [← hlevel, ← chainRule_body hk (by omega)] at hall
    rw [operand_eq hk (by omega)]
    refine (hall.rule (chainRule_spacing _)).mono ?_
    rintro _ ⟨start, text, _, rfl, _, _, rfl, ⟨first, rfl, hfirst⟩, rfl⟩
    refine ⟨_, rfl, ?_⟩
    rw [List.append_nil, ofTree_chain hk (by omega)]
    -- a chain without rounds is its only operand
    cases hread : Expr.ofTree first with
    | ok e =>
      rw [hread] at hfirst
      exact hfirst
    | error m =>
      rw [hread] at hfirst
      exact hfirst

/-- A source that is one token, and no name. -/
theorem Expr.parse_of_gives (ht : isToken t = true) (hname : Fails (rule .assignment) [t])
    (h : Gives Grammar.unary [t] [] (ReadTo Q)) :
    ∃ x, Q x ∧ Expr.parse t = x.mapError (SourceError.ofMisread t) := by
  have hoperand : Gives (rule .expression) [t] [] (ReadTo Q) := by
    refine (Gives.rule (r := .expression) rfl (.altSecond hname (gives_operand h (Nat.le_refl 1) (by decide)))).mono ?_
    rintro _ ⟨start, text, _, rfl, t, rfl, ht⟩
    refine ⟨_, rfl, ?_⟩
    rw [Expr.ofTree]
    exact ht
  obtain ⟨start, text', _, last, hparse, ⟨⟨tree, rfl, hread⟩, hrules⟩, hlast⟩ :=
    parse?_of_gives (r := .expressionEntry) rfl rfl (hoperand.rule_eq .expression rfl)
      (List.forall_mem_singleton.mpr ht) .last
  refine ⟨_, hread, ?_⟩
  have hentry : Expr.ofEntry (.node .expressionEntry start text' ([tree] ++ [last])) = Expr.ofTree tree := by
    rw [List.singleton_append, Expr.ofEntry, expect_bind (by simp [hrules tree (.head _), hlast])]
  rw [Expr.parse, readSource, hparse]
  dsimp only
  rw [hentry]

/-- A symbol that the token does not begin with. -/
theorem fails_lit {u : String} (h : ∀ tail, ¬ u.toList <+: t.toList ++ tail) (s : List Token) :
    Fails (lit u) (t :: s) := by
  intro c hc
  obtain ⟨tail, hrest, -⟩ := hc.cons
  exact .textFailed (Cursor.accept?_eq_none_of (hrest ▸ h tail))

/-- A minus right in front of a token. -/
theorem gives_minus {v : Token} (ht : t.toList = '-' :: v.toList) (hv : isToken v = true) (s : List Token) :
    Gives (rule .unaryOp) (t :: s) (v :: s) (Leaf .unaryOp "-") := by
  intro c hc
  obtain ⟨tail, hrest, -⟩ := hc.cons
  have ht' : t.toList = "-".toList ++ v.toList := ht
  rw [ht', List.append_assoc] at hrest
  obtain ⟨d, hd, hreads⟩ := Cursor.accept?_append hrest
  have hat : At (v :: s) d := hc.of_part ht' hv hreads
  have hbody : Yields (Spacing.within .free Rule.unaryOp.spacing) Rule.unaryOp.body c (.matched d []) :=
    .altFirst (.text hd)
  have hnode := Yields.rule hbody
  rw [hreads.textTo, String.ofList_toList, ite_self] at hnode
  exact ⟨d, _, hnode, by rwa [hat.skip], c.offset, rfl⟩

/-- A minus right in front of an operand that begins with a digit. -/
theorem gives_negative {v : Token} {x : Char} {cs : List Char} {P : List Tree → Prop} (ht : t.toList = '-' :: v.toList)
    (hv : v.toList = x :: cs) (hx : x.isDigit = true) (h : ∀ s, Gives Grammar.unary (v :: s) s P) (s : List Token) :
    Gives Grammar.unary (t :: s) s (Node .unaryExpression (Then (Leaf .unaryOp "-") P)) := by
  have hname : isNameChar x = true := by
    simp only [isNameChar, Char.isAlphanum, Bool.or_eq_true]
    exact .inl (.inl (.inr hx))
  have hincrement : Fails (rule .incrementOp) (t :: s) := by
    have hplus : Fails (lit "++") (t :: s) := fails_lit (fun tail => by simp [ht]) s
    have hminus : Fails (lit "--") (t :: s) := by
      refine fails_lit (fun tail => ?_) s
      have hne : '-' ≠ x := by
        rintro rfl
        cases hx
      simp [ht, hv, hne]
    exact Fails.rule rfl (hplus.alt hminus)
  have hall := (gives_minus ht (isToken_of_isNameChar hv hname) s).seq (h s)
  exact .altSecond (Fails.rule rfl hincrement.seqFirst) (Gives.rule (r := .unaryExpression) rfl hall).altFirst

end Tokens

/-! ### Digits -/

/-- What a minus sign makes of the literal behind it. -/
def Expr.negated (t : Tree) : Reading Expr :=
  match Literal.negatedLeast? t with
  | some l => .ok (.literal l)
  | none => (Literal.ofTree t).map (fun l => .unary .minus (.literal l))

theorem Expr.ofTree_negated {start start' : Nat} {text : String} {t : Tree}
    (ht : Expr.ofTree t = (Literal.ofTree t).map .literal) :
    Expr.ofTree (.node .unaryExpression start text [.node .unaryOp start' "-" [], t]) = Expr.negated t := by
  have hop : UnaryOp.ofTree (.node .unaryOp start' "-" []) = .ok .minus := rfl
  rw [Expr.ofTree, negated]
  simp only [hop, bind, Except.bind]
  cases Literal.negatedLeast? t with
  | some l => rfl
  | none =>
    rw [ht]
    cases Literal.ofTree t <;> rfl

namespace Integral

/-- The rule of the literals of a kind. -/
def rule : Integral → Rule
  | int => .intLiteral
  | long => .longLiteral

/-- What may stand behind the digits of a literal of a kind. -/
def suffixes : Integral → List String
  | int => [""]
  | long => ["L", "l"]

/-- The least magnitude that is out of range without a sign. -/
def bound (k : Integral) : Nat := 2 ^ (k.bits - 1)

/-- The one spelling of that magnitude that a minus sign takes. -/
def boundDigits : Integral → String
  | int => "2147483648"
  | long => "9223372036854775808"

/-- The literal of a kind for an integer. -/
def literal : Integral → Int → Literal
  | int, i => .int (Int32.ofInt i)
  | long, i => .long (Int64.ofInt i)

variable {k : Integral} {suffix d : String} {start : Nat}

theorem ofLiteral_literal (k : Integral) (i : Int) : Value.ofLiteral (k.literal i) = k.value i := by
  cases k <;> rfl

/-- An integer in range is the integer of its value. -/
theorem integer?_of_range {i : Int} (hlow : -(k.bound : Int) ≤ i) (hhigh : i < k.bound) :
    (k.value i).integer? = some i := by
  rw [integer?_value]
  refine congrArg some (Int.bmod_eq_of_le ?_ ?_)
  · cases k <;> simp only [bound, bits] at hlow <;> simp only [bits] <;> omega
  · cases k <;> simp only [bound, bits] at hhigh <;> simp only [bits] <;> omega

/-- The digits of a `long` are what stands before the suffix. -/
theorem longDigits?_append (hsuffix : suffix ∈ long.suffixes) (hd : ∀ x ∈ d.toList, x.isDigit = true) :
    Literal.longDigits? (d ++ suffix) = some d.toList := by
  rcases List.mem_pair.mp hsuffix with rfl | rfl
  · exact Literal.longDigits?_eq String.toList_append hd (.inl rfl)
  · exact Literal.longDigits?_eq String.toList_append hd (.inr rfl)

theorem gives_digits (hsuffix : suffix ∈ k.suffixes) (hne : d.toList ≠ []) (hd : ∀ x ∈ d.toList, x.isDigit = true)
    (s : List Token) : Gives Grammar.literal ((d ++ suffix) :: s) s (Leaf k.rule (d ++ suffix)) := by
  cases k with
  | int =>
    obtain rfl := List.mem_singleton.mp hsuffix
    rw [String.append_empty]
    exact gives_int hne hd s
  | long =>
    rcases List.mem_pair.mp hsuffix with rfl | rfl
    · exact gives_long hne hd (.inl rfl) String.toList_append s
    · exact gives_long hne hd (.inr rfl) String.toList_append s

/-- Digits without a sign are read by their value. -/
theorem ofTree_digits (hsuffix : suffix ∈ k.suffixes) (hne : d.toList ≠ []) (hd : ∀ x ∈ d.toList, x.isDigit = true) :
    Literal.ofTree (.node k.rule start (d ++ suffix) []) = if Decimal.value d.toList < k.bound then
      .ok (k.literal (Decimal.value d.toList)) else .error (.tooLarge start) := by
  cases k with
  | int =>
    obtain rfl := List.mem_singleton.mp hsuffix
    rw [String.append_empty, rule, Literal.ofTree, Literal.numberOf_eq hne hd]
    split_ifs <;> first | rfl | contradiction
  | long =>
    rw [rule, Literal.ofTree, longDigits?_append hsuffix hd]
    dsimp only
    rw [Literal.numberOf_eq hne hd]
    split_ifs <;> first | rfl | contradiction

/-- Behind a minus, one spelling is looked at as a text. -/
theorem negatedLeast?_digits (hsuffix : suffix ∈ k.suffixes) (hd : ∀ x ∈ d.toList, x.isDigit = true) :
    Literal.negatedLeast? (.node k.rule start (d ++ suffix) []) =
      if d = k.boundDigits then some (k.literal (-k.bound)) else none := by
  cases k with
  | int =>
    obtain rfl := List.mem_singleton.mp hsuffix
    rw [String.append_empty]
    exact rfl
  | long =>
    rw [rule, Literal.negatedLeast?, longDigits?_append hsuffix hd]
    simp only [Option.some.injEq, String.toList_inj]
    rfl

/-- A number literal is an expression. -/
theorem ofTree_literal_rule {text : String} (start : Nat) :
    Expr.ofTree (.node k.rule start text []) = (Literal.ofTree (.node k.rule start text [])).map .literal := by
  cases k <;> rfl

section Sources

variable (hsuffix : suffix ∈ k.suffixes) (hne : d.toList ≠ []) (hd : ∀ x ∈ d.toList, x.isDigit = true)
include hsuffix hne hd

theorem gives_operand_digits (s : List Token) :
    Gives Grammar.unary ((d ++ suffix) :: s) s (Leaf k.rule (d ++ suffix)) := by
  have hl : Leads (.among digitChars) ((d ++ suffix) :: s) := leads_digits hne hd String.toList_append s
  exact Gives.choice signed hl.one (by decide) (gives_digits hsuffix hne hd s).altFirst []

/-- Digits alone are a literal if they are in range, and blamed if they are not. -/
theorem parse_digits : ∃ place, Expr.parse (d ++ suffix) = if Decimal.value d.toList < k.bound then
    .ok (.literal (k.literal (Decimal.value d.toList))) else .error (.numberTooLarge place) := by
  have htoken : isToken (d ++ suffix) = true := isToken_of_digits hne hd String.toList_append
  have hname : Fails (.rule .assignment) [d ++ suffix] :=
    fails_assignment_of_leads (leads_digits hne hd String.toList_append []).one (by decide)
  have hgives := (gives_operand_digits hsuffix hne hd []).mono
    (Q := ReadTo (fun x => ∃ start, x = (Literal.ofTree (.node k.rule start (d ++ suffix) [])).map .literal)) (by
      rintro _ ⟨start, rfl⟩
      exact ⟨_, rfl, start, ofTree_literal_rule start⟩)
  obtain ⟨_, ⟨start, rfl⟩, hparse⟩ := Expr.parse_of_gives htoken hname hgives
  refine ⟨Text.position (d ++ suffix) start, ?_⟩
  rw [hparse, ofTree_digits hsuffix hne hd]
  split <;> rfl

/-- Digits behind a minus sign. -/
theorem parse_negative : ∃ place, Expr.parse ("-" ++ (d ++ suffix)) = if d = k.boundDigits then
    .ok (.literal (k.literal (-k.bound))) else if Decimal.value d.toList < k.bound then
      .ok (.unary .minus (.literal (k.literal (Decimal.value d.toList)))) else .error (.numberTooLarge place) := by
  have ht : ("-" ++ (d ++ suffix)).toList = '-' :: (d ++ suffix).toList := String.toList_append
  have htoken : isToken ("-" ++ (d ++ suffix)) = true := isToken_of_head ht rfl (by decide)
  have hname : Fails (.rule .assignment) ["-" ++ (d ++ suffix)] :=
    fails_assignment_of_leads (@leads_among _ _ '-' ['-'] ht (.head _) []).one (by decide)
  obtain ⟨x, cs, hhead⟩ := List.exists_cons_of_ne_nil hne
  have hx : x.isDigit = true := hd x (by rw [hhead]; exact .head _)
  have hv : (d ++ suffix).toList = x :: (cs ++ suffix.toList) := by
    rw [String.toList_append, hhead, List.cons_append]
  have hgives := (gives_negative ht hv hx (gives_operand_digits hsuffix hne hd) []).mono
    (Q := ReadTo (fun x => ∃ start, x = Expr.negated (.node k.rule start (d ++ suffix) []))) (by
      rintro _ ⟨start, text, _, rfl, _, _, rfl, ⟨start', rfl⟩, start'', rfl⟩
      exact ⟨_, rfl, start'', Expr.ofTree_negated (ofTree_literal_rule start'')⟩)
  obtain ⟨_, ⟨start, rfl⟩, hparse⟩ := Expr.parse_of_gives htoken hname hgives
  refine ⟨Text.position ("-" ++ (d ++ suffix)) start, ?_⟩
  rw [hparse, Expr.negated, negatedLeast?_digits hsuffix hd, ofTree_digits hsuffix hne hd]
  split_ifs <;> rfl

end Sources

end Integral

namespace Machine

theorem finish_of_evaluate {natives : Natives} {budget : Budget} {m m' : Machine}
    (h : evaluate natives budget.target m = .ok () m') : m.finish natives budget = .ok m' := by
  unfold finish
  rw [h]

/-- An expression without calls runs to its end within the steps that it takes. -/
theorem runExpr_of_eval {source : String} {e : Expr} {v : Value} {env : Environment} {budget : Budget}
    (hparse : Expr.parse source = .ok e) (hcalls : e.isCallFree = true) (heval : e.eval .initial = .ok (.value v) env)
    (hbudget : e.effort ≤ budget.target) : ∃ m, runExpr source budget = .ok (v, m) := by
  obtain ⟨n, hn, hrun⟩ := expression_refines Natives.empty e hcalls [] [] .initial [] 0
  rw [heval] at hrun
  replace hrun : evaluate Natives.empty n (initial.loadExpr e) = .ok () ⟨⟨[], [.value v], env, []⟩, 0 + n⟩ := hrun
  obtain ⟨l, hl⟩ := Nat.exists_eq_add_of_le (Nat.le_trans hn hbudget)
  have hall : evaluate Natives.empty budget.target (initial.loadExpr e) =
      .ok () ⟨⟨[], [.value v], env, []⟩, 0 + n⟩ := by
    rw [hl, evaluate_add, hrun]
    exact evaluate_of_isFinished rfl l
  refine ⟨⟨⟨[], [.value v], env, []⟩, 0 + n⟩, ?_⟩
  unfold runExpr
  rw [hparse]
  dsimp only
  rw [finish_of_evaluate hall]
  rfl

end Machine

namespace Integral

variable {k : Integral} {suffix d : String} {budget : Budget}

theorem value_boundDigits (h : d = k.boundDigits) : Decimal.value d.toList = k.bound := by
  rw [h]
  cases k <;> rfl

theorem eval_literal (k : Integral) (i : Int) :
    (Expr.literal (k.literal i)).eval .initial = .ok (.value (k.value i)) .initial := by
  cases k <;> rfl

theorem eval_negative (k : Integral) (i : Int) :
    (Expr.unary .minus (.literal (k.literal i))).eval .initial = .ok (.value (k.value (-i))) .initial := by
  cases k with
  | int => exact congrArg (fun n => EStateM.Result.ok (Answer.value (.int n)) _) (Int32.ofInt_neg i).symm
  | long => exact congrArg (fun n => EStateM.Result.ok (Answer.value (.long n)) _) (Int64.ofInt_neg i).symm

/-- Digits behind a minus sign are evaluated to the number below zero. -/
theorem runExpr_negative (hsuffix : suffix ∈ k.suffixes) (hne : d.toList ≠ [])
    (hd : ∀ x ∈ d.toList, x.isDigit = true) (hbudget : 3 ≤ budget.target) :
    (Decimal.value d.toList < k.bound ∨ d = k.boundDigits → ∃ m,
      Machine.runExpr ("-" ++ (d ++ suffix)) budget = .ok (k.value (-Decimal.value d.toList), m)) ∧
    (¬ (Decimal.value d.toList < k.bound ∨ d = k.boundDigits) → ∃ place,
      Machine.runExpr ("-" ++ (d ++ suffix)) budget = .error (.source (.numberTooLarge place))) := by
  obtain ⟨place, hparse⟩ := parse_negative hsuffix hne hd
  constructor
  · intro h
    by_cases hbound : d = k.boundDigits
    · rw [if_pos hbound] at hparse
      rw [value_boundDigits hbound]
      refine Machine.runExpr_of_eval hparse rfl (eval_literal k _) (Nat.le_trans ?_ hbudget)
      exact (by decide : 1 ≤ 3)
    · rw [if_neg hbound, if_pos (h.resolve_right hbound)] at hparse
      exact Machine.runExpr_of_eval hparse rfl (eval_negative k _) hbudget
  · intro h
    rw [if_neg (fun hd => h (.inr hd)), if_neg (fun hlt => h (.inl hlt))] at hparse
    refine ⟨place, ?_⟩
    unfold Machine.runExpr
    rw [hparse]

end Integral

/-! ### Everywhere else -/

namespace Grammar.Tree

/-- Whether the tree is a literal of an integral kind. -/
def isNumber (t : Tree) : Bool := t.rule == .intLiteral || t.rule == .longLiteral

/-- Whether the tree is a literal of an integral kind that is out of range without a sign. -/
def isTooLarge : Tree → Bool
  | node .intLiteral _ text _ => decide (Integral.int.bound ≤ Decimal.value text.toList)
  | node .longLiteral _ text _ => decide (Integral.long.bound ≤ Decimal.value (text.toList.takeWhile Char.isDigit))
  | _ => false

mutual

/-- The number literals of a tree that no minus sign stands right in front of. -/
def unsigned : Tree → List Tree
  | node r start text children =>
    match r, children with
    | .intLiteral, _ | .longLiteral, _ => [node r start text children]
    | .unaryExpression, [op, operand] =>
      op.unsigned ++ if op.text == "-" && operand.isNumber then [] else operand.unsigned
    | _, children => unsignedAll children

/-- The same for several trees, one after the other. -/
def unsignedAll : List Tree → List Tree
  | [] => []
  | t :: ts => t.unsigned ++ unsignedAll ts

end

/-- What a minus sign takes is a number literal right behind it. -/
theorem isNumber_of_folds {op operand : Tree} (h : folds op operand = true) :
    op.text == "-" && operand.isNumber := by
  rw [folds, Bool.and_eq_true] at h
  rw [h.1, Bool.true_and]
  obtain ⟨r, start, text, ts⟩ := operand
  cases r <;> first | rfl | cases h.2

theorem mem_unsignedAll {u : Tree} {ts : List Tree} (hu : u ∈ unsignedAll ts) : ∃ t ∈ ts, u ∈ t.unsigned := by
  induction ts with
  | nil => cases hu
  | cons t ts ih =>
    rcases List.mem_append.mp hu with hu | hu
    · exact ⟨t, .head _, hu⟩
    · obtain ⟨t', ht', hu⟩ := ih hu
      exact ⟨t', .tail _ ht', hu⟩

theorem mem_tooLargeAll {s : Nat} {t : Tree} {ts : List Tree} (ht : t ∈ ts) (hs : s ∈ t.tooLarge) :
    s ∈ tooLargeAll ts := by
  obtain ⟨front, back, rfl⟩ := List.append_of_mem ht
  rw [tooLargeAll_append, tooLargeAll]
  simp [hs]

/-- A number literal out of range is blamed unless a minus sign stands right in front of it. -/
theorem mem_tooLarge_of_unsigned {t u : Tree} (hu : u ∈ t.unsigned) (hlarge : u.isTooLarge = true) :
    u.start ∈ t.tooLarge := by
  induction t using Tree.ofChildren with
  | h r start text ts ih =>
    unfold unsigned at hu
    split at hu
    · obtain rfl := List.mem_singleton.mp hu
      have hbound : ¬ Decimal.value text.toList < Nat.pow 2 31 := Nat.not_lt.mpr (of_decide_eq_true hlarge)
      rw [tooLarge, if_neg hbound]
      exact .head _
    · obtain rfl := List.mem_singleton.mp hu
      have hbound : ¬ Decimal.value (text.toList.takeWhile Char.isDigit) < Nat.pow 2 63 :=
        Nat.not_lt.mpr (of_decide_eq_true hlarge)
      rw [tooLarge, if_neg hbound]
      exact .head _
    · rename_i op operand
      rw [tooLarge]
      rcases List.mem_append.mp hu with hu | hu
      · exact List.mem_append_left _ (ih op (by simp) hu)
      · split at hu
        · cases hu
        · rename_i hminus
          have hfolds : ¬ folds op operand = true := fun h => hminus (isNumber_of_folds h)
          rw [if_neg hfolds]
          exact List.mem_append_right _ (ih operand (by simp) hu)
    · rename_i hint hlong hsign
      obtain ⟨t, ht, hu⟩ := mem_unsignedAll hu
      have hmem := mem_tooLargeAll ht (ih t ht hu)
      have hnode : (node r start text ts).tooLarge = tooLargeAll ts := by
        unfold tooLarge
        split
        · exact absurd rfl hint
        · exact absurd rfl hlong
        · exact absurd rfl (hsign _ _ rfl)
        · rfl
      rwa [hnode]

end Grammar.Tree

/-- A reading that blames some literal. -/
theorem Settles.exists_tooLarge {α : Type} {x : Reading α} {bad : List Nat} {b : Nat} (h : Settles x bad)
    (hb : b ∈ bad) : ∃ start, x = .error (.tooLarge start) := by
  cases bad with
  | nil => cases hb
  | cons start bad => exact ⟨start, h⟩

/-- A source with a number literal out of range is no program, unless a minus sign stands right in front of it. -/
theorem readSource_of_unsigned {α : Type} {r : Rule} {reading : Tree → Reading α} {source : String} {t u : Tree}
    (hparse : parse? r source = some t) (hread : Settles (reading t) t.tooLarge) (hu : u ∈ t.unsigned)
    (hlarge : u.isTooLarge = true) : ∃ place, readSource r reading source = .error (.numberTooLarge place) := by
  obtain ⟨start, hblamed⟩ := hread.exists_tooLarge (Tree.mem_tooLarge_of_unsigned hu hlarge)
  refine ⟨Text.position source start, ?_⟩
  rw [readSource, hparse]
  simp only [hblamed]
  rfl

/-- The digits of a literal of an integral kind, with a suffix of the kind.  Alone they are the literal of their value
if it is in range, and rejected if it is not.  Behind a minus sign they are evaluated to the number below zero, if their
value is in range or they are the one spelling of the least magnitude out of range that a minus sign takes; every other
spelling of that magnitude is rejected.  So is a literal out of range wherever no minus sign stands right in front
of it. -/
theorem integral_literals {k : Integral} {suffix d : String} {n : Nat} {budget : Budget}
    (hsuffix : suffix ∈ k.suffixes) (hne : d.toList ≠ []) (hd : ∀ x ∈ d.toList, x.isDigit = true)
    (hn : Decimal.value d.toList = n) (hbudget : 3 ≤ budget.target) :
    (n < k.bound → ∃ l, Expr.parse (d ++ suffix) = .ok (.literal l) ∧ l.type = .primitive k.primitive ∧
      (Value.ofLiteral l).integer? = some n) ∧
    (k.bound ≤ n → ∃ place, Expr.parse (d ++ suffix) = .error (.numberTooLarge place)) ∧
    (n < k.bound ∨ d = k.boundDigits → ∃ v m, Machine.runExpr ("-" ++ (d ++ suffix)) budget = .ok (v, m) ∧
      v.type = .primitive k.primitive ∧ v.integer? = some (-(n : Int))) ∧
    (¬ (n < k.bound ∨ d = k.boundDigits) → ∃ place,
      Machine.runExpr ("-" ++ (d ++ suffix)) budget = .error (.source (.numberTooLarge place))) ∧
    ∀ (source : String) (t u : Tree), u ∈ t.unsigned → u.isTooLarge = true →
      (parse? .expressionEntry source = some t → ∃ place, Expr.parse source = .error (.numberTooLarge place)) ∧
      (parse? .compilationUnit source = some t → ∃ place, Program.parse source = .error (.numberTooLarge place)) := by
  subst hn
  obtain ⟨place, hparse⟩ := Integral.parse_digits hsuffix hne hd
  obtain ⟨hrun, hfails⟩ := Integral.runExpr_negative hsuffix hne hd hbudget
  have hpos : 0 < k.bound := Nat.two_pow_pos _
  refine ⟨fun hn => ?_, fun hn => ?_, fun hn => ?_, hfails, fun source t u hu hlarge => ⟨fun ht => ?_, fun ht => ?_⟩⟩
  · rw [if_pos hn] at hparse
    refine ⟨_, hparse, by cases k <;> rfl, ?_⟩
    rw [Integral.ofLiteral_literal]
    exact Integral.integer?_of_range (by omega) (by omega)
  · rw [if_neg (Nat.not_lt.mpr hn)] at hparse
    exact ⟨place, hparse⟩
  · obtain ⟨m, hm⟩ := hrun hn
    have hle : Decimal.value d.toList ≤ k.bound := by
      rcases hn with hlt | hbound
      · exact Nat.le_of_lt hlt
      · exact Nat.le_of_eq (Integral.value_boundDigits hbound)
    have hinteger : (k.value (-(Decimal.value d.toList : Int))).integer? = some (-(Decimal.value d.toList : Int)) :=
      Integral.integer?_of_range (by omega) (by omega)
    exact ⟨_, m, hm, Integral.type_value k _, hinteger⟩
  · obtain ⟨hr, c, hspans⟩ := spans_of_parse? ht
    exact readSource_of_unsigned ht (Expr.settles_entry hspans hr) hu hlarge
  · obtain ⟨hr, c, hspans⟩ := spans_of_parse? ht
    exact readSource_of_unsigned ht (Program.settles hspans hr) hu hlarge

/-- The least `int` behind a minus sign; its digits behind a plus sign, and in brackets behind a minus sign. -/
theorem integral_literals_least :
    (∃ place, Expr.parse "2147483648" = .error (.numberTooLarge place)) ∧
    (∃ v m, Machine.runExpr "-2147483648" Budget.standard = .ok (v, m) ∧ v.integer? = some (-2147483648)) ∧
    (∃ place, Expr.parse "+2147483648" = .error (.numberTooLarge place)) ∧
    ∃ place, Program.parse "class A{long x=-(9223372036854775808L);}" = .error (.numberTooLarge place) := by
  obtain ⟨-, hrejected, hrun, -, helsewhere⟩ := @integral_literals .int "" "2147483648" _ Budget.standard (.head _)
    (by decide) (List.all_eq_true.mp (by decide)) rfl (by decide)
  obtain ⟨v, m, hv, -, hint⟩ := hrun (.inr rfl)
  have hplus : (parse? .expressionEntry "+2147483648").any (fun t => t.unsigned.any Tree.isTooLarge) = true := by
    decide +kernel
  have hbrackets : (parse? .compilationUnit "class A{long x=-(9223372036854775808L);}").any
      (fun t => t.unsigned.any Tree.isTooLarge) = true := by decide +kernel
  obtain ⟨t, ht, hplus⟩ := (Option.any_eq_true _ _).mp hplus
  obtain ⟨u, hu, hlarge⟩ := List.any_eq_true.mp hplus
  obtain ⟨t', ht', hbrackets⟩ := (Option.any_eq_true _ _).mp hbrackets
  obtain ⟨u', hu', hlarge'⟩ := List.any_eq_true.mp hbrackets
  exact ⟨hrejected (by decide), ⟨v, m, hv, hint⟩, (helsewhere _ t u hu hlarge).1 ht,
    (helsewhere _ t' u' hu' hlarge').2 ht'⟩

/-- Behind a minus sign, a zero in front of the digits makes a difference. -/
theorem bound_with_zero_is_rejected :
    Decimal.value "02147483648".toList = 2147483648 ∧ (∀ x ∈ "02147483648".toList, x.isDigit = true) ∧
    (∃ m, Machine.runExpr "-2147483648" Budget.standard = .ok (.int Int32.minValue, m)) ∧
    ∃ place, Machine.runExpr "-02147483648" Budget.standard = .error (.source (.numberTooLarge place)) := by
  have hdigits : ∀ x ∈ "02147483648".toList, x.isDigit = true := List.all_eq_true.mp (by decide)
  obtain ⟨m, hm⟩ := (@Integral.runExpr_negative .int "" "2147483648" Budget.standard (.head _) (by decide)
    (List.all_eq_true.mp (by decide)) (by decide)).1 (.inr rfl)
  have hfails := (@Integral.runExpr_negative .int "" "02147483648" Budget.standard (.head _) (by decide) hdigits
    (by decide)).2 (by decide)
  exact ⟨rfl, hdigits, ⟨m, hm⟩, hfails⟩

end StashMachine
