import StashMachine.Proofs.Operands
import StashMachine.Proofs.Reading

/-!
# StashMachine.Proofs.ReadBack — every way to write an expression is read back

* `gives_dotted`, `Stops.fails_assign`: a dotted name, and what may follow it where it is no target of an assignment.
* `Literal.readable`: the ways to write a literal are readable.
* `gives_expressions`: arguments and elements.
* `Expr.readable`: the ways to write a proper expression are readable.
-/

namespace StashMachine

open Grammar Pattern

/-! ### Names and operators -/

section Leaves

variable {s s' : List Token} {t : Token} {ls : List Lead}

theorem gives_dotted (h : IsDotted t.toList) (s : List Token) :
    Gives (rule .expressionName) (t :: s) s (Leaf .expressionName t) := by
  refine Gives.leaf rfl (fun tail htail => takes_dotted h htail.apart (fun xs hxs => ?_)) s
  cases htail _ _ hxs

theorem gives_unaryOp (op : UnaryOp) (s : List Token) :
    Gives (rule .unaryOp) (op.symbol :: s) s (Leaf .unaryOp op.symbol) := by
  cases op <;> exact @gives_sign _ ["-", "+", "!"] _ rfl rfl (by decide) (by decide) s

theorem gives_incrementOp {op : BinaryOp} (h : op = .add ∨ op = .sub) (s : List Token) :
    Gives (rule .incrementOp) ((op.symbol ++ op.symbol) :: s) s (Leaf .incrementOp (op.symbol ++ op.symbol)) := by
  rcases h with rfl | rfl <;> exact @gives_sign _ ["++", "--"] _ rfl rfl (by decide) (by decide) s

/-- The operators of assignments. -/
def assignmentSymbols : List Token := ["=", "+=", "-=", "*=", "/=", "%="]

theorem gives_assignmentOperator (h : t ∈ assignmentSymbols) (s : List Token) :
    Gives (rule .assignmentOperator) (t :: s) s (Leaf .assignmentOperator t) := by
  have hfind : ∀ t ∈ assignmentSymbols, assignmentSymbols.find? (fun k => k.toList.isPrefixOf t.toList) = some t := by
    decide
  exact @gives_sign _ assignmentSymbols _ rfl rfl (by decide) (hfind t h) s

/-- An equals sign is read off the front of an equality, and no expression follows it. -/
theorem fails_assign_equality (s : List Token) :
    Fails (seq (rule .assignmentOperator) (rule .expression)) ("==" :: s) := by
  have hpart : Gives (lit "=") ("==" :: s) ("=" :: s) Bare := gives_litPart (by decide) (by decide) s
  have hop : Gives (rule .assignmentOperator) ("==" :: s) ("=" :: s) _ := Gives.rule rfl hpart.altFirst
  exact .seqSecond hop (Fails.of_lead (leads_symbol "=" s) (by decide))

/-- What may follow an operand does not make it the target of an assignment. -/
theorem Stops.fails_assign (h : Stops 7 s) : Fails (seq (rule .assignmentOperator) (rule .expression)) s := by
  by_cases heq : ∃ s', s = "==" :: s'
  · obtain ⟨s', rfl⟩ := heq
    exact fails_assign_equality s'
  · have hleads : ∃ l ∈ .done :: ((enders 7).filter (fun t => t != "==")).map Lead.symbol, Leads l s := by
      cases s with
      | nil => exact ⟨.done, .head _, leads_nil⟩
      | cons t s =>
        have ht : t ≠ "==" := fun ht => heq ⟨s, by rw [ht]⟩
        refine ⟨.symbol t, .tail _ (List.mem_map_of_mem ?_), leads_symbol t s⟩
        exact List.mem_filter.mpr ⟨h t s rfl, by simpa using ht⟩
    exact Fails.seqFirst (Fails.of_leads hleads (by decide))

/-- A dotted name in front of what makes it no target. -/
theorem fails_assignment_of_dotted (h : IsDotted t.toList)
    (hs : Fails (seq (rule .assignmentOperator) (rule .expression)) s) : Fails (rule .assignment) (t :: s) :=
  Fails.rule rfl (.seqSecond (gives_dotted h s) hs)

/-- An operand that no name begins. -/
theorem fails_assignment_of_leads (hs : ∃ l ∈ ls, Leads l s) (h : (rule .expressionName).failsAt ls = true) :
    Fails (rule .assignment) s :=
  Fails.rule rfl (Fails.of_leads hs h).seqFirst

end Leaves

/-! ### Literals -/

section Literals

variable {s : List Token} {t : Token} {e : Expr}

/-- What is read as a literal is an expression. -/
theorem ofTree_literal {tree : Tree} {l : Literal} (h : Literal.ofTree tree = .ok l) :
    Expr.ofTree tree = .ok (.literal l) := by
  have hread := h
  unfold Literal.ofTree at h
  split at h
  case h_8 => cases h
  all_goals
    change (Literal.ofTree _ >>= fun l => pure (Expr.literal l)) = _
    rw [hread]
    rfl

/-- The patterns of operands that a sign or an increment belongs to. -/
def signed : List Pattern := [rule .preIncrement, rule .unaryExpression, rule .postIncrement]

/-- A literal is an operand. -/
theorem readable_of_literal {l : Lead} (hl : ∀ s, Leads l (t :: s)) (hsigned : signed.all (fun q => q.failsAt [l]) = true)
    (hname : (rule .expressionName).failsAt [l] = true) (h : ∀ s, Gives literal (t :: s) s (ReadsAs e)) :
    Readable 7 e [t] := by
  refine .of_unary (fun s _ => ?_) (fun s _ => fails_assignment_of_leads (hl s).one hname)
  exact Gives.choice signed (hl s).one hsigned (h s).altFirst []

/-- The texts of the patterns in front of an `int` are not there. -/
theorem gives_int (hne : t.toList ≠ []) (hdigits : ∀ x ∈ t.toList, x.isDigit = true) (s : List Token) :
    Gives literal (t :: s) s (Leaf .intLiteral t) := by
  have hdouble : Fails (rule .doubleLiteral) (t :: s) := Fails.leaf rfl (fun _ h => (takes_int hne hdigits h).1) s
  have hlong : Fails (rule .longLiteral) (t :: s) := Fails.leaf rfl (fun _ h => (takes_int hne hdigits h).2.1) s
  have hint : Gives (rule .intLiteral) (t :: s) s _ := Gives.leaf rfl (fun _ h => (takes_int hne hdigits h).2.2) s
  exact .altSecond hdouble (.altSecond hlong hint.altFirst)

theorem gives_long {cs : List Char} {x : Char} (hne : cs ≠ []) (hdigits : ∀ x ∈ cs, x.isDigit = true)
    (hx : x = 'L' ∨ x = 'l') (ht : t.toList = cs ++ [x]) (s : List Token) :
    Gives literal (t :: s) s (Leaf .longLiteral t) := by
  have hdouble : Fails (rule .doubleLiteral) (t :: s) := by
    refine Fails.leaf rfl (fun tail _ => ?_) s
    rw [ht, List.append_assoc]
    exact (takes_long hne hdigits hx).1
  have hlong : Gives (rule .longLiteral) (t :: s) s (Leaf .longLiteral t) := by
    refine Gives.leaf rfl (fun tail _ => ?_) s
    rw [ht]
    exact (takes_long hne hdigits hx).2
  exact .altSecond hdouble hlong.altFirst

theorem leads_digits {cs ds : List Char} (hne : cs ≠ []) (hdigits : ∀ x ∈ cs, x.isDigit = true)
    (ht : t.toList = cs ++ ds) (s : List Token) : Leads (.among digitChars) (t :: s) := by
  cases cs with
  | nil => exact absurd rfl hne
  | cons x cs => exact leads_among ht (mem_digitChars (hdigits x (.head _))) s

/-- No sign, no increment and no name begins with a digit. -/
theorem failsAt_digits : signed.all (fun q => q.failsAt [.among digitChars]) = true ∧
    (rule .expressionName).failsAt [.among digitChars] = true := by
  decide

/-- A minus and digits that are out of range without it. -/
theorem readable_least {r : Rule} {l : Literal} (hl : ∀ s, Leads (.among digitChars) (t :: s))
    (h : ∀ s, Gives literal (t :: s) s (Leaf r t)) (hread : ∀ start, Literal.negatedLeast? (.node r start t []) = some l) :
    Readable 7 (.literal l) ["-", t] := by
  refine .of_unary (fun s _ => ?_) (fun s _ => ?_)
  · have hoperand : Gives Grammar.unary (t :: s) s (Leaf r t) :=
      Gives.choice signed (hl s).one failsAt_digits.1 (h s).altFirst []
    have hminus : Gives (rule .unaryOp) ("-" :: t :: s) (t :: s) _ := gives_unaryOp .minus (t :: s)
    have hall : Gives (rule .unaryExpression) ("-" :: t :: s) s _ := Gives.rule rfl (hminus.seq hoperand)
    have hchoice := Gives.choice [rule .preIncrement] (leads_symbol "-" (t :: s)).one (by decide) hall
      [rule .postIncrement, primary]
    refine hchoice.mono ?_
    rintro _ ⟨start, text, _, rfl, _, _, rfl, ⟨start', rfl⟩, start'', rfl⟩
    refine ⟨_, rfl, ?_⟩
    have hop : UnaryOp.ofTree (.node .unaryOp start' UnaryOp.minus.symbol []) = .ok .minus := rfl
    rw [List.singleton_append, Expr.ofTree]
    simp only [hop, hread, bind, Except.bind]
    rfl
  · exact fails_assignment_of_leads (leads_symbol "-" (t :: s)).one (by decide)

end Literals

/-! Digits that are written are read back. -/

theorem toList_toString_of_nonneg {i : Int} (h : 0 ≤ i) : (toString i).toList = Nat.toDigits 10 i.toNat := by
  obtain ⟨n, rfl⟩ := Int.eq_ofNat_of_zero_le h
  exact Nat.toList_repr

theorem value_toDigits (n : Nat) : Decimal.value (Nat.toDigits 10 n) = n :=
  Nat.ofDigitChars_toDigits (by decide) (by decide)

theorem isDigit_of_mem_toDigits {n : Nat} : ∀ x ∈ Nat.toDigits 10 n, x.isDigit = true :=
  fun _ => Nat.isDigit_of_mem_toDigits (by decide) (by decide)

theorem readable_int {n : Int32} (hn : 0 ≤ n.toInt) : Readable 7 (.literal (.int n)) [toString n.toInt] := by
  have ht := toList_toString_of_nonneg hn
  have hne : (toString n.toInt).toList ≠ [] := by
    rw [ht]
    exact Nat.toDigits_ne_nil
  have hdigits : ∀ x ∈ (toString n.toInt).toList, x.isDigit = true := by
    rw [ht]
    exact isDigit_of_mem_toDigits
  refine readable_of_literal (leads_digits hne hdigits (List.append_nil _).symm) failsAt_digits.1
    failsAt_digits.2 (fun s => (gives_int hne hdigits s).mono ?_)
  rintro _ ⟨start, rfl⟩
  refine ⟨_, rfl, ?_⟩
  have hlt : n.toInt.toNat < Nat.pow 2 31 := by
    have := n.toInt_lt
    change _ < 2 ^ 31
    omega
  have hread : Literal.ofTree (.node .intLiteral start (toString n.toInt) []) = .ok (.int n) := by
    rw [Literal.ofTree, Literal.numberOf_eq hne hdigits, ht, value_toDigits, if_pos hlt]
    simp only [bind, Except.bind]
    rw [← Int32.ofInt_eq_ofNat, Int.toNat_of_nonneg hn, Int32.ofInt_toInt]
    rfl
  exact ofTree_literal hread

theorem readable_long {n : Int64} {suffix : String} (hn : 0 ≤ n.toInt) (hsuffix : suffix ∈ ["L", "l"]) :
    Readable 7 (.literal (.long n)) [toString n.toInt ++ suffix] := by
  obtain ⟨x, hx, hletter⟩ : ∃ x, suffix.toList = [x] ∧ (x = 'L' ∨ x = 'l') := by
    rcases List.mem_pair.mp hsuffix with rfl | rfl
    · exact ⟨'L', rfl, .inl rfl⟩
    · exact ⟨'l', rfl, .inr rfl⟩
  have ht : (toString n.toInt ++ suffix).toList = Nat.toDigits 10 n.toInt.toNat ++ [x] := by
    rw [String.toList_append, toList_toString_of_nonneg hn, hx]
  have hne : Nat.toDigits 10 n.toInt.toNat ≠ [] := Nat.toDigits_ne_nil
  refine readable_of_literal (leads_digits hne isDigit_of_mem_toDigits ht) failsAt_digits.1 failsAt_digits.2
    (fun s => (gives_long hne isDigit_of_mem_toDigits hletter ht s).mono ?_)
  rintro _ ⟨start, rfl⟩
  refine ⟨_, rfl, ?_⟩
  have hlt : n.toInt.toNat < Nat.pow 2 63 := by
    have := n.toInt_lt
    change _ < 2 ^ 63
    omega
  have hread : Literal.ofTree (.node .longLiteral start (toString n.toInt ++ suffix) []) = .ok (.long n) := by
    rw [Literal.ofTree, Literal.longDigits?_eq ht isDigit_of_mem_toDigits hletter]
    simp only [Literal.numberOf_eq hne isDigit_of_mem_toDigits, value_toDigits, if_pos hlt, bind, Except.bind]
    rw [← Int64.ofInt_eq_ofNat, Int.toNat_of_nonneg hn, Int64.ofInt_toInt]
    rfl
  exact ofTree_literal hread

/-- A quotation is an operand. -/
theorem readable_quotation {r content : Rule} {quote : Char} {cs : List Char} {l : Literal} {ps qs : List Pattern}
    (hchoice : literal = oneOf (ps ++ rule r :: qs)) (hps : ps.all (fun q => q.failsAt [.among [quote]]) = true)
    (hsigned : signed.all (fun q => q.failsAt [.among [quote]]) = true)
    (hname : (rule .expressionName).failsAt [.among [quote]] = true)
    (h : ∀ s, Gives (rule r) (quotation quote cs :: s) s (Node r (Leaf content (String.ofList cs))))
    (hread : ∀ start text start',
      Expr.ofTree (.node r start text [.node content start' (String.ofList cs) []]) = .ok (.literal l)) :
    Readable 7 (.literal l) [quotation quote cs] := by
  have hleads : ∀ s, Leads (.among [quote]) (quotation quote cs :: s) :=
    leads_among (String.toList_ofList) (.head _)
  refine readable_of_literal hleads hsigned hname (fun s => ?_)
  rw [hchoice]
  refine (Gives.choice ps (hleads s).one hps (h s) qs).mono ?_
  rintro _ ⟨start, text, _, rfl, start', rfl⟩
  exact ⟨_, rfl, hread start text start'⟩

/-- A reserved word that is a literal is an operand. -/
theorem readable_word {r : Rule} {w : String} {l : Literal} {ps qs : List Pattern} (hw : w ∈ keywords)
    (hchoice : literal = oneOf (ps ++ rule r :: qs)) (hps : ps.all (fun q => q.failsAt [.word w]) = true)
    (hsigned : signed.all (fun q => q.failsAt [.word w]) = true)
    (hname : (rule .expressionName).failsAt [.word w] = true) (h : ∀ s, Gives (rule r) (w :: s) s (Leaf r w))
    (hread : ∀ start, Expr.ofTree (.node r start w []) = .ok (.literal l)) : Readable 7 (.literal l) [w] := by
  refine readable_of_literal (leads_keyword hw) hsigned hname (fun s => ?_)
  rw [hchoice]
  refine (Gives.choice ps (leads_keyword hw s).one hps (h s) qs).mono ?_
  rintro _ ⟨start, rfl⟩
  exact ⟨_, rfl, hread start⟩

/-- The patterns of numbers. -/
def numberPatterns : List Pattern := [rule .doubleLiteral, rule .longLiteral, rule .intLiteral]

/-- The ways to write a literal are readable. -/
theorem Literal.readable {l : Literal} {us : List Token} (h : l.Written us) : Readable 7 (.literal l) us := by
  cases l with
  | int n =>
    rcases h with ⟨hn, rfl⟩ | ⟨rfl, rfl⟩
    · exact readable_int hn
    · have hdigits : ∀ x ∈ "2147483648".toList, x.isDigit = true := List.all_eq_true.mp (by decide)
      refine readable_least (leads_digits (by decide) hdigits (List.append_nil _).symm)
        (gives_int (by decide) hdigits) (fun start => ?_)
      rw [negatedLeast?, if_pos rfl]
  | long n =>
    obtain ⟨suffix, hsuffix, ⟨hn, rfl⟩ | ⟨rfl, rfl⟩⟩ := h
    · exact readable_long hn hsuffix
    · have hdigits : ∀ x ∈ "9223372036854775808".toList, x.isDigit = true := List.all_eq_true.mp (by decide)
      obtain ⟨x, hx, hletter⟩ : ∃ x, suffix.toList = [x] ∧ (x = 'L' ∨ x = 'l') := by
        rcases List.mem_pair.mp hsuffix with rfl | rfl
        · exact ⟨'L', rfl, .inl rfl⟩
        · exact ⟨'l', rfl, .inr rfl⟩
      have ht : ("9223372036854775808" ++ suffix).toList = "9223372036854775808".toList ++ [x] := by
        rw [String.toList_append, hx]
      refine readable_least (leads_digits (by decide) hdigits ht) (gives_long (by decide) hdigits hletter ht)
        (fun start => ?_)
      rcases List.mem_pair.mp hsuffix with rfl | rfl <;> rw [negatedLeast?, if_pos (by decide)]
  | double x => cases h
  | boolean b =>
    obtain rfl := h
    have hgives : ∀ w ∈ ["true", "false"], ∀ s, Gives (rule .booleanLiteral) (w :: s) s (Leaf .booleanLiteral w) := by
      intro w hw s
      refine Gives.leaf rfl (fun tail htail => ?_) s
      exact (takes_words (by decide) hw htail.apart).tight
    have hps : ∀ w ∈ ["true", "false"], (numberPatterns ++ [rule .charLiteral, rule .stringLiteral]).all
        (fun q => q.failsAt [.word w]) = true ∧ signed.all (fun q => q.failsAt [.word w]) = true ∧
          (rule .expressionName).failsAt [.word w] = true := by
      decide
    cases b
    · obtain ⟨hps, hsigned, hname⟩ := hps "false" (by decide)
      exact @readable_word _ _ _ _ [rule .nullLiteral] (by decide) rfl hps hsigned hname (hgives _ (by decide))
        (fun _ => rfl)
    · obtain ⟨hps, hsigned, hname⟩ := hps "true" (by decide)
      exact @readable_word _ _ _ _ [rule .nullLiteral] (by decide) rfl hps hsigned hname (hgives _ (by decide))
        (fun _ => rfl)
  | char c =>
    obtain ⟨cs, hcs, rfl⟩ := h
    refine @readable_quotation .charLiteral .charContent _ _ _ numberPatterns
      [rule .stringLiteral, rule .booleanLiteral, rule .nullLiteral] rfl (by decide) (by decide)
      (by decide) ?_ (fun start text start' => ?_)
    · exact gives_quotation rfl rfl rfl (fun tail => takes_quotedChar hcs) String.toList_ofList
    · have hread := unescape_of_spells hcs []
      rw [List.append_nil] at hread
      refine ofTree_literal ?_
      rw [Literal.ofTree, String.toList_ofList, hread]
  | string s =>
    obtain ⟨cs, hcs, rfl⟩ := h
    refine @readable_quotation .stringLiteral .stringContent _ _ _ (numberPatterns ++ [rule .charLiteral])
      [rule .booleanLiteral, rule .nullLiteral] rfl (by decide) (by decide) (by decide) ?_
      (fun start text start' => ?_)
    · exact gives_quotation rfl rfl rfl (fun tail => takes_quotedChars hcs (by decide)) String.toList_ofList
    · refine ofTree_literal ?_
      rw [Literal.ofTree, String.toList_ofList, unescape_of_spellsChars hcs, String.ofList_toList]
  | null =>
    obtain rfl := h
    have hgives : ∀ s, Gives (rule .nullLiteral) ("null" :: s) s (Leaf .nullLiteral "null") := by
      intro s
      refine Gives.leaf rfl (fun tail htail => ?_) s
      exact (@takes_words tail "null" ["null"] (by decide) (.head _) htail.apart).tight
    exact @readable_word _ _ _ (numberPatterns ++ [rule .charLiteral, rule .stringLiteral, rule .booleanLiteral]) []
      (by decide) rfl (by decide) (by decide) (by decide) hgives (fun _ => rfl)

/-! ### Arguments -/

section Arguments

variable {s : List Token} {t : Token} {zs : List (Expr × List Token)}

theorem exists_pairs {es : List Expr} {uss : List (List Token)} (h : Expr.WrittenAll es uss) :
    ∃ zs : List (Expr × List Token), es = zs.map Prod.fst ∧ uss = zs.map Prod.snd ∧ ∀ z ∈ zs, z.1.Written z.2 := by
  induction es generalizing uss with
  | nil =>
    obtain rfl := h
    exact ⟨[], rfl, rfl, nofun⟩
  | cons e es ih =>
    obtain ⟨us, vss, he, hes, rfl⟩ := h
    obtain ⟨zs, rfl, rfl, hzs⟩ := ih hes
    refine ⟨(e, us) :: zs, rfl, rfl, fun z hz => ?_⟩
    rcases List.mem_cons.mp hz with rfl | hz
    · exact he
    · exact hzs z hz

theorem listOf_of_each {ts : List Tree} (h : Each (fun z : Expr × List Token => ReadsAs z.1) zs ts) :
    Expr.listOf ts = .ok (zs.map Prod.fst) := by
  induction zs generalizing ts with
  | nil =>
    obtain rfl := h
    rfl
  | cons z zs ih =>
    obtain ⟨_, ts', rfl, ⟨t, rfl, ht⟩, hts'⟩ := h
    rw [List.singleton_append, Expr.listOf, ht, ih hts']
    rfl

/-- The symbols that close a list of expressions. -/
theorem fails_closers : ∀ t ∈ [")", "\x7d"], (lit ",").failsAt [.symbol t] = true ∧
    (rule .expression).failsAt [.symbol t] = true ∧ t ∈ enders 0 := by
  decide

/-- Expressions with commas between them, in front of a closing symbol. -/
theorem gives_expressions (h : ∀ z ∈ zs, IsOperand 0 z.1 z.2) (ht : t ∈ [")", "\x7d"]) (s : List Token) :
    Gives expressions (commas (zs.map Prod.snd) ++ t :: s) (t :: s)
      (fun ts => Expr.listOf ts = .ok (zs.map Prod.fst) ∧ ∀ t ∈ ts, t.rule = .expression) := by
  refine Gives.rule_eq ?_ .expression rfl
  obtain ⟨hcomma, hexpression, hender⟩ := fails_closers t ht
  have hcomma' : Fails (lit ",") (t :: s) := Fails.of_lead (leads_symbol t s) hcomma
  cases zs with
  | nil =>
    have hnone : Fails (rule .expression) (t :: s) := Fails.of_lead (leads_symbol t s) hexpression
    refine (Gives.optNone hnone.seqFirst).mono ?_
    rintro _ rfl
    rfl
  | cons z zs =>
    refine (gives_separated (Q := fun z => ReadsAs z.1) hcomma' (gives_lit ",") ?_).optSome.mono
      (fun ts hts => listOf_of_each hts)
    intro y hy s' hs'
    refine h y hy s' ?_
    rcases hs' with rfl | ⟨s'', rfl⟩
    · exact stops_cons hender s
    · exact stops_cons (by decide) s''

theorem gives_arguments (h : ∀ z ∈ zs, IsOperand 0 z.1 z.2) (s : List Token) :
    Gives (rule .arguments) (bracketed (commas (zs.map Prod.snd)) ++ s) s
      (fun ts => ∃ t, ts = [t] ∧ t.rule = .arguments ∧ Expr.argumentsOf t = .ok (zs.map Prod.fst)) := by
  have hinside := (gives_expressions h (.head _) s).after (gives_lit ")" s)
  have hall := (gives_lit "(" _).before hinside
  rw [bracketed, List.cons_append, List.append_assoc, List.singleton_append]
  refine (Gives.rule (r := .arguments) rfl hall).mono ?_
  rintro _ ⟨start, text, ts, rfl, hread, hrules⟩
  exact ⟨_, rfl, rfl, by rw [Expr.argumentsOf, expectAll_bind hrules, hread]⟩

end Arguments

/-! ### Operands -/

section Operands

variable {e : Expr} {us s s' : List Token} {t : Token} {P : List Tree → Prop}

/-- The patterns of operands that do not begin with a name. -/
def nameless : List Pattern :=
  [literal, inOrder [lit "(", rule .expression, lit ")"], rule .arrayCreation, rule .classInstanceCreation]

/-- Brackets make an operand of an expression. -/
theorem readable_bracketed (h : IsOperand 0 e us) : Readable 7 e (bracketed us) := by
  have hleads : ∀ s, ∃ l ∈ [Lead.symbol "("], Leads l (bracketed us ++ s) := fun s => (leads_symbol "(" _).one
  refine .of_unary (fun s _ => ?_) (fun s _ => fails_assignment_of_leads (hleads s) (by decide))
  have hinside := h (")" :: s) (stops_cons (by decide) s)
  have hall := (gives_lit "(" _).before (hinside.after (gives_lit ")" s))
  have hprimary := Gives.choice [literal] (leads_symbol "(" _).one (by decide) hall
    [rule .arrayCreation, rule .classInstanceCreation, rule .methodInvocation, rule .expressionName]
  have hunary := Gives.choice signed (leads_symbol "(" _).one (by decide) hprimary []
  rw [bracketed, List.cons_append, List.append_assoc, List.singleton_append]
  exact hunary

/-- An operand in a place that asks for a level. -/
theorem readable_of_placed {need : Nat} (hneed : need ≤ 7) (h : Expr.Placed need e.level e.Written us)
    (ih : ∀ us, e.Written us → Readable e.level e us) : ∃ j, need ≤ j ∧ Readable j e us := by
  unfold Expr.Placed at h
  split_ifs at h with hlevel
  · obtain ⟨vs, hvs, rfl⟩ := h
    exact ⟨7, hneed, readable_bracketed ((ih vs hvs).operand 0 (Nat.zero_le _))⟩
  · exact ⟨e.level, by omega, ih us h⟩

/-- An operand that begins with a name and is not incremented. -/
theorem gives_unary_of_dotted (h : IsDotted t.toList) (hs : Fails (rule .incrementOp) s)
    (hp : Gives (oneOf [rule .methodInvocation, rule .expressionName]) (t :: s) s' P) :
    Gives Grammar.unary (t :: s) s' P := by
  have hpre : Fails (rule .preIncrement) (t :: s) := Fails.of_leads (h.leads s) (by decide)
  have hsign : Fails (rule .unaryExpression) (t :: s) := Fails.of_leads (h.leads s) (by decide)
  have hpost : Fails (rule .postIncrement) (t :: s) := Fails.rule rfl (.seqSecond (gives_dotted h s) hs)
  have hprimary : Gives primary (t :: s) s' P := Gives.choice nameless (h.leads s) (by decide) hp []
  exact .altSecond hpre (.altSecond hsign (.altSecond hpost hprimary))

theorem readable_name {p : Path} (hp : p.Proper) : Readable 7 (.name p) [p.text] := by
  refine .of_unary (fun s hs => ?_) (fun s hs => fails_assignment_of_dotted hp.dotted hs.fails_assign)
  have hcall : Fails (rule .methodInvocation) (p.text :: s) :=
    Fails.rule rfl (.seqSecond (gives_dotted hp.dotted s) (Fails.of_leads hs.leads (by decide)))
  have hname := Gives.altSecond hcall (gives_dotted hp.dotted s)
  refine (gives_unary_of_dotted hp.dotted (Fails.of_leads hs.leads (by decide)) hname).mono ?_
  rintro _ ⟨start, rfl⟩
  refine ⟨_, rfl, ?_⟩
  rw [Expr.ofTree, hp.read]
  rfl

theorem gives_call {p : Path} {zs : List (Expr × List Token)} (hp : p.Proper) (h : ∀ z ∈ zs, IsOperand 0 z.1 z.2)
    (s : List Token) : Gives (rule .methodInvocation) (p.text :: (bracketed (commas (zs.map Prod.snd)) ++ s)) s
      (ReadsAs (.call p (zs.map Prod.fst))) := by
  refine (Gives.rule (r := .methodInvocation) rfl ((gives_dotted hp.dotted _).seq (gives_arguments h s))).mono ?_
  rintro _ ⟨start, text, _, rfl, _, _, rfl, ⟨start', rfl⟩, args, rfl, hr, hargs⟩
  refine ⟨_, rfl, ?_⟩
  rw [List.singleton_append, Expr.ofTree, expect_bind (by simp [hr]), hargs, Tree.text, hp.read]
  rfl

theorem readable_call {p : Path} {zs : List (Expr × List Token)} (hp : p.Proper)
    (h : ∀ z ∈ zs, IsOperand 0 z.1 z.2) :
    Readable 7 (.call p (zs.map Prod.fst)) (p.text :: bracketed (commas (zs.map Prod.snd))) := by
  have hleads : ∀ s, ∃ l ∈ [Lead.symbol "("], Leads l (bracketed (commas (zs.map Prod.snd)) ++ s) :=
    fun s => (leads_symbol "(" _).one
  refine .of_unary (fun s hs => ?_) (fun s hs => ?_)
  · exact gives_unary_of_dotted hp.dotted (Fails.of_leads (hleads s) (by decide)) (gives_call hp h s).altFirst
  · exact fails_assignment_of_dotted hp.dotted (Fails.of_leads (hleads s) (by decide)).seqFirst

theorem incrementOp_symbol {op : BinaryOp} (hop : op = .add ∨ op = .sub) (start : Nat) :
    incrementOp (.node .incrementOp start (op.symbol ++ op.symbol) []) = .ok op := by
  rcases hop with rfl | rfl <;> rfl

theorem gives_preIncrement {op : BinaryOp} {p : Path} (hop : op = .add ∨ op = .sub) (hp : p.Proper) (s : List Token) :
    Gives (rule .preIncrement) ((op.symbol ++ op.symbol) :: p.text :: s) s (ReadsAs (.increment op .pre p)) := by
  refine (Gives.rule (r := .preIncrement) rfl ((gives_incrementOp hop _).seq (gives_dotted hp.dotted s))).mono ?_
  rintro _ ⟨start, text, _, rfl, _, _, rfl, ⟨start', rfl⟩, start'', rfl⟩
  refine ⟨_, rfl, ?_⟩
  rw [List.singleton_append, Expr.ofTree, expect_bind (by simp), incrementOp_symbol hop, Tree.text, hp.read]
  rfl

theorem gives_postIncrement {op : BinaryOp} {p : Path} (hop : op = .add ∨ op = .sub) (hp : p.Proper) (s : List Token) :
    Gives (rule .postIncrement) (p.text :: (op.symbol ++ op.symbol) :: s) s (ReadsAs (.increment op .post p)) := by
  refine (Gives.rule (r := .postIncrement) rfl ((gives_dotted hp.dotted _).seq (gives_incrementOp hop s))).mono ?_
  rintro _ ⟨start, text, _, rfl, _, _, rfl, ⟨start', rfl⟩, start'', rfl⟩
  refine ⟨_, rfl, ?_⟩
  rw [List.singleton_append, Expr.ofTree, expect_bind (by simp), incrementOp_symbol hop, Tree.text, hp.read]
  rfl

theorem readable_increment {op : BinaryOp} {fix : Fixity} {p : Path} (hop : op = .add ∨ op = .sub) (hp : p.Proper)
    (h : (Expr.increment op fix p).Written us) : Readable 7 (.increment op fix p) us := by
  have hleads : ∀ s, ∃ l ∈ [Lead.symbol "++", .symbol "--"], Leads l ((op.symbol ++ op.symbol) :: s) := by
    intro s
    rcases hop with rfl | rfl
    · exact ⟨.symbol "++", .head _, leads_symbol "++" s⟩
    · exact ⟨.symbol "--", .tail _ (.head _), leads_symbol "--" s⟩
  cases fix with
  | pre =>
    obtain rfl := h
    refine .of_unary (fun s _ => ?_) (fun s _ => fails_assignment_of_leads (hleads _) (by decide))
    exact (gives_preIncrement hop hp s).altFirst
  | post =>
    obtain rfl := h
    have hdotted : ∀ s, ∃ l ∈ dottedLeads, Leads l ([p.text, op.symbol ++ op.symbol] ++ s) := fun s => hp.dotted.leads _
    refine .of_unary (fun s _ => ?_) (fun s _ => ?_)
    · exact Gives.choice [rule .preIncrement, rule .unaryExpression] (hdotted s) (by decide)
        (gives_postIncrement hop hp s) [primary]
    · exact fails_assignment_of_dotted hp.dotted (Fails.of_leads (hleads s) (by decide)).seqFirst

/-- Digits that are out of range without a minus are not read as an expression. -/
theorem negatedLeast?_eq_none {tree : Tree} (h : Expr.ofTree tree = .ok e) : Literal.negatedLeast? tree = none := by
  unfold Literal.negatedLeast?
  split
  · split_ifs with ht
    · subst ht
      cases h
    · rfl
  · rename_i start text children
    split_ifs with ht
    · have hread : Literal.ofTree (.node .longLiteral start text children) = .error (.tooLarge start) := by
        rw [Literal.ofTree, ht]
        rfl
      change (Literal.ofTree (.node .longLiteral start text children) >>= fun l => pure (Expr.literal l)) = _ at h
      rw [hread] at h
      cases h
    · rfl
  · rfl

theorem readable_unary {op : UnaryOp} (h : IsOperand 7 e us) : Readable 7 (.unary op e) (op.symbol :: us) := by
  have hleads : ∀ s, ∃ l ∈ [Lead.symbol "-", .symbol "+", .symbol "!"], Leads l (op.symbol :: us ++ s) := by
    intro s
    cases op
    · exact ⟨.symbol "-", .head _, leads_symbol "-" _⟩
    · exact ⟨.symbol "+", .tail _ (.head _), leads_symbol "+" _⟩
    · exact ⟨.symbol "!", .tail _ (.tail _ (.head _)), leads_symbol "!" _⟩
  refine .of_unary (fun s hs => ?_) (fun s _ => fails_assignment_of_leads (hleads s) (by decide))
  have hall := Gives.rule (r := .unaryExpression) rfl ((gives_unaryOp op (us ++ s)).seq (h s hs))
  refine (Gives.choice [rule .preIncrement] (hleads s) (by decide) hall [rule .postIncrement, primary]).mono ?_
  rintro _ ⟨start, text, _, rfl, _, _, rfl, ⟨start', rfl⟩, tree, rfl, htree⟩
  refine ⟨_, rfl, ?_⟩
  have hop : UnaryOp.ofTree (.node .unaryOp start' op.symbol []) = .ok op := by
    cases op <;> rfl
  rw [List.singleton_append, Expr.ofTree]
  simp only [hop, negatedLeast?_eq_none htree, htree, bind, Except.bind]
  cases op <;> rfl

/-- An operand that begins with `new` makes an array or an object. -/
theorem gives_unary_of_new
    (h : Gives (oneOf [rule .arrayCreation, rule .classInstanceCreation, rule .methodInvocation, rule .expressionName])
      ("new" :: s) s' P) : Gives Grammar.unary ("new" :: s) s' P := by
  have hleads : ∃ l ∈ [Lead.word "new"], Leads l ("new" :: s) := (leads_keyword (by decide) s).one
  have hprimary : Gives primary ("new" :: s) s' P :=
    Gives.choice [literal, inOrder [lit "(", rule .expression, lit ")"]] hleads (by decide) h []
  exact Gives.choice signed hleads (by decide) hprimary []

theorem gives_new {cls : String} {zs : List (Expr × List Token)} (hcls : Rule.identifier.Spells cls.toList)
    (h : ∀ z ∈ zs, IsOperand 0 z.1 z.2) (s : List Token) :
    Gives (rule .classInstanceCreation) ("new" :: cls :: (bracketed (commas (zs.map Prod.snd)) ++ s)) s
      (ReadsAs (.new cls (zs.map Prod.fst))) := by
  have hclass : Gives (rule .identifier) (cls :: (bracketed (commas (zs.map Prod.snd)) ++ s)) _ (Leaf .identifier cls) :=
    Gives.leaf rfl (fun tail htail => takes_identifier hcls htail.apart) _
  have hnew : Gives (word "new") ("new" :: cls :: (bracketed (commas (zs.map Prod.snd)) ++ s)) _ Bare :=
    gives_word (by decide) _
  refine (Gives.rule (r := .classInstanceCreation) rfl (hnew.before (hclass.seq (gives_arguments h s)))).mono ?_
  rintro _ ⟨start, text, _, rfl, _, _, rfl, ⟨start', rfl⟩, args, rfl, hr, hargs⟩
  refine ⟨_, rfl, ?_⟩
  rw [List.singleton_append, Expr.ofTree, expect_bind (by simp [hr]), hargs]
  rfl

theorem readable_new {cls : String} {zs : List (Expr × List Token)} (hcls : Rule.identifier.Spells cls.toList)
    (h : ∀ z ∈ zs, IsOperand 0 z.1 z.2) :
    Readable 7 (.new cls (zs.map Prod.fst)) ("new" :: cls :: bracketed (commas (zs.map Prod.snd))) := by
  have hleads : ∀ s, Leads (.word "new") ("new" :: s) := leads_keyword (by decide)
  refine .of_unary (fun s _ => ?_) (fun s _ => fails_assignment_of_leads (hleads _).one (by decide))
  have harray : Fails (rule .arrayCreation) ("new" :: cls :: (bracketed (commas (zs.map Prod.snd)) ++ s)) := by
    have htype : Fails (rule .arrayType) (cls :: (bracketed (commas (zs.map Prod.snd)) ++ s)) :=
      Fails.leaf rfl (fun tail htail => refuses_arrayText (.inr hcls) htail) _
    exact Fails.rule rfl (.seqSecond (gives_word (by decide) _) htype.seqFirst)
  exact gives_unary_of_new (.altSecond harray (gives_new hcls h s).altFirst)

theorem readable_array {element : TypeName} {zs : List (Expr × List Token)} (ht : element.IsElement)
    (h : ∀ z ∈ zs, IsOperand 0 z.1 z.2) : Readable 7 (.array element (zs.map Prod.fst))
      ("new" :: (element.text ++ "[]") :: "\x7b" :: (commas (zs.map Prod.snd) ++ ["\x7d"])) := by
  have hleads : ∀ s, Leads (.word "new") ("new" :: s) := leads_keyword (by decide)
  refine .of_unary (fun s _ => ?_) (fun s _ => fails_assignment_of_leads (hleads _).one (by decide))
  have htype : ∀ s, Gives (rule .arrayType) ((element.text ++ "[]") :: s) s (Leaf .arrayType (element.text ++ "[]")) := by
    intro s
    refine Gives.leaf rfl (fun tail _ => ?_) s
    rw [String.toList_append]
    exact takes_arrayText ht.word
  have helements := (gives_expressions h (.tail _ (.head _)) s).after (gives_lit "\x7d" s)
  have hall := Gives.rule (r := .arrayCreation) rfl
    ((gives_word (by decide) _).before ((htype _).seq ((gives_lit "\x7b" _).before helements)))
  have hunary := gives_unary_of_new (.altFirst hall)
  rw [List.cons_append, List.cons_append, List.cons_append, List.append_assoc, List.singleton_append]
  refine hunary.mono ?_
  rintro _ ⟨start, text, _, rfl, _, elements, rfl, ⟨start', rfl⟩, helements, hrules⟩
  refine ⟨_, rfl, ?_⟩
  rw [List.singleton_append, Expr.ofTree, expect_cons_bind (by simp) hrules, helements, elementType, Tree.text, ht.read]
  rfl

theorem assignmentOp_compound {op : BinaryOp} (hop : op.isArithmetic = true) (start : Nat) :
    assignmentOp (.node .assignmentOperator start (op.symbol ++ "=") []) = .ok (some op) := by
  have hspelling : op.symbol ++ "=" ≠ "=" ∧
      String.ofList ((op.symbol ++ "=").toList.takeWhile (fun c => c != '=')) = op.symbol := by
    revert hop
    cases op <;> decide
  rw [assignmentOp, Tree.text, if_neg hspelling.1, hspelling.2, BinaryOp.ofSymbol?_symbol]

theorem mem_assignmentSymbols {op : BinaryOp} (hop : op.isArithmetic = true) : op.symbol ++ "=" ∈ assignmentSymbols := by
  revert hop
  cases op <;> decide

theorem gives_assignment {p : Path} {value : Expr} (hp : p.Proper) (hvalue : IsOperand 0 value us)
    (ht : t ∈ assignmentSymbols) (hread : ∀ start text start' start'' tree, tree.rule = .expression →
      Expr.ofTree tree = .ok value → Expr.ofTree (.node .assignment start text [.node .expressionName start' p.text [],
        .node .assignmentOperator start'' t [], tree]) = .ok e) (hs : Stops 0 s) :
    Gives (rule .assignment) (p.text :: t :: us ++ s) s (ReadsAs e) := by
  refine (Gives.rule (r := .assignment) rfl
    ((gives_dotted hp.dotted _).seq ((gives_assignmentOperator ht _).seq ((hvalue s hs).rule_eq .expression rfl)))).mono ?_
  rintro _ ⟨start, text, _, rfl, _, _, rfl, ⟨start', rfl⟩, _, _, rfl, ⟨start'', rfl⟩, ⟨tree, rfl, htree⟩, hrules⟩
  exact ⟨_, rfl, hread _ _ _ _ _ (hrules tree (.head _)) htree⟩

theorem gives_assign {p : Path} {value : Expr} (hp : p.Proper) (hvalue : IsOperand 0 value us) (hs : Stops 0 s) :
    Gives (rule .assignment) (p.text :: "=" :: us ++ s) s (ReadsAs (.assign p value)) := by
  refine gives_assignment hp hvalue (.head _) ?_ hs
  intro start text start' start'' tree hr htree
  rw [Expr.ofTree, expect_bind (by simp [hr]), htree, Tree.text, hp.read]
  rfl

theorem gives_compound {op : BinaryOp} {p : Path} {value : Expr} (hop : op.isArithmetic = true) (hp : p.Proper)
    (hvalue : IsOperand 0 value us) (hs : Stops 0 s) :
    Gives (rule .assignment) (p.text :: (op.symbol ++ "=") :: us ++ s) s (ReadsAs (.compound op p value)) := by
  refine gives_assignment hp hvalue (mem_assignmentSymbols hop) ?_ hs
  intro start text start' start'' tree hr htree
  rw [Expr.ofTree, expect_bind (by simp [hr]), assignmentOp_compound hop, htree, Tree.text, hp.read]
  rfl

/-- An assignment is an expression, and no operand. -/
theorem readable_assignment (h : ∀ s, Stops 0 s → Gives (rule .assignment) (us ++ s) s (ReadsAs e)) : Readable 0 e us := by
  refine ⟨fun k hk => ?_, fun k hk _ hk' => by omega, fun h => by omega⟩
  obtain rfl := Nat.le_zero.mp hk
  intro s hs
  refine (Gives.rule (r := .expression) rfl (h s hs).altFirst).mono ?_
  rintro _ ⟨start, text, _, rfl, tree, rfl, htree⟩
  refine ⟨_, rfl, ?_⟩
  rw [Expr.ofTree]
  exact htree

end Operands

/-! ### Expressions -/

theorem readable_all {es : List Expr} {uss : List (List Token)}
    (ih : ∀ e ∈ es, e.Proper → ∀ us, e.Written us → Readable e.level e us) (hes : Expr.ProperAll es)
    (h : Expr.WrittenAll es uss) : ∃ zs : List (Expr × List Token), es = zs.map Prod.fst ∧ uss = zs.map Prod.snd ∧
      ∀ z ∈ zs, IsOperand 0 z.1 z.2 := by
  obtain ⟨zs, rfl, rfl, hzs⟩ := exists_pairs h
  refine ⟨zs, rfl, rfl, fun z hz => ?_⟩
  have hmem : z.1 ∈ zs.map Prod.fst := List.mem_map_of_mem hz
  exact (ih z.1 hmem (Expr.properAll_iff.mp hes z.1 hmem) z.2 (hzs z hz)).operand 0 (Nat.zero_le _)

/-- The ways to write a proper expression are readable. -/
theorem Expr.readable {e : Expr} {us : List Token} (he : e.Proper) (h : e.Written us) : Readable e.level e us := by
  induction e using Expr.ofParts generalizing us with
  | literal l => exact Literal.readable h
  | name p =>
    obtain rfl := h
    exact readable_name he
  | assign p e ih =>
    obtain ⟨vs, hvs, rfl⟩ := h
    have hvalue := (ih he.2 hvs).operand 0 (Nat.zero_le _)
    exact readable_assignment (fun s hs => gives_assign he.1 hvalue hs)
  | compound op p e ih =>
    obtain ⟨vs, hvs, rfl⟩ := h
    obtain ⟨hop, hp, he⟩ := he
    have hvalue := (ih he hvs).operand 0 (Nat.zero_le _)
    exact readable_assignment (fun s hs => gives_compound hop hp hvalue hs)
  | increment op fix p => exact readable_increment he.1 he.2 h
  | binary op l r ihl ihr =>
    obtain ⟨vs, ws, hvs, hws, rfl⟩ := h
    have hlevel := op.level_le
    obtain ⟨j, hj, hl⟩ := readable_of_placed (by omega) hvs (fun us h => ihl he.1 h)
    obtain ⟨j', hj', hr⟩ := readable_of_placed (by omega) hws (fun us h => ihr he.2 h)
    have hchained := (hl.chained op.level op.level_pos hlevel hj).binary (hr.operand _ hj')
    refine .of_chained hlevel hchained (fun s _ => ?_) op.level_pos
    rw [List.append_assoc]
    have hpos := op.level_pos
    exact hl.unassigned (by omega) _ (stops_operator (by omega) _)
  | unary op e ih =>
    obtain ⟨vs, hvs, rfl⟩ := h
    obtain ⟨j, hj, hreadable⟩ := readable_of_placed (Nat.le_refl 7) hvs (fun us h => ih he h)
    exact readable_unary (hreadable.operand 7 hj)
  | call p args ih =>
    obtain ⟨uss, huss, rfl⟩ := h
    obtain ⟨zs, rfl, rfl, hzs⟩ := readable_all (fun e he hp us => ih e he hp) he.2 huss
    exact readable_call he.1 hzs
  | new cls args ih =>
    obtain ⟨uss, huss, rfl⟩ := h
    obtain ⟨zs, rfl, rfl, hzs⟩ := readable_all (fun e he hp us => ih e he hp) he.2 huss
    exact readable_new he.1 hzs
  | array t es ih =>
    obtain ⟨uss, huss, rfl⟩ := h
    obtain ⟨zs, rfl, rfl, hzs⟩ := readable_all (fun e he hp us => ih e he hp) he.2 huss
    exact readable_array he.1 hzs
  | void => cases h

end StashMachine
