import Mathlib.Data.List.TakeWhile
import StashMachine.Proofs.Shapes

/-!
# StashMachine.Proofs.ExprReading — every expression of the grammar is read

* `Tree.tooLarge`: where the number literals of a tree start that are out of range, in the order of the tree.  A literal
  that a minus sign takes is none of them.
* `Settles x bad`: a reading that succeeds if `bad` is empty and else blames the first of `bad`; `Settles.bind`,
  `settles_mapM`: readings one after the other.
* `tooLarge_of_isNumberless`: below most rules there is no such literal.
* `Literal.settles`, `Expr.settles`: a literal, or an expression, is read up to the first literal out of range.
-/

namespace StashMachine

open Grammar Pattern

namespace Grammar

/-! ### Literals out of range -/

/-- Whether a minus sign takes the literal behind it together with its digits. -/
def Tree.folds (op operand : Tree) : Bool := op.text == "-" && (Literal.negatedLeast? operand).isSome

mutual

/-- Where the number literals start that are out of range and that no minus sign takes. -/
def Tree.tooLarge : Tree → List Nat
  | node r start text children =>
    match r, children with
    | .intLiteral, _ => if Decimal.value text.toList < Nat.pow 2 31 then [] else [start]
    | .longLiteral, _ =>
      if Decimal.value (text.toList.takeWhile Char.isDigit) < Nat.pow 2 63 then [] else [start]
    | .unaryExpression, [op, operand] => op.tooLarge ++ if Tree.folds op operand then [] else operand.tooLarge
    | _, children => Tree.tooLargeAll children

/-- The same for several trees, one after the other. -/
def Tree.tooLargeAll : List Tree → List Nat
  | [] => []
  | t :: ts => t.tooLarge ++ Tree.tooLargeAll ts

end

/-- The rules below which no number literal stands. -/
def Rule.isNumberless : Rule → Bool
  | .superclass | .modifier | .identifier | .unannType | .arrayType | .resultType | .emptyBody | .thisOrSuper
  | .formalParameters | .formalParameter | .defaultLabel | .breakStatement | .continueStatement | .emptyStatement
  | .assignmentOperator | .orOp | .andOp | .equalityOp | .relationalOp | .additiveOp | .multiplicativeOp
  | .unaryOp | .preIncrement | .postIncrement | .incrementOp | .expressionName
  | .doubleLiteral | .charLiteral | .charContent | .stringLiteral | .stringContent | .booleanLiteral | .nullLiteral
  | .endOfInput => true
  | _ => false

/-- The rules whose nodes are no number literals, nor are they made of a sign and an operand. -/
def Rule.isInner : Rule → Bool
  | .intLiteral | .longLiteral | .unaryExpression => false
  | _ => true

theorem Rule.allRules_isNumberless {r : Rule} (h : r.isNumberless = true) : r.body.allRules isNumberless = true := by
  cases r <;> first | rfl | cases h

theorem Rule.isInner_of_isNumberless {r : Rule} (h : r.isNumberless = true) : r.isInner = true := by
  cases r <;> first | rfl | cases h

namespace Tree

variable {r : Rule} {start : Nat} {text : String} {ts : List Tree} {t : Tree}

theorem tooLargeAll_append (ts us : List Tree) : tooLargeAll (ts ++ us) = tooLargeAll ts ++ tooLargeAll us := by
  induction ts with
  | nil => rfl
  | cons t ts ih => rw [List.cons_append, tooLargeAll, tooLargeAll, ih, List.append_assoc]

theorem tooLargeAll_singleton (t : Tree) : tooLargeAll [t] = t.tooLarge := by
  rw [tooLargeAll, tooLargeAll, List.append_nil]

theorem tooLargeAll_eq_nil (h : ∀ t ∈ ts, t.tooLarge = []) : tooLargeAll ts = [] := by
  induction ts with
  | nil => rfl
  | cons t ts ih =>
    rw [tooLargeAll, h t (.head _), ih (fun t ht => h t (.tail _ ht)), List.append_nil]

theorem tooLarge_node (hr : r.isInner = true) : (node r start text ts).tooLarge = tooLargeAll ts := by
  cases r <;> first | rfl | cases hr

/-- Below most rules there is no number literal. -/
theorem tooLarge_of_isNumberless (h : t.Derived) (hr : t.rule.isNumberless = true) : t.tooLarge = [] := by
  induction t using Tree.ofChildren with
  | h r start text ts ih =>
    replace hr : r.isNumberless = true := hr
    rw [tooLarge_node (Rule.isInner_of_isNumberless hr)]
    refine tooLargeAll_eq_nil (fun t ht => ih t ht (h.children t ht) ?_)
    by_cases hatomic : r.spacing = .atomic
    · obtain ⟨gaps, c, d, hyields⟩ := h
      obtain ⟨us, -, hnode⟩ := hyields.of_rule
      simp only [rule, hatomic, List.cons.injEq, node.injEq] at hnode
      rw [hnode.1.2.2.2] at ht
      cases ht
    · obtain ⟨gaps, cs, hadmits⟩ := h.admits hatomic
      exact hadmits.forall_rules (Rule.allRules_isNumberless hr) _ (List.mem_map_of_mem ht)

end Tree

end Grammar

/-! ### Readings -/

/-- The reading succeeds if no literal is out of range, and else it blames the first that is. -/
def Settles {α : Type} (x : Reading α) : List Nat → Prop
  | [] => ∃ a, x = .ok a
  | s :: _ => x = .error (.tooLarge s)

section Settles

variable {α β : Type} {x : Reading α} {bad bad' : List Nat} {f : α → Reading β}

theorem settles_pure (a : α) : Settles (pure a : Reading α) [] := ⟨a, rfl⟩

theorem Settles.bind (hx : Settles x bad) (hf : ∀ a, x = .ok a → Settles (f a) bad') :
    Settles (x >>= f) (bad ++ bad') := by
  cases bad with
  | nil =>
    obtain ⟨a, rfl⟩ := hx
    exact hf a rfl
  | cons s bad =>
    obtain rfl := hx
    exact rfl

/-- The reading of a part decides if what is done with it cannot go wrong. -/
theorem Settles.bind_pure {g : α → β} (hx : Settles x bad) : Settles (x >>= fun a => pure (g a)) bad := by
  have hbind := hx.bind (fun a _ => settles_pure (g a))
  rwa [List.append_nil] at hbind

/-- A part that cannot go wrong leaves the decision to the others. -/
theorem Settles.after (hx : Settles x []) (hf : ∀ a, x = .ok a → Settles (f a) bad) : Settles (x >>= f) bad :=
  hx.bind hf

theorem settles_mapM {g : Tree → Reading α} {ts : List Tree} (h : ∀ t ∈ ts, Settles (g t) t.tooLarge) :
    Settles (ts.mapM g) (Tree.tooLargeAll ts) := by
  induction ts with
  | nil => exact ⟨[], rfl⟩
  | cons t ts ih =>
    rw [List.mapM_cons]
    exact (h t (.head _)).bind (fun a _ => (ih (fun t ht => h t (.tail _ ht))).bind_pure)

end Settles

/-! ### Signs -/

section Signs

variable {t : Tree}

theorem text_mem_of_symbols {ks : List String} (h : t.Derived) (hbody : t.rule.body = oneOf (ks.map lit))
    (hks : ks ≠ []) : t.text ∈ ks := by
  obtain ⟨gaps, rs, hadmits⟩ := h.spelled
  rw [hbody] at hadmits
  have hmem := hadmits.mem_of_symbols hks
  rwa [String.ofList_toList] at hmem

theorem text_mem_of_words {ks : List String} (h : t.Derived) (hbody : t.rule.body = wordOf ks) (hks : ks ≠ []) :
    t.text ∈ ks := by
  obtain ⟨gaps, rs, hadmits⟩ := h.spelled
  rw [hbody] at hadmits
  have hmem := (hadmits.mem_of_words hks).1
  rwa [String.ofList_toList] at hmem

/-- The operators of a level. -/
theorem settles_operator {k : Nat} (h : t.Derived) (hr : t.rule = operatorRule k) : Settles (BinaryOp.ofTree t) [] := by
  have hspelled : ∃ ks, (operatorRule k).body = oneOf (ks.map lit) ∧ ks ≠ [] ∧
      ∀ s ∈ ks, (BinaryOp.ofSymbol? s).isSome = true := by
    unfold operatorRule
    split
    · exact ⟨["||"], rfl, by decide⟩
    · exact ⟨["&&"], rfl, by decide⟩
    · exact ⟨["==", "!="], rfl, by decide⟩
    · exact ⟨["<=", ">=", "<", ">"], rfl, by decide⟩
    · exact ⟨["+", "-"], rfl, by decide⟩
    · exact ⟨["*", "/", "%"], rfl, by decide⟩
  obtain ⟨ks, hbody, hne, hread⟩ := hspelled
  obtain ⟨op, hop⟩ := Option.isSome_iff_exists.mp (hread _ (text_mem_of_symbols h (hr ▸ hbody) hne))
  refine ⟨op, ?_⟩
  rw [BinaryOp.ofTree, hop]

theorem settles_sign (h : t.Derived) (hr : t.rule = .unaryOp) :
    ∃ op, UnaryOp.ofTree t = .ok op ∧ (op = .minus ↔ t.text = "-") := by
  have hmem : t.text ∈ ["-", "+", "!"] := text_mem_of_symbols h (by rw [hr]; rfl) (by simp)
  simp only [List.mem_cons, List.not_mem_nil, or_false] at hmem
  rcases hmem with htext | htext | htext <;> rw [UnaryOp.ofTree, htext]
  · exact ⟨.minus, rfl, by simp⟩
  · exact ⟨.plus, rfl, by simp⟩
  · exact ⟨.not, rfl, by simp⟩

theorem settles_increment (h : t.Derived) (hr : t.rule = .incrementOp) : Settles (incrementOp t) [] := by
  have hmem : t.text ∈ ["++", "--"] := text_mem_of_symbols h (by rw [hr]; rfl) (by simp)
  simp only [List.mem_cons, List.not_mem_nil, or_false] at hmem
  rcases hmem with htext | htext <;> rw [incrementOp, htext]
  · exact ⟨.add, rfl⟩
  · exact ⟨.sub, rfl⟩

theorem settles_assignmentOp (h : t.Derived) (hr : t.rule = .assignmentOperator) : Settles (assignmentOp t) [] := by
  have hmem : t.text ∈ ["=", "+=", "-=", "*=", "/=", "%="] := text_mem_of_symbols h (by rw [hr]; rfl) (by simp)
  simp only [List.mem_cons, List.not_mem_nil, or_false] at hmem
  rcases hmem with htext | htext | htext | htext | htext | htext <;> rw [assignmentOp, htext]
  · exact ⟨none, rfl⟩
  · exact ⟨some .add, rfl⟩
  · exact ⟨some .sub, rfl⟩
  · exact ⟨some .mul, rfl⟩
  · exact ⟨some .div, rfl⟩
  · exact ⟨some .rem, rfl⟩

end Signs

/-! ### Literals -/

theorem Grammar.Pattern.Admits.digits {cs : List Char} {rs : List Rule} (h : Grammar.digits.Admits .atomic cs rs) :
    cs ≠ [] ∧ ∀ x ∈ cs, x.isDigit = true := by
  cases h with
  | @seq _ _ _ _ gap rest _ _ hfirst hgap hrest =>
    have hrest' : ∀ x ∈ rest, x.isDigit = true := by
      refine hrest.forall_chars_of_many (by simp) (fun cs rs hchar => ?_)
      cases hchar with
      | char hx => simpa using hx
    cases hfirst with
    | char hx =>
      rw [hgap (by simp)]
      exact ⟨by simp, List.forall_mem_cons.mpr ⟨hx, hrest'⟩⟩

namespace Decimal

variable {whole fraction : List Char}

theorem magnitude?_whole (hne : whole ≠ []) (hwhole : ∀ x ∈ whole, x.isDigit = true) :
    (magnitude? whole).isSome = true := by
  have htake : whole.takeWhile Char.isDigit = whole := List.takeWhile_eq_self_iff.mpr hwhole
  have hdrop : whole.dropWhile Char.isDigit = [] := List.dropWhile_eq_nil_iff.mpr hwhole
  simp [magnitude?, htake, hdrop, hne]

theorem magnitude?_point (hne : whole ≠ []) (hwhole : ∀ x ∈ whole, x.isDigit = true)
    (hfraction : ∀ x ∈ fraction, x.isDigit = true) : (magnitude? (whole ++ '.' :: fraction)).isSome = true := by
  have htake : (whole ++ '.' :: fraction).takeWhile Char.isDigit = whole := by
    rw [List.takeWhile_append_of_pos hwhole, List.takeWhile_cons_of_neg (by decide), List.append_nil]
  have hdrop : (whole ++ '.' :: fraction).dropWhile Char.isDigit = '.' :: fraction := by
    rw [List.dropWhile_append_of_pos hwhole, List.dropWhile_cons_of_neg (by decide)]
  have hdrop' : fraction.dropWhile Char.isDigit = [] := List.dropWhile_eq_nil_iff.mpr hfraction
  simp [magnitude?, htake, hdrop, hdrop', hne]

end Decimal

/-- The rules of the constants. -/
def literalRules : List Rule :=
  [.doubleLiteral, .longLiteral, .intLiteral, .charLiteral, .stringLiteral, .booleanLiteral, .nullLiteral]

section Literals

variable {t : Tree} {cs : List Char} {rs : List Rule}

/-- The digits of a double make a number. -/
theorem magnitude?_of_admits (h : Rule.doubleLiteral.body.Admits .atomic t.text.toList rs) :
    ((Literal.unmarked? (fun c => c.isDigit || c == '.') ['d', 'D'] t.text).bind Decimal.magnitude?).isSome = true := by
  generalize htext : t.text.toList = cs at h
  -- what follows the digits is cut off
  have hcut : ∀ {ds tail : List Char}, cs = ds ++ tail → (∀ x ∈ ds, (x.isDigit || x == '.') = true) →
      tail ∈ [[], ['d'], ['D']] → Literal.unmarked? (fun c => c.isDigit || c == '.') ['d', 'D'] t.text = some ds := by
    intro ds tail hcs hds htail
    refine Literal.unmarked?_eq (htext.trans hcs) hds ?_
    simp only [List.mem_cons, List.not_mem_nil, or_false] at htail
    rcases htail with rfl | rfl | rfl
    · exact nofun
    · exact List.forall_mem_singleton.mpr (by decide)
    · exact List.forall_mem_singleton.mpr (by decide)
  have hletter : ∀ {tail : List Char} {rs : List Rule},
      (alt (lit "d") (lit "D")).Admits .atomic tail rs → tail ∈ [[], ['d'], ['D']] := by
    intro tail rs h
    cases h with
    | first h =>
      cases h
      decide
    | second h =>
      cases h
      decide
  cases h with
  | first h =>
    cases h with
    | @seq _ _ _ whole gap _ _ _ hwhole hgap h =>
      cases h with
      | @seq _ _ _ _ gap' _ _ _ hdot hgap' h =>
        cases h with
        | @seq _ _ _ fraction gap'' tail _ _ hfraction hgap'' htail =>
          cases hdot
          obtain ⟨hne, hwhole⟩ := hwhole.digits
          obtain ⟨-, hfraction⟩ := hfraction.digits
          have htail' : tail ∈ [[], ['d'], ['D']] := by
            cases htail with
            | absent => decide
            | present h => exact hletter h
          have hds : ∀ x ∈ whole ++ '.' :: fraction, (x.isDigit || x == '.') = true := by
            intro x hx
            simp only [List.mem_append, List.mem_cons] at hx
            rcases hx with hx | rfl | hx
            · rw [hwhole x hx, Bool.true_or]
            · rfl
            · rw [hfraction x hx, Bool.true_or]
          have htext : whole ++ (gap ++ (".".toList ++ (gap' ++ (fraction ++ (gap'' ++ tail))))) =
              (whole ++ '.' :: fraction) ++ tail := by
            rw [hgap (by simp), hgap' (by simp), hgap'' (by simp)]
            simp
          rw [hcut htext hds htail', Option.bind_some]
          exact Decimal.magnitude?_point hne hwhole hfraction
  | second h =>
    cases h with
    | @seq _ _ _ whole gap tail _ _ hwhole hgap htail =>
      obtain ⟨hne, hwhole⟩ := hwhole.digits
      have hds : ∀ x ∈ whole, (x.isDigit || x == '.') = true := by
        intro x hx
        rw [hwhole x hx, Bool.true_or]
      rw [hcut (by rw [hgap (by simp), List.nil_append]) hds (hletter htail), Option.bind_some]
      exact Decimal.magnitude?_whole hne hwhole

/-- The digits of a `long` are what stands before its letter. -/
theorem longDigits?_of_admits (h : Rule.longLiteral.body.Admits .atomic t.text.toList rs) :
    ∃ digits, digits ≠ [] ∧ (∀ x ∈ digits, x.isDigit = true) ∧ Literal.longDigits? t.text = some digits := by
  generalize htext : t.text.toList = cs at h
  cases h with
  | @seq _ _ _ digits gap tail _ _ hdigits hgap htail =>
    obtain ⟨hne, hdigits⟩ := hdigits.digits
    refine ⟨digits, hne, hdigits, ?_⟩
    rw [hgap (by simp), List.nil_append] at htext
    cases htail with
    | first h =>
      cases h
      exact Literal.longDigits?_eq htext hdigits (.inl rfl)
    | second h =>
      cases h
      exact Literal.longDigits?_eq htext hdigits (.inr rfl)

theorem settles_numberOf {r : Rule} {start bound : Nat} {digits : List Char} (hne : digits ≠ [])
    (hdigits : ∀ x ∈ digits, x.isDigit = true) :
    Settles (Literal.numberOf r start bound digits) (if Decimal.value digits < bound then [] else [start]) := by
  rw [Literal.numberOf_eq hne hdigits]
  split_ifs
  · exact ⟨_, rfl⟩
  · rfl

theorem unescape_ne_nil (h : cs ≠ []) : unescape cs ≠ [] := by
  unfold unescape
  split <;> simp_all

theorem ne_nil_of_charContent (h : Rule.charContent.body.Admits .atomic cs rs) : cs ≠ [] := by
  cases h with
  | first h =>
    cases h with
    | seq hback _ _ =>
      cases hback
      simp
  | second h =>
    cases h
    simp

/-- A quotation holds one node, which is what stands between its marks. -/
theorem exists_content {r content : Rule} {start : Nat} {text : String} {ts : List Tree} {quote : Char}
    (h : (Grammar.Tree.node r start text ts).Derived) (hr : r.spacing = .compound)
    (hbody : r.body = inOrder [Pattern.text [quote], rule content, Pattern.text [quote]]) :
    ∃ t, ts = [t] ∧ t.rule = content ∧ t.Derived := by
  obtain ⟨gaps, c, d, hyields⟩ := h
  obtain ⟨us, hquotation, hnode⟩ := hyields.of_rule
  simp only [Tree.rule, hr, List.cons.injEq, Tree.node.injEq] at hnode
  obtain rfl := hnode.1.2.2.2
  rw [Tree.rule, hbody] at hquotation
  cases hquotation with
  | seq hopen hrest =>
    cases hopen
    cases hrest with
    | seq hcontent hclose =>
      cases hclose
      obtain ⟨vs, -, rfl⟩ := hcontent.of_rule
      exact ⟨_, rfl, rfl, _, _, _, hcontent⟩

/-- A literal is read unless it is a number out of range. -/
theorem Literal.settles (h : t.Derived) (hr : t.rule ∈ literalRules) : Settles (Literal.ofTree t) t.tooLarge := by
  obtain ⟨r, start, text, ts⟩ := t
  simp only [literalRules, Tree.rule, List.mem_cons, List.not_mem_nil, or_false] at hr
  rcases hr with rfl | rfl | rfl | rfl | rfl | rfl | rfl
  · obtain ⟨gaps, rs, hadmits⟩ := h.spelled
    obtain ⟨x, hx⟩ := Option.isSome_iff_exists.mp (magnitude?_of_admits hadmits)
    rw [Tree.tooLarge_of_isNumberless h rfl]
    rw [Tree.text] at hx
    refine ⟨.double x, ?_⟩
    rw [Literal.ofTree, hx]
  · obtain ⟨gaps, rs, hadmits⟩ := h.spelled
    obtain ⟨digits, hne, hdigits, hlong⟩ := longDigits?_of_admits hadmits
    rw [Tree.text] at hlong
    rw [Literal.ofTree, hlong, Tree.tooLarge, ← Literal.eq_takeWhile_of_unmarked? hlong]
    exact (settles_numberOf hne hdigits).bind_pure
  · obtain ⟨gaps, rs, hadmits⟩ := h.spelled
    obtain ⟨hne, hdigits⟩ := hadmits.digits
    exact (settles_numberOf hne hdigits).bind_pure
  · rw [Tree.tooLarge_of_isNumberless h rfl]
    obtain ⟨⟨_, start', text', us⟩, rfl, hcontent, hderived⟩ := exists_content h rfl rfl
    cases hcontent
    obtain ⟨gaps, rs, hadmits⟩ := hderived.spelled
    obtain ⟨x, xs, hx⟩ := List.exists_cons_of_ne_nil (unescape_ne_nil (ne_nil_of_charContent hadmits))
    rw [Tree.text] at hx
    refine ⟨.char x, ?_⟩
    rw [Literal.ofTree, hx]
  · rw [Tree.tooLarge_of_isNumberless h rfl]
    obtain ⟨⟨_, start', text', us⟩, rfl, hcontent, -⟩ := exists_content h rfl rfl
    cases hcontent
    exact ⟨_, rfl⟩
  · rw [Tree.tooLarge_of_isNumberless h rfl]
    exact ⟨_, rfl⟩
  · rw [Tree.tooLarge_of_isNumberless h rfl]
    exact ⟨_, rfl⟩

end Literals

/-! ### Operands -/

/-- What holds of the nodes of a repetition if each round puts more of them in front. -/
theorem Grammar.Pattern.Yields.of_many {p : Pattern} {c d : Cursor} {ts : List Tree} {P : List Tree → Prop}
    (h : (many p).Yields .free c (.matched d ts)) (hnil : P [])
    (hround : ∀ c d us ts, p.Yields .free c (.matched d us) → P ts → P (us ++ ts)) : P ts := by
  generalize ho : Outcome.matched d ts = o at h
  generalize hp : Pattern.many p = p' at h
  generalize hgaps : Spacing.free = gaps at h
  induction h generalizing d ts with
  | manyNone _ =>
    cases ho
    exact hnil
  | manyLast hlast _ _ _ =>
    cases ho
    cases hp
    cases hgaps
    have hone := hround _ _ _ _ hlast hnil
    rwa [List.append_nil] at hone
  | manyMore hfirst _ _ _ _ ih =>
    cases ho
    cases hp
    cases hgaps
    exact hround _ _ _ _ hfirst (ih rfl rfl rfl)
  | _ => cases hp

/-- The rules of the trees that are read as expressions. -/
def expressionRules : List Rule :=
  [.expression, .assignment, .conditionalOr, .conditionalAnd, .equality, .relational, .additive, .multiplicative,
    .unaryExpression, .preIncrement, .postIncrement, .classInstanceCreation, .arrayCreation, .methodInvocation,
    .expressionName] ++ literalRules

/-- A match of the pattern leaves the tree of an expression. -/
def LeavesExpr (p : Pattern) : Prop := ∀ c d ts, p.Yields .free c (.matched d ts) →
  ∃ t, ts = [t] ∧ t.rule ∈ expressionRules ∧ ∃ c d, t.Spans c d

section Operands

variable {p q : Pattern}

theorem leavesExpr_rule {r : Rule} (hr : r ∈ expressionRules) : LeavesExpr (.rule r) := by
  intro c d ts h
  obtain ⟨t, rfl, hrule, ht⟩ := h.spans_rule
  exact ⟨t, rfl, by rwa [hrule], _, _, ht⟩

theorem leavesExpr_rules {rs : List Rule} (hne : rs ≠ []) (hrs : ∀ r ∈ rs, r ∈ expressionRules) :
    LeavesExpr (oneOf (rs.map .rule)) := by
  intro c d ts h
  obtain ⟨t, rfl, hr, ht⟩ := h.of_rules rs hne
  exact ⟨t, rfl, hrs _ hr, _, _, ht⟩

theorem LeavesExpr.alt (hp : LeavesExpr p) (hq : LeavesExpr q) : LeavesExpr (.alt p q) := by
  intro c d ts h
  rcases h.of_alt with h | h
  · exact hp _ _ _ h
  · exact hq _ _ _ h

theorem leavesExpr_brackets : LeavesExpr (inOrder [lit "(", rule .expression, lit ")"]) := by
  intro c d ts h
  obtain ⟨c₁, h₁⟩ := h.drop_lit
  obtain ⟨e, h₂⟩ := h₁.drop_last
  exact leavesExpr_rule (by decide) _ _ _ h₂

theorem leavesExpr_primary : LeavesExpr primary := by
  have hliterals : ∀ r ∈ literalRules, r ∈ expressionRules := by decide
  have hliteral : LeavesExpr Grammar.literal := leavesExpr_rules (by decide) hliterals
  have hrest : ∀ r ∈ [Rule.arrayCreation, .classInstanceCreation, .methodInvocation, .expressionName],
      r ∈ expressionRules := by
    decide
  exact hliteral.alt (leavesExpr_brackets.alt (leavesExpr_rules (by decide) hrest))

theorem leavesExpr_unary : LeavesExpr Grammar.unary :=
  (leavesExpr_rule (by decide)).alt ((leavesExpr_rule (by decide)).alt
    ((leavesExpr_rule (by decide)).alt leavesExpr_primary))

theorem leavesExpr_operand (k : Nat) : LeavesExpr (operand k) := by
  unfold operand
  split
  case h_8 => exact leavesExpr_unary
  all_goals exact leavesExpr_rule (by decide)

end Operands

/-! ### Expressions -/

namespace Expr

/-- An expression's tree is read up to the first literal out of range. -/
def Reads (t : Tree) : Prop := t.rule ∈ expressionRules → (∃ c d, t.Spans c d) → Settles (ofTree t) t.tooLarge

/-- Operators and operands in turn, all of which are read up to the first literal out of range. -/
inductive Alternating : List Tree → Prop
  | nil : Alternating []
  | cons {op right : Tree} {more : List Tree} : op.tooLarge = [] → Settles (BinaryOp.ofTree op) [] →
    Settles (ofTree right) right.tooLarge → Alternating more → Alternating (op :: right :: more)

variable {r : Rule} {start : Nat} {text : String} {ts : List Tree} {c d : Cursor}

theorem Alternating.settles (h : Alternating ts) (left : Expr) : Settles (chainOf left ts) (Tree.tooLargeAll ts) := by
  induction h generalizing left with
  | nil => exact ⟨left, rfl⟩
  | cons hop hread hright _ ih =>
    rw [chainOf, Tree.tooLargeAll, Tree.tooLargeAll, hop, List.nil_append]
    exact hread.after (fun op _ => hright.bind (fun right _ => ih _))

theorem alternating_of_rounds {k : Nat} (h : (many (round k)).Yields .free c (.matched d ts)) :
    (∀ t ∈ ts, Reads t) → Alternating ts := by
  refine h.of_many (P := fun ts => (∀ t ∈ ts, Reads t) → Alternating ts) (fun _ => .nil) ?_
  intro c d us ts hround ih hreads
  cases hround with
  | seq hop hright =>
    obtain ⟨op, rfl, hr, hop⟩ := hop.spans_rule
    obtain ⟨right, rfl, hr', hspans⟩ := leavesExpr_operand _ _ _ _ hright
    have hnumberless : op.rule.isNumberless = true := by
      rw [hr]
      unfold operatorRule
      split <;> rfl
    exact .cons (Tree.tooLarge_of_isNumberless hop.derived hnumberless) (settles_operator hop.derived hr)
      (hreads right (.tail _ (.head _)) hr' hspans)
      (ih (fun t ht => hreads t (.tail _ (.tail _ ht))))

theorem settles_chain {k : Nat} (hk : 1 ≤ k) (hk' : k ≤ 6)
    (h : (Grammar.Tree.node (chainRule k) start text ts).Spans c d) (hreads : ∀ t ∈ ts, Reads t) :
    Settles (ofTree (.node (chainRule k) start text ts)) (Tree.tooLargeAll ts) := by
  have hbody := h.body (chainRule_spacing k)
  rw [chainRule_body hk hk'] at hbody
  cases hbody with
  | seq hfirst hmore =>
    obtain ⟨first, rfl, hr, hspans⟩ := leavesExpr_operand _ _ _ _ hfirst
    have halternating := alternating_of_rounds hmore (fun t ht => hreads t (.tail _ ht))
    rw [List.singleton_append, ofTree_chain hk hk', Tree.tooLargeAll]
    exact (hreads first (.head _) hr hspans).bind (fun left _ => halternating.settles left)

/-- Expressions between separators. -/
theorem settles_expressions (h : expressions.Yields .free c (.matched d ts)) (hreads : ∀ t ∈ ts, Reads t) :
    Settles (listOf ts) (Tree.tooLargeAll ts) := by
  rw [listOf_eq]
  refine settles_mapM (fun t ht => hreads t ht ?_ (h.spans t ht))
  rw [h.rule_eq .expression rfl t ht]
  decide

theorem settles_arguments (h : (Grammar.Tree.node .arguments start text ts).Spans c d) (hreads : ∀ t ∈ ts, Reads t) :
    Settles (argumentsOf (.node .arguments start text ts)) (Grammar.Tree.node .arguments start text ts).tooLarge := by
  obtain ⟨c₁, h₁⟩ := (h.body rfl).drop_lit
  obtain ⟨e, h₂⟩ := h₁.drop_last
  rw [argumentsOf, expectAll_bind (h₂.rule_eq .expression rfl)]
  exact settles_expressions h₂ hreads

theorem settles_assignment (h : (Grammar.Tree.node .assignment start text ts).Spans c d) (hreads : ∀ t ∈ ts, Reads t) :
    Settles (ofTree (.node .assignment start text ts)) (Tree.tooLargeAll ts) := by
  obtain ⟨target, _, e₁, rfl, hr₁, htarget, h₁⟩ := (h.body rfl).take_rule
  obtain ⟨op, _, e₂, rfl, hr₂, hop, h₂⟩ := h₁.take_rule
  obtain ⟨value, rfl, hr₃, hvalue⟩ := h₂.spans_rule
  have hread := hreads value (.tail _ (.tail _ (.head _))) (by rw [hr₃]; decide) ⟨_, _, hvalue⟩
  have htarget' := Tree.tooLarge_of_isNumberless htarget.derived (by rw [hr₁]; rfl)
  have hop' := Tree.tooLarge_of_isNumberless hop.derived (by rw [hr₂]; rfl)
  rw [ofTree, expect_bind (by simp [hr₁, hr₂, hr₃]), Tree.tooLargeAll, Tree.tooLargeAll, Tree.tooLargeAll_singleton,
    htarget', hop', List.nil_append, List.nil_append]
  refine (settles_assignmentOp hop.derived hr₂).after (fun op' _ => ?_)
  cases op' with
  | none => exact hread.bind_pure
  | some op' => exact hread.bind_pure

/-- A sign and its operand.  The literal that a minus sign takes is not read by itself. -/
theorem settles_signed (h : (Grammar.Tree.node .unaryExpression start text ts).Spans c d) (hreads : ∀ t ∈ ts, Reads t) :
    Settles (ofTree (.node .unaryExpression start text ts))
      (Grammar.Tree.node .unaryExpression start text ts).tooLarge := by
  obtain ⟨op, _, e, rfl, hr, hop, h₁⟩ := (h.body rfl).take_rule
  obtain ⟨operand, rfl, hr', hspans⟩ := leavesExpr_unary _ _ _ h₁
  have hread := hreads operand (.tail _ (.head _)) hr' hspans
  have hop' := Tree.tooLarge_of_isNumberless hop.derived (by rw [hr]; rfl)
  obtain ⟨sign, hsign, hminus⟩ := settles_sign hop.derived hr
  rw [ofTree, Tree.tooLarge, hop', List.nil_append, hsign, Tree.folds]
  cases hleast : Literal.negatedLeast? operand with
  | none =>
    rw [Option.isSome_none, Bool.and_false]
    cases sign <;> exact hread.bind_pure
  | some l =>
    rw [Option.isSome_some, Bool.and_true]
    cases sign with
    | minus =>
      rw [hminus.mp rfl]
      exact ⟨_, rfl⟩
    | _ =>
      have hother : (op.text == "-") = false := by
        rw [beq_eq_false_iff_ne, ne_eq, ← hminus]
        simp
      rw [hother]
      exact hread.bind_pure

/-- Every expression is read up to the first literal out of range, and so is every node in it. -/
theorem settles (t : Tree) : Reads t ∧ ∀ t' ∈ t.children, Reads t' := by
  induction t using Tree.ofChildren with
  | h r start text ts ih =>
    have hreads : ∀ t ∈ ts, Reads t := fun t ht => (ih t ht).1
    refine ⟨fun hr ⟨c, d, hspans⟩ => ?_, hreads⟩
    simp only [expressionRules, Tree.rule, List.mem_append, List.mem_cons, List.not_mem_nil, or_false] at hr
    rcases hr with (rfl | rfl | rfl | rfl | rfl | rfl | rfl | rfl | rfl | rfl | rfl | rfl | rfl | rfl | rfl) | hr
    · obtain ⟨t, rfl, hr, ht⟩ := (hspans.body rfl).of_rules [.assignment, .conditionalOr] (by decide)
      rw [ofTree, Tree.tooLarge_node rfl, Tree.tooLargeAll_singleton]
      exact hreads t (.head _) ((by decide : [Rule.assignment, .conditionalOr] ⊆ expressionRules) hr) ⟨_, _, ht⟩
    · exact settles_assignment hspans hreads
    · exact settles_chain (k := 1) (by decide) (by decide) hspans hreads
    · exact settles_chain (k := 2) (by decide) (by decide) hspans hreads
    · exact settles_chain (k := 3) (by decide) (by decide) hspans hreads
    · exact settles_chain (k := 4) (by decide) (by decide) hspans hreads
    · exact settles_chain (k := 5) (by decide) (by decide) hspans hreads
    · exact settles_chain (k := 6) (by decide) (by decide) hspans hreads
    · exact settles_signed hspans hreads
    · obtain ⟨op, _, e, rfl, hr₁, hop, h₁⟩ := (hspans.body rfl).take_rule
      obtain ⟨target, rfl, hr₂, -⟩ := h₁.spans_rule
      rw [ofTree, expect_bind (by simp [hr₁, hr₂]), Tree.tooLarge_of_isNumberless hspans.derived rfl]
      exact (settles_increment hop.derived hr₁).bind_pure
    · obtain ⟨target, _, e, rfl, hr₁, -, h₁⟩ := (hspans.body rfl).take_rule
      obtain ⟨op, rfl, hr₂, hop⟩ := h₁.spans_rule
      rw [ofTree, expect_bind (by simp [hr₁, hr₂]), Tree.tooLarge_of_isNumberless hspans.derived rfl]
      exact (settles_increment hop.derived hr₂).bind_pure
    · obtain ⟨c₁, h₁⟩ := (hspans.body rfl).drop_word
      obtain ⟨cls, _, e, rfl, hr₁, hcls, h₂⟩ := h₁.take_rule
      obtain ⟨⟨_, start', text', args⟩, rfl, hr₂, hargs⟩ := h₂.spans_rule
      cases hr₂
      have hread := settles_arguments hargs (ih _ (.tail _ (.head _))).2
      have hcls' := Tree.tooLarge_of_isNumberless hcls.derived (by rw [hr₁]; rfl)
      rw [ofTree, expect_bind (by simp [hr₁]), Tree.tooLarge_node rfl, Tree.tooLargeAll, Tree.tooLargeAll_singleton,
        hcls', List.nil_append]
      exact hread.bind_pure
    · obtain ⟨c₁, h₁⟩ := (hspans.body rfl).drop_word
      obtain ⟨type, elements, e, rfl, hr₁, htype, h₂⟩ := h₁.take_rule
      obtain ⟨c₂, h₃⟩ := h₂.drop_lit
      obtain ⟨e', h₄⟩ := h₃.drop_last
      have hread := settles_expressions h₄ (fun t ht => hreads t (.tail _ ht))
      have htype' := Tree.tooLarge_of_isNumberless htype.derived (by rw [hr₁]; rfl)
      rw [ofTree, expect_cons_bind hr₁ (h₄.rule_eq .expression rfl), Tree.tooLarge_node rfl, Tree.tooLargeAll, htype',
        List.nil_append]
      exact hread.bind_pure
    · obtain ⟨method, _, e, rfl, hr₁, hmethod, h₁⟩ := (hspans.body rfl).take_rule
      obtain ⟨⟨_, start', text', args⟩, rfl, hr₂, hargs⟩ := h₁.spans_rule
      cases hr₂
      have hread := settles_arguments hargs (ih _ (.tail _ (.head _))).2
      have hmethod' := Tree.tooLarge_of_isNumberless hmethod.derived (by rw [hr₁]; rfl)
      rw [ofTree, expect_bind (by simp [hr₁]), Tree.tooLarge_node rfl, Tree.tooLargeAll, Tree.tooLargeAll_singleton,
        hmethod', List.nil_append]
      exact hread.bind_pure
    · rw [ofTree, Tree.tooLarge_of_isNumberless hspans.derived rfl]
      exact ⟨_, rfl⟩
    · have hread := Literal.settles hspans.derived hr
      have hliteral : ofTree (.node r start text ts) =
          (do return .literal (← Literal.ofTree (.node r start text ts))) := by
        simp only [literalRules, List.mem_cons, List.not_mem_nil, or_false] at hr
        rcases hr with rfl | rfl | rfl | rfl | rfl | rfl | rfl <;> rfl
      rw [hliteral]
      exact hread.bind_pure

end Expr

end StashMachine
