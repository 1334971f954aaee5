import StashMachine.Proofs.StmtReadBack
import StashMachine.Proofs.Spellings

/-!
# StashMachine.Proofs.Shapes — what the grammar makes sure of in statements

* `Cursor.skip_skip`: behind a gap there is none.
* `Tree.Spans t c d`: the tree is what its rule matches from one place to another; `Yields.drop_lit`,
  `Yields.take_rule`, …: taking a match apart, one part of the pattern after the other.
* `Stmt.Found`: a tree that is read as writable statements only, behind which no `else` stands that an open one could
  take.
* `Stmt.found`: every tree is such a tree.
-/

namespace StashMachine

open Grammar Pattern

namespace Grammar

/-! ### Gaps -/

namespace Cursor

/-- Behind a gap there is none.  A block comment that is never closed ends where it began, so that it is no gap. -/
theorem skip_skipFrom (g : Gap) (i o : Nat) (rest : List Char) :
    (skipFrom g i o rest).skip = skipFrom g i o rest ∨ ∃ opened, g = .block opened ∧ skipFrom g i o rest = opened := by
  -- outside a block comment only the first case is possible
  have hplain : ∀ {g : Gap} {d : Cursor}, (d.skip = d ∨ ∃ opened, g = .block opened ∧ d = opened) →
      (∀ opened, g ≠ .block opened) → d.skip = d := by
    rintro g d (h | ⟨opened, hopened, -⟩) hg
    · exact h
    · exact absurd hopened (hg opened)
  fun_induction skipFrom g i o rest with
  | case1 i o rest ih => exact .inl (hplain ih (by simp))
  | case2 i o rest ih =>
    rcases ih with ih | ⟨opened, hopened, heq⟩
    · exact .inl ih
    · cases hopened
      refine .inl ?_
      rw [heq, skip, skipFrom, heq]
  | case3 i o c rest hline hblock hspace ih => exact .inl (hplain ih (by simp))
  | case4 i o c rest hline hblock hspace =>
    refine .inl ?_
    rw [skip, skipFrom.eq_3 _ _ _ _ hline hblock, if_neg hspace]
  | case5 i o rest ih => exact .inl (hplain ih (by simp))
  | case6 i o c rest hc ih => exact .inl (hplain ih (by simp))
  | case7 opened i o rest ih => exact .inl (hplain ih (by simp))
  | case8 opened i o c rest hclosed ih => exact ih
  | case9 i o => exact .inl rfl
  | case10 i o => exact .inl rfl
  | case11 opened i o => exact .inr ⟨opened, rfl, rfl⟩

theorem skip_skip (c : Cursor) : c.skip.skip = c.skip := by
  rcases skip_skipFrom .blank c.index c.offset c.rest with h | ⟨opened, hopened, -⟩
  · exact h
  · cases hopened

end Cursor

/-! ### Taking a match apart -/

/-- The tree is what its rule matches from one place to another, gaps being allowed. -/
def Tree.Spans (t : Tree) (c d : Cursor) : Prop := Yields .free (.rule t.rule) c (.matched d [t])

/-- Trees of one rule that stand one behind the other, with gaps between them. -/
def Tree.Row (r : Rule) : Cursor → List Tree → Prop
  | _, [] => True
  | c, t :: ts => t.rule = r ∧ ∃ d, t.Spans c d ∧ Row r d.skip ts

section Spans

variable {t : Tree} {r : Rule} {start : Nat} {text : String} {c d : Cursor} {p q : Pattern} {ts : List Tree}

theorem Tree.Spans.derived (h : t.Spans c d) : t.Derived := ⟨.free, c, d, h⟩

theorem spans_of_parse? {source : String} (h : parse? r source = some t) :
    t.rule = r ∧ ∃ d, t.Spans (Cursor.start source) d := by
  obtain ⟨d, hyields⟩ := parse?_eq_some.mp h
  refine ⟨(parse?_grown h).1, d, ?_⟩
  rwa [Tree.Spans, (parse?_grown h).1]

/-- The nodes of a match are matched by their rules. -/
theorem Pattern.Yields.spans (h : p.Yields .free c (.matched d ts)) : ∀ t ∈ ts, ∃ c d, t.Spans c d := by
  generalize ho : Outcome.matched d ts = o at h
  generalize hgaps : Spacing.free = gaps at h
  induction h generalizing d ts with
  | rule hbody ih =>
    cases ho
    subst hgaps
    intro t ht
    obtain rfl := List.mem_singleton.mp ht
    exact ⟨_, _, .rule hbody⟩
  | seq _ _ ih₁ ih₂ =>
    cases ho
    intro t ht
    rcases List.mem_append.mp ht with ht | ht
    · exact ih₁ rfl hgaps t ht
    · exact ih₂ rfl hgaps t ht
  | manyMore _ _ _ ih₁ _ ih₃ =>
    cases ho
    intro t ht
    rcases List.mem_append.mp ht with ht | ht
    · exact ih₁ rfl hgaps t ht
    · exact ih₃ rfl hgaps t ht
  | altFirst _ ih => exact ih ho hgaps
  | altSecond _ _ _ ih => exact ih ho hgaps
  | optSome _ ih => exact ih ho hgaps
  | manyLast _ _ ih _ => exact ih ho hgaps
  | _ =>
    cases ho
    try exact nofun

theorem Tree.Spans.body (h : (node r start text ts).Spans c d) (hr : r.spacing = .free) :
    r.body.Yields .free c (.matched d ts) := by
  obtain ⟨us, hbody, hnode⟩ := h.of_rule
  simp only [Tree.rule, hr, List.cons.injEq, node.injEq] at hnode
  rw [hnode.1.2.2.2]
  have hgaps : Spacing.within .free r.spacing = .free := by rw [hr]; rfl
  rw [Tree.rule, hgaps] at hbody
  exact hbody

theorem Tree.Spans.children (h : (node r start text ts).Spans c d) (hr : r.spacing = .free) :
    ∀ t ∈ ts, ∃ c d, t.Spans c d := (h.body hr).spans

namespace Pattern.Yields

theorem drop_lit {k : String} (h : Yields .free (.seq (lit k) q) c (.matched d ts)) :
    ∃ c' : Cursor, q.Yields .free c'.skip (.matched d ts) := by
  cases h with
  | seq hlit hq =>
    cases hlit
    exact ⟨_, hq⟩

theorem drop_word {w : String} (h : Yields .free (.seq (word w) q) c (.matched d ts)) :
    ∃ c' : Cursor, q.Yields .free c'.skip (.matched d ts) := by
  cases h with
  | seq hword hq =>
    cases hword
    exact ⟨_, hq⟩

theorem drop_last {k : String} (h : Yields .free (.seq p (lit k)) c (.matched d ts)) :
    ∃ e, p.Yields .free c (.matched e ts) := by
  cases h with
  | seq hp hlit =>
    cases hlit
    rw [List.append_nil]
    exact ⟨_, hp⟩

/-- A match of a rule leaves one node, which spans it. -/
theorem spans_rule (h : Yields .free (.rule r) c (.matched d ts)) : ∃ t, ts = [t] ∧ t.rule = r ∧ t.Spans c d := by
  cases h with
  | rule hbody => exact ⟨_, rfl, rfl, .rule hbody⟩

theorem take_rule (h : Yields .free (.seq (.rule r) q) c (.matched d ts)) :
    ∃ t ts' e, ts = t :: ts' ∧ t.rule = r ∧ t.Spans c e ∧ q.Yields .free e.skip (.matched d ts') := by
  cases h with
  | seq hrule hq =>
    obtain ⟨t, rfl, hr, ht⟩ := hrule.spans_rule
    exact ⟨t, _, _, rfl, hr, ht, hq⟩

theorem of_opt (h : Yields .free (.opt p) c (.matched d ts)) :
    p.Yields .free c (.matched d ts) ∨ ts = [] ∧ d = c ∧ p.Yields .free c .failed := by
  cases h with
  | optSome hp => exact .inl hp
  | optNone hp => exact .inr ⟨rfl, rfl, hp⟩

theorem of_alt (h : Yields .free (.alt p q) c (.matched d ts)) :
    p.Yields .free c (.matched d ts) ∨ q.Yields .free c (.matched d ts) := by
  cases h with
  | altFirst hp => exact .inl hp
  | altSecond _ hq => exact .inr hq

theorem of_rules (rs : List Rule) (hne : rs ≠ []) (h : (oneOf (rs.map .rule)).Yields .free c (.matched d ts)) :
    ∃ t, ts = [t] ∧ t.rule ∈ rs ∧ t.Spans c d := by
  induction rs with
  | nil => exact absurd rfl hne
  | cons r rs ih =>
    cases rs with
    | nil =>
      obtain ⟨t, rfl, hr, ht⟩ := h.spans_rule
      exact ⟨t, rfl, by rw [hr]; exact .head _, ht⟩
    | cons r' rs =>
      rcases h.of_alt with h | h
      · obtain ⟨t, rfl, hr, ht⟩ := h.spans_rule
        exact ⟨t, rfl, by rw [hr]; exact .head _, ht⟩
      · obtain ⟨t, rfl, hr, ht⟩ := ih (List.cons_ne_nil _ _) h
        exact ⟨t, rfl, .tail _ hr, ht⟩

theorem take_rules (rs : List Rule) (hne : rs ≠ [])
    (h : Yields .free (.seq (oneOf (rs.map .rule)) q) c (.matched d ts)) :
    ∃ t ts' e, ts = t :: ts' ∧ t.rule ∈ rs ∧ t.Spans c e ∧ q.Yields .free e.skip (.matched d ts') := by
  cases h with
  | seq hrules hq =>
    obtain ⟨t, rfl, hr, ht⟩ := hrules.of_rules rs hne
    exact ⟨t, _, _, rfl, hr, ht, hq⟩

theorem take_opt (h : Yields .free (.seq (.opt (.rule r)) q) c (.matched d ts)) :
    ∃ (part : Option Tree) (ts' : List Tree) (e : Cursor), ts = part.toList ++ ts' ∧
      (∀ t ∈ part, t.rule = r ∧ ∃ c d, t.Spans c d) ∧ q.Yields .free e.skip (.matched d ts') := by
  cases h with
  | seq hopt hq =>
    rcases hopt.of_opt with hrule | ⟨rfl, -⟩
    · obtain ⟨t, rfl, hr, ht⟩ := hrule.spans_rule
      refine ⟨some t, _, _, rfl, fun t' ht' => ?_, hq⟩
      cases ht'
      exact ⟨hr, _, _, ht⟩
    · exact ⟨none, _, _, rfl, nofun, hq⟩

/-- A repetition that leaves no nodes reads nothing. -/
theorem eq_of_many (rs : List Rule) (hne : rs ≠ [])
    (h : Yields .free (.many (oneOf (rs.map .rule))) c (.matched d [])) : d = c := by
  generalize ho : Outcome.matched d [] = o at h
  cases h with
  | manyNone _ =>
    cases ho
    rfl
  | manyLast hlast _ =>
    cases ho
    obtain ⟨t, heq, -⟩ := hlast.of_rules rs hne
    cases heq
  | manyMore hfirst _ _ =>
    obtain ⟨t, rfl, -⟩ := hfirst.of_rules rs hne
    cases ho

/-- The first node of a repetition begins where the repetition does. -/
theorem first_of_many (rs : List Rule) (hne : rs ≠ [])
    (h : Yields .free (.many (oneOf (rs.map .rule))) c (.matched d (t :: ts))) : t.rule ∈ rs ∧ ∃ e, t.Spans c e := by
  generalize ho : Outcome.matched d (t :: ts) = o at h
  cases h with
  | manyNone _ => cases ho
  | manyLast hlast _ =>
    cases ho
    obtain ⟨t', heq, hr, ht⟩ := hlast.of_rules rs hne
    cases heq
    exact ⟨hr, _, ht⟩
  | manyMore hfirst _ _ =>
    obtain ⟨t', rfl, hr, ht⟩ := hfirst.of_rules rs hne
    cases ho
    exact ⟨hr, _, ht⟩

/-- A repetition ends where its pattern fails. -/
theorem failed_of_many (h : Yields .free (.many p) c.skip (.matched d ts)) : p.Yields .free d.skip .failed := by
  generalize hc : c.skip = c' at h
  have hskip : c'.skip = c' := by rw [← hc, Cursor.skip_skip]
  clear hc
  generalize ho : Outcome.matched d ts = o at h
  generalize hp : Pattern.many p = p' at h
  generalize hgaps : Spacing.free = gaps at h
  induction h generalizing d ts with
  | manyNone hfailed =>
    cases ho
    cases hp
    cases hgaps
    rwa [hskip]
  | manyLast _ hfailed _ _ =>
    cases ho
    cases hp
    cases hgaps
    exact hfailed
  | manyMore _ _ _ _ _ ih =>
    cases ho
    cases hp
    cases hgaps
    exact ih (Cursor.skip_skip _) rfl rfl rfl
  | _ => cases hp

/-- The nodes of a repetition of a rule stand one behind the other. -/
theorem row_of_many (h : Yields .free (.many (.rule r)) c (.matched d ts)) : Tree.Row r c ts := by
  generalize ho : Outcome.matched d ts = o at h
  generalize hp : Pattern.many (.rule r) = p at h
  generalize hgaps : Spacing.free = gaps at h
  induction h generalizing d ts with
  | manyNone _ =>
    cases ho
    trivial
  | manyLast hlast _ _ _ =>
    cases ho
    cases hp
    cases hgaps
    obtain ⟨t, rfl, hr, ht⟩ := hlast.spans_rule
    exact ⟨hr, _, ht, trivial⟩
  | manyMore hfirst _ _ _ _ ih =>
    cases ho
    cases hp
    cases hgaps
    obtain ⟨t, rfl, hr, ht⟩ := hfirst.spans_rule
    exact ⟨hr, _, ht, ih rfl rfl rfl⟩
  | _ => cases hp

end Pattern.Yields

end Spans

end Grammar

theorem Expr.listOf_eq (ts : List Tree) : Expr.listOf ts = ts.mapM Expr.ofTree := by
  induction ts with
  | nil => rfl
  | cons t ts ih => rw [Expr.listOf, ih, List.mapM_cons]

/-! ### Declarations -/

/-- No expression of them holds a double. -/
def NoDouble (es : List Expr) : Prop := ∀ e ∈ es, e.hasDouble = false

section Declarations

variable {t : Tree} {c d : Cursor} {ts : List Tree}

theorem NoDouble.left {es es' : List Expr} (h : NoDouble (es ++ es')) : NoDouble es :=
  fun e he => h e (List.mem_append_left _ he)

theorem NoDouble.right {es es' : List Expr} (h : NoDouble (es ++ es')) : NoDouble es' :=
  fun e he => h e (List.mem_append_right _ he)

theorem NoDouble.of_mem {α : Type} {xs : List α} {exprs : α → List Expr} {x : α} (h : NoDouble (xs.flatMap exprs))
    (hx : x ∈ xs) : NoDouble (exprs x) :=
  fun e he => h e (List.mem_flatMap.mpr ⟨x, hx, he⟩)

theorem Expr.writable_of_spans {e : Expr} (h : t.Spans c d) (hread : Expr.ofTree t = .ok e)
    (hdouble : e.hasDouble = false) : e.Writable :=
  ⟨(Expr.proper_of_derived h.derived).1 e hread, hdouble⟩

theorem TypeName.writable_of_spans (h : t.Spans c d) (hr : t.rule = .unannType) :
    (TypeName.ofString t.text).Writable := by
  have htext := isTypeText_of_derived h.derived hr
  refine ⟨?_, ?_⟩
  · rwa [TypeName.text_ofString]
  · rw [TypeName.text_ofString]

theorem Declarator.writable_of_spans {v : Declarator} (h : t.Spans c d) (hr : t.rule = .variableDeclarator)
    (hread : Declarator.ofTree t = .ok v) (hdouble : NoDouble v.exprs) : v.Writable := by
  unfold Declarator.ofTree at hread
  split at hread
  · rename_i name
    cases hr
    rw [expect_bind_eq_ok, except_pure_eq_ok] at hread
    obtain ⟨-, rfl⟩ := hread
    obtain ⟨name', _, _, heq, hr, hname, -⟩ := (h.body rfl).take_rule
    cases heq
    exact ⟨spells_of_derived hname.derived hr, nofun⟩
  · rename_i name init
    cases hr
    rw [expect_bind_eq_ok] at hread
    simp only [except_bind_eq_ok, except_pure_eq_ok] at hread
    obtain ⟨-, e, he, rfl⟩ := hread
    obtain ⟨name', _, _, heq, hr, hname, hinit⟩ := (h.body rfl).take_rule
    cases heq
    refine ⟨spells_of_derived hname.derived hr, fun e' he' => ?_⟩
    cases he'
    obtain ⟨c', d', hspans⟩ := hinit.spans init (.head _)
    exact Expr.writable_of_spans hspans he (hdouble e (.head _))
  · cases hread

/-- The variables of a declaration. -/
theorem writable_of_declarators {vars : List Declarator}
    (h : (separated "," (rule .variableDeclarator)).Yields .free c (.matched d ts))
    (hread : ts.mapM Declarator.ofTree = .ok vars) (hdouble : NoDouble (vars.flatMap Declarator.exprs)) :
    vars ≠ [] ∧ ∀ v ∈ vars, v.Writable := by
  refine ⟨?_, fun v hv => ?_⟩
  · obtain ⟨t, ts', e, rfl, -⟩ := h.take_rule
    rintro rfl
    cases eq_nil_of_mapM hread
  · obtain ⟨t, ht, hv'⟩ := exists_of_mem_mapM hread hv
    obtain ⟨c', d', hspans⟩ := h.spans t ht
    exact Declarator.writable_of_spans hspans (h.rule_eq .variableDeclarator rfl t ht) hv' (hdouble.of_mem hv)

theorem Stmt.writable_of_declaration {s : Stmt} (h : t.Spans c d) (hr : t.rule = .localVariableDeclaration)
    (hread : Stmt.declaration t = .ok s) (hdouble : NoDouble s.exprs) : s.Writable ∧ s.isDeclaration = true := by
  obtain ⟨_, start, text, ts⟩ := t
  cases hr
  obtain ⟨type, ts, e, rfl, hr, htype, hdeclarators⟩ := (h.body rfl).take_rule
  rw [Stmt.declaration_eq hr (hdeclarators.rule_eq .variableDeclarator rfl)] at hread
  simp only [except_bind_eq_ok, except_pure_eq_ok] at hread
  obtain ⟨vars, hvars, rfl⟩ := hread
  obtain ⟨hne, hwritable⟩ := writable_of_declarators hdeclarators hvars hdouble
  exact ⟨.declare (TypeName.writable_of_spans htype hr) hne hwritable, rfl⟩

end Declarations

/-! ### Expressions as statements -/

section Statements

variable {t : Tree} {c d : Cursor} {ts : List Tree}

/-- The rules of the expressions that may stand as statements. -/
def statementExpressionRules : List Rule :=
  [.assignment, .preIncrement, .postIncrement, .methodInvocation, .classInstanceCreation]

theorem Expr.isStatement_of_ofTree {e : Expr} (hr : t.rule ∈ statementExpressionRules) (h : Expr.ofTree t = .ok e) :
    e.isStatement = true := by
  obtain ⟨r, start, text, children⟩ := t
  have hliteral : ∀ r ∈ statementExpressionRules, Literal.ofTree (.node r start text children) = .error (.shape r) := by
    simp only [statementExpressionRules, List.forall_mem_cons]
    exact ⟨rfl, rfl, rfl, rfl, rfl, List.forall_mem_nil _⟩
  replace hr : r ∈ statementExpressionRules := hr
  unfold Expr.ofTree at h
  split at h
  case h_2 =>
    rw [expect_bind_eq_ok] at h
    simp only [except_bind_eq_ok] at h
    obtain ⟨-, op, -, value, -, h⟩ := h
    cases op <;> cases h <;> rfl
  case h_10 | h_11 | h_12 | h_14 =>
    rw [expect_bind_eq_ok] at h
    simp only [except_bind_eq_ok, except_pure_eq_ok] at h
    obtain ⟨-, _, -, rfl⟩ := h
    rfl
  case h_16 =>
    rw [hliteral r hr] at h
    cases h
  all_goals exact absurd hr (by decide)

theorem Stmt.writable_of_ofExpr {s : Stmt} (h : t.Spans c d) (hr : t.rule ∈ statementExpressionRules)
    (hread : Stmt.ofExpr t = .ok s) (hdouble : NoDouble s.exprs) : s.Writable ∧ s.isExpr = true := by
  simp only [Stmt.ofExpr, except_bind_eq_ok, except_pure_eq_ok] at hread
  obtain ⟨e, he, rfl⟩ := hread
  exact ⟨.expr (Expr.writable_of_spans h he (hdouble e (.head _))) (Expr.isStatement_of_ofTree hr he), rfl⟩

theorem Stmt.ofInit_eq_ofExpr (hr : t.rule ∈ statementExpressionRules) : Stmt.ofInit t = Stmt.ofExpr t := by
  unfold Stmt.ofInit
  split
  · rename_i hdeclaration
    rw [hdeclaration] at hr
    exact absurd hr (by decide)
  · rfl

/-- Expressions in the header of a loop. -/
theorem Stmt.writable_of_headers {f : Tree → Reading Stmt} {ss : List Stmt}
    (hf : ∀ t, t.rule ∈ statementExpressionRules → f t = Stmt.ofExpr t)
    (h : (separated "," statementExpression).Yields .free c (.matched d ts)) (hread : ts.mapM f = .ok ss)
    (hdouble : NoDouble (Stmt.exprsAll ss)) : ∀ s ∈ ss, s.Writable ∧ s.isExpr = true := by
  intro s hs
  obtain ⟨t, ht, hs'⟩ := exists_of_mem_mapM hread hs
  obtain ⟨c', d', hspans⟩ := h.spans t ht
  have hr := h.rule_mem statementExpressionRules rfl t ht
  rw [hf t hr] at hs'
  rw [Stmt.exprsAll_eq] at hdouble
  exact Stmt.writable_of_ofExpr hspans hr hs' (hdouble.of_mem hs)

/-! ### Statements -/

theorem Label.writable_of_spans {l : Label} (h : t.Spans c d) (hread : Label.ofTree t = .ok l)
    (hdouble : NoDouble l.exprs) : l.Writable := by
  unfold Label.ofTree at hread
  split at hread
  · rw [expect_bind_eq_ok] at hread
    simp only [except_bind_eq_ok, except_pure_eq_ok] at hread
    obtain ⟨-, e, he, rfl⟩ := hread
    obtain ⟨c', d', hspans⟩ := h.children rfl _ (.head _)
    exact Expr.writable_of_spans hspans he (hdouble e (.head _))
  · cases hread
    trivial
  · cases hread

namespace Stmt

/-- What the grammar makes sure of in a statement whose tree has a rule and ends at a place: it can be written, it is a
declaration only if the rule is that of declarations, and no `else` follows it if it is open. -/
structure Shaped (r : Rule) (d : Cursor) (s : Stmt) : Prop where
  writable : s.Writable
  nested : r ≠ .localVariableDeclarationStatement → s.isDeclaration = false
  closed : s.isOpen = true → elsePart.Yields .free d.skip .failed

theorem Shaped.plain {r : Rule} {s : Stmt} (h : s.Writable) (hdeclaration : s.isDeclaration = false)
    (hopen : s.isOpen = false) : s.Shaped r d :=
  ⟨h, fun _ => hdeclaration, fun h => absurd h (by simp [hopen])⟩

/-- A tree that is read as a statement with the right shape. -/
def Found (t : Tree) : Prop := ∀ s c d, t.Spans c d → ofTree t = .ok s → NoDouble s.exprs →
  t.rule ≠ .explicitConstructorInvocation → s.Shaped t.rule d

theorem Found.of_mem {s : Stmt} (h : Found t) (hr : t.rule ∈ statementRules) (ht : t.Spans c d)
    (hread : ofTree t = .ok s) (hdouble : NoDouble s.exprs) : s.Shaped t.rule d ∧ s.isDeclaration = false := by
  have hrules : ∀ r ∈ statementRules, r ≠ .explicitConstructorInvocation ∧ r ≠ .localVariableDeclarationStatement := by
    decide
  have hshaped := h s c d ht hread hdouble (hrules _ hr).1
  exact ⟨hshaped, hshaped.nested (hrules _ hr).2⟩

theorem writable_of_listOf {ss : List Stmt} (hfound : ∀ t ∈ ts, Found t)
    (h : (many blockStatement).Yields .free c (.matched d ts)) (hread : listOf ts = .ok ss)
    (hdouble : NoDouble (exprsAll ss)) : ∀ s ∈ ss, s.Writable := by
  intro s hs
  rw [listOf_eq] at hread
  obtain ⟨t, ht, hs'⟩ := exists_of_mem_mapM hread hs
  obtain ⟨c', d', hspans⟩ := h.spans t ht
  have hr := h.forall_rules (f := fun r => r != .explicitConstructorInvocation) rfl t ht
  rw [exprsAll_eq] at hdouble
  exact (hfound t ht s c' d' hspans hs' (hdouble.of_mem hs) (by simpa using hr)).1

/-- A word and a condition in round brackets, in front of the rest of a statement. -/
theorem take_condition {w : String} {q : Pattern}
    (h : (seq (word w) (seq (lit "(") (seq (rule .expression) (seq (lit ")") q)))).Yields .free c (.matched d ts)) :
    ∃ cond ts' c', ts = cond :: ts' ∧ (cond.rule = .expression ∧ ∃ c d, cond.Spans c d) ∧
      q.Yields .free (Cursor.skip c') (.matched d ts') := by
  obtain ⟨c₁, h₁⟩ := h.drop_word
  obtain ⟨c₂, h₂⟩ := h₁.drop_lit
  obtain ⟨cond, ts', c₃, rfl, hr, hcond, h₃⟩ := h₂.take_rule
  obtain ⟨c₄, h₄⟩ := h₃.drop_lit
  exact ⟨cond, ts', c₄, rfl, ⟨hr, _, _, hcond⟩, h₄⟩

section Branches

variable {start : Nat} {text : String} {cond yes no : Tree} {e : Expr} {s s' : Stmt}

/-- An `if` takes no `else` only if none follows. -/
theorem shaped_ite (h : (Grammar.Tree.node .ifStatement start text [cond, yes]).Spans c d) (hyes : Found yes)
    (he : Expr.inside cond = .ok e) (hs : ofTree yes = .ok s) (hdouble : NoDouble (ite e s none).exprs) :
    (ite e s none).Shaped .ifStatement d := by
  obtain ⟨_, _, c₁, heq, ⟨hcr, _, _, hcond⟩, h₁⟩ := take_condition (h.body rfl)
  cases heq
  rw [Expr.inside_eq hcr] at he
  obtain ⟨_, _, c₂, heq, hr, hspans, h₂⟩ := h₁.take_rules statementRules (by decide)
  cases heq
  have hwritable := Expr.writable_of_spans hcond he (hdouble e (.head _))
  have hdouble' : NoDouble s.exprs := fun e' he' => hdouble e' (.tail _ (List.mem_append_left _ he'))
  obtain ⟨hshaped, hnested⟩ := hyes.of_mem hr hspans hs hdouble'
  rcases h₂.of_opt with helse | ⟨-, rfl, hfailed⟩
  · obtain ⟨c₃, h₃⟩ := helse.drop_word
    obtain ⟨no, heq, -⟩ := h₃.of_rules statementRules (by decide)
    cases heq
  · refine ⟨.ite hwritable hshaped.writable hnested, fun _ => rfl, fun _ => ?_⟩
    rwa [Cursor.skip_skip]

/-- The branch in front of an `else` is not open, for it would have taken the `else`. -/
theorem shaped_iteElse (h : (Grammar.Tree.node .ifStatement start text (cond :: yes :: no :: ts)).Spans c d)
    (hyes : Found yes) (hno : Found no) (he : Expr.inside cond = .ok e) (hs : ofTree yes = .ok s) (hs' : ofTree no = .ok s')
    (hdouble : NoDouble (ite e s (some s')).exprs) : (ite e s (some s')).Shaped .ifStatement d := by
  obtain ⟨_, _, c₁, heq, ⟨hcr, _, _, hcond⟩, h₁⟩ := take_condition (h.body rfl)
  cases heq
  rw [Expr.inside_eq hcr] at he
  obtain ⟨_, _, c₂, heq, hr, hspans, h₂⟩ := h₁.take_rules statementRules (by decide)
  cases heq
  rcases h₂.of_opt with helse | ⟨heq, -⟩
  · obtain ⟨c₃, h₃⟩ := helse.drop_word
    obtain ⟨_, heq, hr', hspans'⟩ := h₃.of_rules statementRules (by decide)
    cases heq
    have hwritable := Expr.writable_of_spans hcond he (hdouble e (.head _))
    have hdouble' : NoDouble (s.exprs ++ s'.exprs) := fun e' he' => hdouble e' (.tail _ he')
    obtain ⟨hshaped, hnested⟩ := hyes.of_mem hr hspans hs hdouble'.left
    obtain ⟨hshaped', hnested'⟩ := hno.of_mem hr' hspans' hs' hdouble'.right
    have hopen : s.isOpen = false := by
      by_contra hopen
      have hfailed := hshaped.closed (Bool.eq_true_of_not_eq_false hopen)
      cases helse.unique hfailed rfl
    exact ⟨.iteElse hwritable hshaped.writable hnested hopen hshaped'.writable hnested', fun _ => rfl, hshaped'.closed⟩
  · cases heq

theorem shaped_loop (h : (Grammar.Tree.node .whileStatement start text (cond :: yes :: ts)).Spans c d) (hyes : Found yes)
    (he : Expr.inside cond = .ok e) (hs : ofTree yes = .ok s) (hdouble : NoDouble (loop e s).exprs) :
    (loop e s).Shaped .whileStatement d := by
  obtain ⟨_, _, c₁, heq, ⟨hcr, _, _, hcond⟩, h₁⟩ := take_condition (h.body rfl)
  cases heq
  rw [Expr.inside_eq hcr] at he
  obtain ⟨_, heq, hr, hspans⟩ := h₁.of_rules statementRules (by decide)
  cases heq
  have hwritable := Expr.writable_of_spans hcond he (hdouble e (.head _))
  obtain ⟨hshaped, hnested⟩ := hyes.of_mem hr hspans hs (fun e' he' => hdouble e' (.tail _ he'))
  exact ⟨.loop hwritable hshaped.writable hnested, fun _ => rfl, hshaped.closed⟩

end Branches

/-! Headers of loops. -/

/-- A part of a `for` that ends at a place: one of its header, or its body, which ends there. -/
def IsForPart (d : Cursor) (t : Tree) : Prop :=
  (t.rule ∈ [Rule.forInit, .expression, .forUpdate] ∧ ∃ c e, t.Spans c e) ∨ t.rule ∈ statementRules ∧ ∃ c, t.Spans c d

/-- What the grammar makes sure of in the parts of a `for` that ends at a place. -/
structure ForParts.Shaped (d : Cursor) (parts : ForParts) : Prop where
  init : NoDouble (exprsAll parts.init) → (∀ s ∈ parts.init, s.Writable) ∧
    ((∀ s ∈ parts.init, s.isExpr = true) ∨ ∃ s, parts.init = [s] ∧ s.isDeclaration = true)
  cond : ∀ e ∈ parts.cond, e.hasDouble = false → e.Writable
  update : NoDouble (exprsAll parts.update) → ∀ s ∈ parts.update, s.Writable ∧ s.isExpr = true
  body : ∀ s ∈ parts.body, NoDouble s.exprs → ∃ r, s.Shaped r d ∧ s.isDeclaration = false

theorem ForParts.Shaped.empty (d : Cursor) : ForParts.Shaped d {} :=
  ⟨fun _ => ⟨nofun, .inl nofun⟩, nofun, fun _ => nofun, nofun⟩

/-- The beginning of a loop is one declaration, or it is made of expressions. -/
theorem writable_of_init {init : List Stmt} (h : t.Spans c d) (hr : t.rule = .forInit)
    (hread : t.children.mapM ofInit = .ok init) (hdouble : NoDouble (exprsAll init)) : (∀ s ∈ init, s.Writable) ∧
      ((∀ s ∈ init, s.isExpr = true) ∨ ∃ s, init = [s] ∧ s.isDeclaration = true) := by
  obtain ⟨_, start, text, ts⟩ := t
  cases hr
  rcases (h.body rfl).of_alt with hdeclaration | hheaders
  · obtain ⟨t, rfl, hr, hspans⟩ := hdeclaration.spans_rule
    simp only [Tree.children, List.mapM_cons, List.mapM_nil, except_bind_eq_ok, except_pure_eq_ok] at hread
    obtain ⟨s, hs, _, rfl, rfl⟩ := hread
    rw [ofInit, hr] at hs
    obtain ⟨hwritable, hshape⟩ := writable_of_declaration hspans hr hs hdouble.left
    refine ⟨fun s' hs' => ?_, .inr ⟨s, rfl, hshape⟩⟩
    rwa [List.mem_singleton.mp hs']
  · have hall := writable_of_headers (fun _ hr => ofInit_eq_ofExpr hr) hheaders hread hdouble
    exact ⟨fun s hs => (hall s hs).1, .inl (fun s hs => (hall s hs).2)⟩

theorem shaped_of_forOf {parts parts' : ForParts} (hfound : ∀ t ∈ ts, Found t) (hts : ∀ t ∈ ts, IsForPart d t)
    (hparts : parts.Shaped d) (h : forOf parts ts = .ok parts') : parts'.Shaped d := by
  induction ts generalizing parts with
  | nil =>
    cases h
    exact hparts
  | cons t ts ih =>
    have hnext : ∀ {parts : ForParts}, forOf parts ts = .ok parts' → parts.Shaped d → parts'.Shaped d :=
      fun h hparts => ih (fun t ht => hfound t (.tail _ ht)) (fun t ht => hts t (.tail _ ht)) hparts h
    have hspans : ∃ c e, t.Spans c e := by
      rcases hts t (.head _) with ⟨-, hspans⟩ | ⟨-, c, hspans⟩
      · exact hspans
      · exact ⟨c, d, hspans⟩
    obtain ⟨c, e, hspans⟩ := hspans
    rw [forOf] at h
    split at h <;> rw [except_bind_eq_ok] at h
    · rename_i hr
      obtain ⟨init, hinit, h⟩ := h
      exact hnext h ⟨writable_of_init hspans hr hinit, hparts.cond, hparts.update, hparts.body⟩
    · obtain ⟨cond, hcond, h⟩ := h
      refine hnext h ⟨hparts.init, fun e' he' hdouble => ?_, hparts.update, hparts.body⟩
      cases he'
      exact Expr.writable_of_spans hspans hcond hdouble
    · rename_i hr
      obtain ⟨update, hupdate, h⟩ := h
      refine hnext h ⟨hparts.init, hparts.cond, fun hdouble => ?_, hparts.body⟩
      obtain ⟨_, start, text, us⟩ := t
      cases hr
      exact writable_of_headers (fun _ _ => rfl) (hspans.body rfl) hupdate hdouble
    · rename_i hinit hcond hupdate
      obtain ⟨body, hbody, h⟩ := h
      refine hnext h ⟨hparts.init, hparts.cond, hparts.update, fun s hs hdouble => ?_⟩
      cases hs
      rcases hts t (.head _) with ⟨hr, -⟩ | ⟨hr, c', hspans'⟩
      · simp only [List.mem_cons, List.not_mem_nil, or_false] at hr
        rcases hr with hr | hr | hr
        · exact absurd hr hinit
        · exact absurd hr hcond
        · exact absurd hr hupdate
      · exact ⟨_, (hfound t (.head _)).of_mem hr hspans' hbody hdouble⟩

/-- The last part of a `for` is its body. -/
theorem isForPart_of_spans {start : Nat} {text : String}
    (h : (Grammar.Tree.node .forStatement start text ts).Spans c d) :
    (∀ t ∈ ts, IsForPart d t) ∧ ∃ front body, ts = front ++ [body] ∧ body.rule ∈ statementRules := by
  obtain ⟨c₁, h₁⟩ := (h.body rfl).drop_word
  obtain ⟨c₂, h₂⟩ := h₁.drop_lit
  obtain ⟨init, _, c₃, rfl, hinit, h₃⟩ := h₂.take_opt
  obtain ⟨c₄, h₄⟩ := h₃.drop_lit
  obtain ⟨cond, _, c₅, rfl, hcond, h₅⟩ := h₄.take_opt
  obtain ⟨c₆, h₆⟩ := h₅.drop_lit
  obtain ⟨update, _, c₇, rfl, hupdate, h₇⟩ := h₆.take_opt
  obtain ⟨c₈, h₈⟩ := h₇.drop_lit
  obtain ⟨body, rfl, hr, hbody⟩ := h₈.of_rules statementRules (by decide)
  -- the parts of the header differ in their rules only
  have hpart : ∀ {part : Option Tree} {r : Rule}, r ∈ [Rule.forInit, .expression, .forUpdate] →
      (∀ t ∈ part, t.rule = r ∧ ∃ c d, t.Spans c d) → ∀ t ∈ part.toList, IsForPart d t := by
    intro part r hr hpart t ht
    obtain ⟨hrule, hspans⟩ := hpart t (Option.mem_toList.mp ht)
    exact .inl ⟨by rwa [hrule], hspans⟩
  refine ⟨fun t ht => ?_, init.toList ++ (cond.toList ++ update.toList), body, by simp, hr⟩
  simp only [List.mem_append, List.mem_singleton] at ht
  rcases ht with ht | ht | ht | rfl
  · exact hpart (.head _) hinit t ht
  · exact hpart (.tail _ (.head _)) hcond t ht
  · exact hpart (.tail _ (.tail _ (.head _))) hupdate t ht
  · exact .inr ⟨hr, _, hbody⟩

theorem shaped_forLoop {start : Nat} {text : String} {parts : ForParts} {body : Stmt}
    (h : (Grammar.Tree.node .forStatement start text ts).Spans c d) (hfound : ∀ t ∈ ts, Found t)
    (hparts : forOf {} ts = .ok parts) (hbody : parts.body = some body)
    (hdouble : NoDouble (forLoop parts.init parts.cond parts.update body).exprs) :
    (forLoop parts.init parts.cond parts.update body).Shaped .forStatement d := by
  have hshaped := shaped_of_forOf hfound (isForPart_of_spans h).1 (.empty d) hparts
  have hinit := hshaped.init hdouble.left
  have hupdate := hshaped.update hdouble.right.right.left
  have hcond : ∀ e ∈ parts.cond, e.Writable :=
    fun e he => hshaped.cond e he (hdouble.right.left e (Option.mem_toList.mpr he))
  obtain ⟨r, hbody, hnested⟩ := hshaped.body body hbody hdouble.right.right.right
  exact ⟨.forLoop hinit.1 hinit.2 hcond (fun s hs => (hupdate s hs).1) (fun s hs => (hupdate s hs).2) hbody.writable
    hnested, fun _ => rfl, hbody.closed⟩

/-! Groups of a `switch`. -/

/-- What the grammar makes sure of in a group of a `switch` that ends at a place: no label follows it if it holds no
statements. -/
structure ArmShaped (d : Cursor) (arm : Arm Stmt) : Prop where
  labels : arm.labels ≠ [] ∧ ∀ l ∈ arm.labels, l.Writable
  body : ∀ s ∈ arm.body, s.Writable
  closed : arm.body = [] → labelPattern.Yields .free d.skip .failed

/-- The statements of a block are no labels. -/
theorem notLabel_of_yields (h : (many blockStatement).Yields .free c (.matched d ts)) :
    ∀ t ∈ ts, t.rule ∉ labelRules :=
  fun t ht => (by decide : ∀ r ∈ blockStatementRules, r ∉ labelRules) _ (h.rule_mem blockStatementRules rfl t ht)

/-- A group of a `switch` is made of labels and statements. -/
theorem shaped_of_group {start : Nat} {text : String} {arm : Arm Stmt}
    (h : (Grammar.Tree.node .switchBlockGroup start text ts).Spans c d) (hfound : ∀ t ∈ ts, Found t)
    (hread : armOf ⟨[], []⟩ ts = .ok arm) (hdouble : NoDouble (arm.labels.flatMap Label.exprs))
    (hdouble' : NoDouble (exprsAll arm.body)) : ArmShaped d arm := by
  cases h.body rfl with
  | @seq _ _ _ _ e _ us vs hus hvs =>
    rw [armOf_eq (hus.rule_mem labelRules rfl) (notLabel_of_yields hvs)] at hread
    simp only [except_bind_eq_ok, except_pure_eq_ok, List.nil_append] at hread
    obtain ⟨labels, hlabels, body, hbody, rfl⟩ := hread
    obtain ⟨t, us', e', rfl, -, -, hmore⟩ := hus.take_rules labelRules (by decide)
    refine ⟨⟨?_, fun l hl => ?_⟩, ?_, ?_⟩
    · rintro rfl
      cases eq_nil_of_mapM hlabels
    · obtain ⟨t, ht, hl'⟩ := exists_of_mem_mapM hlabels hl
      obtain ⟨c', d', hspans⟩ := hus.spans t ht
      exact Label.writable_of_spans hspans hl' (hdouble.of_mem hl)
    · exact writable_of_listOf (fun t ht => hfound t (List.mem_append_right _ ht)) hvs hbody hdouble'
    · rintro rfl
      rw [listOf_eq] at hbody
      obtain rfl := eq_nil_of_mapM hbody
      obtain rfl := hvs.eq_of_many blockStatementRules (by decide)
      have hfailed : labelPattern.Yields .free e.skip .failed := hmore.failed_of_many
      rwa [← Cursor.skip_skip] at hfailed

/-- A group begins with a label. -/
theorem exists_label (h : t.Spans c d) (hr : t.rule = .switchBlockGroup) :
    ∃ e us, labelPattern.Yields .free c (.matched e us) := by
  obtain ⟨_, start, text, ts⟩ := t
  cases hr
  cases h.body rfl with
  | seq hlabels _ =>
    cases hlabels with
    | seq hlabel _ => exact ⟨_, _, hlabel⟩

/-- Only the last group of a `switch` may be without statements: a group takes all labels that follow its own. -/
theorem writable_of_armsOf {arms : List (Arm Stmt)} (hrow : Tree.Row .switchBlockGroup c ts)
    (hfound : ∀ t ∈ ts, ∀ t' ∈ t.children, Found t') (h : armsOf ts = .ok arms) (hdouble : NoDouble (armsExprs arms)) :
    (∀ arm ∈ arms, arm.labels ≠ [] ∧ ∀ l ∈ arm.labels, l.Writable) ∧ (∀ arm ∈ arms, ∀ s ∈ arm.body, s.Writable) ∧
      ∀ arm ∈ arms.dropLast, arm.body ≠ [] := by
  induction ts generalizing c arms with
  | nil =>
    cases h
    exact ⟨List.forall_mem_nil _, List.forall_mem_nil _, List.forall_mem_nil _⟩
  | cons t ts ih =>
    obtain ⟨hr, d, ht, hrow'⟩ := hrow
    obtain ⟨_, start, text, children⟩ := t
    cases hr
    unfold armsOf at h
    simp only [except_bind_eq_ok, except_pure_eq_ok] at h
    obtain ⟨arm, harm, arms', harms', rfl⟩ := h
    rw [armsExprs] at hdouble
    have hshaped := shaped_of_group ht (hfound _ (.head _)) harm hdouble.left hdouble.right.left
    obtain ⟨ih₁, ih₂, ih₃⟩ := ih hrow' (fun t ht => hfound t (.tail _ ht)) harms' hdouble.right.right
    refine ⟨List.forall_mem_cons.mpr ⟨hshaped.labels, ih₁⟩, List.forall_mem_cons.mpr ⟨hshaped.body, ih₂⟩, ?_⟩
    cases arms' with
    | nil => exact List.forall_mem_nil _
    | cons arm' arms' =>
      refine List.forall_mem_cons.mpr ⟨fun hempty => ?_, ih₃⟩
      -- the next group begins with a label, which this group would have taken
      cases ts with
      | nil => cases harms'
      | cons t' ts =>
        obtain ⟨hr, d', ht', -⟩ := hrow'
        obtain ⟨e, us, hlabel⟩ := exists_label ht' hr
        cases hlabel.unique (hshaped.closed hempty) rfl

theorem shaped_switch {start : Nat} {text : String} {subject : Tree} {e : Expr} {arms : List (Arm Stmt)}
    (h : (Grammar.Tree.node .switchStatement start text (subject :: ts)).Spans c d)
    (hfound : ∀ t ∈ ts, ∀ t' ∈ t.children, Found t') (he : Expr.ofTree subject = .ok e) (harms : armsOf ts = .ok arms)
    (hdouble : NoDouble (switch e arms).exprs) : (switch e arms).Shaped .switchStatement d := by
  obtain ⟨_, _, c₁, heq, ⟨-, _, _, hsubject⟩, h₁⟩ := take_condition (h.body rfl)
  cases heq
  obtain ⟨c₂, h₂⟩ := h₁.drop_lit
  obtain ⟨e', h₃⟩ := h₂.drop_last
  have hwritable := Expr.writable_of_spans hsubject he (hdouble e (.head _))
  obtain ⟨hlabels, hbodies, hlast⟩ :=
    writable_of_armsOf h₃.row_of_many hfound harms (fun e' he' => hdouble e' (.tail _ he'))
  exact .plain (.switch hwritable hlabels hbodies hlast) rfl rfl

theorem isOpen_of_isDeclaration {s : Stmt} (h : s.isDeclaration = true) : s.isOpen = false := by
  cases s with
  | declare => rfl
  | _ => cases h

/-- Every tree is read as statements with the right shape, and so is every node in it. -/
theorem found (t : Tree) : Found t ∧ ∀ t' ∈ t.children, Found t' := by
  induction t using Tree.ofChildren with
  | h r start text ts ih =>
    have hfound : ∀ t ∈ ts, Found t := fun t ht => (ih t ht).1
    refine ⟨fun s c d hspans hread hdouble hr => ?_, hfound⟩
    unfold ofTree at hread
    split at hread
    · rw [expect_bind_eq_ok] at hread
      obtain ⟨_, _, _, heq, hr, hdeclaration, -⟩ := (hspans.body rfl).take_rule
      cases heq
      obtain ⟨hwritable, hshape⟩ := writable_of_declaration hdeclaration hr hread.2 hdouble
      refine ⟨hwritable, fun h => absurd rfl h, fun hopen => ?_⟩
      rw [isOpen_of_isDeclaration hshape] at hopen
      cases hopen
    · simp only [except_bind_eq_ok, except_pure_eq_ok] at hread
      obtain ⟨body, hbody, rfl⟩ := hread
      obtain ⟨c₁, h₁⟩ := (hspans.body rfl).drop_lit
      obtain ⟨e, h₂⟩ := h₁.drop_last
      exact .plain (.block (writable_of_listOf hfound h₂ hbody hdouble)) rfl rfl
    · rw [except_bind_eq_ok] at hread
      obtain ⟨_, -, hread⟩ := hread
      cases hread
    · simp only [except_bind_eq_ok, except_pure_eq_ok] at hread
      obtain ⟨e, he, s, hs, rfl⟩ := hread
      exact shaped_ite hspans (hfound _ (.tail _ (.head _))) he hs hdouble
    · simp only [except_bind_eq_ok, except_pure_eq_ok] at hread
      obtain ⟨e, he, s, hs, s', hs', rfl⟩ := hread
      have hno := hfound _ (.tail _ (.tail _ (.head _)))
      exact shaped_iteElse hspans (hfound _ (.tail _ (.head _))) hno he hs hs' hdouble
    · simp only [except_bind_eq_ok, except_pure_eq_ok] at hread
      obtain ⟨e, he, s, hs, rfl⟩ := hread
      exact shaped_loop hspans (hfound _ (.tail _ (.head _))) he hs hdouble
    · rw [except_bind_eq_ok] at hread
      obtain ⟨parts, hparts, hread⟩ := hread
      split at hread
      · rename_i body hbody
        cases hread
        exact shaped_forLoop hspans hfound hparts hbody hdouble
      · cases hread
    · rw [expect_bind_eq_ok] at hread
      simp only [except_bind_eq_ok, except_pure_eq_ok] at hread
      obtain ⟨-, e, he, arms, harms, rfl⟩ := hread
      exact shaped_switch hspans (fun t ht => (ih t (.tail _ ht)).2) he harms hdouble
    · cases hread
      exact .plain (.ret (by simp)) rfl rfl
    · rw [expect_bind_eq_ok] at hread
      simp only [except_bind_eq_ok, except_pure_eq_ok] at hread
      obtain ⟨-, e, he, rfl⟩ := hread
      obtain ⟨c', d', hchild⟩ := hspans.children rfl _ (.head _)
      have hwritable := Expr.writable_of_spans hchild he (hdouble e (.head _))
      exact .plain (.ret (by simpa using hwritable)) rfl rfl
    · cases hread
      exact .plain .breakOut rfl rfl
    · cases hread
      exact .plain .continueLoop rfl rfl
    · cases hread
      exact .plain .empty rfl rfl
    · simp only [ofExpr, except_bind_eq_ok, except_pure_eq_ok] at hread
      obtain ⟨e, he, rfl⟩ := hread
      obtain ⟨e', h₁⟩ := (hspans.body rfl).drop_last
      obtain ⟨_, heq, hrule, hchild⟩ := h₁.of_rules statementExpressionRules (by decide)
      cases heq
      have hwritable := Expr.writable_of_spans hchild he (hdouble e (.head _))
      exact .plain (.expr hwritable (Expr.isStatement_of_ofTree hrule he)) rfl rfl
    · exact absurd rfl hr
    · cases hread

end Stmt

end Statements

end StashMachine
