import Mathlib.Order.Bounds.Defs
import StashMachine.Proofs.ExprReading
import StashMachine.Proofs.ProgramRoundTrip

/-!
# StashMachine.Proofs.SourceReading — every source of the grammar is read

* `Stmt.settles`, `Member.settles`, `ClassDecl.settles`: a statement, a member or a class is read up to the first number
  literal out of range.
* `Pattern.Yields.ordered`: the literals out of range are found in the order of the source.
* `accepted_sources_are_read`: a source that the grammar accepts is read, or the first literal out of range is blamed.
-/

namespace StashMachine

open Grammar Pattern

/-! ### Declarations -/

section Declarations

variable {t : Tree} {c d : Cursor} {ts : List Tree}

theorem Expr.settles_of_spans (h : t.Spans c d) (hr : t.rule ∈ expressionRules) : Settles (Expr.ofTree t) t.tooLarge :=
  (Expr.settles t).1 hr ⟨c, d, h⟩

theorem Declarator.settles (h : t.Spans c d) (hr : t.rule = .variableDeclarator) :
    Settles (Declarator.ofTree t) t.tooLarge := by
  obtain ⟨_, start, text, ts⟩ := t
  cases hr
  obtain ⟨name, ts', e, rfl, hr, hname, hinit⟩ := (h.body rfl).take_rule
  have hname' := Tree.tooLarge_of_isNumberless hname.derived (by rw [hr]; rfl)
  rw [Tree.tooLarge_node rfl, Tree.tooLargeAll, hname', List.nil_append]
  rcases hinit.of_opt with hinit | ⟨rfl, -⟩
  · obtain ⟨c₁, h₁⟩ := hinit.drop_lit
    obtain ⟨init, rfl, hr', hspans⟩ := h₁.spans_rule
    rw [Tree.tooLargeAll_singleton, Declarator.ofTree, expect_bind (by simp [hr, hr'])]
    exact (Expr.settles_of_spans hspans (by rw [hr']; decide)).bind_pure
  · rw [Declarator.ofTree, expect_bind (by simp [hr])]
    exact ⟨_, rfl⟩

theorem settles_declarators (h : (separated "," (rule .variableDeclarator)).Yields .free c (.matched d ts)) :
    Settles (ts.mapM Declarator.ofTree) (Tree.tooLargeAll ts) := by
  refine settles_mapM (fun t ht => ?_)
  obtain ⟨c', d', hspans⟩ := h.spans t ht
  exact Declarator.settles hspans (h.rule_eq .variableDeclarator rfl t ht)

namespace Stmt

theorem settles_declaration (h : t.Spans c d) (hr : t.rule = .localVariableDeclaration) :
    Settles (declaration t) t.tooLarge := by
  obtain ⟨_, start, text, ts⟩ := t
  cases hr
  obtain ⟨type, ts', e, rfl, hr, htype, hvars⟩ := (h.body rfl).take_rule
  have htype' := Tree.tooLarge_of_isNumberless htype.derived (by rw [hr]; rfl)
  rw [Tree.tooLarge_node rfl, Tree.tooLargeAll, htype', List.nil_append,
    declaration_eq hr (hvars.rule_eq .variableDeclarator rfl)]
  exact (settles_declarators hvars).bind_pure

/-- Expressions in the header of a loop. -/
theorem settles_headers {f : Tree → Reading Stmt} (hf : ∀ t, t.rule ∈ statementExpressionRules → f t = ofExpr t)
    (h : (separated "," statementExpression).Yields .free c (.matched d ts)) :
    Settles (ts.mapM f) (Tree.tooLargeAll ts) := by
  refine settles_mapM (fun t ht => ?_)
  obtain ⟨c', d', hspans⟩ := h.spans t ht
  have hr := h.rule_mem statementExpressionRules rfl t ht
  rw [hf t hr]
  exact (Expr.settles_of_spans hspans ((by decide : statementExpressionRules ⊆ expressionRules) hr)).bind_pure

/-- The beginning of a loop. -/
theorem settles_init (h : t.Spans c d) (hr : t.rule = .forInit) : Settles (t.children.mapM ofInit) t.tooLarge := by
  obtain ⟨_, start, text, ts⟩ := t
  cases hr
  rw [Tree.tooLarge_node rfl, Tree.children]
  rcases (h.body rfl).of_alt with hdeclaration | hheaders
  · obtain ⟨t, rfl, hr, hspans⟩ := hdeclaration.spans_rule
    refine settles_mapM (List.forall_mem_singleton.mpr ?_)
    rw [ofInit, hr]
    exact settles_declaration hspans hr
  · exact settles_headers (fun _ hr => ofInit_eq_ofExpr hr) hheaders

theorem settles_update (h : t.Spans c d) (hr : t.rule = .forUpdate) : Settles (t.children.mapM ofExpr) t.tooLarge := by
  obtain ⟨_, start, text, ts⟩ := t
  cases hr
  rw [Tree.tooLarge_node rfl, Tree.children]
  exact settles_headers (fun _ _ => rfl) (h.body rfl)

end Stmt

theorem Label.settles (h : t.Spans c d) (hr : t.rule ∈ labelRules) : Settles (Label.ofTree t) t.tooLarge := by
  obtain ⟨r, start, text, ts⟩ := t
  simp only [labelRules, Tree.rule, List.mem_cons, List.not_mem_nil, or_false] at hr
  rcases hr with rfl | rfl
  · obtain ⟨c₁, h₁⟩ := (h.body rfl).drop_word
    obtain ⟨e, h₂⟩ := h₁.drop_last
    obtain ⟨t, rfl, hr, hspans⟩ := h₂.spans_rule
    rw [Tree.tooLarge_node rfl, Tree.tooLargeAll_singleton, Label.ofTree, expect_bind (by simp [hr])]
    exact (Expr.settles_of_spans hspans (by rw [hr]; decide)).bind_pure
  · rw [Tree.tooLarge_of_isNumberless h.derived rfl]
    exact ⟨_, rfl⟩

end Declarations

/-! ### Statements -/

namespace Stmt

/-- The tree of a statement is read up to the first literal out of range. -/
def Reads (t : Tree) : Prop :=
  t.rule ∈ .explicitConstructorInvocation :: blockStatementRules →
    (∃ c d, t.Spans c d) → Settles (ofTree t) t.tooLarge

section Statements

variable {t : Tree} {c d : Cursor} {ts : List Tree} {start : Nat} {text : String}

theorem Reads.of_mem (h : Reads t) (hr : t.rule ∈ statementRules) (ht : t.Spans c d) : Settles (ofTree t) t.tooLarge :=
  h (.tail _ (.tail _ hr)) ⟨c, d, ht⟩

theorem settles_listOf (h : (many blockStatement).Yields .free c (.matched d ts)) (hreads : ∀ t ∈ ts, Reads t) :
    Settles (listOf ts) (Tree.tooLargeAll ts) := by
  rw [listOf_eq]
  exact settles_mapM (fun t ht => hreads t ht (.tail _ (h.rule_mem blockStatementRules rfl t ht)) (h.spans t ht))

theorem settles_block (h : (Grammar.Tree.node .block start text ts).Spans c d) (hreads : ∀ t ∈ ts, Reads t) :
    Settles (listOf ts) (Tree.tooLargeAll ts) := by
  obtain ⟨c₁, h₁⟩ := (h.body rfl).drop_lit
  obtain ⟨e, h₂⟩ := h₁.drop_last
  exact settles_listOf h₂ hreads

/-! Branches and loops. -/

theorem settles_if (h : (Grammar.Tree.node .ifStatement start text ts).Spans c d) (hreads : ∀ t ∈ ts, Reads t) :
    Settles (ofTree (.node .ifStatement start text ts)) (Tree.tooLargeAll ts) := by
  obtain ⟨cond, _, c₁, rfl, ⟨hr₁, _, _, hcond⟩, h₁⟩ := take_condition (h.body rfl)
  obtain ⟨yes, ts', c₂, rfl, hr₂, hyes, h₂⟩ := h₁.take_rules statementRules (by decide)
  have hcond' : Settles (Expr.inside cond) cond.tooLarge := by
    rw [Expr.inside_eq hr₁]
    exact Expr.settles_of_spans hcond (by rw [hr₁]; decide)
  have hyes' := (hreads yes (.tail _ (.head _))).of_mem hr₂ hyes
  rw [Tree.tooLargeAll, Tree.tooLargeAll]
  rcases h₂.of_opt with helse | ⟨rfl, -⟩
  · obtain ⟨c₃, h₃⟩ := helse.drop_word
    obtain ⟨no, rfl, hr₃, hno⟩ := h₃.of_rules statementRules (by decide)
    have hno' := (hreads no (.tail _ (.tail _ (.head _)))).of_mem hr₃ hno
    rw [ofTree, Tree.tooLargeAll_singleton]
    exact hcond'.bind (fun _ _ => hyes'.bind (fun _ _ => hno'.bind_pure))
  · rw [ofTree, Tree.tooLargeAll, List.append_nil]
    exact hcond'.bind (fun _ _ => hyes'.bind_pure)

theorem settles_while (h : (Grammar.Tree.node .whileStatement start text ts).Spans c d) (hreads : ∀ t ∈ ts, Reads t) :
    Settles (ofTree (.node .whileStatement start text ts)) (Tree.tooLargeAll ts) := by
  obtain ⟨cond, _, c₁, rfl, ⟨hr₁, _, _, hcond⟩, h₁⟩ := take_condition (h.body rfl)
  obtain ⟨body, rfl, hr₂, hbody⟩ := h₁.of_rules statementRules (by decide)
  have hcond' : Settles (Expr.inside cond) cond.tooLarge := by
    rw [Expr.inside_eq hr₁]
    exact Expr.settles_of_spans hcond (by rw [hr₁]; decide)
  have hbody' := (hreads body (.tail _ (.head _))).of_mem hr₂ hbody
  rw [ofTree, Tree.tooLargeAll, Tree.tooLargeAll_singleton]
  exact hcond'.bind (fun _ _ => hbody'.bind_pure)

/-- The parts of a `for` are read one after the other, whichever of them are there. -/
theorem settles_forOf (parts : ForParts) (hts : ∀ t ∈ ts, IsForPart d t) (hreads : ∀ t ∈ ts, Reads t) :
    Settles (forOf parts ts) (Tree.tooLargeAll ts) := by
  induction ts generalizing parts with
  | nil => exact ⟨parts, rfl⟩
  | cons t ts ih =>
    have hrest : ∀ parts, Settles (forOf parts ts) (Tree.tooLargeAll ts) :=
      fun parts => ih parts (fun t ht => hts t (.tail _ ht)) (fun t ht => hreads t (.tail _ ht))
    rw [forOf, Tree.tooLargeAll]
    rcases hts t (.head _) with ⟨hr, c, e, hspans⟩ | ⟨hr, c, hspans⟩
    · simp only [List.mem_cons, List.not_mem_nil, or_false] at hr
      rcases hr with hr | hr | hr <;> rw [hr]
      · exact (settles_init hspans hr).bind (fun _ _ => hrest _)
      · exact (Expr.settles_of_spans hspans (by rw [hr]; decide)).bind (fun _ _ => hrest _)
      · exact (settles_update hspans hr).bind (fun _ _ => hrest _)
    · have hread := (hreads t (.head _)).of_mem hr hspans
      split
      case h_4 => exact hread.bind (fun _ _ => hrest _)
      all_goals
        rename_i hheader
        rw [hheader] at hr
        exact absurd hr (by decide)

/-- The last of the parts is the body. -/
theorem body_of_forOf {parts parts' : ForParts} {front : List Tree} (h : forOf parts (front ++ [t]) = .ok parts')
    (hr : t.rule ∈ statementRules) : parts'.body.isSome = true := by
  induction front generalizing parts with
  | nil =>
    rw [List.nil_append, forOf] at h
    split at h
    case h_4 =>
      simp only [except_bind_eq_ok, forOf, Except.ok.injEq] at h
      obtain ⟨body, -, rfl⟩ := h
      rfl
    all_goals
      rename_i hheader
      rw [hheader] at hr
      exact absurd hr (by decide)
  | cons u front ih =>
    rw [List.cons_append, forOf] at h
    split at h <;>
    · obtain ⟨_, -, h⟩ := except_bind_eq_ok.mp h
      exact ih h

theorem settles_for (h : (Grammar.Tree.node .forStatement start text ts).Spans c d) (hreads : ∀ t ∈ ts, Reads t) :
    Settles (ofTree (.node .forStatement start text ts)) (Tree.tooLargeAll ts) := by
  obtain ⟨hparts, front, body, rfl, hr⟩ := isForPart_of_spans h
  have hread := settles_forOf {} hparts hreads
  rw [ofTree, ← List.append_nil (Tree.tooLargeAll _)]
  refine hread.bind (fun parts hparts => ?_)
  obtain ⟨body', hbody'⟩ := Option.isSome_iff_exists.mp (body_of_forOf hparts hr)
  rw [hbody']
  exact ⟨_, rfl⟩

/-! Groups of a `switch`. -/

theorem settles_labels (h : (plus labelPattern).Yields .free c (.matched d ts)) :
    Settles (ts.mapM Label.ofTree) (Tree.tooLargeAll ts) := by
  refine settles_mapM (fun t ht => ?_)
  obtain ⟨c', d', hspans⟩ := h.spans t ht
  exact Label.settles hspans (h.rule_mem labelRules rfl t ht)

theorem settles_armsOf (hts : ∀ t ∈ ts, t.rule = .switchBlockGroup ∧ ∃ c d, t.Spans c d)
    (hreads : ∀ t ∈ ts, ∀ t' ∈ t.children, Reads t') : Settles (armsOf ts) (Tree.tooLargeAll ts) := by
  induction ts with
  | nil => exact ⟨[], rfl⟩
  | cons t ts ih =>
    have hrest := ih (fun t ht => hts t (.tail _ ht)) (fun t ht => hreads t (.tail _ ht))
    obtain ⟨hr, c, d, hspans⟩ := hts t (.head _)
    have hreads' := hreads t (.head _)
    obtain ⟨_, start, text, children⟩ := t
    cases hr
    cases hspans.body rfl with
    | @seq _ _ _ _ _ _ us vs hus hvs =>
      have hstmts := settles_listOf hvs (fun t ht => hreads' t (List.mem_append_right _ ht))
      have harm : Settles (armOf ⟨[], []⟩ (us ++ vs)) (Tree.tooLargeAll (us ++ vs)) := by
        rw [armOf_eq (hus.rule_mem labelRules rfl) (notLabel_of_yields hvs), Tree.tooLargeAll_append]
        exact (settles_labels hus).bind (fun _ _ => hstmts.bind_pure)
      rw [armsOf, Tree.tooLargeAll, Tree.tooLarge_node rfl]
      exact harm.bind (fun _ _ => hrest.bind_pure)

theorem settles_switch (h : (Grammar.Tree.node .switchStatement start text ts).Spans c d)
    (hreads : ∀ t ∈ ts, ∀ t' ∈ t.children, Reads t') :
    Settles (ofTree (.node .switchStatement start text ts)) (Tree.tooLargeAll ts) := by
  obtain ⟨subject, groups, c₁, rfl, ⟨hr, _, _, hsubject⟩, h₁⟩ := take_condition (h.body rfl)
  obtain ⟨c₂, h₂⟩ := h₁.drop_lit
  obtain ⟨e, h₃⟩ := h₂.drop_last
  have hrules := h₃.rule_eq .switchBlockGroup rfl
  have hsubject' := Expr.settles_of_spans hsubject (by rw [hr]; decide)
  have harms := settles_armsOf (fun t ht => ⟨hrules t ht, h₃.spans t ht⟩) (fun t ht => hreads t (.tail _ ht))
  rw [ofTree, expect_cons_bind hr hrules, Tree.tooLargeAll]
  exact hsubject'.bind (fun _ _ => harms.bind_pure)

/-! Leaving and delegating. -/

theorem settles_return (h : (Grammar.Tree.node .returnStatement start text ts).Spans c d) :
    Settles (ofTree (.node .returnStatement start text ts)) (Tree.tooLargeAll ts) := by
  obtain ⟨c₁, h₁⟩ := (h.body rfl).drop_word
  obtain ⟨e, h₂⟩ := h₁.drop_last
  rcases h₂.of_opt with hvalue | ⟨rfl, -⟩
  · obtain ⟨value, rfl, hr, hspans⟩ := hvalue.spans_rule
    rw [ofTree, expect_bind (by simp [hr]), Tree.tooLargeAll_singleton]
    exact (Expr.settles_of_spans hspans (by rw [hr]; decide)).bind_pure
  · exact ⟨_, rfl⟩

/-- The call of another constructor. -/
theorem settles_explicit (h : (Grammar.Tree.node .explicitConstructorInvocation start text ts).Spans c d) :
    Settles (ofTree (.node .explicitConstructorInvocation start text ts)) (Tree.tooLargeAll ts) := by
  obtain ⟨who, _, e₁, rfl, hr, hwho, h₁⟩ := (h.body rfl).take_rule
  obtain ⟨e₂, h₂⟩ := h₁.drop_last
  obtain ⟨⟨_, start', text', args⟩, rfl, hr', hargs⟩ := h₂.spans_rule
  cases hr'
  have hwho' := Tree.tooLarge_of_isNumberless hwho.derived (by rw [hr]; rfl)
  have hargs' := Expr.settles_arguments hargs (Expr.settles (.node .arguments start' text' args)).2
  have hmem : who.text ∈ ["this", "super"] := text_mem_of_words hwho.derived (by rw [hr]; rfl) (by simp)
  simp only [List.mem_cons, List.not_mem_nil, or_false] at hmem
  rw [ofTree, expect_bind (by simp [hr]), Tree.tooLargeAll, hwho', Tree.tooLargeAll_singleton, List.nil_append]
  have hread : Settles (Delegate.ofTree who) [] := by
    rcases hmem with htext | htext <;> rw [Delegate.ofTree, htext]
    · exact ⟨.this, rfl⟩
    · exact ⟨.super, rfl⟩
  exact hread.after (fun _ _ => hargs'.bind_pure)

/-- Every statement is read up to the first literal out of range, and so is every node in it. -/
theorem settles (t : Tree) : Reads t ∧ ∀ t' ∈ t.children, Reads t' := by
  induction t using Tree.ofChildren with
  | h r start text ts ih =>
    have hreads : ∀ t ∈ ts, Reads t := fun t ht => (ih t ht).1
    refine ⟨fun hr ⟨c, d, hspans⟩ => ?_, hreads⟩
    simp only [blockStatementRules, statementRules, Tree.rule, List.mem_cons, List.not_mem_nil, or_false] at hr
    rcases hr with rfl | rfl | rfl | rfl | rfl | rfl | rfl | rfl | rfl | rfl | rfl | rfl
    · exact settles_explicit hspans
    · obtain ⟨e, h₁⟩ := (hspans.body rfl).drop_last
      obtain ⟨t, rfl, hr, ht⟩ := h₁.spans_rule
      rw [ofTree, expect_bind (by simp [hr]), Tree.tooLarge_node rfl, Tree.tooLargeAll_singleton]
      exact settles_declaration ht hr
    · exact (settles_block hspans hreads).bind_pure
    · exact settles_if hspans hreads
    · exact settles_while hspans hreads
    · exact settles_for hspans hreads
    · exact settles_switch hspans (fun t ht => (ih t ht).2)
    · exact settles_return hspans
    · rw [Tree.tooLarge_of_isNumberless hspans.derived rfl]
      exact ⟨_, rfl⟩
    · rw [Tree.tooLarge_of_isNumberless hspans.derived rfl]
      exact ⟨_, rfl⟩
    · rw [Tree.tooLarge_of_isNumberless hspans.derived rfl]
      exact ⟨_, rfl⟩
    · obtain ⟨e, h₁⟩ := (hspans.body rfl).drop_last
      obtain ⟨t, rfl, hr, ht⟩ := h₁.of_rules statementExpressionRules (by decide)
      rw [ofTree, Tree.tooLarge_node rfl, Tree.tooLargeAll_singleton]
      exact (Expr.settles_of_spans ht ((by decide : statementExpressionRules ⊆ expressionRules) hr)).bind_pure

end Statements

end Stmt

/-! ### Members and classes -/

section Members

variable {t : Tree} {c d : Cursor} {ts : List Tree} {start : Nat} {text : String}

theorem Modifier.settles (h : t.Spans c d) (hr : t.rule = .modifier) : Settles (Modifier.ofTree t) [] := by
  have hmem : t.text ∈ ["public", "private", "protected", "static", "final", "native", "abstract"] :=
    text_mem_of_words h.derived (by rw [hr]; rfl) (by simp)
  have hall : ∀ s ∈ ["public", "private", "protected", "static", "final", "native", "abstract"],
      (Modifier.ofString? s).isSome = true := by
    decide
  obtain ⟨m, hm⟩ := Option.isSome_iff_exists.mp (hall _ hmem)
  refine ⟨m, ?_⟩
  rw [Modifier.ofTree, hm]

/-- The modifiers in front of a declaration are read. -/
theorem settles_modifiers {us : List Tree} (hspans : ∀ t ∈ us, ∃ c d, t.Spans c d)
    (hus : ∀ t ∈ us, t.rule = .modifier) : Settles (us.mapM Modifier.ofTree) [] ∧ Tree.tooLargeAll us = [] := by
  have hnone : ∀ t ∈ us, t.tooLarge = [] := by
    intro t ht
    obtain ⟨c, d, hspan⟩ := hspans t ht
    exact Tree.tooLarge_of_isNumberless hspan.derived (by rw [hus t ht]; rfl)
  refine ⟨?_, Tree.tooLargeAll_eq_nil hnone⟩
  rw [← Tree.tooLargeAll_eq_nil hnone]
  refine settles_mapM (fun t ht => ?_)
  obtain ⟨c, d, hspan⟩ := hspans t ht
  rw [hnone t ht]
  exact Modifier.settles hspan (hus t ht)

theorem Param.settles (h : t.Spans c d) (hr : t.rule = .formalParameter) : Settles (Param.ofTree t) [] := by
  obtain ⟨_, start, text, ts⟩ := t
  cases hr
  cases h.body rfl with
  | seq hfinal hrest =>
    have hnone : ∀ {e ts}, (opt (word "final")).Yields .free c (.matched e ts) → ts = [] := by
      intro e ts hfinal
      rcases hfinal.of_opt with hword | ⟨rfl, -⟩
      · cases hword
        rfl
      · rfl
    obtain rfl := hnone hfinal
    obtain ⟨type, _, e, rfl, hr, -, hname⟩ := hrest.take_rule
    obtain ⟨name, rfl, hr', -⟩ := hname.spans_rule
    rw [List.nil_append, Param.ofTree, expect_bind (by simp [hr, hr'])]
    exact ⟨_, rfl⟩

theorem settles_params (h : t.Spans c d) (hr : t.rule = .formalParameters) : Settles (paramsOf t) [] := by
  obtain ⟨_, start, text, ts⟩ := t
  cases hr
  have hrules := (h.body rfl).rule_eq .formalParameter rfl
  rw [paramsOf, expectAll_bind hrules, ← Tree.tooLarge_of_isNumberless h.derived rfl, Tree.tooLarge_node rfl]
  refine settles_mapM (fun t ht => ?_)
  obtain ⟨c', d', hspans⟩ := h.children rfl t ht
  rw [Tree.tooLarge_of_isNumberless hspans.derived (by rw [hrules t ht]; rfl)]
  exact Param.settles hspans (hrules t ht)

theorem FieldDecl.settles (h : t.Spans c d) (hr : t.rule = .fieldDeclaration) :
    Settles (FieldDecl.ofTree t) t.tooLarge := by
  obtain ⟨_, start, text, ts⟩ := t
  cases hr
  obtain ⟨us, vs, e, rfl, hus, h₁⟩ := take_modifiers (h.body rfl)
  obtain ⟨type, vars, e', rfl, hr, htype, h₂⟩ := h₁.take_rule
  obtain ⟨e'', h₃⟩ := h₂.drop_last
  obtain ⟨hms, hbad⟩ := settles_modifiers (fun t ht => h.children rfl t (List.mem_append_left _ ht)) hus
  have htype' := Tree.tooLarge_of_isNumberless htype.derived (by rw [hr]; rfl)
  rw [Tree.tooLarge_node rfl, Tree.tooLargeAll_append, hbad, Tree.tooLargeAll, htype', List.nil_append, List.nil_append,
    ofTree_eq hus hr (h₃.rule_eq .variableDeclarator rfl)]
  exact hms.after (fun _ _ => (settles_declarators h₃).bind_pure)

/-- The block of a method, or the semicolon in its place. -/
theorem settles_methodBody (h : t.Spans c d) (hr : t.rule ∈ [Rule.block, .emptyBody]) :
    Settles (methodBodyOf t) t.tooLarge := by
  obtain ⟨r, start, text, ts⟩ := t
  simp only [Tree.rule, List.mem_cons, List.not_mem_nil, or_false] at hr
  rcases hr with rfl | rfl
  · have hbody := Stmt.settles_block h (Stmt.settles (.node .block start text ts)).2
    rw [methodBodyOf, Tree.rule_node, if_pos rfl, Tree.tooLarge_node rfl, map_eq_pure_bind]
    exact hbody.bind_pure
  · rw [Tree.tooLarge_of_isNumberless h.derived rfl]
    exact ⟨none, rfl⟩

theorem MethodDecl.settles (h : t.Spans c d) (hr : t.rule = .methodDeclaration) :
    Settles (MethodDecl.ofTree t) t.tooLarge := by
  obtain ⟨_, start, text, ts⟩ := t
  cases hr
  obtain ⟨us, vs, e, rfl, hus, h₁⟩ := take_modifiers (h.body rfl)
  obtain ⟨result, _, e₁, rfl, hr₁, hresult, h₂⟩ := h₁.take_rule
  obtain ⟨name, _, e₂, rfl, hr₂, hname, h₃⟩ := h₂.take_rule
  obtain ⟨params, _, e₃, rfl, hr₃, hparams, h₄⟩ := h₃.take_rule
  obtain ⟨last, rfl, hr₄, hlast⟩ := h₄.of_rules [.block, .emptyBody] (by decide)
  obtain ⟨hms, hbad⟩ := settles_modifiers (fun t ht => h.children rfl t (List.mem_append_left _ ht)) hus
  have hresult' := Tree.tooLarge_of_isNumberless hresult.derived (by rw [hr₁]; rfl)
  have hname' := Tree.tooLarge_of_isNumberless hname.derived (by rw [hr₂]; rfl)
  have hparams' := Tree.tooLarge_of_isNumberless hparams.derived (by rw [hr₃]; rfl)
  rw [Tree.tooLarge_node rfl, Tree.tooLargeAll_append, hbad, Tree.tooLargeAll, Tree.tooLargeAll, Tree.tooLargeAll,
    Tree.tooLargeAll_singleton, hresult', hname', hparams', ofTree_eq hus hr₁ hr₂ hr₃ hr₄]
  exact hms.after (fun _ _ => (settles_params hparams hr₃).after (fun _ _ => (settles_methodBody hlast hr₄).bind_pure))

theorem ConstructorDecl.settles (h : t.Spans c d) (hr : t.rule = .constructorDeclaration) :
    Settles (ConstructorDecl.ofTree t) t.tooLarge := by
  obtain ⟨_, start, text, ts⟩ := t
  cases hr
  obtain ⟨us, vs, e, rfl, hus, h₁⟩ := take_modifiers (h.body rfl)
  obtain ⟨name, _, e₁, rfl, hr₁, hname, h₂⟩ := h₁.take_rule
  obtain ⟨params, _, e₂, rfl, hr₂, hparams, h₃⟩ := h₂.take_rule
  obtain ⟨last, rfl, hr₃, hbody⟩ := h₃.spans_rule
  obtain ⟨hms, hbad⟩ := settles_modifiers (fun t ht => h.children rfl t (List.mem_append_left _ ht)) hus
  have hname' := Tree.tooLarge_of_isNumberless hname.derived (by rw [hr₁]; rfl)
  have hparams' := Tree.tooLarge_of_isNumberless hparams.derived (by rw [hr₂]; rfl)
  have hstmts : Settles (Stmt.listOf last.children) last.tooLarge := by
    obtain ⟨_, start', text', body⟩ := last
    cases hr₃
    rw [Stmt.listOf_eq, Tree.tooLarge_node rfl]
    refine settles_mapM (fun t ht => (Stmt.settles t).1 ?_ (hbody.children rfl t ht))
    exact (hbody.body rfl).rule_mem (.explicitConstructorInvocation :: blockStatementRules) rfl t ht
  rw [Tree.tooLarge_node rfl, Tree.tooLargeAll_append, hbad, Tree.tooLargeAll, Tree.tooLargeAll,
    Tree.tooLargeAll_singleton, hname', hparams', ofTree_eq hus hr₁ hr₂ hr₃]
  exact hms.after (fun _ _ => (settles_params hparams hr₂).after (fun _ _ => hstmts.bind_pure))

theorem Member.settles (h : t.Spans c d) (hr : t.rule ∈ memberRules) : Settles (Member.ofTree t) t.tooLarge := by
  simp only [memberRules, List.mem_cons, List.not_mem_nil, or_false] at hr
  rcases hr with hr | hr | hr <;> rw [Member.ofTree, hr]
  · exact (ConstructorDecl.settles h hr).bind_pure
  · exact (MethodDecl.settles h hr).bind_pure
  · exact (FieldDecl.settles h hr).bind_pure

theorem settles_members (h : (many member).Yields .free c (.matched d ts)) :
    Settles (ts.mapM Member.ofTree) (Tree.tooLargeAll ts) := by
  refine settles_mapM (fun t ht => ?_)
  obtain ⟨c', d', hspans⟩ := h.spans t ht
  exact Member.settles hspans (h.rule_mem memberRules rfl t ht)

theorem settles_superNameOf (h : t.Spans c d) (hr : t.rule = .superclass) : Settles (superNameOf t) [] := by
  obtain ⟨_, start, text, ts⟩ := t
  cases hr
  obtain ⟨c₁, h₁⟩ := (h.body rfl).drop_word
  obtain ⟨name, rfl, hr, -⟩ := h₁.spans_rule
  rw [superNameOf, expect_bind (by simp [hr])]
  exact ⟨_, rfl⟩

theorem ClassDecl.settles (h : t.Spans c d) (hr : t.rule = .classDeclaration) :
    Settles (ClassDecl.ofTree t) t.tooLarge := by
  obtain ⟨_, start, text, ts⟩ := t
  cases hr
  obtain ⟨us, vs, e, rfl, hus, h₁⟩ := take_modifiers (h.body rfl)
  obtain ⟨c₁, h₂⟩ := h₁.drop_word
  obtain ⟨name, _, e₁, rfl, hr, hname, h₃⟩ := h₂.take_rule
  obtain ⟨parent, members, e₂, rfl, hparent, h₄⟩ := h₃.take_opt
  obtain ⟨c₂, h₅⟩ := h₄.drop_lit
  obtain ⟨e₃, h₆⟩ := h₅.drop_last
  obtain ⟨hms, hbad⟩ := settles_modifiers (fun t ht => h.children rfl t (List.mem_append_left _ ht)) hus
  have hname' := Tree.tooLarge_of_isNumberless hname.derived (by rw [hr]; rfl)
  have hsuper : Settles (parent.mapM superNameOf) [] ∧ Tree.tooLargeAll parent.toList = [] := by
    cases parent with
    | none => exact ⟨⟨none, rfl⟩, rfl⟩
    | some parent =>
      obtain ⟨hr', c', d', hspans⟩ := hparent parent rfl
      rw [Option.mapM_some, map_eq_pure_bind, Option.toList_some, Tree.tooLargeAll_singleton]
      exact ⟨(settles_superNameOf hspans hr').bind_pure, Tree.tooLarge_of_isNumberless hspans.derived (by rw [hr']; rfl)⟩
  rw [Tree.tooLarge_node rfl, Tree.tooLargeAll_append, hbad, Tree.tooLargeAll, hname', Tree.tooLargeAll_append,
    hsuper.2, ofTree_eq hus hr (fun t ht => (hparent t ht).1) (h₆.rule_mem memberRules rfl)]
  exact hms.after (fun _ _ => hsuper.1.after (fun _ _ => (settles_members h₆).bind_pure))

end Members

theorem Program.settles {t : Tree} {c d : Cursor} (h : t.Spans c d) (hr : t.rule = .compilationUnit) :
    Settles (Program.ofTree t) t.tooLarge := by
  obtain ⟨_, start, text, ts⟩ := t
  cases hr
  cases h.body rfl with
  | seq hstart hrest =>
    cases hstart
    cases hrest with
    | @seq _ _ _ _ _ _ us vs hclasses hend =>
      obtain ⟨last, rfl, hr, hlast⟩ := hend.spans_rule
      have hrules := hclasses.rule_eq .classDeclaration rfl
      rw [List.nil_append, ofTree_eq hrules hr, Tree.tooLarge_node rfl, Tree.tooLargeAll_append,
        Tree.tooLargeAll_singleton, Tree.tooLarge_of_isNumberless hlast.derived (by rw [hr]; rfl), List.append_nil]
      refine settles_mapM (fun t ht => ?_)
      obtain ⟨c', d', hspans⟩ := hclasses.spans t ht
      exact ClassDecl.settles hspans (hrules t ht)

theorem Expr.settles_entry {t : Tree} {c d : Cursor} (h : t.Spans c d) (hr : t.rule = .expressionEntry) :
    Settles (Expr.ofEntry t) t.tooLarge := by
  obtain ⟨_, start, text, ts⟩ := t
  cases hr
  cases h.body rfl with
  | seq hstart hrest =>
    cases hstart
    obtain ⟨e, _, d', rfl, hr, he, hend⟩ := hrest.take_rule
    obtain ⟨last, rfl, hr', hlast⟩ := hend.spans_rule
    rw [List.nil_append, Expr.ofEntry, expect_bind (by simp [hr, hr']), Tree.tooLarge_node rfl, Tree.tooLargeAll,
      Tree.tooLargeAll_singleton, Tree.tooLarge_of_isNumberless hlast.derived (by rw [hr']; rfl), List.append_nil]
    exact Expr.settles_of_spans he (by rw [hr]; decide)

/-! ### The order of the source -/

namespace Grammar

namespace Cursor

variable {a b : Cursor}

theorem offset_of_accept? {wanted : List Char} (h : a.accept? wanted = some b) : a.offset ≤ b.offset := by
  induction wanted generalizing a with
  | nil =>
    cases h
    exact Nat.le_refl _
  | cons w more ih =>
    simp only [accept?] at h
    split at h
    · split_ifs at h
      exact Nat.le_trans (Nat.le_add_right _ _) (ih h)
    · cases h

theorem offset_of_satisfy? {test : Char → Bool} (h : a.satisfy? test = some b) : a.offset ≤ b.offset := by
  simp only [satisfy?] at h
  split at h
  · split_ifs at h
    cases h
    exact Nat.le_add_right _ _
  · cases h

/-- A gap leads on, also where it is an open comment and leads back to where that began. -/
theorem offset_skipFrom {n : Nat} (g : Gap) (i o : Nat) (rest : List Char) (hn : n ≤ o)
    (hopened : ∀ opened, g = .block opened → n ≤ opened.offset) : n ≤ (skipFrom g i o rest).offset := by
  fun_induction skipFrom g i o rest with
  | case2 i o rest ih =>
    refine ih (by omega) (fun opened ho => ?_)
    cases ho
    exact hn
  | case8 opened i o c rest _ ih => exact ih (by omega) hopened
  | case11 opened i o => exact hopened opened rfl
  | case4 | case9 | case10 => exact hn
  | case1 | case3 | case5 | case6 | case7 =>
    rename_i ih
    exact ih (by omega) (by simp)

theorem offset_skipUnder (gaps : Spacing) (a : Cursor) : a.offset ≤ (a.skipUnder gaps).offset := by
  unfold skipUnder
  split_ifs
  · exact offset_skipFrom .blank _ _ _ (Nat.le_refl _) (by simp)
  · exact Nat.le_refl _

end Cursor

/-- Bytes in the order of the source, from one place on to another. -/
structure Ordered (a b : Nat) (bytes : List Nat) : Prop where
  forward : a ≤ b
  sorted : bytes.Pairwise (· ≤ ·)
  within : ∀ s ∈ bytes, a ≤ s ∧ s ≤ b

section Ordered

variable {a b b' e : Nat} {bytes bytes' : List Nat}

theorem ordered_nil (h : a ≤ b) : Ordered a b [] := ⟨h, .nil, by simp⟩

theorem Ordered.append (h : Ordered a b bytes) (hgap : b ≤ b') (h' : Ordered b' e bytes') :
    Ordered a e (bytes ++ bytes') := by
  have hforward := h.forward
  have hforward' := h'.forward
  refine ⟨by omega, List.pairwise_append.mpr ⟨h.sorted, h'.sorted, fun s hs s' hs' => ?_⟩, fun s hs => ?_⟩
  · have hleft := h.within s hs
    have hright := h'.within s' hs'
    omega
  · rcases List.mem_append.mp hs with hs | hs
    · have hleft := h.within s hs
      omega
    · have hright := h'.within s hs
      omega

theorem Ordered.sublist (h : Ordered a b bytes) (hsub : bytes'.Sublist bytes) : Ordered a b bytes' :=
  ⟨h.forward, h.sorted.sublist hsub, fun s hs => h.within s (hsub.subset hs)⟩

end Ordered

/-- A node is a literal itself, or what is out of range in it is so in its nodes. -/
theorem Tree.tooLarge_cases (r : Rule) (start : Nat) (text : String) (ts : List Tree) :
    (node r start text ts).tooLarge = [start] ∨
      (node r start text ts).tooLarge.Sublist (tooLargeAll ts) := by
  unfold tooLarge
  split
  · split_ifs
    · exact .inr (List.nil_sublist _)
    · exact .inl rfl
  · split_ifs
    · exact .inr (List.nil_sublist _)
    · exact .inl rfl
  · right
    rw [tooLargeAll, tooLargeAll_singleton]
    refine (List.Sublist.refl _).append ?_
    split_ifs
    · exact List.nil_sublist _
    · exact List.Sublist.refl _
  · exact .inr (List.Sublist.refl _)

/-- The literals out of range are found in the order of the source. -/
theorem Pattern.Yields.ordered {gaps : Spacing} {p : Pattern} {c d : Cursor} {ts : List Tree}
    (h : p.Yields gaps c (.matched d ts)) : Ordered c.offset d.offset (Tree.tooLargeAll ts) := by
  generalize ho : Outcome.matched d ts = o at h
  induction h generalizing d ts with
  | text hc =>
    cases ho
    exact ordered_nil (Cursor.offset_of_accept? hc)
  | char hc =>
    cases ho
    exact ordered_nil (Cursor.offset_of_satisfy? hc)
  | @rule _ r c d us hbody ih =>
    cases ho
    have hordered := ih rfl
    rw [Tree.tooLargeAll_singleton]
    rcases Tree.tooLarge_cases r c.offset (c.textTo d) (if r.spacing == .atomic then [] else us) with hself | hsub
    · rw [hself]
      exact ⟨hordered.forward, List.pairwise_singleton _ _, by simpa using hordered.forward⟩
    · refine hordered.sublist (hsub.trans ?_)
      split_ifs
      · exact List.nil_sublist _
      · exact List.Sublist.refl _
  | seq _ _ ih₁ ih₂ =>
    cases ho
    rw [Tree.tooLargeAll_append]
    exact (ih₁ rfl).append (Cursor.offset_skipUnder _ _) (ih₂ rfl)
  | manyMore _ _ _ ih₁ _ ih₃ =>
    cases ho
    rw [Tree.tooLargeAll_append]
    exact (ih₁ rfl).append (Cursor.offset_skipUnder _ _) (ih₃ rfl)
  | tight _ ih =>
    cases ho
    exact ordered_nil (ih rfl).forward
  | altFirst _ ih => exact ih ho
  | altSecond _ _ _ ih => exact ih ho
  | optSome _ ih => exact ih ho
  | manyLast _ _ ih _ => exact ih ho
  | optNone | manyNone | avoid | start | stop =>
    cases ho
    exact ordered_nil (Nat.le_refl _)
  | _ => cases ho

end Grammar

/-! ### Sources -/

/-- The tree is read if no literal is out of range that no minus sign takes, and else the first such literal of the
source is blamed; nothing else goes wrong. -/
def ReadOrBlamed {α : Type} (t : Tree) (x : Reading α) : Prop :=
  (t.tooLarge = [] ∧ ∃ a, x = .ok a) ∨ ∃ s, IsLeast {s | s ∈ t.tooLarge} s ∧ x = .error (.tooLarge s)

theorem Settles.readOrBlamed {α : Type} {t : Tree} {x : Reading α} {c d : Cursor} (h : Settles x t.tooLarge)
    (ht : t.Spans c d) : ReadOrBlamed t x := by
  have hordered := Pattern.Yields.ordered ht
  rw [Tree.tooLargeAll_singleton] at hordered
  unfold ReadOrBlamed
  cases hbad : t.tooLarge with
  | nil =>
    rw [hbad] at h
    exact .inl ⟨rfl, h⟩
  | cons s bad =>
    rw [hbad] at h hordered
    refine .inr ⟨s, ⟨.head _, fun s' hs' => ?_⟩, h⟩
    rcases List.mem_cons.mp hs' with rfl | hs'
    · exact Nat.le_refl _
    · exact List.rel_of_pairwise_cons hordered.sorted hs'

/-- Every source that the grammar accepts is read, as a program or as an expression, or the first number literal of the
source that is out of range is blamed. -/
theorem accepted_sources_are_read (source : String) (t : Tree) :
    (parse? .compilationUnit source = some t → ReadOrBlamed t (Program.ofTree t)) ∧
    (parse? .expressionEntry source = some t → ReadOrBlamed t (Expr.ofEntry t)) := by
  constructor
  · intro h
    obtain ⟨hr, d, hspans⟩ := spans_of_parse? h
    exact (Program.settles hspans hr).readOrBlamed hspans
  · intro h
    obtain ⟨hr, d, hspans⟩ := spans_of_parse? h
    exact (Expr.settles_entry hspans hr).readOrBlamed hspans

/-- A minus sign takes the digits of the least `int`.  Without it they are out of range, and are blamed before the
literal behind them. -/
theorem accepted_sources_are_read_signs :
    (∃ t, parse? .compilationUnit "class A\x7bint x=-2147483648;\x7d" = some t ∧ ∃ p, Program.ofTree t = .ok p) ∧
    ∃ t, parse? .expressionEntry "-2147483648+2147483648*9999999999" = some t ∧
      Expr.ofEntry t = .error (.tooLarge 12) := by
  constructor
  · have hparse : (parse? .compilationUnit "class A\x7bint x=-2147483648;\x7d").map Tree.tooLarge = some [] := by
      decide +kernel
    obtain ⟨t, ht, hbad⟩ := Option.map_eq_some_iff.mp hparse
    refine ⟨t, ht, ?_⟩
    rcases (accepted_sources_are_read _ t).1 ht with ⟨-, hread⟩ | ⟨s, hleast, -⟩
    · exact hread
    · rw [hbad] at hleast
      cases hleast.1
  · have hparse : (parse? .expressionEntry "-2147483648+2147483648*9999999999").map Tree.tooLarge = some [12, 23] := by
      decide +kernel
    obtain ⟨t, ht, hbad⟩ := Option.map_eq_some_iff.mp hparse
    refine ⟨t, ht, ?_⟩
    rcases (accepted_sources_are_read _ t).2 ht with ⟨hnone, -⟩ | ⟨s, hleast, hread⟩
    · rw [hbad] at hnone
      cases hnone
    · rw [hbad] at hleast
      have hs : s = 12 := Nat.le_antisymm (hleast.2 (.head _)) ((by decide : ∀ s ∈ [12, 23], 12 ≤ s) s hleast.1)
      rw [hread, hs]

end StashMachine
