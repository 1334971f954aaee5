import StashMachine.Proofs.ProgramReadBack
import StashMachine.Proofs.Shapes

/-!
# StashMachine.Proofs.ProgramRoundTrip — writing a program undoes reading it

* `take_modifiers`: the modifiers in front of a declaration.
* `yields_explicit`: a call of `this` or `super` at the beginning of a constructor calls another one.
* `Member.writable_of_spans`, `ClassDecl.writable_of_spans`: what is read from a tree can be written.
* `program_read_back`: the text of a program that was read from a source is read as that program.
-/

namespace StashMachine

open Grammar Pattern

section Declarations

variable {t : Tree} {c d : Cursor} {ts : List Tree} {q : Pattern}

/-! ### Parts of declarations -/

theorem take_modifiers (h : (seq (many (rule .modifier)) q).Yields .free c (.matched d ts)) :
    ∃ us vs e, ts = us ++ vs ∧ (∀ t ∈ us, t.rule = .modifier) ∧ q.Yields .free (Cursor.skip e) (.matched d vs) := by
  cases h with
  | seq hmodifiers hq =>
    exact ⟨_, _, _, rfl, hmodifiers.rule_eq .modifier rfl, hq⟩

theorem spells_of_spans (h : t.Spans c d) (hr : t.rule = .identifier) : Rule.identifier.Spells t.text.toList :=
  spells_of_derived h.derived hr

/-- The result of a method is a type, or there is none. -/
theorem isResult_of_spans (h : t.Spans c d) (hr : t.rule = .resultType) : IsResult (TypeName.ofString t.text) := by
  obtain ⟨_, start, text, ts⟩ := t
  cases hr
  obtain ⟨us, hbody, hnode⟩ := h.of_rule
  simp only [List.cons.injEq, Tree.node.injEq] at hnode
  have htext : ∀ {cs : List Char}, c.Reads cs d → text = String.ofList cs := by
    intro cs hreads
    rw [hnode.1.2.2.1, hreads.textTo]
  cases hbody with
  | altFirst hvoid =>
    obtain ⟨cs, hreads, hadmits⟩ := hvoid.admits rfl
    have hwords : (wordOf ["void"]).Admits .atomic cs _ := hadmits
    have hmem := (hwords.mem_of_words (by simp)).1
    rw [← htext hreads, List.mem_singleton] at hmem
    left
    rw [Tree.text, hmem]
    rfl
  | altSecond _ htype =>
    obtain ⟨vs, htype, -⟩ := htype.of_rule
    obtain ⟨cs, hreads, hadmits⟩ := htype.admits (Rule.advances_body _)
    have hwritten := hadmits.isTypeText
    right
    rw [Tree.text, htext hreads]
    refine ⟨?_, ?_⟩
    · rwa [TypeName.text_ofString, String.toList_ofList]
    · rw [TypeName.text_ofString]

theorem Param.writable_of_spans {p : Param} (h : t.Spans c d) (hr : t.rule = .formalParameter)
    (hread : Param.ofTree t = .ok p) : p.Writable := by
  unfold Param.ofTree at hread
  split at hread
  · rename_i type name
    cases hr
    rw [expect_bind_eq_ok, except_pure_eq_ok] at hread
    obtain ⟨hrules, rfl⟩ := hread
    simp only [List.map_cons, List.map_nil, List.cons.injEq, and_true] at hrules
    obtain ⟨_, _, htype⟩ := h.children rfl type (.head _)
    obtain ⟨_, _, hname⟩ := h.children rfl name (.tail _ (.head _))
    exact ⟨TypeName.writable_of_spans htype hrules.1, spells_of_spans hname hrules.2⟩
  · cases hread

theorem writable_of_params {ps : List Param} (h : t.Spans c d) (hr : t.rule = .formalParameters)
    (hread : paramsOf t = .ok ps) : ∀ p ∈ ps, p.Writable := by
  obtain ⟨_, start, text, ts⟩ := t
  cases hr
  rw [paramsOf, expectAll_bind_eq_ok] at hread
  intro p hp
  obtain ⟨t, ht, hp'⟩ := exists_of_mem_mapM hread.2 hp
  obtain ⟨c', d', hspans⟩ := h.children rfl t ht
  exact Param.writable_of_spans hspans (hread.1 t ht) hp'

end Declarations

/-! ### The beginning of a constructor -/

section Delegation

variable {t : Tree} {c d : Cursor} {s : Stmt}

/-- A repetition that reads nothing ends where it begins. -/
theorem eq_of_many_of_length {gaps : Spacing} {p : Pattern} {ts : List Tree} (hadvances : (many p).advances = true)
    (h : (many p).Yields gaps c (.matched d ts)) (hlength : c.rest.length ≤ d.rest.length) : d = c := by
  have hp := hadvances
  rw [advances, Bool.and_eq_true, Bool.not_eq_true'] at hp
  cases h with
  | manyNone _ => rfl
  | manyLast hlast _ =>
    have hprogress := (hlast.progress hp.2).2 hp.1
    omega
  | @manyMore _ _ _ e _ _ _ _ _ hfirst _ hrest =>
    have hprogress := (hfirst.progress hp.2).2 hp.1
    have hrest' := (hrest.progress hadvances).1
    have hskip := Cursor.length_skipUnder gaps e
    omega

/-- A dotted name that is the word `this` or `super` is read as that word. -/
theorem yields_thisOrSuper (h : t.Spans c d) (hr : t.rule = .expressionName) (ht : t.text ∈ ["this", "super"]) :
    (wordOf ["this", "super"]).Yields .atomic c (.matched d []) := by
  obtain ⟨_, start, text, ts⟩ := t
  cases hr
  obtain ⟨us, hbody, hnode⟩ := h.of_rule
  simp only [List.cons.injEq, Tree.node.injEq] at hnode
  cases hbody with
  | @seq _ _ _ _ e _ us₁ us₂ hfirst hmore =>
    replace hfirst : nameSegment.Yields .atomic c (.matched e us₁) := hfirst
    replace hmore : (many (seq (lit ".") nameSegment)).Yields .atomic e (.matched d us₂) := hmore
    obtain ⟨cs, hcs, hadmits⟩ := hfirst.admits rfl
    obtain ⟨cs', hcs', hadmits'⟩ := hmore.admits rfl
    have htext : text.toList = cs ++ cs' := by
      rw [hnode.1.2.2.1, (hcs.trans hcs').textTo, String.toList_ofList]
    -- there is no dot in the word
    obtain ⟨more, -, hmore'⟩ := hadmits'.exists_segments
    have hdot : '.' ∉ text.toList := (by decide : ∀ w ∈ ["this", "super"], '.' ∉ w.toList) text ht
    have hnil : cs' = [] := by
      cases more with
      | nil => exact hmore'
      | cons m more =>
        refine absurd ?_ hdot
        rw [htext, hmore']
        simp
    have hend : d = e := by
      refine eq_of_many_of_length rfl hmore ?_
      rw [hcs'.rest, hnil, List.nil_append]
    rw [hnil, List.append_nil] at htext
    subst hend
    cases hfirst with
    | altFirst hword =>
      cases hword with
      | tight hinner => exact .tight hinner
    | altSecond _ hname =>
      obtain ⟨cs'', hcs'', hadmits''⟩ := hname.admits rfl
      have hkeyword : text ∈ keywords := (by decide : ["this", "super"] ⊆ keywords) ht
      generalize us₁.map Tree.rule = rs at hadmits''
      cases hadmits'' with
      | rule hspells =>
        refine absurd hkeyword ?_
        have hsame : text = String.ofList cs'' := by
          rw [← String.ofList_toList (s := text), htext, ← hcs.textTo, ← hcs''.textTo]
        rw [hsame]
        exact hspells.2

theorem exists_of_expr {e : Expr} (h : Stmt.ofTree t = .ok (.expr e)) :
    ∃ start text t' ts, t = .node .expressionStatement start text (t' :: ts) ∧ Expr.ofTree t' = .ok e := by
  obtain ⟨r, start, text, ts⟩ := t
  unfold Stmt.ofTree at h
  split at h
  case h_1 =>
    rw [expect_bind_eq_ok, Stmt.declaration] at h
    simp only [except_bind_eq_ok, except_pure_eq_ok, reduceCtorEq, and_false, exists_false] at h
  case h_7 =>
    rw [except_bind_eq_ok] at h
    obtain ⟨parts, -, h⟩ := h
    split at h <;> cases h
  case h_8 | h_10 | h_15 =>
    rw [expect_bind_eq_ok] at h
    simp only [except_bind_eq_ok, except_pure_eq_ok, reduceCtorEq, and_false, exists_false] at h
  case h_14 =>
    simp only [Stmt.ofExpr, except_bind_eq_ok, except_pure_eq_ok, Stmt.expr.injEq] at h
    obtain ⟨e', he', rfl⟩ := h
    exact ⟨_, _, _, _, rfl, he'⟩
  all_goals simp only [except_bind_eq_ok, except_pure_eq_ok, reduceCtorEq, and_false, exists_false] at h

theorem exists_of_call {p : Path} {args : List Expr} (hr : t.rule ∈ statementExpressionRules)
    (h : Expr.ofTree t = .ok (.call p args)) :
    ∃ start text m us, t = .node .methodInvocation start text [m, us] ∧ p = Path.ofString m.text := by
  obtain ⟨r, start, text, ts⟩ := t
  replace hr : r ∈ statementExpressionRules := hr
  unfold Expr.ofTree at h
  split at h
  case h_2 =>
    rw [expect_bind_eq_ok] at h
    simp only [except_bind_eq_ok] at h
    obtain ⟨-, op, -, value, -, h⟩ := h
    cases op <;> cases h
  case h_10 | h_11 | h_12 =>
    rw [expect_bind_eq_ok] at h
    simp only [except_bind_eq_ok, except_pure_eq_ok, reduceCtorEq, and_false, exists_false] at h
  case h_14 =>
    rw [expect_bind_eq_ok] at h
    simp only [except_bind_eq_ok, except_pure_eq_ok, Expr.call.injEq] at h
    obtain ⟨-, args', -, rfl, -⟩ := h
    exact ⟨_, _, _, _, rfl, rfl⟩
  case h_16 => simp only [except_bind_eq_ok, except_pure_eq_ok, reduceCtorEq, and_false, exists_false] at h
  all_goals exact absurd hr (by decide)

/-- A call of `this` or `super` at the beginning of a constructor calls another one. -/
theorem yields_explicit (h : t.Spans c d) (hread : Stmt.ofTree t = .ok s) (hs : s.isDelegation = true) :
    ∃ e us, (rule .explicitConstructorInvocation).Yields .free c (.matched e us) := by
  unfold Stmt.isDelegation at hs
  split at hs
  · rename_i x args
    obtain ⟨start, text, t', _, rfl, ht'⟩ := exists_of_expr hread
    obtain ⟨_, _, _, heq, hr, hcall, hend⟩ := (h.body rfl).take_rules statementExpressionRules (by decide)
    cases heq
    obtain ⟨start', text', m, us, rfl, hx⟩ := exists_of_call hr ht'
    obtain ⟨_, _, _, heq, hr', hname, hargs⟩ := (hcall.body rfl).take_rule
    cases heq
    have hx' : m.text = x := by
      have htext := congrArg Path.text hx
      rw [Path.text_ofString] at htext
      exact htext.symm
    have hmem : m.text ∈ ["this", "super"] := by
      rw [hx']
      simpa using hs
    have hwho : (wordOf ["this", "super"]).Yields (Spacing.free.within Rule.thisOrSuper.spacing) c _ :=
      yields_thisOrSuper hname hr' hmem
    exact ⟨_, _, .rule (.seq (.rule hwho) (.seq hargs hend))⟩
  · cases hs

/-- The call of another constructor. -/
theorem writable_of_explicit {who : Delegate} {args : List Expr} (h : t.Spans c d)
    (hr : t.rule = .explicitConstructorInvocation) (hread : Stmt.ofTree t = .ok (.construct who args))
    (hdouble : NoDouble args) : ∀ e ∈ args, e.Writable := by
  obtain ⟨_, start, text, ts⟩ := t
  cases hr
  obtain ⟨w, _, _, rfl, -, -, h₁⟩ := (h.body rfl).take_rule
  obtain ⟨arguments, _, _, rfl, hr, harguments, h₂⟩ := h₁.take_rule
  cases h₂
  obtain ⟨_, start', text', us⟩ := arguments
  cases hr
  intro e he
  rw [Stmt.ofTree, expect_bind_eq_ok] at hread
  simp only [except_bind_eq_ok, except_pure_eq_ok, Stmt.construct.injEq] at hread
  obtain ⟨-, _, -, _, hargs, -, rfl⟩ := hread
  rw [Expr.argumentsOf, expectAll_bind_eq_ok, Expr.listOf_eq] at hargs
  obtain ⟨t, ht, he'⟩ := exists_of_mem_mapM hargs.2 he
  obtain ⟨c', d', hspans⟩ := harguments.children rfl t ht
  exact Expr.writable_of_spans hspans he' (hdouble e he)

/-- The body of a constructor. -/
theorem Stmt.bodyWritable_of_spans {start : Nat} {text : String} {ts : List Tree} {body : List Stmt}
    (h : (Grammar.Tree.node .constructorBody start text ts).Spans c d) (hread : Stmt.listOf ts = .ok body)
    (hdouble : NoDouble (Stmt.exprsAll body)) : Stmt.BodyWritable body := by
  have hfound : ∀ t ∈ ts, Stmt.Found t := (Stmt.found (.node .constructorBody start text ts)).2
  obtain ⟨c₁, h₁⟩ := (h.body rfl).drop_lit
  cases h₁ with
  | @seq _ _ _ _ e _ us vs hfirst hrest =>
    obtain ⟨e', hrest⟩ := hrest.drop_last
    rcases hfirst.of_opt with hfirst | ⟨rfl, rfl, hfailed⟩
    · obtain ⟨t, rfl, hr, ht⟩ := hfirst.spans_rule
      simp only [List.singleton_append, Stmt.listOf, except_bind_eq_ok, except_pure_eq_ok] at hread
      obtain ⟨s, hs, ss, hss, rfl⟩ := hread
      obtain ⟨who, args, rfl⟩ := exists_of_explicit hr hs
      rw [Stmt.exprsAll] at hdouble
      exact .delegating (writable_of_explicit ht hr hs hdouble.left)
        (Stmt.writable_of_listOf (fun t ht => hfound t (.tail _ ht)) hrest hss hdouble.right)
    · refine .plain (Stmt.writable_of_listOf hfound hrest hread hdouble) (fun s hs => ?_)
      by_contra hdelegation
      cases vs with
      | nil =>
        cases hread
        cases hs
      | cons t vs =>
        simp only [List.nil_append, Stmt.listOf, except_bind_eq_ok, except_pure_eq_ok] at hread
        obtain ⟨s', hs', ss, -, rfl⟩ := hread
        cases hs
        obtain ⟨-, e, ht⟩ := hrest.first_of_many (.localVariableDeclarationStatement :: statementRules) (by decide)
        obtain ⟨e', us, hexplicit⟩ := yields_explicit ht hs' (Bool.eq_true_of_not_eq_false hdelegation)
        have hskip : Cursor.skipUnder .free c₁.skip = c₁.skip := c₁.skip_skip
        rw [hskip] at hexplicit
        cases hexplicit.unique hfailed rfl

end Delegation

/-! ### Members and classes -/

section Members

variable {t : Tree} {c d : Cursor}

theorem FieldDecl.writable_of_spans {f : FieldDecl} (h : t.Spans c d) (hr : t.rule = .fieldDeclaration)
    (hread : FieldDecl.ofTree t = .ok f) (hdouble : NoDouble (f.vars.flatMap Declarator.exprs)) : f.Writable := by
  obtain ⟨_, start, text, ts⟩ := t
  cases hr
  obtain ⟨us, vs, e, rfl, hus, h₁⟩ := take_modifiers (h.body rfl)
  obtain ⟨type, ts, e', rfl, hr, htype, h₂⟩ := h₁.take_rule
  obtain ⟨e'', h₃⟩ := h₂.drop_last
  rw [ofTree_eq hus hr (h₃.rule_eq .variableDeclarator rfl)] at hread
  simp only [except_bind_eq_ok, except_pure_eq_ok] at hread
  obtain ⟨ms, -, vars, hvars, rfl⟩ := hread
  obtain ⟨hne, hwritable⟩ := writable_of_declarators h₃ hvars hdouble
  exact ⟨TypeName.writable_of_spans htype hr, hne, hwritable⟩

theorem MethodDecl.writable_of_spans {m : MethodDecl} (h : t.Spans c d) (hr : t.rule = .methodDeclaration)
    (hread : MethodDecl.ofTree t = .ok m) (hdouble : NoDouble (m.body.elim [] Stmt.exprsAll)) : m.Writable := by
  obtain ⟨_, start, text, ts⟩ := t
  cases hr
  obtain ⟨us, vs, e, rfl, hus, h₁⟩ := take_modifiers (h.body rfl)
  obtain ⟨result, _, e₁, rfl, hr₁, hresult, h₂⟩ := h₁.take_rule
  obtain ⟨name, _, e₂, rfl, hr₂, hname, h₃⟩ := h₂.take_rule
  obtain ⟨params, _, e₃, rfl, hr₃, hparams, h₄⟩ := h₃.take_rule
  obtain ⟨last, rfl, hr₄, hlast⟩ := h₄.of_rules [.block, .emptyBody] (by decide)
  rw [ofTree_eq hus hr₁ hr₂ hr₃ hr₄] at hread
  simp only [except_bind_eq_ok, except_pure_eq_ok] at hread
  obtain ⟨ms, -, ps, hps, body, hbody, rfl⟩ := hread
  refine ⟨isResult_of_spans hresult hr₁, spells_of_spans hname hr₂, writable_of_params hparams hr₃ hps,
    fun stmts hstmts => ?_⟩
  unfold methodBodyOf at hbody
  split_ifs at hbody with hr₅
  · obtain ⟨_, start', text', ts⟩ := last
    cases hr₅
    simp only [map_eq_pure_bind, except_bind_eq_ok, except_pure_eq_ok] at hbody
    obtain ⟨stmts', hread, rfl⟩ := hbody
    cases hstmts
    obtain ⟨c₁, h₅⟩ := (hlast.body rfl).drop_lit
    obtain ⟨e', h₆⟩ := h₅.drop_last
    exact Stmt.writable_of_listOf (Stmt.found (.node .block start' text' ts)).2 h₆ hread hdouble
  · rw [except_pure_eq_ok] at hbody
    subst hbody
    cases hstmts

theorem ConstructorDecl.writable_of_spans {k : ConstructorDecl} (h : t.Spans c d)
    (hr : t.rule = .constructorDeclaration) (hread : ConstructorDecl.ofTree t = .ok k)
    (hdouble : NoDouble (Stmt.exprsAll k.body)) : k.Writable := by
  obtain ⟨_, start, text, ts⟩ := t
  cases hr
  obtain ⟨us, vs, e, rfl, hus, h₁⟩ := take_modifiers (h.body rfl)
  obtain ⟨name, _, e₁, rfl, hr₁, hname, h₂⟩ := h₁.take_rule
  obtain ⟨params, _, e₂, rfl, hr₂, hparams, h₃⟩ := h₂.take_rule
  obtain ⟨last, rfl, hr₃, hlast⟩ := h₃.spans_rule
  rw [ofTree_eq hus hr₁ hr₂ hr₃] at hread
  simp only [except_bind_eq_ok, except_pure_eq_ok] at hread
  obtain ⟨ms, -, ps, hps, stmts, hstmts, rfl⟩ := hread
  obtain ⟨_, start', text', ts⟩ := last
  cases hr₃
  exact ⟨spells_of_spans hname hr₁, writable_of_params hparams hr₂ hps,
    Stmt.bodyWritable_of_spans hlast hstmts hdouble⟩

/-- A member that is read from a tree can be written. -/
theorem Member.writable_of_spans {m : Member} (h : t.Spans c d) (hread : Member.ofTree t = .ok m)
    (hdouble : NoDouble m.exprs) : m.Writable := by
  unfold Member.ofTree at hread
  split at hread <;> simp only [except_bind_eq_ok, except_pure_eq_ok, reduceCtorEq] at hread
  · obtain ⟨f, hf, rfl⟩ := hread
    exact FieldDecl.writable_of_spans h ‹_› hf hdouble
  · obtain ⟨m, hm, rfl⟩ := hread
    exact MethodDecl.writable_of_spans h ‹_› hm hdouble
  · obtain ⟨k, hk, rfl⟩ := hread
    exact ConstructorDecl.writable_of_spans h ‹_› hk hdouble

/-- The superclass that a class names. -/
theorem spells_of_superNameOf {name : String} (h : t.Spans c d) (hr : t.rule = .superclass)
    (hread : superNameOf t = .ok name) : Rule.identifier.Spells name.toList := by
  obtain ⟨_, start, text, ts⟩ := t
  cases hr
  obtain ⟨c₁, h₁⟩ := (h.body rfl).drop_word
  obtain ⟨t, rfl, hr, ht⟩ := h₁.spans_rule
  rw [superNameOf, expect_bind_eq_ok, except_pure_eq_ok] at hread
  rw [← hread.2]
  exact spells_of_spans ht hr

/-- A class that is read from a tree can be written. -/
theorem ClassDecl.writable_of_spans {decl : ClassDecl} (h : t.Spans c d) (hr : t.rule = .classDeclaration)
    (hread : ClassDecl.ofTree t = .ok decl) (hdouble : NoDouble (decl.body.flatMap Member.exprs)) : decl.Writable := by
  obtain ⟨_, start, text, ts⟩ := t
  cases hr
  obtain ⟨us, vs, e, rfl, hus, h₁⟩ := take_modifiers (h.body rfl)
  obtain ⟨c₁, h₂⟩ := h₁.drop_word
  obtain ⟨name, _, e₁, rfl, hr, hname, h₃⟩ := h₂.take_rule
  obtain ⟨parent, members, e₂, rfl, hparent, h₄⟩ := h₃.take_opt
  obtain ⟨c₂, h₅⟩ := h₄.drop_lit
  obtain ⟨e₃, h₆⟩ := h₅.drop_last
  rw [ofTree_eq hus hr (fun t ht => (hparent t ht).1) (h₆.rule_mem memberRules rfl)] at hread
  simp only [except_bind_eq_ok, except_pure_eq_ok] at hread
  obtain ⟨ms, -, super, hsuper, body, hbody, rfl⟩ := hread
  refine ⟨spells_of_spans hname hr, fun s hs => ?_, fun m hm => ?_⟩
  · cases hs
    cases parent with
    | none => cases hsuper
    | some parent =>
      obtain ⟨hr', c', d', hspans⟩ := hparent parent rfl
      simp only [Option.mapM_some, map_eq_pure_bind, except_bind_eq_ok, except_pure_eq_ok, Option.some.injEq] at hsuper
      obtain ⟨name', hname', rfl⟩ := hsuper
      exact spells_of_superNameOf hspans hr' hname'
  · obtain ⟨t, ht, hm'⟩ := exists_of_mem_mapM hbody hm
    obtain ⟨c', d', ht'⟩ := h₆.spans t ht
    exact Member.writable_of_spans ht' hm' (hdouble.of_mem hm)

end Members

/-! ### Programs -/

theorem Program.noDouble_of_hasDouble {p : Program} (h : p.hasDouble = false) : NoDouble p.exprs := by
  intro e he
  have hnot := List.any_eq_false.mp h e he
  simpa using hnot

/-- A program that is read from a source and holds no double can be written. -/
theorem Program.writable_of_spans {p : Program} {t : Grammar.Tree} {c d : Cursor} (h : t.Spans c d)
    (hr : t.rule = .compilationUnit) (hread : Program.ofTree t = .ok p)
    (hdouble : NoDouble (p.flatMap (fun d => d.body.flatMap Member.exprs))) : p.Writable := by
  obtain ⟨_, start, text, ts⟩ := t
  cases hr
  cases h.body rfl with
  | seq hstart hrest =>
    cases hstart
    cases hrest with
    | @seq _ _ _ _ _ _ us vs hclasses hend =>
      obtain ⟨last, rfl, hlast, -⟩ := hend.spans_rule
      rw [List.nil_append, ofTree_eq (hclasses.rule_eq .classDeclaration rfl) hlast] at hread
      intro decl hdecl
      obtain ⟨t, ht, hdecl'⟩ := exists_of_mem_mapM hread hdecl
      obtain ⟨c', d', hspans⟩ := hclasses.spans t ht
      exact ClassDecl.writable_of_spans hspans (hclasses.rule_eq .classDeclaration rfl t ht) hdecl' (hdouble.of_mem hdecl)

/-- A program that is read from a source and holds no double can be written. -/
theorem Program.writable_of_parse {source : String} {p : Program} (h : Program.parse source = .ok p)
    (hdouble : p.hasDouble = false) : p.Writable := by
  unfold Program.parse readSource at h
  split at h
  · cases h
  · rename_i t ht
    obtain ⟨hr, d, hspans⟩ := spans_of_parse? ht
    cases hread : Program.ofTree t with
    | error m => simp [hread, Except.mapError] at h
    | ok q =>
      rw [hread] at h
      cases h
      exact Program.writable_of_spans hspans hr hread (Program.noDouble_of_hasDouble hdouble)

/-- Writing a program undoes reading it.  The text of a program that is read from a source and holds no double is read
as the program. -/
theorem program_read_back {source : String} {p : Program} (hparse : Program.parse source = .ok p)
    (hdouble : p.hasDouble = false) : Program.parse p.text = .ok p :=
  Program.parse_text (Program.writable_of_parse hparse hdouble)

/-- Two variables in one declaration, a constructor that calls the one above it, a `for` without the parts of its header,
and an `else` that belongs to the inner `if`. -/
def nestedSource : String :=
  "class A\x7bint x,y=1;A()\x7bsuper(2);\x7dvoid f()\x7bfor(;;)if(x>y)if(b)break;else y=3;\x7d\x7d"

/-- The same class, with a blank between any two tokens. -/
def nestedText : String :=
  "class A \x7b int x , y = 1 ; A ( ) \x7b super ( 2 ) ; \x7d " ++
  "void f ( ) \x7b for ( ; ; ) if ( x > y ) if ( b ) break ; else y = 3 ; \x7d \x7d"

/-- The text of a class that was written without blanks. -/
theorem program_read_back_nested : ∃ p, Program.parse nestedSource = .ok p ∧ p.hasDouble = false ∧
    p.text = nestedText ∧ Program.parse nestedText = .ok p := by
  have hread : (Program.parse nestedSource).toOption.any (fun p => !p.hasDouble && p.text == nestedText) = true := by
    decide +kernel
  obtain ⟨p, hp, htext⟩ := (Option.any_eq_true _ _).mp hread
  simp only [Bool.and_eq_true, Bool.not_eq_true', beq_iff_eq] at htext
  have hparse := eq_ok_of_toOption hp
  exact ⟨p, hparse, htext.1, htext.2, htext.2 ▸ program_read_back hparse htext.1⟩

end StashMachine
