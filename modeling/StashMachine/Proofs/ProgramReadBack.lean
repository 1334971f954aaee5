import StashMachine.Proofs.StmtReadBack
import StashMachine.Proofs.ExprRoundTrip

/-!
# StashMachine.Proofs.ProgramReadBack — programs are read back from their text

* `gives_modifiers`, `gives_params`: the parts of declarations.
* `fails_constructor`, `fails_method`, `fails_explicit`: what a member or the first statement of a constructor is not taken
  for.
* `Member.Writable.gives`, `ClassDecl.Writable.gives`: members and classes are read back from their tokens.
* `AllTokens`, `ClassDecl.Writable.allTokens`: the tokens of a program are tokens.
* `Program.parse_text`: the text of a program that can be written is read as the program.
-/

namespace StashMachine

open Grammar Pattern

/-! ### Modifiers and parameters -/

section Parts

variable {s : List Token} {t : Token}

theorem gives_modifier (m : Modifier) (s : List Token) :
    Gives (rule .modifier) (m.text :: s) s (ReadBy Modifier.ofTree m) := by
  have hleaf : Gives (rule .modifier) (m.text :: s) s (Leaf .modifier m.text) := by
    refine Gives.leaf rfl (fun tail htail => ?_) s
    refine (@takes_words tail m.text ["public", "private", "protected", "static", "final", "native", "abstract"]
      (by decide) ?_ htail.apart).tight
    cases m <;> decide
  refine hleaf.mono ?_
  rintro _ ⟨start, rfl⟩
  exact ⟨_, rfl, by rw [Modifier.ofTree, Tree.text, Modifier.ofString?_text]⟩

theorem gives_modifiers (ms : List Modifier) (hs : Fails (rule .modifier) s) :
    Gives (many (rule .modifier)) (modifierTokens ms ++ s) s
      (fun ts => ts.mapM Modifier.ofTree = .ok ms ∧ ∀ t ∈ ts, t.rule = .modifier) := by
  refine Gives.rule_eq ?_ .modifier rfl
  have hall := gives_many (fun m : Modifier => [m.text]) (fun _ => True) hs trivial (fun _ _ _ => trivial)
    (fun m (_ : m ∈ ms) s' _ => gives_modifier m s')
  rw [← List.map_eq_flatMap] at hall
  exact hall.mono (fun ts hts => mapM_of_each hts)

theorem gives_param {p : Param} (h : p.Writable) (s : List Token) :
    Gives (rule .formalParameter) (p.tokens ++ s) s (ReadBy Param.ofTree p) := by
  have hfinal : Fails (word "final") (p.type.text :: p.name :: s) := Fails.of_leads (h.type.leads _) (by decide)
  have hall := (Gives.optNone hfinal).before ((gives_type h.type _).seq (gives_name h.name s))
  refine (Gives.rule (r := .formalParameter) rfl hall).mono ?_
  rintro _ ⟨start, text, _, rfl, _, _, rfl, ⟨start', rfl⟩, start'', rfl⟩
  refine ⟨_, rfl, ?_⟩
  rw [List.singleton_append, Param.ofTree, expect_bind (by simp), Tree.text, h.type.read]
  rfl

theorem gives_params {ps : List Param} (h : ∀ p ∈ ps, p.Writable) (s : List Token) :
    Gives (rule .formalParameters) (paramTokens ps ++ s) s
      (fun ts => ∃ t, ts = [t] ∧ t.rule = .formalParameters ∧ paramsOf t = .ok ps) := by
  have hcomma : Fails (lit ",") (")" :: s) := Fails.of_lead (leads_symbol ")" s) (by decide)
  have hinside : Gives (opt (separated "," (rule .formalParameter))) (commas (ps.map Param.tokens) ++ ")" :: s)
      (")" :: s) (fun ts => ts.mapM Param.ofTree = .ok ps) := by
    cases ps with
    | nil =>
      have hnone : Fails (rule .formalParameter) (")" :: s) := Fails.of_lead (leads_symbol ")" s) (by decide)
      refine (Gives.optNone hnone.seqFirst).mono ?_
      rintro _ rfl
      rfl
    | cons p ps =>
      exact (gives_separated (Q := ReadBy Param.ofTree) hcomma (gives_lit ",")
        (fun p hp s' _ => gives_param (h p hp) s')).optSome.mono (fun ts hts => mapM_of_each hts)
  rw [paramTokens, bracketed, List.cons_append, List.append_assoc, List.singleton_append]
  refine (Gives.rule (r := .formalParameters) rfl
    ((gives_lit "(" _).before ((hinside.rule_eq .formalParameter rfl).after (gives_lit ")" s)))).mono ?_
  rintro _ ⟨start, text, ts, rfl, hts, hrules⟩
  exact ⟨_, rfl, rfl, by rw [paramsOf, expectAll_bind hrules, hts]⟩

end Parts

/-! ### What members are not taken for -/

section Members

variable {s : List Token} {t : Token}

/-- A result of a method, or the type of a field. -/
def IsResult (type : TypeName) : Prop := type = .void ∨ type.Writable

/-- How types begin, or the word for no result. -/
def resultLeads : List Lead := .word "void" :: typeLeads

theorem IsResult.leads {type : TypeName} (h : IsResult type) (s : List Token) :
    ∃ l ∈ resultLeads, Leads l (type.text :: s) := by
  rcases h with rfl | htype
  · exact ⟨_, .head _, leads_keyword (w := "void") (by decide) s⟩
  · obtain ⟨l, hl, hleads⟩ := htype.leads s
    exact ⟨l, .tail _ hl, hleads⟩

theorem gives_result {type : TypeName} (h : IsResult type) (s : List Token) :
    Gives (rule .resultType) (type.text :: s) s (Leaf .resultType type.text) := by
  refine Gives.leaf rfl (fun tail htail => takes_resultText ?_ htail) s
  rcases h with rfl | htype
  · exact .inl rfl
  · exact .inr htype.text

theorem leads_of_spells (h : Rule.identifier.Spells t.toList) (s : List Token) : Leads .name (t :: s) :=
  leads_name h (List.append_nil _).symm (fun _ _ h => nomatch h) s

/-- What begins with a type and a name is no constructor: behind the name of a constructor a bracket opens. -/
theorem fails_constructor {type : TypeName} (htype : IsResult type) (ht : Rule.identifier.Spells t.toList)
    (ms : List Modifier) (s : List Token) :
    Fails (rule .constructorDeclaration) (modifierTokens ms ++ type.text :: t :: s) := by
  have hmodifiers := gives_modifiers ms (Fails.of_leads (htype.leads (t :: s)) (by decide))
  refine Fails.rule rfl (.seqSecond hmodifiers ?_)
  have hparams : Fails (rule .formalParameters) (t :: s) := Fails.of_lead (leads_of_spells ht s) (by decide)
  rcases htype with rfl | htype
  · exact (Fails.of_lead (leads_keyword (w := "void") (by decide) _) (by decide)).seqFirst
  · obtain ⟨w, hw, htext⟩ := htype.text
    rcases hw with hprimitive | hname
    · have hkeyword : String.ofList w ∈ keywords := (by decide : primitiveWords ⊆ keywords) hprimitive
      have hleads : Leads (.word (String.ofList w)) (type.text :: t :: s) := by
        rcases htext with htext | htext
        · rw [← htext, String.ofList_toList] at hkeyword ⊢
          exact leads_keyword hkeyword _
        · exact leads_word hkeyword (by rw [htext, String.toList_ofList]) apart_brackets _
      have hfails : ∀ w ∈ primitiveWords, (rule .identifier).failsAt [.word w] = true := by decide
      exact (Fails.of_lead hleads (hfails _ hprimitive)).seqFirst
    · rcases htext with htext | htext
      · have hclass : Gives (rule .identifier) (type.text :: t :: s) (t :: s) _ := gives_name (htext ▸ hname) _
        exact .seqSecond hclass hparams.seqFirst
      · -- the brackets of an array type are left
        have hclass : Gives (rule .identifier) (type.text :: t :: s) ("[]" :: t :: s)
            (Leaf .identifier (String.ofList w)) := by
          refine Gives.leafPart rfl (by rw [htext, String.toList_ofList]; rfl) (by decide) (fun tail => ?_) _
          rw [String.toList_ofList]
          exact takes_identifier hname apart_brackets
        have hbrackets : Fails (rule .formalParameters) ("[]" :: t :: s) :=
          Fails.of_lead (leads_symbol "[]" _) (by decide)
        exact .seqSecond hclass hbrackets.seqFirst

/-- What follows the first variable of a field. -/
theorem Declarator.exists_follower (d : Declarator) (ds : List Declarator) (s : List Token) :
    ∃ u ∈ ["=", ",", ";"], ∃ us, commas ((d :: ds).map Declarator.tokens) ++ ";" :: s = d.name :: u :: us := by
  obtain ⟨name, init⟩ := d
  cases init with
  | some e => exact ⟨"=", .head _, _, rfl⟩
  | none =>
    cases ds with
    | nil => exact ⟨";", by decide, _, rfl⟩
    | cons d' ds => exact ⟨",", by decide, _, rfl⟩

/-- A field is no method: behind the name of a method a bracket opens. -/
theorem fails_method {type : TypeName} (htype : type.Writable) {vars : List Declarator} (hne : vars ≠ [])
    (hvars : ∀ v ∈ vars, v.Writable) (ms : List Modifier) (s : List Token) :
    Fails (rule .methodDeclaration)
      (modifierTokens ms ++ type.text :: (commas (vars.map Declarator.tokens) ++ ";" :: s)) := by
  have hresult : IsResult type := .inr htype
  have hmodifiers := gives_modifiers ms (Fails.of_leads (hresult.leads (commas (vars.map Declarator.tokens) ++ ";" :: s))
    (by decide))
  refine Fails.rule rfl (.seqSecond hmodifiers (.seqSecond (gives_result hresult _) ?_))
  cases vars with
  | nil => exact absurd rfl hne
  | cons v vars =>
    obtain ⟨u, hu, us, htokens⟩ := v.exists_follower vars s
    have hfails : ∀ u ∈ ["=", ",", ";"], (rule .formalParameters).failsAt [.symbol u] = true := by decide
    have hparams : Fails (rule .formalParameters) (u :: us) := Fails.of_lead (leads_symbol u us) (hfails u hu)
    rw [htokens]
    exact .seqSecond (gives_name (hvars v (.head _)).name _) hparams.seqFirst

/-- A dotted name is not taken for the call of a constructor, unless arguments follow `this` or `super`. -/
theorem fails_explicit_of_dotted (h : IsDotted t.toList)
    (hs : t ∈ ["this", "super"] → Fails (rule .arguments) s) : Fails (rule .explicitConstructorInvocation) (t :: s) := by
  obtain ⟨w, hw, heq⟩ := h.first
  rcases hw with hword | hname
  · rw [String.ofList_toList] at hword
    rcases heq with rfl | ⟨v, cs, ht, hv⟩
    · have hwho : Gives (rule .thisOrSuper) (t :: s) s (Leaf .thisOrSuper t) :=
        Gives.leaf (r := .thisOrSuper) rfl (fun tail htail => (takes_words (by decide) hword htail.apart).tight) s
      exact Fails.rule rfl (.seqSecond hwho (hs hword).seqFirst)
    · have hwho : Gives (rule .thisOrSuper) (t :: s) (v :: s) (Leaf .thisOrSuper w) :=
        Gives.leafPart (r := .thisOrSuper) rfl ht (isToken_of_dot hv)
          (fun tail => (takes_words (by decide) hword (apart_of_dot hv)).tight) s
      have hdot : Fails (rule .arguments) (v :: s) :=
        Fails.of_lead (leads_among hv (List.mem_singleton_self '.') s) (by decide)
      exact Fails.rule rfl (.seqSecond hwho hdot.seqFirst)
  · have hleads : Leads .name (t :: s) := by
      rcases heq with rfl | ⟨v, cs, ht, hv⟩
      · exact leads_of_spells hname s
      · exact leads_name hname ht (List.append_nil v.toList ▸ apart_of_dot hv) s
    exact Fails.of_lead hleads (by decide)

/-- An expression that is no plain call of `this` or `super` does not call a constructor. -/
theorem Expr.Writable.fails_explicit {e : Expr} (he : e.Writable) (h : e.isStatement = true)
    (hnot : (Stmt.expr e).isDelegation = false) (s : List Token) :
    Fails (rule .explicitConstructorInvocation) (e.tokens ++ s) := by
  rcases Expr.tokens_of_isStatement he.proper h with ⟨p, u, us, hp, hu, hcall, htokens⟩ | ⟨u, us, hu, htokens⟩
  · have hfails : ∀ u ∈ nameFollowers, u ≠ "(" → (rule .arguments).failsAt [.symbol u] = true := by decide
    rw [htokens]
    refine fails_explicit_of_dotted hp.dotted (fun hmem => Fails.of_lead (leads_symbol u _) (hfails u hu (fun hu => ?_)))
    obtain ⟨args, rfl⟩ := hcall hu
    have hread := hp.read
    simp only [List.mem_cons, List.not_mem_nil, or_false] at hmem
    rcases hmem with htext | htext
    · rw [htext] at hread
      subst hread
      cases hnot
    · rw [htext] at hread
      subst hread
      cases hnot
  · rw [htokens]
    simp only [List.mem_cons, List.not_mem_nil, or_false] at hu
    rcases hu with rfl | rfl | rfl
    · exact Fails.of_lead (leads_keyword (by decide) _) (by decide)
    · exact Fails.of_lead (leads_symbol "++" _) (by decide)
    · exact Fails.of_lead (leads_symbol "--" _) (by decide)

/-- A statement that is no plain call of `this` or `super` does not call a constructor. -/
theorem Stmt.Writable.fails_explicit {first : Stmt} (h : first.Writable) (hnot : first.isDelegation = false)
    (s : List Token) : Fails (rule .explicitConstructorInvocation) (first.tokens ++ s) := by
  cases hexpr : first.isExpr with
  | false => exact Fails.of_leads (h.readBack.plain hexpr s) (by decide)
  | true =>
    cases h with
    | expr he hstatement =>
      rw [Stmt.tokens, List.append_assoc]
      exact he.fails_explicit hstatement hnot _
    | _ => cases hexpr

end Members

/-! ### Members -/

/-- The body of a constructor. -/
theorem gives_constructorBody {body : List Stmt} (h : Stmt.BodyWritable body) (s : List Token) :
    Gives (rule .constructorBody) ((Stmt.block body).tokens ++ s) s
      (Node .constructorBody (fun ts => Stmt.listOf ts = .ok body)) := by
  have hends : ∃ l ∈ bodyEnds, Leads l ("\x7d" :: s) := ⟨_, .head _, leads_symbol _ s⟩
  have hinside : Gives (seq (opt (rule .explicitConstructorInvocation)) (seq (many blockStatement) (lit "\x7d")))
      (Stmt.tokensAll body ++ "\x7d" :: s) s (fun ts => Stmt.listOf ts = .ok body) := by
    cases h with
    | plain hbody hfirst =>
      have hreadBack : ∀ s ∈ body, s.ReadBack := fun s hs => (hbody s hs).readBack
      have hnone : Fails (rule .explicitConstructorInvocation) (Stmt.tokensAll body ++ "\x7d" :: s) := by
        cases body with
        | nil => exact Fails.of_lead (leads_symbol "\x7d" s) (by decide)
        | cons first body =>
          rw [Stmt.tokensAll, List.append_assoc]
          exact (hbody first (.head _)).fails_explicit (hfirst first rfl) _
      have hall := (Gives.optNone hnone).before ((Stmt.gives_body hreadBack hends).after (gives_lit "\x7d" s))
      exact hall.mono (fun ts hts => (Stmt.listOf_eq ts).trans (mapM_of_each hts))
    | @delegating who args body hargs hbody =>
      have hreadBack : ∀ s ∈ body, s.ReadBack := fun s hs => (hbody s hs).readBack
      have hwho : ∀ s, Gives (rule .thisOrSuper) (who.text :: s) s (Leaf .thisOrSuper who.text) := by
        intro s
        refine Gives.leaf (r := .thisOrSuper) rfl (fun tail htail => ?_) s
        exact (takes_words (by decide) (by cases who <;> decide) htail.apart).tight
      have harguments := gives_arguments (isOperand_of_writable hargs)
        (";" :: (Stmt.tokensAll body ++ "\x7d" :: s))
      rw [map_fst_pairs, map_snd_pairs] at harguments
      have hcall := Gives.rule (r := .explicitConstructorInvocation) rfl
        ((hwho _).seq (harguments.after (gives_lit ";" _)))
      have hall := hcall.optSome.seq ((Stmt.gives_body hreadBack hends).after (gives_lit "\x7d" s))
      rw [Stmt.tokensAll, Stmt.tokens, List.cons_append, List.append_assoc, List.cons_append, List.append_assoc,
        List.singleton_append]
      refine hall.mono ?_
      rintro _ ⟨_, ts, rfl, ⟨start, text, _, rfl, _, _, rfl, ⟨start', rfl⟩, args', rfl, hr, hargs'⟩, hts⟩
      have hrest : Stmt.listOf ts = .ok body := (Stmt.listOf_eq ts).trans (mapM_of_each hts)
      rw [List.singleton_append, List.singleton_append, Stmt.listOf, Stmt.ofTree, expect_bind (by simp [hr]), hargs',
        hrest]
      cases who <;> rfl
  rw [Stmt.tokens, List.cons_append, List.append_assoc, List.singleton_append]
  exact Gives.rule rfl ((gives_lit "\x7b" _).before hinside)

section Members

variable {s : List Token}

theorem FieldDecl.Writable.gives {f : FieldDecl} (h : f.Writable) (s : List Token) :
    Gives member (f.tokens ++ s) s (ReadBy Member.ofTree (.field f)) := by
  have htype : IsResult f.type := .inr h.type
  have hmodifiers := gives_modifiers f.modifiers
    (Fails.of_leads (htype.leads (commas (f.vars.map Declarator.tokens) ++ ";" :: s)) (by decide))
  have hall := hmodifiers.seq ((gives_type h.type _).seq ((gives_declarators h.some h.vars s).after (gives_lit ";" s)))
  have hconstructor : Fails (rule .constructorDeclaration)
      (modifierTokens f.modifiers ++ f.type.text :: (commas (f.vars.map Declarator.tokens) ++ ";" :: s)) := by
    cases hvars : f.vars with
    | nil => exact absurd hvars h.some
    | cons v vars =>
      obtain ⟨u, -, us, htokens⟩ := v.exists_follower vars s
      rw [htokens]
      exact fails_constructor htype (h.vars v (hvars ▸ .head _)).name _ _
  have hmethod := fails_method h.type h.some h.vars f.modifiers s
  have hrule := Gives.rule (r := .fieldDeclaration) rfl hall
  rw [FieldDecl.tokens, List.append_assoc, List.cons_append, List.append_assoc, List.singleton_append]
  refine (Gives.altSecond hconstructor (.altSecond hmethod hrule.altFirst)).mono ?_
  rintro _ ⟨start, text, _, rfl, us, _, rfl, ⟨hms, hus⟩, _, ts, rfl, ⟨start', rfl⟩, hvars, hts⟩
  refine ⟨_, rfl, ?_⟩
  rw [List.singleton_append, Member.ofTree, Tree.rule_node]
  dsimp only
  rw [FieldDecl.ofTree_eq hus rfl hts, hms, hvars, Tree.text, h.type.read]
  rfl

theorem MethodDecl.Writable.gives {m : MethodDecl} (h : m.Writable) (s : List Token) :
    Gives member (m.tokens ++ s) s (ReadBy Member.ofTree (.method m)) := by
  have hresult : IsResult m.result := h.result
  have hread : TypeName.ofString m.result.text = m.result := by
    rcases h.result with hvoid | htype
    · rw [hvoid]
      rfl
    · exact htype.read
  -- a block, or a semicolon in its place
  have hbody : Gives (alt (rule .block) (rule .emptyBody))
      (m.body.elim [";"] (fun body => (Stmt.block body).tokens) ++ s) s
      (fun ts => ∃ last, ts = [last] ∧ last.rule ∈ [Rule.block, .emptyBody] ∧ methodBodyOf last = .ok m.body) := by
    cases hm : m.body with
    | none =>
      have hblock : Fails (rule .block) (";" :: s) := Fails.of_lead (leads_symbol ";" s) (by decide)
      refine (Gives.altSecond hblock (Gives.rule (r := .emptyBody) rfl (gives_lit ";" s))).mono ?_
      rintro _ ⟨start, text, us, rfl, -⟩
      exact ⟨_, rfl, by simp, rfl⟩
    | some body =>
      have hblock := Stmt.gives_block (fun s hs => (h.body body hm s hs).readBack) s
      refine hblock.altFirst.mono ?_
      rintro _ ⟨start, text, us, rfl, hus⟩
      exact ⟨_, rfl, by simp, by rw [methodBodyOf, Tree.rule_node, if_pos rfl, Tree.children, hus]; rfl⟩
  have hall := (gives_modifiers m.modifiers (Fails.of_leads (hresult.leads _) (by decide))).seq
    ((gives_result hresult _).seq ((gives_name h.name _).seq ((gives_params h.params _).seq hbody)))
  have hconstructor := fails_constructor hresult h.name m.modifiers
    (paramTokens m.params ++ (m.body.elim [";"] (fun body => (Stmt.block body).tokens) ++ s))
  have hrule := Gives.rule (r := .methodDeclaration) rfl hall
  rw [MethodDecl.tokens, List.append_assoc, List.cons_append, List.cons_append, List.append_assoc]
  refine (Gives.altSecond hconstructor hrule.altFirst).mono ?_
  rintro _ ⟨start, text, _, rfl, us, _, rfl, ⟨hms, hus⟩, _, _, rfl, ⟨start₁, rfl⟩, _, _, rfl, ⟨start₂, rfl⟩, _, _,
    rfl, ⟨params, rfl, hr, hps⟩, last, rfl, hlast, hbody⟩
  refine ⟨_, rfl, ?_⟩
  simp only [List.singleton_append]
  rw [Member.ofTree, Tree.rule_node]
  dsimp only
  rw [MethodDecl.ofTree_eq hus rfl rfl hr hlast, hms, hps, hbody, Tree.text, Tree.text, hread]
  rfl

theorem ConstructorDecl.Writable.gives {k : ConstructorDecl} (h : k.Writable) (s : List Token) :
    Gives member (k.tokens ++ s) s (ReadBy Member.ofTree (.constructor k)) := by
  have hmodifier : Fails (rule .modifier) (k.name :: (paramTokens k.params ++ ((Stmt.block k.body).tokens ++ s))) :=
    Fails.of_lead (leads_of_spells h.name _) (by decide)
  have hall := (gives_modifiers k.modifiers hmodifier).seq
    ((gives_name h.name _).seq ((gives_params h.params _).seq (gives_constructorBody h.body s)))
  rw [ConstructorDecl.tokens, List.append_assoc, List.cons_append, List.append_assoc]
  refine (Gives.rule (r := .constructorDeclaration) rfl hall).altFirst.mono ?_
  rintro _ ⟨start, text, _, rfl, us, _, rfl, ⟨hms, hus⟩, _, _, rfl, ⟨start₁, rfl⟩, _, _, rfl, ⟨params, rfl, hr, hps⟩,
    start₃, text₃, vs, rfl, hvs⟩
  refine ⟨_, rfl, ?_⟩
  simp only [List.singleton_append]
  rw [Member.ofTree, Tree.rule_node]
  dsimp only
  rw [ConstructorDecl.ofTree_eq hus rfl hr rfl, hms, hps, Tree.children, hvs]
  rfl

/-- A member that can be written is read back. -/
theorem Member.Writable.gives {m : Member} (h : m.Writable) (s : List Token) :
    Gives member (m.tokens ++ s) s (ReadBy Member.ofTree m) := by
  cases m with
  | field f => exact FieldDecl.Writable.gives h s
  | method d => exact MethodDecl.Writable.gives h s
  | constructor k => exact ConstructorDecl.Writable.gives h s

end Members

/-! ### Classes -/

/-- A superclass, which may be missing. -/
theorem gives_superclass {superclass : Option String} (h : ∀ name ∈ superclass, Rule.identifier.Spells name.toList)
    (s : List Token) : Gives (opt (rule .superclass)) (superclass.elim [] (fun name => ["extends", name]) ++ "\x7b" :: s)
      ("\x7b" :: s) (fun ts => ∃ parent : Option Tree, ts = parent.toList ∧ (∀ t ∈ parent, t.rule = .superclass) ∧
        parent.mapM superNameOf = .ok superclass) := by
  cases superclass with
  | none =>
    have hnone : Fails (rule .superclass) ("\x7b" :: s) := Fails.of_lead (leads_symbol "\x7b" _) (by decide)
    refine (Gives.optNone hnone).mono ?_
    rintro _ rfl
    exact ⟨none, rfl, nofun, rfl⟩
  | some name =>
    have hall := (gives_word (w := "extends") (by decide) _).before (gives_name (h name rfl) ("\x7b" :: s))
    refine (Gives.rule (r := .superclass) rfl hall).optSome.mono ?_
    rintro _ ⟨start, text, _, rfl, start', rfl⟩
    refine ⟨some _, rfl, fun t ht => ?_, ?_⟩
    · cases ht
      rfl
    · rw [Option.mapM_some, superNameOf, expect_bind (by simp)]
      rfl

theorem ClassDecl.Writable.gives {d : ClassDecl} (h : d.Writable) (s : List Token) :
    Gives (rule .classDeclaration) (d.tokens ++ s) s (ReadBy ClassDecl.ofTree d) := by
  obtain ⟨modifiers, name, superclass, body⟩ := d
  have hclass : ∀ s, Leads (.word "class") ("class" :: s) := leads_keyword (by decide)
  have hmembers := gives_many (p := member) (Q := ReadBy Member.ofTree) Member.tokens (fun _ => True)
    (Fails.of_lead (leads_symbol "\x7d" s) (by decide)) trivial (fun _ _ _ => trivial)
    (fun m hm s' _ => (h.body m hm).gives s')
  have hbody := (gives_lit "\x7b" _).before ((hmembers.rule_mem memberRules rfl).after (gives_lit "\x7d" s))
  have hfront := fun s => gives_modifiers modifiers (s := "class" :: s) (Fails.of_lead (hclass s) (by decide))
  have hword : ∀ s, Gives (word "class") ("class" :: s) s Bare := gives_word (by decide)
  have hall := (hfront _).seq ((hword _).before ((gives_name h.name _).seq ((gives_superclass h.superclass _).seq hbody)))
  simp only [ClassDecl.tokens, List.append_assoc, List.cons_append]
  refine (Gives.rule (r := .classDeclaration) rfl hall).mono ?_
  rintro _ ⟨start, text, _, rfl, us, _, rfl, ⟨hms, hus⟩, _, _, rfl, ⟨start', rfl⟩, _, ts, rfl, ⟨parent, rfl, hr, hparent⟩,
    hts, hrules⟩
  refine ⟨_, rfl, ?_⟩
  rw [List.singleton_append, ofTree_eq hus rfl hr hrules, hms, hparent, mapM_of_each hts]
  rfl

/-! ### Tokens -/

/-- All of them are tokens. -/
def AllTokens (us : List Token) : Prop := ∀ t ∈ us, isToken t = true

section AllTokens

variable {us vs : List Token} {t : Token}

theorem AllTokens.nil : AllTokens [] := nofun

theorem AllTokens.cons (ht : isToken t = true) (h : AllTokens us) : AllTokens (t :: us) :=
  List.forall_mem_cons.mpr ⟨ht, h⟩

theorem AllTokens.append (hus : AllTokens us) (hvs : AllTokens vs) : AllTokens (us ++ vs) :=
  List.forall_mem_append.mpr ⟨hus, hvs⟩

theorem AllTokens.flatMap {α : Type} {xs : List α} {text : α → List Token} (h : ∀ x ∈ xs, AllTokens (text x)) :
    AllTokens (xs.flatMap text) := by
  intro t ht
  obtain ⟨x, hx, ht⟩ := List.mem_flatMap.mp ht
  exact h x hx t ht

theorem AllTokens.commas {α : Type} {xs : List α} {text : α → List Token} (h : ∀ x ∈ xs, AllTokens (text x)) :
    AllTokens (commas (xs.map text)) := by
  refine forall_mem_commas (fun us hus => ?_)
  obtain ⟨x, hx, rfl⟩ := List.mem_map.mp hus
  exact h x hx

theorem AllTokens.bracketed (h : AllTokens us) : AllTokens (bracketed us) := forall_mem_bracketed h

theorem Expr.Writable.allTokens {e : Expr} (h : e.Writable) : AllTokens e.tokens :=
  Expr.isToken_of_written h.proper (Expr.written_tokens h.proper h.noDouble)

theorem TypeName.Writable.isToken {type : TypeName} (h : type.Writable) : isToken type.text = true := by
  obtain ⟨w, hw, ht | ht⟩ := h.text
  · exact isToken_of_isTypeWord hw (ht.trans (List.append_nil w).symm)
  · exact isToken_of_isTypeWord hw ht

theorem Declarator.Writable.allTokens {d : Declarator} (h : d.Writable) : AllTokens d.tokens := by
  obtain ⟨name, init⟩ := d
  cases init with
  | none => exact .cons (isToken_of_spells h.name) .nil
  | some e => exact .cons (isToken_of_spells h.name) (.cons (by decide) (h.init e rfl).allTokens)

theorem Label.Writable.allTokens {l : Label} (h : l.Writable) : AllTokens l.tokens := by
  cases l with
  | case e => exact .cons (by decide) (.append (Expr.Writable.allTokens h) (.cons (by decide) .nil))
  | otherwise => exact .cons (by decide) (.cons (by decide) .nil)

namespace Stmt

theorem allTokens_all {body : List Stmt} (h : ∀ s ∈ body, AllTokens s.tokens) : AllTokens (tokensAll body) := by
  rw [tokensAll_eq]
  exact .flatMap h

theorem Writable.headTokens_allTokens {s : Stmt} (h : s.Writable) : AllTokens s.headTokens := by
  cases h with
  | declare htype _ hvars => exact .cons htype.isToken (.commas (fun v hv => (hvars v hv).allTokens))
  | expr he _ => exact he.allTokens
  | _ => exact .nil

theorem allTokens_arms {arms : List (Arm Stmt)} (hlabels : ∀ arm ∈ arms, arm.labels ≠ [] ∧ ∀ l ∈ arm.labels, l.Writable)
    (hbody : ∀ arm ∈ arms, ∀ s ∈ arm.body, AllTokens s.tokens) : AllTokens (armsTokens arms) := by
  induction arms with
  | nil => exact .nil
  | cons arm arms ih =>
    have hrest := ih (fun a ha => hlabels a (.tail _ ha)) (fun a ha => hbody a (.tail _ ha))
    have hfirst : AllTokens (arm.labels.flatMap Label.tokens) :=
      .flatMap (fun l hl => Label.Writable.allTokens ((hlabels arm (.head _)).2 l hl))
    exact .append hfirst (.append (allTokens_all (hbody arm (.head _))) hrest)

/-- The tokens of a statement are tokens. -/
theorem Writable.allTokens {s : Stmt} (h : s.Writable) : AllTokens s.tokens := by
  have hoption : ∀ {value : Option Expr}, (∀ e ∈ value, e.Writable) → AllTokens (value.elim [] Expr.tokens) := by
    intro value hvalue
    cases value with
    | none => exact .nil
    | some e => exact (hvalue e rfl).allTokens
  have hend : AllTokens [";"] := .cons (by decide) .nil
  induction h with
  | block _ ih => exact .cons (by decide) (.append (allTokens_all ih) (.cons (by decide) .nil))
  | declare htype _ hvars =>
    exact .cons htype.isToken (.append (.commas (fun v hv => (hvars v hv).allTokens)) hend)
  | expr he _ => exact .append he.allTokens hend
  | ret hvalue => exact .cons (by decide) (.append (hoption hvalue) hend)
  | ite hc _ _ ih => exact .cons (by decide) (.append hc.allTokens.bracketed (.append ih .nil))
  | iteElse hc _ _ _ _ _ ih ih' =>
    exact .cons (by decide) (.append hc.allTokens.bracketed (.append ih (.cons (by decide) ih')))
  | loop hc _ _ ih => exact .cons (by decide) (.append hc.allTokens.bracketed ih)
  | forLoop hinit _ hc hupdate _ _ _ _ _ ih =>
    have hlast := AllTokens.append (.commas (fun s hs => (hupdate s hs).headTokens_allTokens))
      (.cons (t := ")") (by decide) ih)
    have hmiddle := (hoption hc).append (.cons (t := ";") (by decide) hlast)
    have hfirst := AllTokens.append (.commas (fun s hs => (hinit s hs).headTokens_allTokens))
      (.cons (t := ";") (by decide) hmiddle)
    exact .cons (by decide) (.cons (by decide) hfirst)
  | switch he hlabels _ _ ih =>
    have hgroups := (allTokens_arms hlabels ih).append (.cons (t := "\x7d") (by decide) .nil)
    exact .cons (by decide) (.append he.allTokens.bracketed (.cons (by decide) hgroups))
  | breakOut => exact .cons (by decide) hend
  | continueLoop => exact .cons (by decide) hend
  | empty => exact hend

/-- The tokens of a block are tokens. -/
theorem allTokens_block {body : List Stmt} (h : ∀ s ∈ body, AllTokens s.tokens) : AllTokens (block body).tokens :=
  .cons (by decide) (.append (allTokens_all h) (.cons (by decide) .nil))

theorem BodyWritable.allTokens {body : List Stmt} (h : BodyWritable body) : AllTokens (block body).tokens := by
  refine allTokens_block (fun s hs => ?_)
  cases h with
  | plain hbody _ => exact (hbody s hs).allTokens
  | @delegating who args body hargs hbody =>
    rcases List.mem_cons.mp hs with rfl | hs
    · have harguments : AllTokens (bracketed (commas (args.map Expr.tokens))) :=
        AllTokens.bracketed (.commas (fun e he => (hargs e he).allTokens))
      exact .cons (by cases who <;> decide) (harguments.append (.cons (by decide) .nil))
    · exact (hbody s hs).allTokens

end Stmt

theorem allTokens_modifiers (ms : List Modifier) : AllTokens (modifierTokens ms) := by
  intro t ht
  obtain ⟨m, -, rfl⟩ := List.mem_map.mp ht
  cases m <;> decide

theorem allTokens_params {ps : List Param} (h : ∀ p ∈ ps, p.Writable) : AllTokens (paramTokens ps) :=
  AllTokens.bracketed (.commas (fun p hp => .cons (h p hp).type.isToken (.cons (isToken_of_spells (h p hp).name) .nil)))

theorem IsResult.isToken {type : TypeName} (h : IsResult type) : isToken type.text = true := by
  rcases h with rfl | htype
  · decide
  · exact htype.isToken

/-- The tokens of a member are tokens. -/
theorem Member.Writable.allTokens {m : Member} (h : m.Writable) : AllTokens m.tokens := by
  cases m with
  | field f =>
    have hvars : AllTokens (commas (f.vars.map Declarator.tokens)) := .commas (fun v hv => (h.vars v hv).allTokens)
    exact (allTokens_modifiers _).append (.cons h.type.isToken (hvars.append (.cons (by decide) .nil)))
  | method d =>
    have hbody : AllTokens (d.body.elim [";"] (fun body => (Stmt.block body).tokens)) := by
      cases hd : d.body with
      | none => exact .cons (by decide) .nil
      | some body => exact Stmt.allTokens_block (fun s hs => (h.body body hd s hs).allTokens)
    refine (allTokens_modifiers _).append (.cons (IsResult.isToken h.result) (.cons (isToken_of_spells h.name) ?_))
    exact (allTokens_params h.params).append hbody
  | constructor k =>
    refine (allTokens_modifiers _).append (.cons (isToken_of_spells h.name) ?_)
    exact (allTokens_params h.params).append h.body.allTokens

/-- The tokens of a class are tokens. -/
theorem ClassDecl.Writable.allTokens {d : ClassDecl} (h : d.Writable) : AllTokens d.tokens := by
  have hsuper : AllTokens (d.superclass.elim [] (fun s => ["extends", s])) := by
    cases hd : d.superclass with
    | none => exact .nil
    | some s => exact .cons (by decide) (.cons (isToken_of_spells (h.superclass s hd)) .nil)
  have hbody : AllTokens (d.body.flatMap Member.tokens) := .flatMap (fun m hm => (h.body m hm).allTokens)
  refine (allTokens_modifiers _).append (.cons (by decide) (.cons (isToken_of_spells h.name) ?_))
  exact hsuper.append (.cons (by decide) (hbody.append (.cons (by decide) .nil)))

end AllTokens

/-- The text of a program that can be written is read as the program. -/
theorem Program.parse_text {p : Program} (h : p.Writable) : Program.parse p.text = .ok p := by
  have hnone : Fails (rule .classDeclaration) [] := Fails.of_lead leads_nil (by decide)
  have hclasses := gives_many (Q := ReadBy ClassDecl.ofTree) ClassDecl.tokens (fun _ => True) hnone trivial
    (fun _ _ _ => trivial) (fun d hd s' _ => (h d hd).gives s')
  rw [List.append_nil] at hclasses
  have htokens : AllTokens p.tokens := .flatMap (fun d hd => (h d hd).allTokens)
  obtain ⟨start, text, ts, last, hparse, hts, hlast⟩ :=
    parse?_of_gives (r := .compilationUnit) rfl rfl (hclasses.rule_eq .classDeclaration rfl) htokens
      (laid_intercalate p.tokens)
  have hread : Program.ofTree (.node .compilationUnit start text (ts ++ [last])) = .ok p := by
    rw [Program.ofTree_eq hts.2 hlast, mapM_of_each hts.1]
  rw [Program.parse, readSource, Program.text, hparse]
  simp only [hread, Except.mapError]

end StashMachine
