import StashMachine.Proofs.ReadBack
import StashMachine.Proofs.ProgramText

/-!
# StashMachine.Proofs.StmtReadBack — statements are read back from their tokens

* `ReadBy f x`: one tree, which is read as a value; `gives_many`, `mapM_of_each`: lists of such trees.
* `Expr.Writable.gives_statement`, `fails_declaration`: expressions that stand as statements, which are not taken for
  declarations.
* `Stmt.ReadBack s`: in front of what may follow, the tokens of a statement are read as the statement.
* `Stmt.Writable.readBack`: a statement that can be written is read back.
-/

namespace StashMachine

open Grammar Pattern

/-! ### Lists of trees -/

section Lists

variable {α : Type} {f : Tree → Reading α} {p : Pattern} {Q : α → List Tree → Prop} {s : List Token} {xs : List α}
  {ts : List Tree}

/-- One tree, which is read as a value. -/
def ReadBy (f : Tree → Reading α) (x : α) (ts : List Tree) : Prop := ∃ t, ts = [t] ∧ f t = .ok x

theorem mapM_of_each (h : Each (ReadBy f) xs ts) : ts.mapM f = .ok xs := by
  induction xs generalizing ts with
  | nil =>
    obtain rfl := h
    rfl
  | cons x xs ih =>
    obtain ⟨_, ts', rfl, ⟨t, rfl, ht⟩, hts'⟩ := h
    rw [List.singleton_append, List.mapM_cons, ht, ih hts']
    rfl

/-- The members of a list one after the other.  Each is read in front of what may follow it: the end of the list, or
the next member. -/
theorem gives_many (text : α → List Token) (N : List Token → Prop) (hend : Fails p s) (hs : N s)
    (hnext : ∀ x ∈ xs, ∀ s', N (text x ++ s')) (hxs : ∀ x ∈ xs, ∀ s', N s' → Gives p (text x ++ s') s' (Q x)) :
    Gives (many p) (xs.flatMap text ++ s) s (Each Q xs) := by
  induction xs with
  | nil => exact .manyNone hend
  | cons x xs ih =>
    have hrest := ih (fun y hy => hnext y (.tail _ hy)) (fun y hy => hxs y (.tail _ hy))
    have hfollow : N (xs.flatMap text ++ s) := by
      cases xs with
      | nil => exact hs
      | cons y ys =>
        rw [List.flatMap_cons, List.append_assoc]
        exact hnext y (.tail _ (.head _)) _
    rw [List.flatMap_cons, List.append_assoc]
    exact (hxs x (.head _) _ hfollow).manyMore hrest

end Lists

theorem Expr.tokensAll_eq (es : List Expr) : Expr.tokensAll es = es.map Expr.tokens := by
  induction es with
  | nil => rfl
  | cons e es ih => rw [Expr.tokensAll, ih, List.map_cons]

/-! ### Expressions -/

section Expressions

variable {e : Expr} {s : List Token} {t : Token}

/-- The tokens of an expression are read as the expression. -/
theorem Expr.Writable.isOperand (h : e.Writable) : IsOperand 0 e e.tokens :=
  (Expr.readable h.proper (Expr.written_tokens h.proper h.noDouble)).operand 0 (Nat.zero_le _)

theorem Expr.Writable.gives (h : e.Writable) (ht : t ∈ enders 0) (s : List Token) :
    Gives (rule .expression) (e.tokens ++ t :: s) (t :: s) (ReadBy Expr.ofTree e) :=
  h.isOperand (t :: s) (stops_cons ht s)

theorem Expr.writable_of_anyDouble {es : List Expr} (h : Expr.ProperAll es) (hdouble : Expr.anyDouble es = false) :
    ∀ e ∈ es, e.Writable := by
  induction es with
  | nil => exact nofun
  | cons e es ih =>
    simp only [Expr.anyDouble, Bool.or_eq_false_iff] at hdouble
    rw [List.forall_mem_cons]
    exact ⟨⟨h.1, hdouble.1⟩, ih h.2 hdouble.2⟩

/-- Expressions with their tokens. -/
def pairs (es : List Expr) : List (Expr × List Token) := es.map (fun e => (e, e.tokens))

theorem map_fst_pairs (es : List Expr) : (pairs es).map Prod.fst = es := by
  simp [pairs, Function.comp_def]

theorem map_snd_pairs (es : List Expr) : (pairs es).map Prod.snd = es.map Expr.tokens := by
  simp [pairs, Function.comp_def]

theorem isOperand_of_writable {es : List Expr} (h : ∀ e ∈ es, e.Writable) : ∀ z ∈ pairs es, IsOperand 0 z.1 z.2 := by
  intro z hz
  obtain ⟨e, he, rfl⟩ := List.mem_map.mp hz
  exact (h e he).isOperand

theorem gives_name {r : String} (h : Rule.identifier.Spells r.toList) (s : List Token) :
    Gives (rule .identifier) (r :: s) s (Leaf .identifier r) :=
  Gives.leaf rfl (fun _ htail => takes_identifier h htail.apart) s

theorem gives_type {type : TypeName} (h : type.Writable) (s : List Token) :
    Gives (rule .unannType) (type.text :: s) s (Leaf .unannType type.text) :=
  Gives.leaf rfl (fun _ htail => takes_typeText h.text htail) s

end Expressions

/-! ### Declarations -/

section Declarations

variable {d : Declarator} {vars : List Declarator} {s : List Token}

theorem gives_declarator (h : d.Writable) (s : List Token) (hs : s.head? = some ";" ∨ s.head? = some ",") :
    Gives (rule .variableDeclarator) (d.tokens ++ s) s (ReadBy Declarator.ofTree d) := by
  obtain ⟨t, s, rfl⟩ : ∃ t s', s = t :: s' := by
    cases s with
    | nil => simp at hs
    | cons t s => exact ⟨t, s, rfl⟩
  have ht : t ∈ [";", ","] := by simpa using hs
  obtain ⟨name, init⟩ := d
  cases init with
  | none =>
    have hends : ∀ t ∈ [";", ","], (lit "=").failsAt [.symbol t] = true := by decide
    have hnone : Fails (seq (lit "=") (rule .expression)) (t :: s) :=
      (Fails.of_lead (leads_symbol t s) (hends t ht)).seqFirst
    refine (Gives.rule (r := .variableDeclarator) rfl ((gives_name h.name _).after (.optNone hnone))).mono ?_
    rintro _ ⟨start, text, _, rfl, start', rfl⟩
    exact ⟨_, rfl, by rw [Declarator.ofTree, expect_bind (by simp)]; rfl⟩
  | some e =>
    have hends : ∀ t ∈ [";", ","], t ∈ enders 0 := by decide
    have hinit := (gives_lit "=" _).before (((h.init e rfl).gives (hends t ht) s).rule_eq .expression rfl)
    refine (Gives.rule (r := .variableDeclarator) rfl ((gives_name h.name _).seq hinit.optSome)).mono ?_
    rintro _ ⟨start, text, _, rfl, _, _, rfl, ⟨start', rfl⟩, ⟨tree, rfl, htree⟩, hrules⟩
    refine ⟨_, rfl, ?_⟩
    rw [List.singleton_append, Declarator.ofTree, expect_bind (by simp [hrules tree (.head _)]), htree]
    rfl

theorem gives_declarators (hne : vars ≠ []) (h : ∀ v ∈ vars, v.Writable) (s : List Token) :
    Gives (separated "," (rule .variableDeclarator)) (commas (vars.map Declarator.tokens) ++ ";" :: s) (";" :: s)
      (fun ts => ts.mapM Declarator.ofTree = .ok vars ∧ ∀ t ∈ ts, t.rule = .variableDeclarator) := by
  refine Gives.rule_eq ?_ .variableDeclarator rfl
  have hcomma : Fails (lit ",") (";" :: s) := Fails.of_lead (leads_symbol ";" s) (by decide)
  cases vars with
  | nil => exact absurd rfl hne
  | cons v vars =>
    refine (gives_separated (Q := ReadBy Declarator.ofTree) hcomma (gives_lit ",") (fun v hv s' hs' => ?_)).mono
      (fun ts hts => mapM_of_each hts)
    refine gives_declarator (h v hv) s' ?_
    rcases hs' with rfl | ⟨s'', rfl⟩
    · exact .inl rfl
    · exact .inr rfl

theorem gives_declaration {type : TypeName} (htype : type.Writable) (hne : vars ≠ []) (h : ∀ v ∈ vars, v.Writable)
    (s : List Token) :
    Gives (rule .localVariableDeclaration) (type.text :: (commas (vars.map Declarator.tokens) ++ ";" :: s)) (";" :: s)
      (fun ts => ∃ t, ts = [t] ∧ t.rule = .localVariableDeclaration ∧ Stmt.declaration t = .ok (.declare type vars)) := by
  refine (Gives.rule (r := .localVariableDeclaration) rfl
    ((gives_type htype _).seq (gives_declarators hne h s))).mono ?_
  rintro _ ⟨start, text, _, rfl, _, ts, rfl, ⟨start', rfl⟩, hts, hrules⟩
  refine ⟨_, rfl, rfl, ?_⟩
  rw [List.singleton_append, Stmt.declaration_eq (by simp) hrules, hts, Tree.text, htype.read]
  rfl

end Declarations

/-! ### Expressions as statements -/

section Statements

variable {e : Expr} {s : List Token} {t : Token}

/-- What follows a name that begins a statement. -/
def nameFollowers : List Token := "(" :: "++" :: "--" :: assignmentSymbols

/-- How expressions that stand as statements begin: with a name and what follows it, which is a bracket in calls only,
or with a token of their own. -/
theorem Expr.tokens_of_isStatement (he : e.Proper) (h : e.isStatement = true) :
    (∃ (p : Path) (u : Token) (us : List Token), p.Proper ∧ u ∈ nameFollowers ∧
      (u = "(" → ∃ args, e = .call p args) ∧ e.tokens = p.text :: u :: us) ∨
      ∃ u us, u ∈ ["new", "++", "--"] ∧ e.tokens = u :: us := by
  have hnot : ∀ u ∈ assignmentSymbols, u ≠ "(" := by decide
  cases e with
  | assign p e => exact .inl ⟨p, "=", e.tokens, he.1, by decide, fun h => absurd h (hnot _ (.head _)), rfl⟩
  | compound op p e =>
    obtain ⟨hop, hp, -⟩ := he
    have hmem := mem_assignmentSymbols hop
    exact .inl ⟨p, _, e.tokens, hp, .tail _ (.tail _ (.tail _ hmem)), fun h => absurd h (hnot _ hmem), rfl⟩
  | increment op fix p =>
    obtain ⟨hop, hp⟩ := he
    cases fix with
    | pre =>
      rcases hop with rfl | rfl
      · exact .inr ⟨"++", [p.text], by decide, rfl⟩
      · exact .inr ⟨"--", [p.text], by decide, rfl⟩
    | post =>
      rcases hop with rfl | rfl
      · exact .inl ⟨p, "++", [], hp, by decide, fun h => absurd h (by decide), rfl⟩
      · exact .inl ⟨p, "--", [], hp, by decide, fun h => absurd h (by decide), rfl⟩
  | call p args => exact .inl ⟨p, "(", _, he.1, by decide, fun _ => ⟨args, rfl⟩, rfl⟩
  | new cls args => exact .inr ⟨"new", _, by decide, rfl⟩
  | _ => cases h

/-- How the source begins with an expression that stands as a statement. -/
def expressionLeads : List Lead := dottedLeads ++ [.word "new", .symbol "++", .symbol "--"]

theorem Expr.Writable.leads (he : e.Writable) (h : e.isStatement = true) (s : List Token) :
    ∃ l ∈ expressionLeads, Leads l (e.tokens ++ s) := by
  rcases Expr.tokens_of_isStatement he.proper h with ⟨p, u, us, hp, -, -, htokens⟩ | ⟨u, us, hu, htokens⟩
  · rw [htokens]
    obtain ⟨l, hl, hleads⟩ := hp.dotted.leads (u :: us ++ s)
    exact ⟨l, List.mem_append_left _ hl, hleads⟩
  · rw [htokens]
    simp only [List.mem_cons, List.not_mem_nil, or_false] at hu
    rcases hu with rfl | rfl | rfl
    · exact ⟨.word "new", by simp [expressionLeads], leads_keyword (by decide) _⟩
    · exact ⟨.symbol "++", by simp [expressionLeads], leads_symbol "++" _⟩
    · exact ⟨.symbol "--", by simp [expressionLeads], leads_symbol "--" _⟩

/-- A dotted name is a single segment, or a segment and a dot behind it. -/
theorem Grammar.IsDotted.first (h : IsDotted t.toList) : ∃ w : Token, IsSegment w.toList ∧
    (t = w ∨ ∃ (v : Token) (cs : List Char), t.toList = w.toList ++ v.toList ∧ v.toList = '.' :: cs) := by
  obtain ⟨first, more, hfirst, -, ht⟩ := h
  refine ⟨String.ofList first, by rwa [String.toList_ofList], ?_⟩
  cases more with
  | nil =>
    refine .inl ?_
    rw [List.flatMap_nil, List.append_nil] at ht
    rw [← ht, String.ofList_toList]
  | cons m more =>
    refine .inr ⟨String.ofList ('.' :: (m ++ more.flatMap (fun m => '.' :: m))), _, ?_, String.toList_ofList⟩
    rw [String.toList_ofList, String.toList_ofList, ht, List.flatMap_cons, List.cons_append]

theorem isToken_of_dot {v : Token} {cs : List Char} (h : v.toList = '.' :: cs) : isToken v = true := by
  rw [isToken, h]
  rfl

theorem apart_of_dot {v : Token} {cs tail : List Char} (h : v.toList = '.' :: cs) : Apart (v.toList ++ tail) := by
  rw [h]
  rintro x xs hx
  cases hx
  decide

/-- A dotted name in front of what declares no variable is not taken for the type of a declaration. -/
theorem fails_declaration_of_dotted (h : IsDotted t.toList) (hs : Fails (rule .variableDeclarator) s) :
    Fails (rule .localVariableDeclaration) (t :: s) := by
  obtain ⟨w, hw, heq⟩ := h.first
  rcases hw with hword | hname
  · rw [String.ofList_toList] at hword
    have hkeyword : w ∈ keywords := (by decide : ["this", "super"] ⊆ keywords) hword
    have hleads : Leads (.word w) (t :: s) := by
      rcases heq with rfl | ⟨v, cs, ht, hv⟩
      · exact leads_keyword hkeyword s
      · exact leads_word hkeyword ht (List.append_nil v.toList ▸ apart_of_dot hv) s
    have hfails : ∀ w ∈ ["this", "super"], (rule .localVariableDeclaration).failsAt [.word w] = true := by decide
    exact Fails.of_lead hleads (hfails w hword)
  · rcases heq with rfl | ⟨v, cs, ht, hv⟩
    · have htype : Gives (rule .unannType) (t :: s) s _ :=
        Gives.leaf rfl (fun _ htail => takes_typeText ⟨t.toList, .inr hname, .inl rfl⟩ htail) s
      exact Fails.rule rfl (.seqSecond htype hs.seqFirst)
    · -- the dot is left, and no variable begins with it
      have htype : Gives (rule .unannType) (t :: s) (v :: s) (Leaf .unannType w) := by
        refine Gives.leafPart rfl ht (isToken_of_dot hv) (fun tail => ?_) s
        refine takes_typeText_word (.inr hname) (apart_of_dot hv) (fun xs hxs => ?_)
        rw [hv] at hxs
        cases hxs
      have hdot : Fails (rule .variableDeclarator) (v :: s) :=
        Fails.of_lead (leads_among hv (List.mem_singleton_self '.') s) (by decide)
      exact Fails.rule rfl (.seqSecond htype hdot.seqFirst)

/-- An expression that stands as a statement is not taken for a declaration. -/
theorem Expr.Writable.fails_declaration (he : e.Writable) (h : e.isStatement = true) (s : List Token) :
    Fails (rule .localVariableDeclaration) (e.tokens ++ s) := by
  rcases Expr.tokens_of_isStatement he.proper h with ⟨p, u, us, hp, hu, -, htokens⟩ | ⟨u, us, hu, htokens⟩
  · have hfails : ∀ u ∈ nameFollowers, (rule .variableDeclarator).failsAt [.symbol u] = true := by decide
    rw [htokens]
    exact fails_declaration_of_dotted hp.dotted (Fails.of_lead (leads_symbol u _) (hfails u hu))
  · rw [htokens]
    simp only [List.mem_cons, List.not_mem_nil, or_false] at hu
    rcases hu with rfl | rfl | rfl
    · exact Fails.of_lead (leads_keyword (by decide) _) (by decide)
    · exact Fails.of_lead (leads_symbol "++" _) (by decide)
    · exact Fails.of_lead (leads_symbol "--" _) (by decide)

/-- An expression that stands as a statement is read as one. -/
theorem Expr.Writable.gives_statement (he : e.Writable) (h : e.isStatement = true) (ht : t ∈ enders 0)
    (s : List Token) : Gives statementExpression (e.tokens ++ t :: s) (t :: s) (ReadBy Expr.ofTree e) := by
  obtain ⟨hproper, hdouble⟩ := he
  have hstops : ∀ k, Stops k (t :: s) := fun k => (stops_cons ht s).mono (Nat.zero_le k)
  have hreadable := Expr.readable hproper (Expr.written_tokens hproper hdouble)
  cases e with
  | assign p value =>
    have hvalue : value.Writable := ⟨hproper.2, hdouble⟩
    exact (gives_assign hproper.1 hvalue.isOperand (hstops 0)).altFirst
  | compound op p value =>
    have hvalue : value.Writable := ⟨hproper.2.2, hdouble⟩
    exact (gives_compound hproper.1 hproper.2.1 hvalue.isOperand (hstops 0)).altFirst
  | increment op fix p =>
    have hassign := hreadable.unassigned (by decide : 1 ≤ 7) (t :: s) (hstops 7)
    cases fix with
    | pre => exact .altSecond hassign (gives_preIncrement hproper.1 hproper.2 (t :: s)).altFirst
    | post =>
      have hpre : Fails (rule .preIncrement) (p.text :: (op.symbol ++ op.symbol) :: t :: s) :=
        Fails.of_leads (hproper.2.dotted.leads _) (by decide)
      exact .altSecond hassign (.altSecond hpre (gives_postIncrement hproper.1 hproper.2 (t :: s)).altFirst)
  | call p args =>
    have hassign := hreadable.unassigned (by decide : 1 ≤ 7) (t :: s) (hstops 7)
    have hargs := Expr.writable_of_anyDouble hproper.2 hdouble
    obtain ⟨hpre, hpost⟩ : Fails (rule .preIncrement) ((Expr.call p args).tokens ++ t :: s) ∧
        Fails (rule .postIncrement) ((Expr.call p args).tokens ++ t :: s) := by
      refine ⟨Fails.of_leads (hproper.1.dotted.leads _) (by decide), Fails.rule rfl ?_⟩
      exact .seqSecond (gives_dotted hproper.1.dotted _) (Fails.of_lead (leads_symbol "(" _) (by decide))
    rw [Expr.tokens, Expr.tokensAll_eq] at hassign hpre hpost ⊢
    have hcall := gives_call hproper.1 (isOperand_of_writable hargs) (t :: s)
    rw [map_fst_pairs, map_snd_pairs] at hcall
    exact .altSecond hassign (.altSecond hpre (.altSecond hpost hcall.altFirst))
  | new cls args =>
    have hargs := Expr.writable_of_anyDouble hproper.2 hdouble
    have hnew := gives_new hproper.1 (isOperand_of_writable hargs) (t :: s)
    rw [map_fst_pairs, map_snd_pairs] at hnew
    rw [Expr.tokens, Expr.tokensAll_eq]
    exact Gives.choice [rule .assignment, rule .preIncrement, rule .postIncrement, rule .methodInvocation]
      (leads_keyword (by decide) _).one (by decide) hnew []
  | _ => cases h

end Statements

/-- A type begins with a name or the word of a primitive type. -/
theorem TypeName.Writable.leads {type : TypeName} (h : type.Writable) (s : List Token) :
    ∃ l ∈ typeLeads, Leads l (type.text :: s) := by
  obtain ⟨w, hw, ht | ht⟩ := h.text
  · exact hw.leads (ht.trans (List.append_nil w).symm) (fun _ _ h => nomatch h) s
  · exact hw.leads ht apart_brackets s

/-! ### Statements -/

/-- An `else` and the branch behind it. -/
def elsePart : Pattern := seq (word "else") statement

/-- How the source begins with a statement of a block that is no expression. -/
def plainLeads : List Lead :=
  [.symbol "\x7b", .word "if", .word "while", .word "for", .word "switch", .word "return", .word "break",
    .word "continue", .symbol ";"] ++ typeLeads

/-- How the source begins with a statement of a block. -/
def statementLeads : List Lead := plainLeads ++ expressionLeads

/-- How the source goes on behind the statements of a block or of a group. -/
def bodyEnds : List Lead := [.symbol "\x7d", .word "case", .word "default"]

/-- The rules of statements other than local declarations, in the order they are tried in. -/
def statementRules : List Rule :=
  [.block, .ifStatement, .whileStatement, .forStatement, .switchStatement, .returnStatement, .breakStatement,
    .continueStatement, .emptyStatement, .expressionStatement]

/-- The rules of the statements of a block. -/
def blockStatementRules : List Rule := .localVariableDeclarationStatement :: statementRules

/-- The statements that are tried before those of a rule. -/
def rulesBefore (r : Rule) : List Pattern := (statementRules.takeWhile (fun r' => r' != r)).map rule

/-- The statements that are tried after those of a rule. -/
def rulesBehind (r : Rule) : List Pattern := ((statementRules.dropWhile (fun r' => r' != r)).drop 1).map rule

namespace Stmt

/-- In front of what may follow, the tokens of a statement are read as the statement. -/
structure ReadBack (s : Stmt) : Prop where
  leads : ∀ rest, ∃ l ∈ statementLeads, Leads l (s.tokens ++ rest)
  plain : s.isExpr = false → ∀ rest, ∃ l ∈ plainLeads, Leads l (s.tokens ++ rest)
  inBlock : ∀ rest, (s.isOpen = true → Fails elsePart rest) →
    Gives blockStatement (s.tokens ++ rest) rest (ReadBy ofTree s)
  nested : s.isDeclaration = false → ∀ rest, (s.isOpen = true → Fails elsePart rest) →
    Gives statement (s.tokens ++ rest) rest (ReadBy ofTree s)

variable {s : Stmt} {body : List Stmt} {rest : List Token} {t : Token} {ts : List Tree}

/-- A statement that its first token tells apart. -/
theorem ReadBack.of_rule {r : Rule} {l : Lead} (hchoice : statement = oneOf (rulesBefore r ++ rule r :: rulesBehind r))
    (hl : l ∈ plainLeads) (hleads : ∀ rest, Leads l (s.tokens ++ rest))
    (hps : (rule .localVariableDeclarationStatement :: rulesBefore r).all (fun q => q.failsAt [l]) = true)
    (h : ∀ rest, (s.isOpen = true → Fails elsePart rest) →
      Gives (rule r) (s.tokens ++ rest) rest (ReadBy ofTree s)) : s.ReadBack := by
  rw [List.all_cons, Bool.and_eq_true] at hps
  have hnested : ∀ rest, (s.isOpen = true → Fails elsePart rest) →
      Gives statement (s.tokens ++ rest) rest (ReadBy ofTree s) := by
    intro rest hrest
    rw [hchoice]
    exact Gives.choice _ (hleads rest).one hps.2 (h rest hrest) _
  refine ⟨fun rest => ⟨l, List.mem_append_left _ hl, hleads rest⟩, fun _ rest => ⟨l, hl, hleads rest⟩,
    fun rest hrest => ?_, fun _ => hnested⟩
  exact .altSecond (Fails.of_lead (hleads rest) hps.1) (hnested rest hrest)

/-- A statement that begins with a word of its own. -/
theorem ReadBack.of_word {r : Rule} {w : String} {p : Pattern} {us : List Token} {Q : List Tree → Prop}
    (hchoice : statement = oneOf (rulesBefore r ++ rule r :: rulesBehind r)) (hr : r.spacing = .free)
    (hbody : r.body = seq (word w) p) (hw : w ∈ keywords) (hl : .word w ∈ plainLeads)
    (hps : (rule .localVariableDeclarationStatement :: rulesBefore r).all (fun q => q.failsAt [.word w]) = true)
    (htokens : s.tokens = w :: us)
    (h : ∀ rest, (s.isOpen = true → Fails elsePart rest) → Gives p (us ++ rest) rest Q)
    (hread : ∀ start text ts, Q ts → ofTree (.node r start text ts) = .ok s) : s.ReadBack := by
  refine .of_rule hchoice hl (fun rest => ?_) hps (fun rest hrest => ?_)
  · rw [htokens]
    exact leads_keyword hw _
  · rw [htokens]
    have hall : Gives r.body (w :: (us ++ rest)) rest Q := by
      rw [hbody]
      exact (gives_word hw _).before (h rest hrest)
    refine (Gives.rule hr hall).mono ?_
    rintro _ ⟨start, text, ts, rfl, hts⟩
    exact ⟨_, rfl, hread start text ts hts⟩

theorem listOf_eq (ts : List Tree) : listOf ts = ts.mapM ofTree := by
  induction ts with
  | nil => rfl
  | cons t ts ih => rw [listOf, ih, List.mapM_cons]

/-- No `else` stands where a statement begins, or where statements end. -/
theorem fails_elsePart_of_leads {s : List Token} (h : ∃ l ∈ statementLeads ++ bodyEnds, Leads l s) :
    Fails elsePart s :=
  (Fails.of_leads h (by decide)).seqFirst

/-- Statements one after the other. -/
theorem gives_body (h : ∀ s ∈ body, s.ReadBack) {s : List Token} (hs : ∃ l ∈ bodyEnds, Leads l s) :
    Gives (many blockStatement) (tokensAll body ++ s) s (Each (ReadBy ofTree) body) := by
  rw [tokensAll_eq]
  have hend : Fails elsePart s := by
    obtain ⟨l, hl, hleads⟩ := hs
    exact fails_elsePart_of_leads ⟨l, List.mem_append_right _ hl, hleads⟩
  refine gives_many tokens (Fails elsePart) (Fails.of_leads hs (by decide)) hend (fun s hs rest => ?_)
    (fun s hs rest hrest => (h s hs).inBlock rest (fun _ => hrest))
  obtain ⟨l, hl, hleads⟩ := (h s hs).leads rest
  exact fails_elsePart_of_leads ⟨l, List.mem_append_left _ hl, hleads⟩

/-- Statements in braces. -/
theorem gives_block (h : ∀ s ∈ body, s.ReadBack) (rest : List Token) :
    Gives (rule .block) ((block body).tokens ++ rest) rest
      (Node .block (fun ts => listOf ts = .ok body)) := by
  have hends : ∃ l ∈ bodyEnds, Leads l ("\x7d" :: rest) := ⟨_, .head _, leads_symbol _ rest⟩
  have hall := (gives_lit "\x7b" _).before ((gives_body h hends).after (gives_lit "\x7d" rest))
  rw [tokens, List.cons_append, List.append_assoc, List.singleton_append]
  refine (Gives.rule (r := .block) rfl hall).mono ?_
  rintro _ ⟨start, text, ts, rfl, hts⟩
  exact ⟨start, text, ts, rfl, (listOf_eq ts).trans (mapM_of_each hts)⟩

theorem readBack_block (h : ∀ s ∈ body, s.ReadBack) : (block body).ReadBack := by
  refine .of_rule (r := .block) rfl (.head _) (fun rest => leads_symbol "\x7b" _) (by decide)
    (fun rest _ => (gives_block h rest).mono ?_)
  rintro _ ⟨start, text, ts, rfl, hts⟩
  refine ⟨_, rfl, ?_⟩
  rw [ofTree, hts]
  rfl

theorem readBack_declare {type : TypeName} {vars : List Declarator} (htype : type.Writable) (hne : vars ≠ [])
    (h : ∀ v ∈ vars, v.Writable) : (declare type vars).ReadBack := by
  have hleads : ∀ rest, ∃ l ∈ plainLeads, Leads l ((declare type vars).tokens ++ rest) := by
    intro rest
    obtain ⟨l, hl, hleads⟩ := htype.leads (commas (vars.map Declarator.tokens) ++ [";"] ++ rest)
    exact ⟨l, List.mem_append_right _ hl, hleads⟩
  refine ⟨fun rest => ?_, fun _ => hleads, fun rest _ => ?_, nofun⟩
  · obtain ⟨l, hl, hl'⟩ := hleads rest
    exact ⟨l, List.mem_append_left _ hl, hl'⟩
  · have hall := (gives_declaration htype hne h rest).after (gives_lit ";" rest)
    have hstatement := Gives.rule (r := .localVariableDeclarationStatement) rfl hall
    rw [tokens, List.cons_append, List.append_assoc, List.singleton_append]
    refine hstatement.altFirst.mono ?_
    rintro _ ⟨start, text, _, rfl, tree, rfl, hr, htree⟩
    exact ⟨_, rfl, by rw [ofTree, expect_bind (by simp [hr]), htree]⟩

theorem readBack_expr {e : Expr} (he : e.Writable) (h : e.isStatement = true) : (expr e).ReadBack := by
  have htokens : ∀ rest, (expr e).tokens ++ rest = e.tokens ++ ";" :: rest := by
    intro rest
    rw [tokens, List.append_assoc, List.singleton_append]
  have hstatement : ∀ rest, Gives statement ((expr e).tokens ++ rest) rest (ReadBy ofTree (expr e)) := by
    intro rest
    rw [htokens]
    have hall := (he.gives_statement h (by decide) rest).after (gives_lit ";" rest)
    have hrule := Gives.rule (r := .expressionStatement) rfl hall
    refine (Gives.choice (rulesBefore .expressionStatement) (he.leads h _) (by decide) hrule []).mono ?_
    rintro _ ⟨start, text, _, rfl, tree, rfl, htree⟩
    refine ⟨_, rfl, ?_⟩
    rw [ofTree, ofExpr, htree]
    rfl
  refine ⟨fun rest => ?_, nofun, fun rest _ => ?_, fun _ rest _ => hstatement rest⟩
  · obtain ⟨l, hl, hleads⟩ := he.leads h (";" :: rest)
    rw [htokens]
    exact ⟨l, List.mem_append_right _ hl, hleads⟩
  · refine .altSecond ?_ (hstatement rest)
    rw [htokens]
    exact Fails.rule rfl (he.fails_declaration h (";" :: rest)).seqFirst

/-- No expression stands where a semicolon does. -/
theorem fails_expression_semicolon (rest : List Token) : Fails (rule .expression) (";" :: rest) :=
  Fails.of_lead (leads_symbol ";" rest) (by decide)

theorem readBack_ret {value : Option Expr} (h : ∀ e ∈ value, e.Writable) : (ret value).ReadBack := by
  cases value with
  | none =>
    refine .of_word (r := .returnStatement) (Q := Bare) rfl rfl rfl (by decide) (by decide) (by decide) rfl
      (fun rest _ => ?_) ?_
    · exact (Gives.optNone (fails_expression_semicolon rest)).after (gives_lit ";" rest)
    · rintro start text _ rfl
      rfl
  | some e =>
    refine .of_word (r := .returnStatement) (Q := fun ts => ReadBy Expr.ofTree e ts ∧ ∀ t ∈ ts, t.rule = .expression)
      rfl rfl rfl (by decide) (by decide) (by decide) rfl (fun rest _ => ?_) ?_
    · have hvalue := ((h e rfl).gives (t := ";") (by decide) rest).rule_eq .expression rfl
      rw [Option.elim, List.append_assoc]
      exact hvalue.optSome.after (gives_lit ";" rest)
    · rintro start text _ ⟨⟨tree, rfl, htree⟩, hrules⟩
      rw [ofTree, expect_bind (by simp [hrules tree (.head _)]), htree]
      rfl

/-- The tree of a condition. -/
def Condition (c : Expr) (ts : List Tree) : Prop := ∃ t, ts = [t] ∧ t.rule = .expression ∧ Expr.ofTree t = .ok c

/-- A condition in round brackets. -/
theorem gives_condition {c : Expr} {p : Pattern} {s : List Token} {Q : List Tree → Prop} (hc : c.Writable)
    (hp : Gives p rest s Q) : Gives (seq (lit "(") (seq (rule .expression) (seq (lit ")") p)))
      (bracketed c.tokens ++ rest) s (Then (Condition c) Q) := by
  have hinside : Gives (rule .expression) (c.tokens ++ ")" :: rest) (")" :: rest) (Condition c) := by
    refine ((hc.gives (by decide) rest).rule_eq .expression rfl).mono ?_
    rintro _ ⟨⟨tree, rfl, htree⟩, hrules⟩
    exact ⟨tree, rfl, hrules tree (.head _), htree⟩
  rw [bracketed, List.cons_append, List.append_assoc, List.singleton_append]
  exact (gives_lit "(" _).before (hinside.seq ((gives_lit ")" rest).before hp))

theorem readBack_ite {c : Expr} {yes : Stmt} (hc : c.Writable) (hyes : yes.ReadBack)
    (hnested : yes.isDeclaration = false) : (ite c yes none).ReadBack := by
  refine .of_word (r := .ifStatement) (Q := Then (Condition c) (ReadBy ofTree yes)) rfl rfl rfl (by decide)
    (by decide) (by decide) rfl (fun rest hrest => ?_) ?_
  · -- no `else` follows, for it would belong to the statement
    have helse : Fails elsePart rest := hrest rfl
    rw [elseTokens, List.append_nil, List.append_assoc]
    exact gives_condition hc ((hyes.nested hnested rest (fun _ => helse)).after (.optNone helse))
  · rintro start text _ ⟨_, _, rfl, ⟨cond, rfl, hr, hcond⟩, tree, rfl, htree⟩
    rw [List.singleton_append, ofTree, Expr.inside_eq hr, hcond, htree]
    rfl

theorem readBack_iteElse {c : Expr} {yes no : Stmt} (hc : c.Writable) (hyes : yes.ReadBack)
    (hnested : yes.isDeclaration = false) (hopen : yes.isOpen = false) (hno : no.ReadBack)
    (hnested' : no.isDeclaration = false) : (ite c yes (some no)).ReadBack := by
  refine .of_word (r := .ifStatement) (Q := Then (Condition c) (Then (ReadBy ofTree yes) (ReadBy ofTree no)))
    rfl rfl rfl (by decide) (by decide) (by decide) rfl (fun rest hrest => ?_) ?_
  · have hother : Gives elsePart ("else" :: (no.tokens ++ rest)) rest (ReadBy ofTree no) :=
      (gives_word (by decide) _).before (hno.nested hnested' rest hrest)
    have hclosed : ∀ rest, yes.isOpen = true → Fails elsePart rest := by
      intro rest h
      rw [hopen] at h
      cases h
    rw [elseTokens, List.append_assoc, List.append_assoc, List.cons_append]
    exact gives_condition hc ((hyes.nested hnested _ (hclosed _)).seq hother.optSome)
  · rintro start text _ ⟨_, _, rfl, ⟨cond, rfl, hr, hcond⟩, _, _, rfl, ⟨tree, rfl, htree⟩, tree', rfl, htree'⟩
    rw [List.singleton_append, List.singleton_append, ofTree, Expr.inside_eq hr, hcond, htree, htree']
    rfl

theorem readBack_loop {c : Expr} {body : Stmt} (hc : c.Writable) (hbody : body.ReadBack)
    (hnested : body.isDeclaration = false) : (loop c body).ReadBack := by
  refine .of_word (r := .whileStatement) (Q := Then (Condition c) (ReadBy ofTree body)) rfl rfl rfl (by decide)
    (by decide) (by decide) rfl (fun rest hrest => ?_) ?_
  · rw [List.append_assoc]
    exact gives_condition hc (hbody.nested hnested rest hrest)
  · rintro start text _ ⟨_, _, rfl, ⟨cond, rfl, hr, hcond⟩, tree, rfl, htree⟩
    rw [List.singleton_append, ofTree, Expr.inside_eq hr, hcond, htree]
    rfl

theorem readBack_breakOut : breakOut.ReadBack :=
  .of_word (r := .breakStatement) (Q := Bare) rfl rfl rfl (by decide) (by decide) (by decide) rfl
    (fun rest _ => gives_lit ";" rest) (fun _ _ _ _ => rfl)

theorem readBack_continueLoop : continueLoop.ReadBack :=
  .of_word (r := .continueStatement) (Q := Bare) rfl rfl rfl (by decide) (by decide) (by decide) rfl
    (fun rest _ => gives_lit ";" rest) (fun _ _ _ _ => rfl)

theorem readBack_empty : empty.ReadBack := by
  refine .of_rule (r := .emptyStatement) rfl (by decide) (fun rest => leads_symbol ";" _) (by decide)
    (fun rest _ => ?_)
  refine (Gives.rule (r := .emptyStatement) rfl (gives_lit ";" rest)).mono ?_
  rintro _ ⟨start, text, _, rfl, -⟩
  exact ⟨_, rfl, rfl⟩

/-! Headers of loops. -/

theorem ofExpr_of_ok {t : Tree} {e : Expr} (h : Expr.ofTree t = .ok e) : ofExpr t = .ok (expr e) := by
  rw [ofExpr, h]
  rfl

/-- What is read as an expression is no declaration. -/
theorem ofInit_of_ok {t : Tree} {e : Expr} (h : Expr.ofTree t = .ok e) : ofInit t = .ok (expr e) := by
  obtain ⟨r, start, text, ts⟩ := t
  unfold ofInit
  split
  · rename_i hr
    cases hr
    cases h
  · exact ofExpr_of_ok h

/-- Expressions of a header, in front of a closing symbol. -/
theorem gives_headers {f : Tree → Reading Stmt} {update : List Stmt}
    (hf : ∀ {t e}, Expr.ofTree t = .ok e → f t = .ok (expr e)) (hne : update ≠ []) (h : ∀ s ∈ update, s.Writable)
    (hexpr : ∀ s ∈ update, s.isExpr = true) (ht : t ∈ [";", ")"]) (rest : List Token) :
    Gives (separated "," statementExpression) (commas (update.map headTokens) ++ t :: rest) (t :: rest)
      (fun ts => ts.mapM f = .ok update) := by
  have hends : ∀ t ∈ [";", ")"], (lit ",").failsAt [.symbol t] = true ∧ t ∈ enders 0 := by decide
  obtain ⟨hcomma, hender⟩ := hends t ht
  have hcomma' : Fails (lit ",") (t :: rest) := Fails.of_lead (leads_symbol t rest) hcomma
  cases update with
  | nil => exact absurd rfl hne
  | cons s update =>
    refine (gives_separated (Q := ReadBy f) hcomma' (gives_lit ",") (fun s hs s' hs' => ?_)).mono
      (fun ts hts => mapM_of_each hts)
    have hwritable := h s hs
    have hs := hexpr s hs
    cases s with
    | expr e =>
      cases hwritable with
      | expr he hstatement =>
        have hgives : Gives statementExpression (e.tokens ++ s') s' (ReadBy Expr.ofTree e) := by
          rcases hs' with rfl | ⟨s'', rfl⟩
          · exact he.gives_statement hstatement hender rest
          · exact he.gives_statement hstatement (by decide) s''
        refine hgives.mono ?_
        rintro _ ⟨tree, rfl, htree⟩
        exact ⟨tree, rfl, hf htree⟩
    | _ => cases hs

/-- Reading the trees leads from some parts of a loop to others. -/
def Moves (parts parts' : ForParts) (ts : List Tree) : Prop := ∀ more, forOf parts (ts ++ more) = forOf parts' more

/-- The beginning of a loop, which may be missing. -/
theorem gives_init {init : List Stmt} (h : ∀ s ∈ init, s.Writable)
    (hinit : (∀ s ∈ init, s.isExpr = true) ∨ ∃ s, init = [s] ∧ s.isDeclaration = true) (rest : List Token) :
    Gives (opt (rule .forInit)) (commas (init.map headTokens) ++ ";" :: rest) (";" :: rest)
      (Moves {} ⟨init, none, [], none⟩) := by
  -- what is read inside the node of the rule becomes the beginning
  have hnode : ∀ {s : List Token}, Gives Rule.forInit.body s (";" :: rest) (fun ts => ts.mapM ofInit = .ok init) →
      Gives (opt (rule .forInit)) s (";" :: rest) (Moves {} ⟨init, none, [], none⟩) := by
    intro s hs
    refine (Gives.rule (r := .forInit) rfl hs).optSome.mono ?_
    rintro _ ⟨start, text, ts, rfl, hts⟩ more
    rw [List.singleton_append, forOf, Tree.rule]
    simp only [Tree.children, hts, bind, Except.bind]
  rcases hinit with hexprs | ⟨s, rfl, hs⟩
  · cases init with
    | nil =>
      have hnone : Fails (rule .forInit) (";" :: rest) := Fails.of_lead (leads_symbol ";" rest) (by decide)
      refine (Gives.optNone hnone).mono ?_
      rintro _ rfl more
      rfl
    | cons s init =>
      refine hnode (.altSecond ?_ (gives_headers ofInit_of_ok (List.cons_ne_nil s init) h hexprs (.head _) rest))
      have hwritable := h s (.head _)
      have hs := hexprs s (.head _)
      cases hwritable with
      | expr he hstatement =>
        rw [List.map_cons, commas, List.append_assoc]
        exact he.fails_declaration hstatement _
      | _ => cases hs
  · refine hnode ?_
    have hwritable := h s (.head _)
    cases hwritable with
    | declare htype hne hvars =>
      have hdeclaration := gives_declaration htype hne hvars rest
      rw [List.map_cons, commas, List.map_nil, List.flatMap_nil, List.append_nil, headTokens, List.cons_append]
      refine hdeclaration.altFirst.mono ?_
      rintro _ ⟨tree, rfl, hrule, htree⟩
      rw [List.mapM_cons, List.mapM_nil, ofInit, hrule]
      simp only [htree, bind, Except.bind]
      rfl
    | _ => cases hs

/-- The condition of a loop, which may be missing. -/
theorem gives_cond {c : Option Expr} (h : ∀ e ∈ c, e.Writable) (init : List Stmt) (rest : List Token) :
    Gives (opt (rule .expression)) (c.elim [] Expr.tokens ++ ";" :: rest) (";" :: rest)
      (Moves ⟨init, none, [], none⟩ ⟨init, c, [], none⟩) := by
  cases c with
  | none =>
    refine (Gives.optNone (fails_expression_semicolon rest)).mono ?_
    rintro _ rfl more
    rfl
  | some e =>
    refine (((h e rfl).gives (t := ";") (by decide) rest).rule_eq .expression rfl).optSome.mono ?_
    rintro _ ⟨⟨tree, rfl, htree⟩, hrules⟩ more
    rw [List.singleton_append, forOf, hrules tree (.head _)]
    simp only [htree, bind, Except.bind]

/-- The updates of a loop, which may be missing. -/
theorem gives_update {update : List Stmt} (h : ∀ s ∈ update, s.Writable) (hexpr : ∀ s ∈ update, s.isExpr = true)
    (init : List Stmt) (c : Option Expr) (rest : List Token) :
    Gives (opt (rule .forUpdate)) (commas (update.map headTokens) ++ ")" :: rest) (")" :: rest)
      (Moves ⟨init, c, [], none⟩ ⟨init, c, update, none⟩) := by
  cases update with
  | nil =>
    have hnone : Fails (rule .forUpdate) (")" :: rest) := Fails.of_lead (leads_symbol ")" rest) (by decide)
    refine (Gives.optNone hnone).mono ?_
    rintro _ rfl more
    rfl
  | cons s update =>
    have hall := gives_headers ofExpr_of_ok (List.cons_ne_nil s update) h hexpr (.tail _ (.head _)) rest
    refine (Gives.rule (r := .forUpdate) rfl hall).optSome.mono ?_
    rintro _ ⟨start, text, ts, rfl, hts⟩ more
    rw [List.singleton_append, forOf, Tree.rule]
    simp only [Tree.children, hts, bind, Except.bind]

/-- The body of a loop is none of the other parts. -/
theorem forOf_body {t : Tree} (h : ofTree t = .ok s) (init : List Stmt) (c : Option Expr) (update : List Stmt) :
    forOf ⟨init, c, update, none⟩ [t] = .ok ⟨init, c, update, some s⟩ := by
  obtain ⟨r, start, text, ts⟩ := t
  unfold forOf
  split
  · rename_i hr
    cases hr
    cases h
  · rename_i hr
    cases hr
    cases h
  · rename_i hr
    cases hr
    cases h
  · rw [h]
    rfl

theorem readBack_forLoop {init update : List Stmt} {c : Option Expr} {body : Stmt} (hinit : ∀ s ∈ init, s.Writable)
    (hshape : (∀ s ∈ init, s.isExpr = true) ∨ ∃ s, init = [s] ∧ s.isDeclaration = true) (hc : ∀ e ∈ c, e.Writable)
    (hupdate : ∀ s ∈ update, s.Writable) (hexpr : ∀ s ∈ update, s.isExpr = true) (hbody : body.ReadBack)
    (hnested : body.isDeclaration = false) : (forLoop init c update body).ReadBack := by
  refine .of_word (r := .forStatement) (Q := Then (Moves {} ⟨init, none, [], none⟩)
      (Then (Moves ⟨init, none, [], none⟩ ⟨init, c, [], none⟩)
        (Then (Moves ⟨init, c, [], none⟩ ⟨init, c, update, none⟩) (ReadBy ofTree body))))
    rfl rfl rfl (by decide) (by decide) (by decide) rfl (fun rest hrest => ?_) ?_
  · have hlast := (gives_update hupdate hexpr init c (body.tokens ++ rest)).seq
      ((gives_lit ")" _).before (hbody.nested hnested rest hrest))
    have hmiddle := (gives_cond hc init _).seq ((gives_lit ";" _).before hlast)
    have hall := (gives_lit "(" _).before ((gives_init hinit hshape _).seq ((gives_lit ";" _).before hmiddle))
    simp only [List.cons_append, List.append_assoc]
    exact hall
  · rintro start text _ ⟨us, _, rfl, hus, vs, _, rfl, hvs, ws, _, rfl, hws, tree, rfl, htree⟩
    rw [ofTree, hus, hvs, hws, forOf_body htree]
    rfl

/-! Groups of a `switch`. -/

/-- The pattern of a label. -/
def labelPattern : Pattern := alt (rule .caseLabel) (rule .defaultLabel)

theorem gives_label {l : Label} (h : l.Writable) (rest : List Token) :
    Gives labelPattern (l.tokens ++ rest) rest (ReadBy Label.ofTree l) := by
  cases l with
  | case e =>
    have hvalue : Gives (rule .expression) (e.tokens ++ ":" :: rest) (":" :: rest) (ReadBy Expr.ofTree e) :=
      Expr.Writable.gives h (by decide) rest
    have hall := (gives_word (w := "case") (by decide) _).before
      ((hvalue.rule_eq .expression rfl).after (gives_lit ":" rest))
    rw [Label.tokens, List.cons_append, List.append_assoc]
    refine (Gives.rule (r := .caseLabel) rfl hall).altFirst.mono ?_
    rintro _ ⟨start, text, _, rfl, ⟨tree, rfl, htree⟩, hrules⟩
    refine ⟨_, rfl, ?_⟩
    rw [Label.ofTree, expect_bind (by simp [hrules tree (.head _)]), htree]
    rfl
  | otherwise =>
    have hcase : Fails (rule .caseLabel) ("default" :: ":" :: rest) :=
      Fails.of_lead (leads_keyword (by decide) _) (by decide)
    have hall := (gives_word (w := "default") (by decide) _).before (gives_lit ":" rest)
    refine (Gives.altSecond hcase (Gives.rule (r := .defaultLabel) rfl hall)).mono ?_
    rintro _ ⟨start, text, _, rfl, -⟩
    exact ⟨_, rfl, rfl⟩

theorem gives_labels {labels : List Label} (hne : labels ≠ []) (h : ∀ l ∈ labels, l.Writable) {s : List Token}
    (hs : Fails labelPattern s) :
    Gives (plus labelPattern) (labels.flatMap Label.tokens ++ s) s (Each (ReadBy Label.ofTree) labels) := by
  cases labels with
  | nil => exact absurd rfl hne
  | cons l labels =>
    rw [List.flatMap_cons, List.append_assoc]
    refine (gives_label (h l (.head _)) _).seq ?_
    exact gives_many Label.tokens (fun _ => True) hs trivial (fun _ _ _ => trivial)
      (fun l' hl' rest _ => gives_label (h l' (.tail _ hl')) rest)

/-- Behind the labels of a group stand statements, or nothing. -/
theorem fails_label {arms : List (Arm Stmt)} (h : ∀ s ∈ body, s.ReadBack) (hlast : body = [] → arms = [])
    (rest : List Token) : Fails labelPattern (tokensAll body ++ (armsTokens arms ++ "\x7d" :: rest)) := by
  cases body with
  | nil =>
    rw [hlast rfl]
    exact Fails.of_lead (leads_symbol "\x7d" rest) (by decide)
  | cons s body =>
    rw [tokensAll, List.append_assoc]
    exact Fails.of_leads ((h s (.head _)).leads _) (by decide)

/-- Behind the statements of a group the next one begins, or the `switch` ends. -/
theorem leads_arms {arms : List (Arm Stmt)} (h : ∀ arm ∈ arms, arm.labels ≠ []) (rest : List Token) :
    ∃ l ∈ bodyEnds, Leads l (armsTokens arms ++ "\x7d" :: rest) := by
  cases arms with
  | nil => exact ⟨_, .head _, leads_symbol "\x7d" rest⟩
  | cons arm arms =>
    obtain ⟨labels, body⟩ := arm
    cases labels with
    | nil => exact absurd rfl (h _ (.head _))
    | cons l labels =>
      cases l with
      | case e => exact ⟨.word "case", by decide, leads_keyword (by decide) _⟩
      | otherwise => exact ⟨.word "default", by decide, leads_keyword (by decide) _⟩

theorem gives_arms {arms : List (Arm Stmt)} (hlabels : ∀ arm ∈ arms, arm.labels ≠ [] ∧ ∀ l ∈ arm.labels, l.Writable)
    (hbody : ∀ arm ∈ arms, ∀ s ∈ arm.body, s.ReadBack) (hlast : ∀ arm ∈ arms.dropLast, arm.body ≠ [])
    (rest : List Token) : Gives (many (rule .switchBlockGroup)) (armsTokens arms ++ "\x7d" :: rest) ("\x7d" :: rest)
      (fun ts => armsOf ts = .ok arms ∧ ∀ t ∈ ts, t.rule = .switchBlockGroup) := by
  refine Gives.rule_eq ?_ .switchBlockGroup rfl
  induction arms with
  | nil =>
    refine (Gives.manyNone (Fails.of_lead (leads_symbol "\x7d" rest) (by decide))).mono ?_
    rintro _ rfl
    rfl
  | cons arm arms ih =>
    obtain ⟨labels, body⟩ := arm
    obtain ⟨hne, hwritable⟩ := hlabels _ (.head _)
    have hempty : body = [] → arms = [] := by
      rintro rfl
      cases arms with
      | nil => rfl
      | cons arm' arms => exact absurd rfl (hlast ⟨labels, []⟩ (.head _))
    have hrest := ih (fun a ha => hlabels a (.tail _ ha)) (fun a ha => hbody a (.tail _ ha)) (fun a ha => by
      cases arms with
      | nil => cases ha
      | cons arm' arms => exact hlast a (.tail _ ha))
    have hstatements := gives_body (hbody _ (.head _)) (leads_arms (fun a ha => (hlabels a (.tail _ ha)).1) rest)
    have hgroup := ((gives_labels hne hwritable (fails_label (hbody _ (.head _)) hempty rest)).rule_mem labelRules
      rfl).seq (hstatements.rule_mem blockStatementRules rfl)
    rw [armsTokens, List.append_assoc, List.append_assoc]
    refine ((Gives.rule (r := .switchBlockGroup) rfl hgroup).manyMore hrest).mono ?_
    rintro _ ⟨_, ts, rfl, ⟨start, text, _, rfl, us, vs, rfl, ⟨hus, hlabel⟩, hvs, hstatement⟩, hts⟩
    have hnotLabel : ∀ t ∈ vs, t.rule ∉ labelRules :=
      fun t ht => (by decide : ∀ r ∈ blockStatementRules, r ∉ labelRules) _ (hstatement t ht)
    rw [List.singleton_append, armsOf, armOf_eq hlabel hnotLabel, mapM_of_each hus, listOf_eq, mapM_of_each hvs, hts]
    rfl

theorem readBack_switch {e : Expr} {arms : List (Arm Stmt)} (he : e.Writable)
    (hlabels : ∀ arm ∈ arms, arm.labels ≠ [] ∧ ∀ l ∈ arm.labels, l.Writable)
    (hbody : ∀ arm ∈ arms, ∀ s ∈ arm.body, s.ReadBack) (hlast : ∀ arm ∈ arms.dropLast, arm.body ≠ []) :
    (switch e arms).ReadBack := by
  refine .of_word (r := .switchStatement) 
    (Q := Then (Condition e) (fun ts => armsOf ts = .ok arms ∧ ∀ t ∈ ts, t.rule = .switchBlockGroup)) rfl rfl rfl
    (by decide) (by decide) (by decide) rfl (fun rest _ => ?_) ?_
  · have hgroups := (gives_arms hlabels hbody hlast rest).after (gives_lit "\x7d" rest)
    rw [List.append_assoc, List.cons_append, List.append_assoc]
    exact gives_condition he ((gives_lit "\x7b" _).before hgroups)
  · rintro start text _ ⟨_, ts, rfl, ⟨tree, rfl, hr, htree⟩, hts, hrules⟩
    rw [List.singleton_append, ofTree, expect_cons_bind hr hrules, htree, hts]
    rfl

/-- A statement that can be written is read back. -/
theorem Writable.readBack (h : s.Writable) : s.ReadBack := by
  induction h with
  | block _ ih => exact readBack_block ih
  | declare htype hne hvars => exact readBack_declare htype hne hvars
  | expr he hstatement => exact readBack_expr he hstatement
  | ret hvalue => exact readBack_ret hvalue
  | ite hc _ hnested ih => exact readBack_ite hc ih hnested
  | iteElse hc _ hnested hopen _ hnested' ih ih' => exact readBack_iteElse hc ih hnested hopen ih' hnested'
  | loop hc _ hnested ih => exact readBack_loop hc ih hnested
  | forLoop hinit hshape hc hupdate hexpr _ hnested _ _ ih =>
    exact readBack_forLoop hinit hshape hc hupdate hexpr ih hnested
  | switch he hlabels _ hlast ih => exact readBack_switch he hlabels ih hlast
  | breakOut => exact readBack_breakOut
  | continueLoop => exact readBack_continueLoop
  | empty => exact readBack_empty

end Stmt

end StashMachine
