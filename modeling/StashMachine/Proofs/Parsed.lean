import StashMachine.Proofs.Matching
import StashMachine.Proofs.Reading
import StashMachine.Proofs.Registry
import StashMachine.Syntax.Source

/-!
# StashMachine.Proofs.Parsed — programs as the grammar gives them

* `Rule.isCode`: the rules below which no constructor calls another one.
* `Stmt.isHeaded`: the header of a `for` holds nothing but expressions and declarations.
* `Stmt.Hereditary P`: `P` passes from the parts of a statement to the whole; `Stmt.of_isCode`: then `P` holds
  of every statement that is read from a tree of code.
* `Program.parse_plain`: the classes of a program that is read from a source are plain.
* `Program.parse_names`, `Program.parse_methods`, `Program.parse_params`, `Program.parse_fields`: classes, methods,
  parameters of constructors and fields are named by identifiers.
-/

namespace StashMachine

open Grammar

/-! ### Names and types -/

/-- A name is no reserved word. -/
theorem notMem_keywords {s : String} (h : Rule.identifier.Spells s.toList) : s ∉ keywords := by
  have hkeyword := h.2
  rw [String.ofList_toList] at hkeyword
  exact hkeyword

/-- A name is made of the characters of names. -/
theorem isNameChar_of_spells {s : String} (h : Rule.identifier.Spells s.toList) :
    ∀ y ∈ s.toList, isNameChar y = true := by
  obtain ⟨⟨x, xs, hs, hx, hxs⟩, -⟩ := h
  intro y hy
  rw [hs] at hy
  rcases List.mem_cons.mp hy with rfl | hy
  · exact isNameChar_of_isNameStart hx
  · exact hxs y hy

/-- A class is named by a name. -/
theorem ofString_of_spells {s : String} (h : Rule.identifier.Spells s.toList) :
    TypeName.ofString s = .named s := by
  have hkeyword := notMem_keywords h
  have hchars := isNameChar_of_spells h
  have hword : TypeName.ofString s = .ofWord s := by
    unfold TypeName.ofString TypeName.ofReversed
    split
    · rename_i rest hrest
      have hmem : ']' ∈ s.toList := by
        rw [← List.mem_reverse, hrest]
        simp
      exact absurd (hchars _ hmem) (by decide)
    · rw [List.reverse_reverse, String.ofList_toList]
  rw [hword, TypeName.ofWord]
  split
  · rename_i p hp
    have hp' := List.find?_some hp
    simp only [beq_iff_eq] at hp'
    subst hp'
    exact absurd (by cases p <;> decide) hkeyword
  · rw [if_neg (by rintro rfl; exact hkeyword (by decide)),
      if_neg (by rintro rfl; exact hkeyword (by decide))]

/-- The text of a type holds no other characters than those of names and square brackets. -/
theorem notMem_of_spells {s : String} (h : Rule.unannType.Spells s.toList) {y : Char} (hy : isNameChar y = false)
    (hl : y ≠ '[') (hr : y ≠ ']') : y ∉ s.toList := by
  intro hmem
  rcases h.2 y hmem with h | h | h
  · rw [h] at hy
    cases hy
  · exact hl h
  · exact hr h

/-- The types that are written in a source are plain. -/
theorem plain_of_spells {s : String} (h : Rule.unannType.Spells s.toList) :
    (TypeName.ofString s).Plain := by
  refine ⟨?_, ?_, ?_, ?_⟩ <;> rw [TypeName.text_ofString]
  · exact h.1
  · exact notMem_of_spells h (by decide) (by decide) (by decide)
  · exact notMem_of_spells h (by decide) (by decide) (by decide)

/-! ### Code -/

namespace Grammar

/-- The rules of code, below which no constructor calls another one. -/
def Rule.isCode : Rule → Bool
  | .compilationUnit | .classDeclaration | .constructorDeclaration | .constructorBody
  | .explicitConstructorInvocation => false
  | _ => true

theorem Rule.allRules_isCode {r : Rule} (h : r.isCode = true) : r.body.allRules isCode = true := by
  cases r <;> first | rfl | cases h

/-! The rules of the nodes inside some declarations. -/

section Shapes

variable {gaps : Spacing} {cs : List Char} {rs : List Rule}

theorem rules_of_constructorBody (h : Rule.constructorBody.body.Admits gaps cs rs) :
    ∃ rs', (rs = rs' ∨ rs = .explicitConstructorInvocation :: rs') ∧ ∀ r ∈ rs', r.isCode = true := by
  cases h with
  | seq hopen _ h =>
    cases hopen
    cases h with
    | seq hcall _ h =>
      refine ⟨_, ?_, h.forall_rules rfl⟩
      cases hcall with
      | present hcall =>
        cases hcall
        exact .inr rfl
      | absent => exact .inl rfl

/-- Behind its modifiers a class has a name. -/
theorem identifier_of_classDeclaration (h : Rule.classDeclaration.body.Admits gaps cs rs) : .identifier ∈ rs := by
  cases h with
  | seq _ _ h =>
    cases h with
    | seq _ _ h =>
      cases h with
      | seq hname _ h =>
        cases hname
        simp

theorem identifier_of_methodDeclaration (h : Rule.methodDeclaration.body.Admits gaps cs rs) : .identifier ∈ rs := by
  cases h with
  | seq _ _ h =>
    cases h with
    | seq _ _ h =>
      cases h with
      | seq hname _ h =>
        cases hname
        simp

end Shapes

namespace Tree.Grown

variable {r : Rule} {start : Nat} {text : String} {ts : List Tree}

theorem children (h : (Tree.node r start text ts).Grown) : ∀ t ∈ ts, t.Grown := by
  cases h with
  | node hchildren => exact hchildren

theorem of_mem_children {t t' : Tree} (h : t.Grown) (ht : t' ∈ t.children) : t'.Grown := by
  obtain ⟨r, start, text, ts⟩ := t
  exact h.children t' ht

theorem admits (h : (Tree.node r start text ts).Grown) (hr : r.spacing ≠ .atomic) :
    ∃ gaps cs, r.body.Admits gaps cs (ts.map Tree.rule) := by
  cases h with
  | node _ _ hadmits => exact hadmits hr

theorem spells {t : Tree} (h : t.Grown) : t.rule.Spells t.text.toList := by
  cases h with
  | node _ _ _ hspells => exact hspells

/-- Below code stands code. -/
theorem isCode (h : (Tree.node r start text ts).Grown) (hr : r.isCode = true) :
    ∀ t ∈ ts, t.rule.isCode = true := by
  cases h with
  | node _ hleaf hadmits _ =>
    intro t ht
    by_cases hs : r.spacing = .atomic
    · rw [hleaf hs] at ht
      cases ht
    · obtain ⟨gaps, cs, h⟩ := hadmits hs
      exact h.forall_rules (Rule.allRules_isCode hr) _ (List.mem_map_of_mem ht)

end Tree.Grown

/-- A tree that is read as a statement with the property. -/
def Tree.Reads (P : Stmt → Prop) (t : Tree) : Prop := ∀ s, Stmt.ofTree t = .ok s → P s

end Grammar

/-! ### Statements -/

/-- A variable is declared under an identifier. -/
theorem spells_of_declarator {t : Tree} {d : Declarator} (ht : t.Grown) (h : Declarator.ofTree t = .ok d) :
    Rule.identifier.Spells d.name.toList := by
  have hspells : ∀ {name : Tree} {rs : List Rule} {ts : List Tree}, name ∈ t.children →
      (name :: ts).map Tree.rule = .identifier :: rs → Rule.identifier.Spells name.text.toList := by
    intro name rs ts hmem hrules
    rw [← (List.cons.inj hrules).1]
    exact (ht.of_mem_children hmem).spells
  unfold Declarator.ofTree at h
  split at h
  · rw [expect_bind_eq_ok, except_pure_eq_ok] at h
    obtain ⟨hrules, rfl⟩ := h
    exact hspells (.head _) hrules
  · rw [expect_bind_eq_ok] at h
    simp only [except_bind_eq_ok, except_pure_eq_ok] at h
    obtain ⟨hrules, e, -, rfl⟩ := h
    exact hspells (.head _) hrules
  · cases h

namespace Stmt

/-- An expression or a declaration, which may stand in the header of a `for`. -/
def isHeader : Stmt → Bool
  | .expr _ | .declare _ _ => true
  | _ => false

/-- The header of a `for` holds nothing but expressions and declarations. -/
def isHeaded : Stmt → Bool
  | .forLoop init _ update _ => (init ++ update).all isHeader
  | _ => true

/-- A property of statements that passes from the parts of a statement to the whole.  Variables are declared
under identifiers, and the header of a `for` is no more than it may be. -/
structure Hereditary (P : Stmt → Prop) : Prop where
  block : ∀ {body}, (∀ s ∈ body, P s) → P (.block body)
  declare : ∀ t {vars}, (∀ d ∈ vars, Rule.identifier.Spells d.name.toList) → P (.declare t vars)
  expr : ∀ e, P (.expr e)
  ret : ∀ e, P (.ret e)
  ite : ∀ c {yes no}, P yes → (∀ s, no = some s → P s) → P (.ite c yes no)
  loop : ∀ c {body}, P body → P (.loop c body)
  forLoop : ∀ {init} c {update body}, (forLoop init c update body).isHeaded = true → (∀ s ∈ init, P s) →
    (∀ s ∈ update, P s) → P body → P (.forLoop init c update body)
  switch : ∀ e {arms}, (∀ arm ∈ arms, ∀ s ∈ arm.body, P s) → P (.switch e arms)
  breakOut : P .breakOut
  continueLoop : P .continueLoop
  empty : P .empty

variable {P : Stmt → Prop} {t : Tree} {ts : List Tree}

theorem forall_of_listOf (hts : ∀ t ∈ ts, t.Reads P) {ss : List Stmt} (h : listOf ts = .ok ss) :
    ∀ s ∈ ss, P s := by
  induction ts generalizing ss with
  | nil =>
    cases h
    simp
  | cons t ts ih =>
    simp only [listOf, except_bind_eq_ok, except_pure_eq_ok] at h
    obtain ⟨s, hs, ss', hss', rfl⟩ := h
    intro s' hs'
    rcases List.mem_cons.mp hs' with rfl | hs'
    · exact hts t (by simp) _ hs
    · exact ih (fun t ht => hts t (by simp [ht])) hss' s' hs'

theorem forall_of_armOf (hts : ∀ t ∈ ts, t.Reads P) {arm arm' : Arm Stmt} (harm : ∀ s ∈ arm.body, P s)
    (h : armOf arm ts = .ok arm') : ∀ s ∈ arm'.body, P s := by
  induction ts generalizing arm with
  | nil =>
    cases h
    exact harm
  | cons t ts ih =>
    have hrest : ∀ t ∈ ts, t.Reads P := fun t ht => hts t (.tail _ ht)
    rw [armOf] at h
    split at h <;> rw [except_bind_eq_ok] at h
    · obtain ⟨l, -, h⟩ := h
      refine ih hrest ?_ h
      exact harm
    · obtain ⟨l, -, h⟩ := h
      refine ih hrest ?_ h
      exact harm
    · obtain ⟨s, hs, h⟩ := h
      refine ih hrest ?_ h
      exact List.forall_mem_append.mpr ⟨harm, List.forall_mem_singleton.mpr (hts t (.head _) s hs)⟩

theorem isHeader_of_ofExpr {s : Stmt} (h : ofExpr t = .ok s) : s.isHeader = true := by
  simp only [ofExpr, except_bind_eq_ok, except_pure_eq_ok] at h
  obtain ⟨e, -, rfl⟩ := h
  rfl

theorem isHeader_of_ofInit {s : Stmt} (h : ofInit t = .ok s) : s.isHeader = true := by
  unfold ofInit at h
  split at h
  · simp only [declaration, except_bind_eq_ok, except_pure_eq_ok] at h
    obtain ⟨d, -, rfl⟩ := h
    rfl
  · exact isHeader_of_ofExpr h

section Hereditary

variable (hP : Hereditary P)

include hP

theorem of_declaration {s : Stmt} (ht : t.Grown) (h : declaration t = .ok s) : P s := by
  simp only [declaration, except_bind_eq_ok, except_pure_eq_ok] at h
  obtain ⟨d, hd, rfl⟩ := h
  refine hP.declare _ ?_
  refine foldlM_preserves (P := fun d : VarDecls => ∀ v ∈ d.vars, Rule.identifier.Spells v.name.toList) hd
    (List.forall_mem_nil _) ?_
  intro t' ht' a b hpart ha
  rcases VarDecls.of_part hpart with hsame | ⟨v, -, hv, hvars⟩
  · rwa [hsame]
  · rw [hvars, List.forall_mem_append, List.forall_mem_singleton]
    exact ⟨ha, spells_of_declarator (ht.of_mem_children ht') hv⟩

theorem of_ofExpr {s : Stmt} (h : ofExpr t = .ok s) : P s := by
  simp only [ofExpr, except_bind_eq_ok, except_pure_eq_ok] at h
  obtain ⟨e, -, rfl⟩ := h
  exact hP.expr e

theorem of_ofInit {s : Stmt} (ht : t.Grown) (h : ofInit t = .ok s) : P s := by
  unfold ofInit at h
  split at h
  · exact of_declaration hP ht h
  · exact of_ofExpr hP h

/-- The parts of a `for` with the property. -/
structure ForParts.Have (P : Stmt → Prop) (parts : ForParts) : Prop where
  init : ∀ s ∈ parts.init, P s ∧ s.isHeader = true
  update : ∀ s ∈ parts.update, P s ∧ s.isHeader = true
  body : ∀ s, parts.body = some s → P s

theorem have_of_forOf {parts parts' : ForParts} (hgrown : ∀ t ∈ ts, t.Grown) (hts : ∀ t ∈ ts, t.Reads P)
    (hparts : parts.Have P) (h : forOf parts ts = .ok parts') : parts'.Have P := by
  induction ts generalizing parts with
  | nil =>
    cases h
    exact hparts
  | cons t ts ih =>
    have hrest : ∀ t ∈ ts, t.Reads P := fun t ht => hts t (by simp [ht])
    have hgrown' : ∀ t ∈ ts, t.Grown := fun t ht => hgrown t (by simp [ht])
    rw [forOf] at h
    split at h <;> rw [except_bind_eq_ok] at h
    · obtain ⟨init, hinit, h⟩ := h
      refine ih hgrown' hrest ?_ h
      refine ⟨fun s hs => ?_, hparts.update, hparts.body⟩
      obtain ⟨t', ht', hread⟩ := exists_of_mem_mapM hinit hs
      exact ⟨of_ofInit hP ((hgrown t (.head _)).of_mem_children ht') hread, isHeader_of_ofInit hread⟩
    · obtain ⟨cond, -, h⟩ := h
      refine ih hgrown' hrest ?_ h
      exact ⟨hparts.init, hparts.update, hparts.body⟩
    · obtain ⟨update, hupdate, h⟩ := h
      refine ih hgrown' hrest ?_ h
      refine ⟨hparts.init, fun s hs => ?_, hparts.body⟩
      obtain ⟨t', -, hread⟩ := exists_of_mem_mapM hupdate hs
      exact ⟨of_ofExpr hP hread, isHeader_of_ofExpr hread⟩
    · obtain ⟨body, hbody, h⟩ := h
      refine ih hgrown' hrest ?_ h
      refine ⟨hparts.init, hparts.update, fun s hs => ?_⟩
      cases hs
      exact hts t (by simp) _ hbody

omit hP in
/-- The groups of a `switch` hold the statements of their nodes. -/
theorem forall_of_armsOf (hts : ∀ t ∈ ts, ∀ t' ∈ t.children, t'.Reads P) {arms : List (Arm Stmt)}
    (h : armsOf ts = .ok arms) : ∀ arm ∈ arms, ∀ s ∈ arm.body, P s := by
  induction ts generalizing arms with
  | nil =>
    cases h
    simp
  | cons t ts ih =>
    obtain ⟨r, start, text, children⟩ := t
    simp only [armsOf, except_bind_eq_ok, except_pure_eq_ok] at h
    obtain ⟨arm', harm', arms', harms', rfl⟩ := h
    intro arm harm
    rcases List.mem_cons.mp harm with rfl | harm
    · refine forall_of_armOf (fun t' ht' => hts _ List.mem_cons_self t' ht') ?_ harm'
      exact nofun
    · exact ih (fun t ht => hts t (by simp [ht])) harms' arm harm

/-- A tree of code is read as a statement with the property. -/
theorem of_isCode (h : t.Grown) (hcode : t.rule.isCode = true) :
    t.Reads P ∧ ∀ t' ∈ t.children, t'.Reads P := by
  induction h with
  | @node r start text children hchildren hleaf hadmits hspells ih =>
    have hnode : (Grammar.Tree.node r start text children).Grown := .node hchildren hleaf hadmits hspells
    have hreads : ∀ t ∈ children, t.Reads P ∧ ∀ t' ∈ t.children, t'.Reads P :=
      fun t ht => ih t ht (hnode.isCode hcode t ht)
    refine ⟨fun s hs => ?_, fun t ht => (hreads t ht).1⟩
    have hone : ∀ t ∈ children, t.Reads P := fun t ht => (hreads t ht).1
    unfold ofTree at hs
    split at hs
    · rw [expect_bind_eq_ok] at hs
      exact of_declaration hP (hchildren _ (.head _)) hs.2
    · simp only [except_bind_eq_ok, except_pure_eq_ok] at hs
      obtain ⟨body, hbody, rfl⟩ := hs
      exact hP.block (forall_of_listOf hone hbody)
    · rw [except_bind_eq_ok] at hs
      obtain ⟨_, -, hs⟩ := hs
      cases hs
    · simp only [except_bind_eq_ok, except_pure_eq_ok] at hs
      obtain ⟨cond, -, yes, hyes, rfl⟩ := hs
      exact hP.ite cond (hone _ (by simp) _ hyes) nofun
    · simp only [except_bind_eq_ok, except_pure_eq_ok] at hs
      obtain ⟨cond, -, yes, hyes, no, hno, rfl⟩ := hs
      refine hP.ite cond (hone _ (by simp) _ hyes) (fun s hs => ?_)
      cases hs
      exact hone _ (by simp) _ hno
    · simp only [except_bind_eq_ok, except_pure_eq_ok] at hs
      obtain ⟨cond, -, body, hbody, rfl⟩ := hs
      exact hP.loop cond (hone _ (by simp) _ hbody)
    · rw [except_bind_eq_ok] at hs
      obtain ⟨parts, hparts, hs⟩ := hs
      have hhave : parts.Have P := have_of_forOf hP hchildren hone ⟨by simp, by simp, by simp⟩ hparts
      split at hs
      · rename_i body hbody
        cases hs
        refine hP.forLoop parts.cond ?_ (fun s hs => (hhave.init s hs).1) (fun s hs => (hhave.update s hs).1)
          (hhave.body body hbody)
        refine List.all_eq_true.mpr (fun s hs => ?_)
        exact (List.mem_append.mp hs).elim (fun hs => (hhave.init s hs).2) (fun hs => (hhave.update s hs).2)
      · cases hs
    · rw [expect_bind_eq_ok] at hs
      simp only [except_bind_eq_ok, except_pure_eq_ok] at hs
      obtain ⟨-, e, -, arms, harms, rfl⟩ := hs
      exact hP.switch e (forall_of_armsOf (fun t ht => (hreads t (by simp [ht])).2) harms)
    · cases hs
      exact hP.ret none
    · rw [expect_bind_eq_ok] at hs
      simp only [except_bind_eq_ok, except_pure_eq_ok] at hs
      obtain ⟨-, e, -, rfl⟩ := hs
      exact hP.ret (some e)
    · cases hs
      exact hP.breakOut
    · cases hs
      exact hP.continueLoop
    · cases hs
      exact hP.empty
    · exact of_ofExpr hP hs
    · cases hcode
    · cases hs

end Hereditary

/-- In code no constructor calls another one. -/
theorem hereditary_delegates : Hereditary (fun s => s.delegates = false) where
  block h := anyDelegates_eq_false.mpr h
  declare _ _ _ := rfl
  expr _ := rfl
  ret _ := rfl
  ite _ yes no hyes hno := by
    cases no with
    | none => simp [delegates, optionDelegates, hyes]
    | some s => simp [delegates, optionDelegates, hyes, hno s rfl]
  loop _ _ hbody := hbody
  forLoop _ _ _ _ hinit hupdate hbody := by
    simp [delegates, anyDelegates_eq_false.mpr hinit, anyDelegates_eq_false.mpr hupdate, hbody]
  switch _ _ harms := armsDelegate_eq_false.mpr harms
  breakOut := rfl
  continueLoop := rfl
  empty := rfl

end Stmt

/-! ### Members -/

section Members

variable {P : Stmt → Prop} {t : Tree} {m : MethodDecl} {k : ConstructorDecl}

/-- A parameter has the type that its text stands for, and is named by an identifier. -/
theorem spells_of_param {x : Param} (ht : t.Grown) (h : Param.ofTree t = .ok x) :
    (∃ s, Rule.unannType.Spells s.toList ∧ x.type = .ofString s) ∧ Rule.identifier.Spells x.name.toList := by
  unfold Param.ofTree at h
  split at h
  · rename_i type name
    rw [expect_bind_eq_ok, except_pure_eq_ok] at h
    obtain ⟨hrules, rfl⟩ := h
    simp only [List.map_cons, List.cons.injEq] at hrules
    have htype := (ht.children type (by simp)).spells
    have hname := (ht.children name (by simp)).spells
    rw [hrules.1] at htype
    rw [hrules.2.1] at hname
    exact ⟨⟨_, htype, rfl⟩, hname⟩
  · cases h

theorem plain_of_param {x : Param} (ht : t.Grown) (h : Param.ofTree t = .ok x) : x.type.Plain := by
  obtain ⟨⟨s, hs, htype⟩, -⟩ := spells_of_param ht h
  exact htype ▸ plain_of_spells hs

theorem exists_of_explicit {s : Stmt} (hrule : t.rule = .explicitConstructorInvocation)
    (h : Stmt.ofTree t = .ok s) : ∃ who args, s = .construct who args := by
  obtain ⟨r, start, text, children⟩ := t
  cases hrule
  unfold Stmt.ofTree at h
  split at h <;> try contradiction
  rw [expect_bind_eq_ok] at h
  simp only [except_bind_eq_ok, except_pure_eq_ok] at h
  obtain ⟨-, who, -, args, -, rfl⟩ := h
  exact ⟨who, args, rfl⟩

/-- The statements of a method are read from its block. -/
theorem forall_of_method (hP : Stmt.Hereditary P) (ht : t.Grown) (h : MethodDecl.ofTree t = .ok m) :
    ∀ body, m.body = some body → ∀ s ∈ body, P s := by
  refine foldlM_preserves (P := fun m : MethodDecl => ∀ body, m.body = some body → ∀ s ∈ body, P s) h nofun ?_
  intro t' ht' a b hpart ha body hbody
  obtain ⟨-, -, -, hsame | hnone | ⟨body', hr, hread, hbody'⟩⟩ := MethodDecl.of_part hpart
  · exact ha body (hsame ▸ hbody)
  · rw [hnone] at hbody
    cases hbody
  · rw [hbody', Option.some.injEq] at hbody
    subst hbody
    exact Stmt.forall_of_listOf (Stmt.of_isCode hP (ht.of_mem_children ht') (by rw [hr]; rfl)).2 hread

/-- All statements of a body but a first one that calls a constructor are code. -/
theorem forall_of_constructorBody {body : List Stmt} (hP : Stmt.Hereditary P) (ht : t.Grown)
    (hr : t.rule = .constructorBody) (h : Stmt.listOf t.children = .ok body) :
    (∀ s ∈ body, P s) ∨ ∃ who args rest, body = .construct who args :: rest ∧ ∀ s ∈ rest, P s := by
  obtain ⟨_, start, text, children⟩ := t
  cases hr
  obtain ⟨gaps, cs, hadmits⟩ := ht.admits (by decide)
  obtain ⟨rs', hrules, hcode⟩ := rules_of_constructorBody hadmits
  have hreads : ∀ ts : List Tree, (∀ t ∈ ts, t ∈ children) → ts.map Tree.rule = rs' → ∀ t ∈ ts, t.Reads P := by
    intro ts hts hrs t ht'
    refine (Stmt.of_isCode hP (ht.children t (hts t ht')) ?_).1
    exact hcode _ (hrs ▸ List.mem_map_of_mem ht')
  rcases hrules with hrules | hrules
  · exact .inl (Stmt.forall_of_listOf (hreads children (fun _ h => h) hrules) h)
  · cases children with
    | nil => cases hrules
    | cons t ts =>
      simp only [List.map_cons, List.cons.injEq] at hrules
      simp only [Tree.children, Stmt.listOf, except_bind_eq_ok, except_pure_eq_ok] at h
      obtain ⟨s, hs, ss, hss, rfl⟩ := h
      have hrest := Stmt.forall_of_listOf (hreads ts (fun t ht => List.mem_cons_of_mem _ ht) hrules.2) hss
      obtain ⟨who, args, rfl⟩ := exists_of_explicit hrules.1 hs
      exact .inr ⟨who, args, ss, rfl, hrest⟩

theorem forall_of_constructor (hP : Stmt.Hereditary P) (ht : t.Grown) (h : ConstructorDecl.ofTree t = .ok k) :
    (∀ s ∈ k.body, P s) ∨ ∃ who args rest, k.body = .construct who args :: rest ∧ ∀ s ∈ rest, P s := by
  refine foldlM_preserves (P := fun k : ConstructorDecl => (∀ s ∈ k.body, P s) ∨
    ∃ who args rest, k.body = .construct who args :: rest ∧ ∀ s ∈ rest, P s) h (.inl nofun) ?_
  intro t' ht' a b hpart ha
  obtain ⟨-, hsame | ⟨hr, hread⟩⟩ := ConstructorDecl.of_part hpart
  · rwa [hsame]
  · exact forall_of_constructorBody hP (ht.of_mem_children ht') hr hread

/-- The result of a method is what its text stands for. -/
theorem result_of_method (h : MethodDecl.ofTree t = .ok m) : ∃ s, m.result = .ofString s := by
  refine foldlM_preserves (P := fun m : MethodDecl => ∃ s, m.result = .ofString s) h ⟨_, rfl⟩ ?_
  intro t' _ a b hpart ha
  obtain ⟨hsame | ⟨-, hresult⟩, -⟩ := MethodDecl.of_part hpart
  · rwa [hsame]
  · exact ⟨_, hresult⟩

/-- The parameters of a method are read from trees. -/
theorem exists_of_mem_method_params (ht : t.Grown) (h : MethodDecl.ofTree t = .ok m) :
    ∀ x ∈ m.params, ∃ t : Tree, t.Grown ∧ Param.ofTree t = .ok x := by
  refine foldlM_preserves (P := fun m : MethodDecl => ∀ x ∈ m.params, ∃ t : Tree, t.Grown ∧ Param.ofTree t = .ok x)
    h nofun ?_
  intro t' ht' a b hpart ha x hx
  obtain ⟨-, -, hsame | ⟨-, hread⟩, -⟩ := MethodDecl.of_part hpart
  · exact ha x (hsame ▸ hx)
  · obtain ⟨u, hu, hx'⟩ := exists_of_mem_paramsOf hread hx
    exact ⟨u, (ht.of_mem_children ht').of_mem_children hu, hx'⟩

theorem plain_of_method (ht : t.Grown) (h : MethodDecl.ofTree t = .ok m) : (Callable.method m).Plain := by
  refine ⟨fun type htype => ?_, forall_of_method Stmt.hereditary_delegates ht h⟩
  obtain ⟨x, hx, rfl⟩ := List.mem_map.mp htype
  obtain ⟨t', ht', hread⟩ := exists_of_mem_method_params ht h x hx
  exact plain_of_param ht' hread

theorem exists_of_mem_params (ht : t.Grown) (h : ConstructorDecl.ofTree t = .ok k) :
    ∀ x ∈ k.params, ∃ t : Tree, t.Grown ∧ Param.ofTree t = .ok x := by
  refine foldlM_preserves (P := fun k : ConstructorDecl => ∀ x ∈ k.params, ∃ t : Tree, t.Grown ∧ Param.ofTree t = .ok x)
    h nofun ?_
  intro t' ht' a b hpart ha x hx
  obtain ⟨hsame | ⟨-, hread⟩, -⟩ := ConstructorDecl.of_part hpart
  · exact ha x (hsame ▸ hx)
  · obtain ⟨u, hu, hx'⟩ := exists_of_mem_paramsOf hread hx
    exact ⟨u, (ht.of_mem_children ht').of_mem_children hu, hx'⟩

theorem plain_of_constructor (ht : t.Grown) (h : ConstructorDecl.ofTree t = .ok k) : (Callable.constructor k).Plain := by
  refine ⟨fun type htype => ?_, ?_⟩
  · obtain ⟨x, hx, rfl⟩ := List.mem_map.mp htype
    obtain ⟨t', ht', hread⟩ := exists_of_mem_params ht h x hx
    exact plain_of_param ht' hread
  · rcases forall_of_constructor Stmt.hereditary_delegates ht h with hall | ⟨who, args, rest, hbody, hrest⟩
    · exact .inl hall
    · cases who with
      | this => exact .inr ⟨args, rest, hbody, hrest⟩
      | super =>
        refine .inl (fun s hs => ?_)
        rw [hbody] at hs
        rcases List.mem_cons.mp hs with rfl | hs
        · rfl
        · exact hrest s hs

/-- The name of a method is a name. -/
theorem spells_of_method (ht : t.Grown) (hr : t.rule = .methodDeclaration) (h : MethodDecl.ofTree t = .ok m) :
    Rule.identifier.Spells m.name.toList := by
  obtain ⟨_, start, text, children⟩ := t
  cases hr
  obtain ⟨gaps, cs, hadmits⟩ := ht.admits (by decide)
  obtain ⟨name, hname, hr⟩ := List.mem_map.mp (identifier_of_methodDeclaration hadmits)
  have hspells : ∀ t ∈ children, t.rule = .identifier → Rule.identifier.Spells t.text.toList :=
    fun t ht' hr => hr ▸ (ht.children t ht').spells
  refine foldlM_reaches (P := fun m : MethodDecl => Rule.identifier.Spells m.name.toList) h hname ?_ ?_
  · intro a b hpart
    rw [MethodDecl.part, hr, except_pure_eq_ok] at hpart
    rw [← hpart]
    exact hspells name hname hr
  · intro t' ht' a b hpart ha
    obtain ⟨-, hsame | ⟨hr', hname'⟩, -⟩ := MethodDecl.of_part hpart
    · rwa [hsame]
    · rw [hname']
      exact hspells t' ht' hr'

/-- The variables of a field are declared under identifiers. -/
theorem spells_of_field {f : FieldDecl} (ht : t.Grown) (h : FieldDecl.ofTree t = .ok f) :
    ∀ v ∈ f.vars, Rule.identifier.Spells v.name.toList := by
  refine foldlM_preserves (P := fun f : FieldDecl => ∀ v ∈ f.vars, Rule.identifier.Spells v.name.toList) h nofun ?_
  intro t' ht' a b hpart ha
  rcases FieldDecl.of_part hpart with hsame | ⟨v, -, hv, hvars⟩
  · rwa [hsame]
  · rw [hvars, List.forall_mem_append, List.forall_mem_singleton]
    exact ⟨ha, spells_of_declarator (ht.of_mem_children ht') hv⟩

/-! ### Classes -/

variable {d : ClassDecl}

/-- The members of a class are read from trees. -/
theorem exists_of_mem_body (ht : t.Grown) (h : ClassDecl.ofTree t = .ok d) :
    ∀ member ∈ d.body, ∃ t' : Tree, t'.Grown ∧ Member.ofTree t' = .ok member := by
  refine foldlM_preserves (P := fun d : ClassDecl => ∀ member ∈ d.body, ∃ t' : Tree, t'.Grown ∧
    Member.ofTree t' = .ok member) h nofun ?_
  intro t' ht' a b hpart ha
  obtain ⟨-, hsame | ⟨member, hmember, hbody⟩⟩ := ClassDecl.of_part hpart
  · rwa [hsame]
  · rw [hbody, List.forall_mem_append, List.forall_mem_singleton]
    exact ⟨ha, t', ht.of_mem_children ht', hmember⟩

/-- The methods of a class are read from the trees of their declarations. -/
theorem exists_of_mem_methods (ht : t.Grown) (h : ClassDecl.ofTree t = .ok d) (hm : m ∈ d.methods) :
    ∃ t' : Tree, t'.Grown ∧ t'.rule = .methodDeclaration ∧ MethodDecl.ofTree t' = .ok m := by
  obtain ⟨member, hmem, heq⟩ := List.mem_filterMap.mp hm
  cases member with
  | method m' =>
    cases heq
    obtain ⟨t', ht', hread⟩ := exists_of_mem_body ht h _ hmem
    unfold Member.ofTree at hread
    split at hread <;> simp only [except_bind_eq_ok, except_pure_eq_ok, reduceCtorEq, and_false,
      exists_false, Member.method.injEq] at hread
    rename_i hr
    obtain ⟨m', hm', rfl⟩ := hread
    exact ⟨t', ht', hr, hm'⟩
  | _ => cases heq

theorem exists_of_mem_constructors (ht : t.Grown) (h : ClassDecl.ofTree t = .ok d) (hk : k ∈ d.constructors) :
    k = .implicit d.name ∨ ∃ t' : Tree, t'.Grown ∧ ConstructorDecl.ofTree t' = .ok k := by
  unfold ClassDecl.constructors at hk
  split at hk
  · exact .inl (List.mem_singleton.mp hk)
  · obtain ⟨member, hmem, heq⟩ := List.mem_filterMap.mp hk
    cases member with
    | constructor k' =>
      cases heq
      obtain ⟨t', ht', hread⟩ := exists_of_mem_body ht h _ hmem
      unfold Member.ofTree at hread
      split at hread <;> simp only [except_bind_eq_ok, except_pure_eq_ok, reduceCtorEq, and_false,
        exists_false, Member.constructor.injEq] at hread
      obtain ⟨k', hk', rfl⟩ := hread
      exact .inr ⟨t', ht', hk'⟩
    | _ => cases heq

theorem exists_of_mem_fields {f : FieldDecl} (ht : t.Grown) (h : ClassDecl.ofTree t = .ok d) (hf : f ∈ d.fields) :
    ∃ t' : Tree, t'.Grown ∧ FieldDecl.ofTree t' = .ok f := by
  obtain ⟨member, hmem, heq⟩ := List.mem_filterMap.mp hf
  cases member with
  | field f' =>
    cases heq
    obtain ⟨t', ht', hread⟩ := exists_of_mem_body ht h _ hmem
    unfold Member.ofTree at hread
    split at hread <;> simp only [except_bind_eq_ok, except_pure_eq_ok, reduceCtorEq, and_false,
      exists_false, Member.field.injEq] at hread
    obtain ⟨f', hf', rfl⟩ := hread
    exact ⟨t', ht', hf'⟩
  | _ => cases heq

/-- The name of a class is a name. -/
theorem spells_of_class (ht : t.Grown) (hr : t.rule = .classDeclaration) (h : ClassDecl.ofTree t = .ok d) :
    Rule.identifier.Spells d.name.toList := by
  obtain ⟨_, start, text, children⟩ := t
  cases hr
  obtain ⟨gaps, cs, hadmits⟩ := ht.admits (by decide)
  obtain ⟨name, hname, hr⟩ := List.mem_map.mp (identifier_of_classDeclaration hadmits)
  have hspells : ∀ t ∈ children, t.rule = .identifier → Rule.identifier.Spells t.text.toList :=
    fun t ht' hr => hr ▸ (ht.children t ht').spells
  refine foldlM_reaches (P := fun d : ClassDecl => Rule.identifier.Spells d.name.toList) h hname ?_ ?_
  · intro a b hpart
    rw [ClassDecl.part, hr, except_pure_eq_ok] at hpart
    rw [← hpart]
    exact hspells name hname hr
  · intro t' ht' a b hpart ha
    obtain ⟨hsame | ⟨hr', hname'⟩, -⟩ := ClassDecl.of_part hpart
    · rwa [hsame]
    · rw [hname']
      exact hspells t' ht' hr'

theorem plain_of_class (ht : t.Grown) (hr : t.rule = .classDeclaration) (h : ClassDecl.ofTree t = .ok d) : d.Plain := by
  refine ⟨ofString_of_spells (spells_of_class ht hr h), fun m hm => ?_, fun k hk => ?_⟩
  · obtain ⟨t', ht', -, hread⟩ := exists_of_mem_methods ht h hm
    exact plain_of_method ht' hread
  · rcases exists_of_mem_constructors ht h hk with rfl | ⟨t', ht', hread⟩
    · exact ConstructorDecl.implicit_plain _
    · exact plain_of_constructor ht' hread

end Members

/-- What holds of every class that is read from a tree holds of all classes of a program that is read from a
source. -/
theorem Program.forall_of_parse {P : ClassDecl → Prop} {source : String} {p : Program} (h : Program.parse source = .ok p)
    (hP : ∀ (t : Tree) (d : ClassDecl), t.Grown → t.rule = .classDeclaration → ClassDecl.ofTree t = .ok d → P d) :
    ∀ d ∈ p, P d := by
  unfold Program.parse readSource at h
  split at h
  · cases h
  · rename_i t ht
    obtain ⟨-, hgrown⟩ := parse?_grown ht
    cases hread : Program.ofTree t with
    | error e => simp [hread, Except.mapError] at h
    | ok q =>
      rw [hread] at h
      cases h
      refine foldlM_preserves (P := fun p : Program => ∀ d ∈ p, P d) hread nofun ?_
      intro t' ht' a b hpart ha
      rcases Program.of_part hpart with rfl | ⟨d, hr, hd, rfl⟩
      · exact ha
      · rw [List.forall_mem_append, List.forall_mem_singleton]
        exact ⟨ha, hP t' d (hgrown.of_mem_children ht') hr hd⟩

/-- The classes of a program that is read from a source are plain. -/
theorem Program.parse_plain {source : String} {p : Program} (h : Program.parse source = .ok p) :
    ∀ d ∈ p, d.Plain :=
  forall_of_parse h (fun _ _ ht hr hd => plain_of_class ht hr hd)

/-- Classes are named by identifiers. -/
theorem Program.parse_names {source : String} {p : Program} (h : Program.parse source = .ok p) :
    ∀ d ∈ p, Rule.identifier.Spells d.name.toList :=
  forall_of_parse h (fun _ _ ht hr hd => spells_of_class ht hr hd)

/-- Methods are named by identifiers. -/
theorem Program.parse_methods {source : String} {p : Program} (h : Program.parse source = .ok p) :
    ∀ d ∈ p, ∀ m ∈ d.methods, Rule.identifier.Spells m.name.toList := by
  refine forall_of_parse h (fun t d ht _ hd m hm => ?_)
  obtain ⟨t', ht', hr, hread⟩ := exists_of_mem_methods ht hd hm
  exact spells_of_method ht' hr hread

/-- Parameters of constructors are named by identifiers. -/
theorem Program.parse_params {source : String} {p : Program} (h : Program.parse source = .ok p) :
    ∀ d ∈ p, ∀ k ∈ d.constructors, ∀ x ∈ k.params, Rule.identifier.Spells x.name.toList := by
  refine forall_of_parse h (fun t d ht _ hd k hk => ?_)
  rcases exists_of_mem_constructors ht hd hk with rfl | ⟨t', ht', hread⟩
  · exact fun x hx => (List.not_mem_nil hx).elim
  · intro x hx
    obtain ⟨t, ht, hread⟩ := exists_of_mem_params ht' hread x hx
    exact (spells_of_param ht hread).2

/-- Fields are named by identifiers. -/
theorem Program.parse_fields {source : String} {p : Program} (h : Program.parse source = .ok p) :
    ∀ d ∈ p, ∀ f ∈ d.fields, ∀ v ∈ f.vars, Rule.identifier.Spells v.name.toList := by
  refine forall_of_parse h (fun t d ht _ hd f hf => ?_)
  obtain ⟨t', ht', hread⟩ := exists_of_mem_fields ht hd hf
  exact spells_of_field ht' hread

end StashMachine
