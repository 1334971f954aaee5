import StashMachine.Proofs.Rendering
import StashMachine.Proofs.Parsed

/-!
# StashMachine.Proofs.Spellings — what the grammar makes sure of

* `Tree.Derived`: the trees that the rules of matching derive, whose nodes are derived too.
* `Tree.Derived.admits`: the text of a derived node is one that its rule admits, and so are the rules of its nodes.
* `isDotted_of_derived`, `isTypeText_of_derived`, …: the texts of names and types.
* `Expr.proper_of_derived`: an expression that is read from a derived tree is proper.
-/

namespace StashMachine

open Grammar Pattern

namespace Grammar

/-- A tree that the rules of matching derive somewhere. -/
def Tree.Derived (t : Tree) : Prop := ∃ gaps c d, Pattern.Yields gaps (.rule t.rule) c (.matched d [t])

/-- The nodes of a match are derived. -/
theorem Pattern.Yields.derived {gaps : Spacing} {p : Pattern} {c d : Cursor} {ts : List Tree}
    (h : p.Yields gaps c (.matched d ts)) : ∀ t ∈ ts, t.Derived := by
  generalize ho : Outcome.matched d ts = o at h
  induction h generalizing d ts with
  | rule hbody ih =>
    cases ho
    intro t ht
    obtain rfl := List.mem_singleton.mp ht
    exact ⟨_, _, _, .rule hbody⟩
  | seq _ _ ih₁ ih₂ =>
    cases ho
    intro t ht
    rcases List.mem_append.mp ht with ht | ht
    · exact ih₁ rfl t ht
    · exact ih₂ rfl t ht
  | manyMore _ _ _ ih₁ _ ih₃ =>
    cases ho
    intro t ht
    rcases List.mem_append.mp ht with ht | ht
    · exact ih₁ rfl t ht
    · exact ih₃ rfl t ht
  | altFirst _ ih => exact ih ho
  | altSecond _ _ _ ih => exact ih ho
  | optSome _ ih => exact ih ho
  | manyLast _ _ ih _ => exact ih ho
  | _ =>
    cases ho
    try exact nofun

/-- What a match reads is admitted. -/
theorem Pattern.Yields.admits {gaps : Spacing} {p : Pattern} {c d : Cursor} {ts : List Tree}
    (h : p.Yields gaps c (.matched d ts)) (hadvances : p.advances = true) :
    ∃ cs, c.Reads cs d ∧ p.Admits gaps cs (ts.map Tree.rule) := by
  have hrun := h.run hadvances (Nat.le_refl _) (Nat.le_refl _) (fun _ => fits_of_advances hadvances)
  obtain ⟨cs, hreads, hadmits, -⟩ := run_admits (grows_run _) hrun
  exact ⟨cs, hreads, hadmits⟩

/-- A match of a rule is a match of its body, and leaves one node. -/
theorem Pattern.Yields.of_rule {gaps : Spacing} {r : Rule} {c d : Cursor} {ts : List Tree}
    (h : Pattern.Yields gaps (.rule r) c (.matched d ts)) :
    ∃ us, r.body.Yields (gaps.within r.spacing) c (.matched d us) ∧
      ts = [.node r c.offset (c.textTo d) (if r.spacing == .atomic then [] else us)] := by
  cases h with
  | rule hbody => exact ⟨_, hbody, rfl⟩

namespace Tree

variable {r : Rule} {start : Nat} {text : String} {ts : List Tree} {P : Tree → Prop}

/-- What holds of a tree if it holds of its nodes. -/
theorem ofChildren (h : ∀ r start text ts, (∀ t ∈ ts, P t) → P (.node r start text ts)) (t : Tree) : P t := by
  refine @Tree.rec P (fun ts => ∀ t ∈ ts, P t) (fun r start text ts => h r start text ts) nofun
    (fun t ts ht hts t' ht' => ?_) t
  rcases List.mem_cons.mp ht' with rfl | ht'
  · exact ht
  · exact hts t' ht'

theorem Derived.children (h : (node r start text ts).Derived) : ∀ t ∈ ts, t.Derived := by
  obtain ⟨gaps, c, d, hyields⟩ := h
  obtain ⟨us, hbody, hnode⟩ := hyields.of_rule
  simp only [List.cons.injEq, node.injEq] at hnode
  rw [hnode.1.2.2.2]
  split_ifs
  · exact nofun
  · exact hbody.derived

/-- The rules of the nodes of a derived node are admitted. -/
theorem Derived.admits (h : (node r start text ts).Derived) (hr : r.spacing ≠ .atomic) :
    ∃ gaps cs, r.body.Admits gaps cs (ts.map rule) := by
  obtain ⟨gaps, c, d, hyields⟩ := h
  obtain ⟨us, hbody, hnode⟩ := hyields.of_rule
  simp only [List.cons.injEq, node.injEq] at hnode
  obtain ⟨cs, -, hadmits⟩ := hbody.admits r.advances_body
  rw [hnode.1.2.2.2, if_neg (by simpa [rule] using hr)]
  exact ⟨_, cs, hadmits⟩

/-- The text of a derived node is admitted. -/
theorem Derived.spelled {t : Tree} (h : t.Derived) :
    ∃ (gaps : Spacing) (rs : List Rule), t.rule.body.Admits (gaps.within t.rule.spacing) t.text.toList rs := by
  obtain ⟨gaps, c, d, hyields⟩ := h
  obtain ⟨us, hbody, hnode⟩ := hyields.of_rule
  obtain ⟨cs, hreads, hadmits⟩ := hbody.admits t.rule.advances_body
  have htext : t.text.toList = cs := by
    rw [List.cons.inj hnode |>.1, Tree.text, hreads.textTo, String.toList_ofList]
  rw [htext]
  exact ⟨gaps, _, hadmits⟩

end Tree

/-! ### Texts -/

namespace Pattern.Admits

variable {cs : List Char} {rs : List Rule}

/-- The text of a reserved word. -/
theorem mem_of_words {gaps : Spacing} {ks : List String} (h : (wordOf ks).Admits gaps cs rs) (hks : ks ≠ []) :
    String.ofList cs ∈ ks ∧ rs = [] := by
  cases h with
  | tight h =>
    cases h with
    | seq hword hgap hend =>
      cases hend
      obtain ⟨k, hk, rfl⟩ := hword.exists_of_oneOf_lit.resolve_left hks
      rw [hgap (by simp), List.append_nil, List.append_nil, String.ofList_toList]
      exact ⟨hk, rfl⟩

/-- The text of one of several symbols. -/
theorem mem_of_symbols {gaps : Spacing} {ks : List String} (h : (oneOf (ks.map lit)).Admits gaps cs rs) (hks : ks ≠ []) :
    String.ofList cs ∈ ks := by
  obtain ⟨k, hk, rfl⟩ := h.exists_of_oneOf_lit.resolve_left hks
  rwa [String.ofList_toList]

theorem isSegment (h : nameSegment.Admits .atomic cs rs) : IsSegment cs := by
  cases h with
  | first h => exact .inl (h.mem_of_words (by simp)).1
  | second h =>
    cases h with
    | rule h => exact .inr h

/-- The rounds of a dotted name. -/
theorem exists_segments (h : (Pattern.many (.seq (lit ".") nameSegment)).Admits .atomic cs rs) :
    ∃ more : List (List Char), (∀ m ∈ more, IsSegment m) ∧ cs = more.flatMap (fun m => '.' :: m) := by
  generalize hp : Pattern.many (.seq (lit ".") nameSegment) = p at h
  generalize hg : Spacing.atomic = gaps at h
  induction h with
  | none => exact ⟨[], nofun, rfl⟩
  | @more gaps p cs gap cs' rs rs' _ hgap h' ih _ =>
    cases hp
    subst hg
    obtain ⟨more, hmore, rfl⟩ := ih rfl rfl
    cases h' with
    | @seq _ _ _ dot gap' segment _ _ hdot hgap' hsegment =>
      cases hdot
      refine ⟨more ++ [segment], ?_, ?_⟩
      · intro m hm
        rcases List.mem_append.mp hm with hm | hm
        · exact hmore m hm
        · obtain rfl := List.mem_singleton.mp hm
          exact hsegment.isSegment
      · rw [hgap (by simp), hgap' (by simp), List.flatMap_append]
        simp
  | _ => cases hp

theorem isDotted (h : Rule.expressionName.body.Admits .atomic cs rs) : IsDotted cs := by
  cases h with
  | @seq _ _ _ first gap rest _ _ hfirst hgap hrest =>
    obtain ⟨more, hmore, rfl⟩ := hrest.exists_segments
    refine ⟨first, more, hfirst.isSegment, hmore, ?_⟩
    rw [hgap (by simp), List.nil_append]

theorem isTypeWord (h : typeWord.Admits .atomic cs rs) : IsTypeWord cs := by
  cases h with
  | first h => exact .inl (h.mem_of_words (by simp)).1
  | second h =>
    cases h with
    | rule h => exact .inr h

theorem brackets_text (h : brackets.Admits .atomic cs rs) : cs = ['[', ']'] := by
  cases h with
  | seq hopen hgap hclose =>
    cases hopen
    cases hclose
    rw [hgap (by simp)]
    rfl

theorem isTypeText (h : Rule.unannType.body.Admits .atomic cs rs) : IsTypeText cs := by
  cases h with
  | @seq _ _ _ w gap rest _ _ hword hgap hrest =>
    refine ⟨w, hword.isTypeWord, ?_⟩
    rw [hgap (by simp), List.nil_append]
    cases hrest with
    | absent => exact .inl (List.append_nil w)
    | present h => exact .inr (by rw [h.brackets_text])

theorem exists_element (h : Rule.arrayType.body.Admits .atomic cs rs) : ∃ w, IsTypeWord w ∧ cs = w ++ ['[', ']'] := by
  cases h with
  | @seq _ _ _ w gap rest _ _ hword hgap hrest =>
    refine ⟨w, hword.isTypeWord, ?_⟩
    rw [hgap (by simp), List.nil_append, hrest.brackets_text]

end Pattern.Admits

section Texts

variable {t : Tree}

theorem isDotted_of_derived (h : t.Derived) (hr : t.rule = .expressionName) : IsDotted t.text.toList := by
  obtain ⟨gaps, rs, hadmits⟩ := h.spelled
  rw [hr] at hadmits
  exact hadmits.isDotted

theorem spells_of_derived (h : t.Derived) (hr : t.rule = .identifier) : Rule.identifier.Spells t.text.toList := by
  obtain ⟨gaps, c, d, hyields⟩ := h
  have hrun := hyields.run rfl (Nat.le_refl _) (Nat.le_refl _) (fun _ => fits_of_advances (p := .rule t.rule) rfl)
  obtain ⟨t', cs, ht', -, hgrown, -⟩ := grows_run _ _ _ _ _ _ hrun
  cases ht'
  rw [← hr]
  exact hgrown.spells

theorem isTypeText_of_derived (h : t.Derived) (hr : t.rule = .unannType) : IsTypeText t.text.toList := by
  obtain ⟨gaps, rs, hadmits⟩ := h.spelled
  rw [hr] at hadmits
  exact hadmits.isTypeText

theorem exists_element_of_derived (h : t.Derived) (hr : t.rule = .arrayType) :
    ∃ w, IsTypeWord w ∧ t.text.toList = w ++ ['[', ']'] := by
  obtain ⟨gaps, rs, hadmits⟩ := h.spelled
  rw [hr] at hadmits
  exact hadmits.exists_element

end Texts

end Grammar

/-! ### Expressions -/

theorem Path.proper_of_isDotted {s : String} (h : IsDotted s.toList) : (Path.ofString s).Proper := by
  refine ⟨?_, ?_⟩
  · rwa [Path.text_ofString]
  · rw [Path.text_ofString]

/-- The type of the elements of an array type. -/
theorem isElement_of_derived {t : Tree} (h : t.Derived) (hr : t.rule = .arrayType) : (elementType t).IsElement := by
  obtain ⟨w, hw, htext⟩ := exists_element_of_derived h hr
  have hread : TypeName.ofString t.text = .array (TypeName.ofReversed w.reverse) := by
    rw [TypeName.ofString, htext]
    simp [TypeName.ofReversed]
  have hw' : (TypeName.ofReversed w.reverse).text = String.ofList w := by
    rw [TypeName.text_ofReversed, List.reverse_reverse]
  have hwhole : String.ofList w ++ "[]" = t.text := by
    rw [← String.ofList_toList (s := t.text), htext, String.ofList_append]
  have helement : elementType t = TypeName.ofReversed w.reverse := by
    rw [elementType, hread]
  rw [helement]
  refine ⟨?_, ?_⟩
  · rwa [hw', String.toList_ofList]
  · rw [hw', hwhole, hread]

theorem Literal.proper_of_ofTree {t : Tree} {l : Literal} (h : Literal.ofTree t = .ok l) : l.Proper := by
  unfold Literal.ofTree at h
  split at h
  · simp only [except_bind_eq_ok, except_pure_eq_ok] at h
    obtain ⟨n, hn, rfl⟩ := h
    have hlt := (Literal.of_numberOf hn).2
    refine .inl ?_
    rw [← Int32.ofInt_eq_ofNat, Int32.toInt_ofInt_of_le (by omega) (by exact_mod_cast hlt)]
    exact Int.natCast_nonneg _
  · split at h
    · simp only [except_bind_eq_ok, except_pure_eq_ok] at h
      obtain ⟨n, hn, rfl⟩ := h
      have hlt := (Literal.of_numberOf hn).2
      refine .inl ?_
      rw [← Int64.ofInt_eq_ofNat, Int64.toInt_ofInt_of_le (by omega) (by exact_mod_cast hlt)]
      exact Int.natCast_nonneg _
    · cases h
  · split at h
    · cases h
      trivial
    · cases h
  · cases h
    trivial
  · cases h
    trivial
  · split at h
    · cases h
      trivial
    · cases h
  · cases h
    trivial
  · cases h

theorem Literal.proper_of_negatedLeast? {t : Tree} {l : Literal} (h : Literal.negatedLeast? t = some l) : l.Proper := by
  unfold Literal.negatedLeast? at h
  split at h
  · split_ifs at h
    cases h
    exact .inr rfl
  · split_ifs at h
    cases h
    exact .inr rfl
  · cases h

/-- The operator of an assignment computes a number. -/
theorem isArithmetic_of_assignmentOp {t : Tree} {op : BinaryOp} (ht : t.Derived) (hr : t.rule = .assignmentOperator)
    (h : assignmentOp t = .ok (some op)) : op.isArithmetic = true := by
  obtain ⟨gaps, rs, hadmits⟩ := ht.spelled
  rw [hr] at hadmits
  have htext : t.text ∈ ["=", "+=", "-=", "*=", "/=", "%="] := by
    have hmem := hadmits.mem_of_symbols (by simp)
    rwa [String.ofList_toList] at hmem
  have hall : ∀ s ∈ ["=", "+=", "-=", "*=", "/=", "%="], s = "=" ∨ ∃ op : BinaryOp, op.isArithmetic = true ∧
      BinaryOp.ofSymbol? (String.ofList (s.toList.takeWhile (fun c => c != '='))) = some op := by
    intro s hs
    simp only [List.mem_cons, List.not_mem_nil, or_false] at hs
    rcases hs with rfl | rfl | rfl | rfl | rfl | rfl
    · exact .inl rfl
    · exact .inr ⟨.add, rfl, by decide⟩
    · exact .inr ⟨.sub, rfl, by decide⟩
    · exact .inr ⟨.mul, rfl, by decide⟩
    · exact .inr ⟨.div, rfl, by decide⟩
    · exact .inr ⟨.rem, rfl, by decide⟩
  rw [assignmentOp] at h
  rcases hall _ htext with heq | ⟨op', hop', hread⟩
  · rw [if_pos heq] at h
    cases h
  · split_ifs at h
    · cases h
    · rw [hread] at h
      cases h
      exact hop'

theorem eq_of_incrementOp {t : Tree} {op : BinaryOp} (h : incrementOp t = .ok op) : op = .add ∨ op = .sub := by
  unfold incrementOp at h
  split_ifs at h
  · cases h
    exact .inl rfl
  · cases h
    exact .inr rfl

namespace Expr

/-- A tree that is read as proper expressions only. -/
def ReadsProper (t : Tree) : Prop := ∀ e, Expr.ofTree t = .ok e → e.Proper

variable {ts : List Tree} {e e' : Expr}

theorem properAll_of_listOf (hts : ∀ t ∈ ts, ReadsProper t) {es : List Expr} (h : listOf ts = .ok es) :
    ProperAll es := by
  induction ts generalizing es with
  | nil =>
    cases h
    trivial
  | cons t ts ih =>
    simp only [listOf, except_bind_eq_ok, except_pure_eq_ok] at h
    obtain ⟨e, he, es', hes', rfl⟩ := h
    exact ⟨hts t (.head _) e he, ih (fun t' ht' => hts t' (.tail _ ht')) hes'⟩

/-- A chain of proper operands is proper. -/
theorem proper_of_chainOf (hts : ∀ t ∈ ts, ReadsProper t) (he : e.Proper) (h : chainOf e ts = .ok e') : e'.Proper := by
  induction hn : ts.length using Nat.strongRecOn generalizing ts e with
  | _ n ih =>
    match ts, h with
    | [], h =>
      cases h
      exact he
    | [op], h => cases h
    | op :: right :: more, h =>
      simp only [chainOf, except_bind_eq_ok] at h
      obtain ⟨op', -, right', hright, hmore⟩ := h
      have hboth : (binary op' e right').Proper := ⟨he, hts right (.tail _ (.head _)) right' hright⟩
      refine ih more.length ?_ (fun t ht => hts t (.tail _ (.tail _ ht))) hboth hmore rfl
      rw [← hn]
      simp only [List.length_cons]
      omega

theorem properAll_of_argumentsOf {t : Tree} (hts : ∀ t' ∈ t.children, ReadsProper t') {es : List Expr}
    (h : argumentsOf t = .ok es) : ProperAll es := by
  obtain ⟨r, start, text, ts⟩ := t
  rw [argumentsOf, expectAll_bind_eq_ok] at h
  exact properAll_of_listOf hts h.2

/-- An expression that is read from a derived tree is proper. -/
theorem proper_of_derived {t : Tree} (ht : t.Derived) : ReadsProper t ∧ ∀ t' ∈ t.children, ReadsProper t' := by
  induction t using Tree.ofChildren with
  | h r start text ts ih =>
    have hchildren : ∀ t ∈ ts, ReadsProper t ∧ ∀ t' ∈ t.children, ReadsProper t' := fun t h => ih t h (ht.children t h)
    have hone : ∀ t ∈ ts, ReadsProper t := fun t h => (hchildren t h).1
    refine ⟨fun e he => ?_, hone⟩
    unfold Expr.ofTree at he
    split at he
    · exact hone _ (.head _) e he
    · rename_i target op value
      rw [expect_bind_eq_ok] at he
      obtain ⟨hrules, he⟩ := he
      simp only [List.map_cons, List.cons.injEq] at hrules
      have htarget := isDotted_of_derived (ht.children target (.head _)) hrules.1
      simp only [except_bind_eq_ok] at he
      obtain ⟨op', hop', value', hvalue, he⟩ := he
      have hvalue' := hone value (.tail _ (.tail _ (.head _))) value' hvalue
      split at he
      · cases he
        exact ⟨Path.proper_of_isDotted htarget, hvalue'⟩
      · cases he
        refine ⟨?_, Path.proper_of_isDotted htarget, hvalue'⟩
        exact isArithmetic_of_assignmentOp (ht.children op (.tail _ (.head _))) hrules.2.1 hop'
    iterate 6
      · simp only [except_bind_eq_ok] at he
        obtain ⟨e₀, he₀, hmore⟩ := he
        exact proper_of_chainOf (fun t h => hone t (.tail _ h)) (hone _ (.head _) e₀ he₀) hmore
    · rename_i op operand _
      simp only [except_bind_eq_ok] at he
      obtain ⟨op', -, he⟩ := he
      split at he
      · rename_i l hl
        cases he
        exact Literal.proper_of_negatedLeast? hl
      · simp only [except_bind_eq_ok, except_pure_eq_ok] at he
        obtain ⟨operand', hoperand, rfl⟩ := he
        exact hone operand (.tail _ (.head _)) operand' hoperand
    · rename_i op target
      rw [expect_bind_eq_ok] at he
      simp only [except_bind_eq_ok, except_pure_eq_ok, List.map_cons, List.cons.injEq] at he
      obtain ⟨hrules, op', hop', rfl⟩ := he
      have htarget := isDotted_of_derived (ht.children target (.tail _ (.head _))) hrules.2.1
      exact ⟨eq_of_incrementOp hop', Path.proper_of_isDotted htarget⟩
    · rename_i target op
      rw [expect_bind_eq_ok] at he
      simp only [except_bind_eq_ok, except_pure_eq_ok, List.map_cons, List.cons.injEq] at he
      obtain ⟨hrules, op', hop', rfl⟩ := he
      have htarget := isDotted_of_derived (ht.children target (.head _)) hrules.1
      exact ⟨eq_of_incrementOp hop', Path.proper_of_isDotted htarget⟩
    · rename_i cls args
      rw [expect_bind_eq_ok] at he
      simp only [except_bind_eq_ok, except_pure_eq_ok, List.map_cons, List.cons.injEq] at he
      obtain ⟨hrules, args', hargs, rfl⟩ := he
      exact ⟨spells_of_derived (ht.children cls (.head _)) hrules.1,
        properAll_of_argumentsOf (hchildren args (.tail _ (.head _))).2 hargs⟩
    · rename_i type elements
      rw [expect_bind_eq_ok] at he
      simp only [except_bind_eq_ok, except_pure_eq_ok, List.map_cons, List.cons.injEq] at he
      obtain ⟨hrules, elements', helements, rfl⟩ := he
      exact ⟨isElement_of_derived (ht.children type (.head _)) hrules.1,
        properAll_of_listOf (fun t h => hone t (.tail _ h)) helements⟩
    · rename_i method args
      rw [expect_bind_eq_ok] at he
      simp only [except_bind_eq_ok, except_pure_eq_ok, List.map_cons, List.cons.injEq] at he
      obtain ⟨hrules, args', hargs, rfl⟩ := he
      exact ⟨Path.proper_of_isDotted (isDotted_of_derived (ht.children method (.head _)) hrules.1),
        properAll_of_argumentsOf (hchildren args (.tail _ (.head _))).2 hargs⟩
    · cases he
      exact Path.proper_of_isDotted (isDotted_of_derived ht rfl)
    · simp only [except_bind_eq_ok, except_pure_eq_ok] at he
      obtain ⟨l, hl, rfl⟩ := he
      exact Literal.proper_of_ofTree hl

end Expr

end StashMachine
