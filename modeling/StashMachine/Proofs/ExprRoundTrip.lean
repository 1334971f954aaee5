import StashMachine.Proofs.ReadBack
import StashMachine.Proofs.Spellings

/-!
# StashMachine.Proofs.ExprRoundTrip — writing an expression undoes reading it

* `Expr.isToken_of_written`: the tokens of a proper expression are tokens.
* `gives_endOfInput`, `parse?_of_gives`: a whole source that is laid out as tokens.
* `Expr.proper_of_parse`: an expression that is read from a source is proper.
* `expression_read_back`: every way to write an expression that was read from a source, with any gaps between its tokens,
  is read as that expression.
-/

namespace StashMachine

open Grammar Pattern

/-! ### Tokens -/

section Tokens

variable {t : Token} {x : Char} {cs : List Char}

theorem isToken_of_head (h : t.toList = x :: cs) (hspace : Cursor.isSpace x = false) (hslash : x ≠ '/') :
    isToken t = true := by
  simp [isToken, h, hspace, hslash]

/-- A name character begins a token. -/
theorem isToken_of_isNameChar (h : t.toList = x :: cs) (hx : isNameChar x = true) : isToken t = true := by
  refine isToken_of_head h ?_ ?_
  · cases hs : Cursor.isSpace x with
    | false => rfl
    | true =>
      have hloose : Loose [x] := by
        rintro y ys hy
        cases hy
        exact hs
      rw [hloose.apart x [] rfl] at hx
      cases hx
  · rintro rfl
    cases hx

/-- What begins with a word is a token. -/
theorem isToken_of_word {w ds : List Char} (hw : w ≠ []) (hchars : ∀ x ∈ w, isNameChar x = true)
    (h : t.toList = w ++ ds) : isToken t = true := by
  cases w with
  | nil => exact absurd rfl hw
  | cons x w => exact isToken_of_isNameChar h (hchars x (.head _))

theorem isToken_of_spells (h : Rule.identifier.Spells t.toList) : isToken t = true := by
  obtain ⟨⟨x, xs, ht, hx, -⟩, -⟩ := h
  exact isToken_of_isNameChar ht (isNameChar_of_isNameStart hx)

/-- The words of names and types are words. -/
theorem word_of_keyword {w : List Char} (h : String.ofList w ∈ keywords) : w ≠ [] ∧ ∀ x ∈ w, isNameChar x = true := by
  have hchars := isNameChar_of_mem_keywords _ h
  rw [String.toList_ofList] at hchars
  refine ⟨?_, hchars⟩
  rintro rfl
  revert h
  decide

theorem word_of_identifier {w : List Char} (h : Rule.identifier.Spells w) : w ≠ [] ∧ ∀ x ∈ w, isNameChar x = true := by
  refine ⟨?_, isNameChar_of_identifier h⟩
  obtain ⟨⟨x, xs, rfl, -⟩, -⟩ := h
  exact nofun

theorem isToken_of_isDotted (h : IsDotted t.toList) : isToken t = true := by
  obtain ⟨first, more, hfirst, -, ht⟩ := h
  have hword : first ≠ [] ∧ ∀ x ∈ first, isNameChar x = true := by
    rcases hfirst with hkeyword | hname
    · exact word_of_keyword ((by decide : ["this", "super"] ⊆ keywords) hkeyword)
    · exact word_of_identifier hname
  exact isToken_of_word hword.1 hword.2 ht

theorem isToken_of_isTypeWord {w ds : List Char} (h : IsTypeWord w) (ht : t.toList = w ++ ds) : isToken t = true := by
  have hword : w ≠ [] ∧ ∀ x ∈ w, isNameChar x = true := by
    rcases h with hkeyword | hname
    · exact word_of_keyword ((by decide : primitiveWords ⊆ keywords) hkeyword)
    · exact word_of_identifier hname
  exact isToken_of_word hword.1 hword.2 ht

theorem isToken_of_digits {ds : List Char} (hne : cs ≠ []) (hcs : ∀ x ∈ cs, x.isDigit = true)
    (ht : t.toList = cs ++ ds) : isToken t = true := by
  refine isToken_of_word hne (fun x hx => ?_) ht
  simp only [isNameChar, Char.isAlphanum, Bool.or_eq_true]
  exact .inl (.inl (.inr (hcs x hx)))

end Tokens

theorem forall_mem_bracketed {us : List Token} (h : ∀ t ∈ us, isToken t = true) :
    ∀ t ∈ bracketed us, isToken t = true := by
  intro t ht
  simp only [bracketed, List.mem_cons, List.mem_append, List.not_mem_nil, or_false] at ht
  rcases ht with rfl | ht | rfl
  · decide
  · exact h t ht
  · decide

theorem forall_mem_commas {uss : List (List Token)} (h : ∀ us ∈ uss, ∀ t ∈ us, isToken t = true) :
    ∀ t ∈ commas uss, isToken t = true := by
  cases uss with
  | nil => exact nofun
  | cons us uss =>
    intro t ht
    simp only [commas, List.mem_append, List.mem_flatMap, List.mem_cons] at ht
    rcases ht with ht | ⟨vs, hvs, rfl | ht⟩
    · exact h us (.head _) t ht
    · decide
    · exact h vs (.tail _ hvs) t ht

theorem Literal.isToken_of_written {l : Literal} {us : List Token} (h : l.Written us) : ∀ t ∈ us, isToken t = true := by
  have hdigits : ∀ {i : Int} {suffix : String}, 0 ≤ i → isToken (toString i ++ suffix) = true := by
    intro i suffix hi
    have ht : (toString i ++ suffix).toList = Nat.toDigits 10 i.toNat ++ suffix.toList := by
      rw [String.toList_append, toList_toString_of_nonneg hi]
    exact isToken_of_digits Nat.toDigits_ne_nil isDigit_of_mem_toDigits ht
  have hquotation : ∀ {quote : Char} {cs : List Char}, Cursor.isSpace quote = false → quote ≠ '/' →
      isToken (quotation quote cs) = true := fun hspace hslash => isToken_of_head String.toList_ofList hspace hslash
  cases l with
  | int n =>
    rcases h with ⟨hn, rfl⟩ | ⟨-, rfl⟩
    · rw [List.forall_mem_singleton, ← String.append_empty (s := toString n.toInt)]
      exact hdigits hn
    · decide
  | long n =>
    obtain ⟨suffix, hsuffix, ⟨hn, rfl⟩ | ⟨-, rfl⟩⟩ := h
    · rw [List.forall_mem_singleton]
      exact hdigits hn
    · rcases List.mem_pair.mp hsuffix with rfl | rfl <;> decide
  | double x => cases h
  | boolean b =>
    obtain rfl := h
    cases b <;> decide
  | char c =>
    obtain ⟨cs, -, rfl⟩ := h
    rw [List.forall_mem_singleton]
    exact hquotation rfl (by decide)
  | string s =>
    obtain ⟨cs, -, rfl⟩ := h
    rw [List.forall_mem_singleton]
    exact hquotation rfl (by decide)
  | null =>
    obtain rfl := h
    decide

namespace Expr

theorem forall_mem_of_placed {need level : Nat} {W : List Token → Prop} {us : List Token} (h : Placed need level W us)
    (hW : ∀ us, W us → ∀ t ∈ us, isToken t = true) : ∀ t ∈ us, isToken t = true := by
  unfold Placed at h
  split_ifs at h
  · obtain ⟨vs, hvs, rfl⟩ := h
    exact forall_mem_bracketed (hW vs hvs)
  · exact hW us h

theorem forall_mem_of_writtenAll {es : List Expr} {uss : List (List Token)}
    (ih : ∀ e ∈ es, e.Proper → ∀ us, e.Written us → ∀ t ∈ us, isToken t = true) (hes : ProperAll es)
    (h : WrittenAll es uss) : ∀ us ∈ uss, ∀ t ∈ us, isToken t = true := by
  obtain ⟨zs, rfl, rfl, hzs⟩ := exists_pairs h
  intro us hus
  obtain ⟨z, hz, rfl⟩ := List.mem_map.mp hus
  have hmem : z.1 ∈ zs.map Prod.fst := List.mem_map_of_mem hz
  exact ih z.1 hmem (properAll_iff.mp hes z.1 hmem) z.2 (hzs z hz)

/-- The tokens of a proper expression are tokens. -/
theorem isToken_of_written {e : Expr} {us : List Token} (he : e.Proper) (h : e.Written us) :
    ∀ t ∈ us, isToken t = true := by
  induction e using Expr.ofParts generalizing us with
  | literal l => exact Literal.isToken_of_written h
  | name p =>
    obtain rfl := h
    rw [List.forall_mem_singleton]
    exact isToken_of_isDotted he.dotted
  | assign p e ih =>
    obtain ⟨vs, hvs, rfl⟩ := h
    simp only [List.forall_mem_cons]
    exact ⟨isToken_of_isDotted he.1.dotted, by decide, ih he.2 hvs⟩
  | compound op p e ih =>
    obtain ⟨vs, hvs, rfl⟩ := h
    obtain ⟨-, hp, he⟩ := he
    simp only [List.forall_mem_cons]
    exact ⟨isToken_of_isDotted hp.dotted, by cases op <;> decide, ih he hvs⟩
  | increment op fix p =>
    have hop : isToken (op.symbol ++ op.symbol) = true := by
      rcases he.1 with rfl | rfl <;> decide
    cases fix with
    | pre =>
      obtain rfl := h
      simp only [List.forall_mem_cons]
      exact ⟨hop, isToken_of_isDotted he.2.dotted, nofun⟩
    | post =>
      obtain rfl := h
      simp only [List.forall_mem_cons]
      exact ⟨isToken_of_isDotted he.2.dotted, hop, nofun⟩
  | binary op l r ihl ihr =>
    obtain ⟨vs, ws, hvs, hws, rfl⟩ := h
    simp only [List.forall_mem_append, List.forall_mem_cons]
    refine ⟨forall_mem_of_placed hvs (fun us h => ihl he.1 h), ?_, forall_mem_of_placed hws (fun us h => ihr he.2 h)⟩
    cases op <;> decide
  | unary op e ih =>
    obtain ⟨vs, hvs, rfl⟩ := h
    simp only [List.forall_mem_cons]
    exact ⟨by cases op <;> decide, forall_mem_of_placed hvs (fun us h => ih he h)⟩
  | call p args ih =>
    obtain ⟨uss, huss, rfl⟩ := h
    have hall := forall_mem_of_writtenAll (fun e he hp us => ih e he hp) he.2 huss
    simp only [List.forall_mem_cons]
    exact ⟨isToken_of_isDotted he.1.dotted, forall_mem_bracketed (forall_mem_commas hall)⟩
  | new cls args ih =>
    obtain ⟨uss, huss, rfl⟩ := h
    have hall := forall_mem_of_writtenAll (fun e he hp us => ih e he hp) he.2 huss
    simp only [List.forall_mem_cons]
    exact ⟨by decide, isToken_of_spells he.1, forall_mem_bracketed (forall_mem_commas hall)⟩
  | array t es ih =>
    obtain ⟨uss, huss, rfl⟩ := h
    have hall := forall_mem_of_writtenAll (fun e he hp us => ih e he hp) he.2 huss
    simp only [List.forall_mem_cons, List.forall_mem_append]
    have htype : (t.text ++ "[]").toList = t.text.toList ++ "[]".toList := String.toList_append
    exact ⟨by decide, isToken_of_isTypeWord he.1.word htype, by decide, forall_mem_commas hall, by decide, nofun⟩
  | void => cases h

end Expr

/-! ### Whole sources -/

/-- The end of a source. -/
theorem gives_endOfInput : Gives (rule .endOfInput) [] [] (fun ts => ∃ t, ts = [t] ∧ t.rule = .endOfInput) := by
  intro c hc
  have hstop : Yields .free Rule.endOfInput.body c (.matched c []) := .stop hc.rest_nil
  refine ⟨c, _, .rule hstop, ?_, _, rfl, rfl⟩
  rwa [hc.skip]

/-- The tree of a source that is laid out as tokens. -/
theorem parse?_of_gives {r : Rule} {p : Pattern} {us : List Token} {text : String} {P : List Tree → Prop}
    (hr : r.spacing = .free) (hbody : r.body = seq start (seq p (rule .endOfInput))) (hp : Gives p us [] P)
    (hus : ∀ t ∈ us, isToken t = true) (htext : Laid us text.toList) :
    ∃ start text' ts e, parse? r text = some (.node r start text' (ts ++ [e])) ∧ P ts ∧ e.rule = .endOfInput := by
  have hat : At us (Cursor.start text) := ⟨htext, hus⟩
  obtain ⟨d, _, hyields, -, ts, _, rfl, hts, e, rfl, he⟩ := (hp.seq gives_endOfInput) _ hat
  have hstart : Yields .free start (Cursor.start text) (.matched (Cursor.start text) []) := .start rfl
  have hall : Yields .free r.body (Cursor.start text) (.matched d ([] ++ (ts ++ [e]))) := by
    rw [hbody]
    refine .seq hstart ?_
    rwa [hat.skipUnder]
  have hgaps : Spacing.within .free r.spacing = .free := by rw [hr]; rfl
  have hnode := Yields.rule (hgaps.symm ▸ hall)
  rw [hr] at hnode
  exact ⟨_, _, ts, e, parse?_eq_some.mpr ⟨d, hnode⟩, hts, he⟩

namespace Expr

/-- An expression that is read from a source is proper. -/
theorem proper_of_parse {source : String} {e : Expr} (h : Expr.parse source = .ok e) : e.Proper := by
  unfold Expr.parse readSource at h
  split at h
  · cases h
  · rename_i t ht
    obtain ⟨d, hyields⟩ := parse?_eq_some.mp ht
    have hrule : t.rule = .expressionEntry := (parse?_grown ht).1
    have hderived : t.Derived := ⟨_, _, _, hrule.symm ▸ hyields⟩
    obtain ⟨r, start, text, ts⟩ := t
    cases hread : Expr.ofEntry (.node r start text ts) with
    | error m => simp [hread, Except.mapError] at h
    | ok e' =>
      rw [hread] at h
      cases h
      unfold Expr.ofEntry at hread
      split at hread
      · rename_i e₀ _ heq
        cases heq
        rw [expect_bind_eq_ok] at hread
        exact (proper_of_derived (hderived.children e₀ (.head _))).1 e hread.2
      · cases hread

/-- A way to write a proper expression, with any gaps between its tokens, is read as the expression. -/
theorem parse_of_written {e : Expr} {us : List Token} {text : String} (he : e.Proper) (h : e.Written us)
    (htext : Laid us text.toList) : Expr.parse text = .ok e := by
  have hgives : Gives (rule .expression) us [] (ReadsAs e) := by
    have hoperand := (Expr.readable he h).operand 0 (Nat.zero_le _) [] nofun
    rwa [List.append_nil] at hoperand
  obtain ⟨start, text', _, last, hparse, ⟨⟨t, rfl, ht⟩, hrules⟩, hlast⟩ :=
    parse?_of_gives (r := .expressionEntry) rfl rfl (hgives.rule_eq .expression rfl) (isToken_of_written he h) htext
  have hread : Expr.ofEntry (.node .expressionEntry start text' ([t] ++ [last])) = .ok e := by
    rw [List.singleton_append, Expr.ofEntry, expect_bind (by simp [hrules t (.head _), hlast]), ht]
  rw [Expr.parse, readSource, hparse]
  simp only [hread, Except.mapError]

end Expr

/-- Writing an expression undoes reading it.  Take an expression that is read from a source and holds no double.  There are
ways to write it, and every one of them, with any gaps between its tokens, is read as the expression. -/
theorem expression_read_back {source : String} {e : Expr} (hparse : Expr.parse source = .ok e)
    (hdouble : e.hasDouble = false) : (∃ us, e.Written us) ∧
      ∀ us text, e.Written us → Laid us text.toList → Expr.parse text = .ok e := by
  have hproper := Expr.proper_of_parse hparse
  exact ⟨⟨e.tokens, Expr.written_tokens hproper hdouble⟩,
    fun us text hus htext => Expr.parse_of_written hproper hus htext⟩

/-- Brackets that are needed, the smallest `int`, an escaped quotation mark, and gaps with comments of both kinds. -/
theorem expression_read_back_commented : ∃ e, Expr.parse "x=a-(-2147483648-'\\'')" = .ok e ∧ e.hasDouble = false ∧
    e.tokens = ["x", "=", "a", "-", "(", "-", "2147483648", "-", "'\\''", ")"] ∧
    Expr.parse "x /*=*/= a - ( - //-\n2147483648\t- '\\'' )" = .ok e := by
  have hread : (Expr.parse "x=a-(-2147483648-'\\'')").toOption.any (fun e => !e.hasDouble &&
      e.tokens == ["x", "=", "a", "-", "(", "-", "2147483648", "-", "'\\''", ")"]) = true := by decide +kernel
  obtain ⟨e, he, htokens⟩ := (Option.any_eq_true _ _).mp hread
  simp only [Bool.and_eq_true, Bool.not_eq_true', beq_iff_eq] at htokens
  obtain ⟨hdouble, htokens⟩ := htokens
  have hparse := eq_ok_of_toOption he
  have hblank : IsGap [' '] := ⟨' ', [], rfl, rfl, .nil⟩
  have hblock : IsGap (' ' :: '/' :: '*' :: (['='] ++ '*' :: '/' :: [])) :=
    ⟨' ', _, rfl, rfl, .block (by decide) .nil⟩
  have hline : IsGap (' ' :: '/' :: '/' :: (['-'] ++ '\n' :: [])) := ⟨' ', _, rfl, rfl, .line (by decide) .nil⟩
  have htab : IsGap ['\t'] := ⟨'\t', [], rfl, rfl, .nil⟩
  have hlaid : Laid e.tokens "x /*=*/= a - ( - //-\n2147483648\t- '\\'' )".toList := by
    rw [htokens]
    exact .more hblock (.more hblank (.more hblank (.more hblank (.more hblank (.more hline (.more htab (.more hblank
      (.more hblank .last))))))))
  have hwritten := Expr.written_tokens (Expr.proper_of_parse hparse) hdouble
  exact ⟨e, hparse, hdouble, htokens, (expression_read_back hparse hdouble).2 _ _ hwritten hlaid⟩

end StashMachine
