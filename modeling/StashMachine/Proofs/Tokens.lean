import StashMachine.Proofs.Derivation

/-!
# StashMachine.Proofs.Tokens — sources laid out as tokens

A text is laid out as a sequence of tokens if a gap stands between any two of them: a character of white space, and
then more white space and complete comments.

* `Blank`, `IsGap`, `Laid tokens text`: what a gap is, and a text laid out with any gaps.
* `At s c`: from the place `c` on, the source is laid out as the tokens `s`.
* `Gives p s s' P`: where the tokens are `s`, the pattern matches down to the tokens `s'` and leaves nodes with the
  property `P`; `Fails p s`: it fails there.  There is one lemma for each way patterns are put together.
-/

namespace StashMachine
namespace Grammar

open Cursor

/-! ### Gaps -/

/-- White space and complete comments, as many as there are. -/
inductive Blank : List Char → Prop
  | nil : Blank []
  | space {x : Char} {cs : List Char} : isSpace x = true → Blank cs → Blank (x :: cs)
  | line {body cs : List Char} : '\n' ∉ body → Blank cs → Blank ('/' :: '/' :: (body ++ '\n' :: cs))
  | block {body cs : List Char} : ¬ ['*', '/'] <:+: body → Blank cs → Blank ('/' :: '*' :: (body ++ '*' :: '/' :: cs))

/-- What stands between two tokens: a character of white space, and then white space and complete comments. -/
def IsGap (gap : List Char) : Prop := ∃ x cs, gap = x :: cs ∧ isSpace x = true ∧ Blank cs

/-- A word, a dotted name, a type, a literal or a symbol. -/
abbrev Token := String

/-- The text is laid out as the tokens, with a gap between any two of them. -/
inductive Laid : List Token → List Char → Prop
  | nil : Laid [] []
  | last {t : Token} : Laid [t] t.toList
  | more {t u : Token} {s : List Token} {gap cs : List Char} : IsGap gap → Laid (u :: s) cs →
    Laid (t :: u :: s) (t.toList ++ (gap ++ cs))

/-- Tokens are not empty and begin with neither white space nor a comment. -/
def isToken (t : Token) : Bool :=
  match t.toList with
  | [] => false
  | x :: xs => !isSpace x && (x != '/' || xs.isEmpty || xs == ['='])

/-- Nothing follows, or white space. -/
def Loose (cs : List Char) : Prop := ∀ x xs, cs = x :: xs → isSpace x = true

namespace Cursor

variable {i o : Nat} {rest : List Char}

theorem skipFrom_line {body : List Char} (hbody : '\n' ∉ body) :
    ∃ i' o', skipFrom .line i o (body ++ '\n' :: rest) = skipFrom .blank i' o' rest := by
  induction body generalizing i o with
  | nil => exact ⟨i + 1, o + 1, rfl⟩
  | cons x body ih =>
    have hx : x ≠ '\n' := fun h => hbody (h ▸ .head _)
    obtain ⟨i', o', hskip⟩ := @ih (i + 1) (o + x.utf8Size) (fun h => hbody (.tail _ h))
    refine ⟨i', o', ?_⟩
    rw [List.cons_append, skipFrom, if_neg hx, hskip]

theorem skipFrom_block {body : List Char} {opened : Cursor} (hbody : ¬ ['*', '/'] <:+: body) :
    ∃ i' o', skipFrom (.block opened) i o (body ++ '*' :: '/' :: rest) = skipFrom .blank i' o' rest := by
  induction body generalizing i o with
  | nil => exact ⟨i + 2, o + 2, rfl⟩
  | cons x body ih =>
    have htail : ¬ ['*', '/'] <:+: body := fun h => hbody (h.trans (List.suffix_cons _ _).isInfix)
    obtain ⟨i', o', hskip⟩ := @ih (i + 1) (o + x.utf8Size) htail
    refine ⟨i', o', ?_⟩
    -- the end of the comment is not here: else it would be inside the body
    have hopen : ∀ r, x = '*' → body ++ '*' :: '/' :: rest = '/' :: r → False := by
      rintro r rfl hr
      cases body with
      | nil => cases hr
      | cons y body =>
        cases hr
        exact hbody ⟨[], body, rfl⟩
    rw [List.cons_append, skipFrom.eq_6 _ _ _ _ _ hopen]
    exact hskip

/-- No comment begins with white space. -/
theorem skipFrom_space {x : Char} (hx : isSpace x = true) :
    skipFrom .blank i o (x :: rest) = skipFrom .blank (i + 1) (o + x.utf8Size) rest := by
  have hslash : x ≠ '/' := by
    rintro rfl
    cases hx
  rw [skipFrom.eq_3 _ _ _ _ (fun _ h => absurd h hslash) (fun _ h => absurd h hslash), if_pos hx]

/-- White space and complete comments are passed over. -/
theorem skipFrom_blank {gap : List Char} (h : Blank gap) :
    ∃ i' o', skipFrom .blank i o (gap ++ rest) = skipFrom .blank i' o' rest := by
  induction h generalizing i o with
  | nil => exact ⟨i, o, rfl⟩
  | space hx _ ih =>
    rw [List.cons_append, skipFrom_space hx]
    exact ih
  | line hbody _ ih =>
    rw [List.cons_append, List.cons_append, skipFrom, List.append_assoc, List.cons_append]
    obtain ⟨i', o', hskip⟩ := skipFrom_line hbody
    rw [hskip]
    exact ih
  | block hbody _ ih =>
    rw [List.cons_append, List.cons_append, skipFrom, List.append_assoc, List.cons_append, List.cons_append]
    obtain ⟨i', o', hskip⟩ := skipFrom_block hbody
    rw [hskip]
    exact ih

theorem skipFrom_gap {gap : List Char} (h : IsGap gap) :
    ∃ i' o', skipFrom .blank i o (gap ++ rest) = skipFrom .blank i' o' rest := by
  obtain ⟨x, cs, rfl, hx, hcs⟩ := h
  exact skipFrom_blank (.space hx hcs)

end Cursor

theorem IsGap.loose {gap cs : List Char} (h : IsGap gap) : Loose (gap ++ cs) := by
  obtain ⟨x, xs, rfl, hx, -⟩ := h
  rintro y ys hy
  cases hy
  exact hx

theorem Loose.nil : Loose [] := nofun

/-- There is no gap in front of a token. -/
theorem skipFrom_token {t : Token} {tail : List Char} {i o : Nat} (ht : isToken t = true) (htail : Loose tail) :
    skipFrom .blank i o (t.toList ++ tail) = ⟨i, o, t.toList ++ tail⟩ := by
  unfold isToken at ht
  split at ht
  · cases ht
  · rename_i x xs hxs
    simp only [Bool.and_eq_true, Bool.not_eq_true', Bool.or_eq_true, bne_iff_ne, ne_eq, List.isEmpty_iff,
      beq_iff_eq] at ht
    obtain ⟨hx, ht⟩ := ht
    -- behind a slash stands nothing, white space or an equals sign
    have hslash : ∀ y r, x = '/' → xs ++ tail = y :: r → y ≠ '/' ∧ y ≠ '*' := by
      rintro y r rfl hy
      rcases ht with (hne | rfl) | rfl
      · exact absurd rfl hne
      · have hspace := htail y r hy
        constructor <;> (rintro rfl; cases hspace)
      · cases hy
        decide
    rw [hxs, List.cons_append, skipFrom.eq_3 _ _ _ _ (fun r hc hr => (hslash _ r hc hr).1 rfl)
      (fun r hc hr => (hslash _ r hc hr).2 rfl), hx]
    rfl

/-! ### Places in front of tokens -/

/-- From the place on, the source is laid out as the tokens. -/
structure At (s : List Token) (c : Cursor) : Prop where
  laid : Laid s c.rest
  tokens : ∀ t ∈ s, isToken t = true

namespace At

variable {s : List Token} {t : Token} {c d : Cursor}

theorem rest_nil (h : At [] c) : c.rest = [] := by
  have hlaid := h.laid
  generalize hrest : c.rest = rest at hlaid
  cases hlaid
  rfl

/-- A token, and what follows it. -/
theorem cons (h : At (t :: s) c) :
    ∃ tail, c.rest = t.toList ++ tail ∧ Loose tail ∧ ∀ d : Cursor, d.rest = tail → At s d.skip := by
  have hlaid := h.laid
  generalize hrest : c.rest = rest at hlaid
  cases hlaid with
  | last =>
    refine ⟨[], by rw [List.append_nil], .nil, fun d hd => ?_⟩
    have hskip : d.skip = ⟨d.index, d.offset, []⟩ := by
      rw [skip, hd, skipFrom]
    rw [hskip]
    exact ⟨.nil, nofun⟩
  | @more t u s gap cs hgap hcs =>
    refine ⟨gap ++ cs, rfl, hgap.loose, fun d hd => ?_⟩
    obtain ⟨i', o', hskip⟩ := @skipFrom_gap d.index d.offset cs gap hgap
    have hu : isToken u = true := h.tokens u (by simp)
    have hnext : skipFrom .blank i' o' cs = ⟨i', o', cs⟩ := by
      cases hcs with
      | last =>
        have hlast := @skipFrom_token u [] i' o' hu .nil
        rwa [List.append_nil] at hlast
      | more hgap' _ => exact skipFrom_token hu hgap'.loose
    rw [skip, hd, hskip, hnext]
    exact ⟨hcs, fun t' ht' => h.tokens t' (.tail _ ht')⟩

/-- There is no gap in front of a token, or at the end. -/
theorem skip (h : At s c) : c.skip = c := by
  cases s with
  | nil => rw [Cursor.skip, h.rest_nil, skipFrom, ← h.rest_nil]
  | cons t s =>
    obtain ⟨tail, hrest, hloose, -⟩ := h.cons
    rw [Cursor.skip, hrest, skipFrom_token (h.tokens t (.head _)) hloose, ← hrest]

theorem skipUnder (h : At s c) (gaps : Spacing) : c.skipUnder gaps = c := by
  unfold Cursor.skipUnder
  split_ifs
  · exact h.skip
  · rfl

/-- Behind a part of a token, the rest of it is the next token. -/
theorem of_part {u v : Token} (h : At (t :: s) c) (ht : t.toList = u.toList ++ v.toList) (hv : isToken v = true)
    (hd : c.Reads u.toList d) : At (v :: s) d := by
  have hrest : v.toList ++ c.rest.drop t.toList.length = d.rest := by
    obtain ⟨tail, htail, -⟩ := h.cons
    rw [htail, List.drop_left]
    rw [hd.rest, ht, List.append_assoc] at htail
    exact (List.append_cancel_left htail).symm
  have hlaid := h.laid
  refine ⟨?_, fun t' ht' => ?_⟩
  · generalize hrest' : c.rest = rest at hlaid
    rw [← hrest, hrest']
    cases hlaid with
    | last =>
      rw [List.drop_length, List.append_nil]
      exact .last
    | more hgap hcs =>
      rw [List.drop_left]
      exact .more hgap hcs
  · rcases List.mem_cons.mp ht' with rfl | ht'
    · exact hv
    · exact h.tokens t' (.tail _ ht')

end At

/-! ### Matching tokens -/

/-- Where the tokens are `s`, the pattern matches down to the tokens `s'` and leaves nodes with the property. -/
def Gives (p : Pattern) (s s' : List Token) (P : List Tree → Prop) : Prop :=
  ∀ c, At s c → ∃ d ts, p.Yields .free c (.matched d ts) ∧ At s' d.skip ∧ P ts

/-- Where the tokens are `s`, the pattern fails. -/
def Fails (p : Pattern) (s : List Token) : Prop := ∀ c, At s c → p.Yields .free c .failed

/-- No nodes. -/
def Bare (ts : List Tree) : Prop := ts = []

/-- Nodes with one property, and then nodes with another one. -/
def Then (P Q : List Tree → Prop) (ts : List Tree) : Prop := ∃ us vs, ts = us ++ vs ∧ P us ∧ Q vs

/-- One node of a rule, whose nodes have the property. -/
def Node (r : Rule) (P : List Tree → Prop) (ts : List Tree) : Prop :=
  ∃ start text us, ts = [.node r start text us] ∧ P us

/-- One node of a rule, which has a text and no nodes. -/
def Leaf (r : Rule) (text : String) (ts : List Tree) : Prop := ∃ start, ts = [.node r start text []]

section Rules

variable {p q : Pattern} {s s' s'' : List Token} {t : Token} {P Q : List Tree → Prop} {r : Rule}

theorem Gives.mono (h : Gives p s s' P) (hPQ : ∀ ts, P ts → Q ts) : Gives p s s' Q := by
  intro c hc
  obtain ⟨d, ts, hp, hd, hts⟩ := h c hc
  exact ⟨d, ts, hp, hd, hPQ ts hts⟩

/-- The nodes of a match have the rules that the pattern asks for. -/
theorem Gives.rule_eq (h : Gives p s s' P) (r : Rule) (hp : p.allRules (fun r' => r' == r) = true) :
    Gives p s s' (fun ts => P ts ∧ ∀ t ∈ ts, t.rule = r) := by
  intro c hc
  obtain ⟨d, ts, hyields, hd, hts⟩ := h c hc
  exact ⟨d, ts, hyields, hd, hts, hyields.rule_eq r hp⟩

theorem Gives.rule_mem (h : Gives p s s' P) (rs : List Rule) (hp : p.allRules rs.contains = true) :
    Gives p s s' (fun ts => P ts ∧ ∀ t ∈ ts, t.rule ∈ rs) := by
  intro c hc
  obtain ⟨d, ts, hyields, hd, hts⟩ := h c hc
  exact ⟨d, ts, hyields, hd, hts, hyields.rule_mem rs hp⟩

theorem Gives.seq (hp : Gives p s s' P) (hq : Gives q s' s'' Q) : Gives (.seq p q) s s'' (Then P Q) := by
  intro c hc
  obtain ⟨d, ts, hp, hd, hts⟩ := hp c hc
  obtain ⟨e, us, hq, he, hus⟩ := hq _ hd
  exact ⟨e, ts ++ us, .seq hp hq, he, ts, us, rfl, hts, hus⟩

/-- A part that leaves no nodes, and then one that does. -/
theorem Gives.before (hp : Gives p s s' Bare) (hq : Gives q s' s'' Q) : Gives (.seq p q) s s'' Q := by
  refine (hp.seq hq).mono ?_
  rintro _ ⟨us, vs, rfl, rfl, hvs⟩
  exact hvs

/-- A part that leaves nodes, and then one that leaves none. -/
theorem Gives.after (hp : Gives p s s' P) (hq : Gives q s' s'' Bare) : Gives (.seq p q) s s'' P := by
  refine (hp.seq hq).mono ?_
  rintro _ ⟨us, vs, rfl, hus, rfl⟩
  rwa [List.append_nil]

theorem Gives.altFirst (hp : Gives p s s' P) : Gives (.alt p q) s s' P := by
  intro c hc
  obtain ⟨d, ts, hp, hd, hts⟩ := hp c hc
  exact ⟨d, ts, .altFirst hp, hd, hts⟩

theorem Gives.altSecond (hp : Fails p s) (hq : Gives q s s' P) : Gives (.alt p q) s s' P := by
  intro c hc
  obtain ⟨d, ts, hq, hd, hts⟩ := hq c hc
  exact ⟨d, ts, .altSecond (hp c hc) hq, hd, hts⟩

theorem Gives.optSome (hp : Gives p s s' P) : Gives (.opt p) s s' P := by
  intro c hc
  obtain ⟨d, ts, hp, hd, hts⟩ := hp c hc
  exact ⟨d, ts, .optSome hp, hd, hts⟩

theorem Gives.optNone (hp : Fails p s) : Gives (.opt p) s s Bare := by
  intro c hc
  refine ⟨c, [], .optNone (hp c hc), ?_, rfl⟩
  rwa [hc.skip]

theorem Gives.manyNone (hp : Fails p s) : Gives (.many p) s s Bare := by
  intro c hc
  refine ⟨c, [], .manyNone (hp c hc), ?_, rfl⟩
  rwa [hc.skip]

/-- One round more. -/
theorem Gives.manyMore (hp : Gives p s s' P) (hmany : Gives (.many p) s' s'' Q) :
    Gives (.many p) s s'' (Then P Q) := by
  intro c hc
  obtain ⟨d, ts, hp, hd, hts⟩ := hp c hc
  obtain ⟨f, vs, hrest, hf, hvs⟩ := hmany _ hd
  -- a repetition that stops at once gives the gap in front of it back
  have hmore : ∀ {e us}, p.Yields .free d.skip (.matched e us) →
      ∃ d' ts', (Pattern.many p).Yields .free c (.matched d' ts') ∧ At s'' d'.skip ∧ Then P Q ts' :=
    fun hround => ⟨f, ts ++ vs, .manyMore hp hround hrest, hf, ts, vs, rfl, hts, hvs⟩
  cases hrest with
  | manyNone hfailed =>
    refine ⟨d, ts, .manyLast hp hfailed, ?_, ts, [], by rw [List.append_nil], hts, hvs⟩
    rwa [hd.skip] at hf
  | manyLast hround hfailed => exact hmore hround
  | manyMore hround _ _ => exact hmore hround

theorem Gives.rule (hr : r.spacing = .free) (h : Gives r.body s s' P) : Gives (.rule r) s s' (Node r P) := by
  intro c hc
  obtain ⟨d, ts, hbody, hd, hts⟩ := h c hc
  have hgaps : Spacing.within .free r.spacing = .free := by rw [hr]; rfl
  have hfree : (r.spacing == .atomic) = false := by rw [hr]; rfl
  have hrule := Pattern.Yields.rule (hgaps.symm ▸ hbody)
  rw [hfree] at hrule
  exact ⟨d, _, hrule, hd, c.offset, c.textTo d, ts, rfl, hts⟩

theorem Fails.rule (hr : r.spacing = .free) (h : Fails r.body s) : Fails (.rule r) s := by
  intro c hc
  have hgaps : Spacing.within .free r.spacing = .free := by rw [hr]; rfl
  exact .ruleFailed (hgaps.symm ▸ h c hc)

theorem Fails.seqFirst (hp : Fails p s) : Fails (.seq p q) s := fun c hc => .seqFirst (hp c hc)

theorem Fails.seqSecond (hp : Gives p s s' P) (hq : Fails q s') : Fails (.seq p q) s := by
  intro c hc
  obtain ⟨d, ts, hp, hd, -⟩ := hp c hc
  exact .seqSecond hp (hq _ hd)

theorem Fails.alt (hp : Fails p s) (hq : Fails q s) : Fails (.alt p q) s :=
  fun c hc => .altSecond (hp c hc) (hq c hc)

end Rules

/-! ### Lists -/

/-- Texts with commas between them. -/
def commas : List (List Token) → List Token
  | [] => []
  | us :: uss => us ++ uss.flatMap (fun vs => "," :: vs)

section Lists

variable {α : Type} {Q : α → List Tree → Prop} {text : α → List Token} {p : Pattern} {t : Token} {s : List Token}

/-- Nodes for the members of a list, one after the other. -/
def Each (Q : α → List Tree → Prop) : List α → List Tree → Prop
  | [] => Bare
  | x :: xs => Then (Q x) (Each Q xs)

/-- The rounds of a list behind its first member. -/
theorem gives_rounds {xs : List α} (ht : Fails (.lit ",") (t :: s)) (hcomma : ∀ s, Gives (.lit ",") ("," :: s) s Bare)
    (hxs : ∀ x ∈ xs, ∀ s', s' = t :: s ∨ (∃ s'', s' = "," :: s'') → Gives p (text x ++ s') s' (Q x)) :
    Gives (.many (.seq (.lit ",") p)) (xs.flatMap (fun x => "," :: text x) ++ t :: s) (t :: s) (Each Q xs) := by
  induction xs with
  | nil => exact .manyNone ht.seqFirst
  | cons x xs ih =>
    have hrest := ih (fun y hy => hxs y (.tail _ hy))
    have hnext : xs.flatMap (fun x => "," :: text x) ++ t :: s = t :: s ∨
        ∃ s'', xs.flatMap (fun x => "," :: text x) ++ t :: s = "," :: s'' := by
      cases xs with
      | nil => exact .inl rfl
      | cons y ys => exact .inr ⟨_, rfl⟩
    have hround := (hcomma _).before (hxs x (.head _) _ hnext)
    rw [List.flatMap_cons, List.append_assoc]
    exact hround.manyMore hrest

/-- The members of a list with commas between them. -/
theorem gives_separated {x : α} {xs : List α} (ht : Fails (.lit ",") (t :: s))
    (hcomma : ∀ s, Gives (.lit ",") ("," :: s) s Bare)
    (hxs : ∀ y ∈ x :: xs, ∀ s', s' = t :: s ∨ (∃ s'', s' = "," :: s'') → Gives p (text y ++ s') s' (Q y)) :
    Gives (.separated "," p) (commas ((x :: xs).map text) ++ t :: s) (t :: s) (Each Q (x :: xs)) := by
  have hrest := gives_rounds ht hcomma (fun y hy => hxs y (.tail _ hy))
  have hnext : xs.flatMap (fun x => "," :: text x) ++ t :: s = t :: s ∨
      ∃ s'', xs.flatMap (fun x => "," :: text x) ++ t :: s = "," :: s'' := by
    cases xs with
    | nil => exact .inl rfl
    | cons y ys => exact .inr ⟨_, rfl⟩
  rw [List.map_cons, commas, List.flatMap_map, List.append_assoc]
  exact (hxs x (.head _) _ hnext).seq hrest

end Lists

end Grammar
end StashMachine
