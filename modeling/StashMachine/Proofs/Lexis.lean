import StashMachine.Proofs.Tokens
import StashMachine.Syntax.OfTree
import Mathlib.Data.List.Find

/-!
# StashMachine.Proofs.Lexis — how tokens are read

Where no gaps are allowed, a pattern reads characters one after the other.

* `Takes p cs tail`: the pattern reads exactly the characters `cs` in front of `tail`; `Refuses p cs`: it fails in
  front of the characters.  There is one lemma for each way patterns are put together.
* `Gives.leaf`, `Gives.leafPart`: a rule that takes the characters of a token, or of its beginning, leaves a leaf.
* `takes_words`, `takes_identifier`, `takes_dotted`, `takes_typeText`: words, names, dotted names and types.
* `IsDotted`, `IsTypeWord`, `IsTypeText`: the spellings of dotted names and of types.
-/

namespace StashMachine
namespace Grammar

open Pattern

/-! ### Reading without gaps -/

/-- Without gaps, the pattern reads exactly the characters `cs` in front of `tail`. -/
def Takes (p : Pattern) (cs tail : List Char) : Prop :=
  ∀ c : Cursor, c.rest = cs ++ tail → ∃ d ts, p.Yields .atomic c (.matched d ts) ∧ c.Reads cs d

/-- Without gaps, the pattern fails in front of the characters. -/
def Refuses (p : Pattern) (cs : List Char) : Prop := ∀ c : Cursor, c.rest = cs → p.Yields .atomic c .failed

theorem Cursor.accept?_append {cs tail : List Char} {c : Cursor} (h : c.rest = cs ++ tail) :
    ∃ d, c.accept? cs = some d ∧ c.Reads cs d := by
  induction cs generalizing c with
  | nil => exact ⟨c, rfl, .refl c⟩
  | cons x cs ih =>
    obtain ⟨d, hd, hreads⟩ := @ih (c.past x (cs ++ tail)) rfl
    refine ⟨d, ?_, (Cursor.Reads.past h).trans hreads⟩
    simp only [accept?, h, List.cons_append, if_true]
    exact hd

theorem Cursor.accept?_eq_none_of {cs : List Char} {c : Cursor} (h : ¬ cs <+: c.rest) : c.accept? cs = none := by
  cases hd : c.accept? cs with
  | none => rfl
  | some d => exact absurd ⟨d.rest, (Cursor.reads_of_accept? hd).rest.symm⟩ h

section Rules

variable {p q : Pattern} {cs ds tail : List Char} {x : Char} {test : Char → Bool} {r : Rule}

theorem takes_text : Takes (.text cs) cs tail := by
  intro c hc
  obtain ⟨d, hd, hreads⟩ := Cursor.accept?_append hc
  exact ⟨d, [], .text hd, hreads⟩

theorem takes_char (hx : test x = true) : Takes (.char test) [x] tail := by
  intro c hc
  refine ⟨c.past x tail, [], .char ?_, .past hc⟩
  simp only [Cursor.satisfy?, hc, List.singleton_append, hx, if_true]

theorem Takes.seq (hp : Takes p cs (ds ++ tail)) (hq : Takes q ds tail) : Takes (.seq p q) (cs ++ ds) tail := by
  intro c hc
  rw [List.append_assoc] at hc
  obtain ⟨d, ts, hp, hd⟩ := hp c hc
  have hrest : d.rest = ds ++ tail := List.append_cancel_left (hd.rest.symm.trans hc)
  obtain ⟨e, us, hq, he⟩ := hq d hrest
  exact ⟨e, ts ++ us, .seq hp hq, hd.trans he⟩

theorem Takes.altFirst (hp : Takes p cs tail) : Takes (.alt p q) cs tail := by
  intro c hc
  obtain ⟨d, ts, hp, hd⟩ := hp c hc
  exact ⟨d, ts, .altFirst hp, hd⟩

theorem Takes.altSecond (hp : Refuses p (cs ++ tail)) (hq : Takes q cs tail) : Takes (.alt p q) cs tail := by
  intro c hc
  obtain ⟨d, ts, hq, hd⟩ := hq c hc
  exact ⟨d, ts, .altSecond (hp c hc) hq, hd⟩

theorem Takes.optSome (hp : Takes p cs tail) : Takes (.opt p) cs tail := by
  intro c hc
  obtain ⟨d, ts, hp, hd⟩ := hp c hc
  exact ⟨d, ts, .optSome hp, hd⟩

theorem Refuses.opt (hp : Refuses p tail) : Takes (.opt p) [] tail :=
  fun c hc => ⟨c, [], .optNone (hp c hc), .refl c⟩

theorem Refuses.many (hp : Refuses p tail) : Takes (.many p) [] tail :=
  fun c hc => ⟨c, [], .manyNone (hp c hc), .refl c⟩

theorem Refuses.avoid (hp : Refuses p tail) : Takes (.avoid p) [] tail :=
  fun c hc => ⟨c, [], .avoid (hp c hc), .refl c⟩

theorem Takes.manyMore (hp : Takes p cs (ds ++ tail)) (hmany : Takes (.many p) ds tail) :
    Takes (.many p) (cs ++ ds) tail := by
  intro c hc
  rw [List.append_assoc] at hc
  obtain ⟨d, ts, hp, hd⟩ := hp c hc
  have hrest : d.rest = ds ++ tail := List.append_cancel_left (hd.rest.symm.trans hc)
  obtain ⟨e, us, hrest, he⟩ := hmany d hrest
  cases hrest with
  | manyNone hfailed => exact ⟨d, ts, .manyLast hp hfailed, hd.trans he⟩
  | manyLast hround hfailed => exact ⟨e, ts ++ us, .manyMore hp hround (.manyLast hround hfailed), hd.trans he⟩
  | manyMore hround hnext hlast =>
    exact ⟨e, _, .manyMore hp hround (.manyMore hround hnext hlast), hd.trans he⟩

theorem Takes.tight (hp : Takes p cs tail) : Takes (.tight p) cs tail := by
  intro c hc
  obtain ⟨d, ts, hp, hd⟩ := hp c hc
  exact ⟨d, [], .tight hp, hd⟩

theorem Takes.rule (hr : r.spacing = .atomic) (h : Takes r.body cs tail) : Takes (.rule r) cs tail := by
  intro c hc
  obtain ⟨d, ts, hbody, hd⟩ := h c hc
  have hgaps : Spacing.within .atomic r.spacing = .atomic := by rw [hr]; rfl
  exact ⟨d, _, .rule (hgaps.symm ▸ hbody), hd⟩

theorem refuses_text (h : ¬ cs <+: tail) : Refuses (.text cs) tail := by
  rintro c rfl
  exact .textFailed (Cursor.accept?_eq_none_of h)

/-- One character, where another one stands. -/
theorem refuses_one (h : ∀ xs, tail ≠ x :: xs) : Refuses (.text [x]) tail := by
  refine refuses_text ?_
  rintro ⟨rest, hrest⟩
  exact h rest hrest.symm

theorem refuses_char (h : ∀ x xs, tail = x :: xs → test x = false) : Refuses (.char test) tail := by
  rintro c rfl
  exact .charFailed (Cursor.satisfy?_eq_none.mpr h)

theorem Refuses.seqFirst (hp : Refuses p tail) : Refuses (.seq p q) tail := fun c hc => .seqFirst (hp c hc)

theorem Refuses.seqSecond (hp : Takes p cs tail) (hq : Refuses q tail) : Refuses (.seq p q) (cs ++ tail) := by
  intro c hc
  obtain ⟨d, ts, hp, hd⟩ := hp c hc
  exact .seqSecond hp (hq d (List.append_cancel_left (hd.rest.symm.trans hc)))

theorem Refuses.alt (hp : Refuses p tail) (hq : Refuses q tail) : Refuses (.alt p q) tail :=
  fun c hc => .altSecond (hp c hc) (hq c hc)

theorem Takes.avoid (hp : Takes p cs tail) : Refuses (.avoid p) (cs ++ tail) := by
  intro c hc
  obtain ⟨d, ts, hp, -⟩ := hp c hc
  exact .avoidFailed hp

theorem Refuses.tight (hp : Refuses p tail) : Refuses (.tight p) tail := fun c hc => .tightFailed (hp c hc)

/-- As many characters as pass the test are taken. -/
theorem takes_many_char (hcs : ∀ x ∈ cs, test x = true) (htail : ∀ x xs, tail = x :: xs → test x = false) :
    Takes (.many (.char test)) cs tail := by
  induction cs with
  | nil => exact (refuses_char htail).many
  | cons x cs ih =>
    have hx : Takes (.char test) [x] (cs ++ tail) := takes_char (hcs x (.head _))
    exact hx.manyMore (ih (fun y hy => hcs y (.tail _ hy)))

end Rules

/-! ### Tokens -/

section Tokens

variable {p : Pattern} {s : List Token} {t u v : Token} {r : Rule}

/-- A symbol. -/
theorem gives_lit (t : Token) (s : List Token) : Gives (lit t) (t :: s) s Bare := by
  intro c hc
  obtain ⟨tail, hrest, -, hnext⟩ := hc.cons
  obtain ⟨d, hd, hreads⟩ := Cursor.accept?_append hrest
  have hrest' : d.rest = tail := List.append_cancel_left (hreads.rest.symm.trans hrest)
  exact ⟨d, [], .text hd, hnext d hrest', rfl⟩

/-- The beginning of a symbol. -/
theorem gives_litPart (ht : t.toList = u.toList ++ v.toList) (hv : isToken v = true) (s : List Token) :
    Gives (lit u) (t :: s) (v :: s) Bare := by
  intro c hc
  obtain ⟨tail, hrest, -⟩ := hc.cons
  rw [ht, List.append_assoc] at hrest
  obtain ⟨d, hd, hreads⟩ := Cursor.accept?_append hrest
  have hat : At (v :: s) d := hc.of_part ht hv hreads
  refine ⟨d, [], .text hd, ?_, rfl⟩
  rwa [hat.skip]

/-- A word. -/
theorem Gives.tight (h : ∀ tail, Loose tail → Takes p t.toList tail) (s : List Token) :
    Gives (.tight p) (t :: s) s Bare := by
  intro c hc
  obtain ⟨tail, hrest, hloose, hnext⟩ := hc.cons
  obtain ⟨d, ts, hp, hreads⟩ := h tail hloose c hrest
  have hrest' : d.rest = tail := List.append_cancel_left (hreads.rest.symm.trans hrest)
  exact ⟨d, [], .tight hp, hnext d hrest', rfl⟩

theorem yields_leaf {c d : Cursor} {ts : List Tree} (hr : r.spacing = .atomic) (gaps : Spacing)
    (h : r.body.Yields .atomic c (.matched d ts)) (hreads : c.Reads t.toList d) :
    Pattern.Yields gaps (.rule r) c (.matched d [.node r c.offset t []]) := by
  have hgaps : gaps.within r.spacing = .atomic := by rw [hr]; rfl
  have hatomic : (r.spacing == .atomic) = true := by rw [hr]; rfl
  have hrule := Pattern.Yields.rule (hgaps.symm ▸ h)
  rw [hatomic, hreads.textTo, String.ofList_toList] at hrule
  exact hrule

/-- A token is a leaf. -/
theorem Gives.leaf (hr : r.spacing = .atomic) (h : ∀ tail, Loose tail → Takes r.body t.toList tail)
    (s : List Token) : Gives (.rule r) (t :: s) s (Leaf r t) := by
  intro c hc
  obtain ⟨tail, hrest, hloose, hnext⟩ := hc.cons
  obtain ⟨d, ts, hbody, hreads⟩ := h tail hloose c hrest
  have hrest' : d.rest = tail := List.append_cancel_left (hreads.rest.symm.trans hrest)
  exact ⟨d, _, yields_leaf hr .free hbody hreads, hnext d hrest', c.offset, rfl⟩

/-- The beginning of a token is a leaf. -/
theorem Gives.leafPart (hr : r.spacing = .atomic) (ht : t.toList = u.toList ++ v.toList) (hv : isToken v = true)
    (h : ∀ tail, Takes r.body u.toList (v.toList ++ tail)) (s : List Token) :
    Gives (.rule r) (t :: s) (v :: s) (Leaf r u) := by
  intro c hc
  obtain ⟨tail, hrest, -⟩ := hc.cons
  rw [ht, List.append_assoc] at hrest
  obtain ⟨d, ts, hbody, hreads⟩ := h tail c hrest
  have hat : At (v :: s) d := hc.of_part ht hv hreads
  refine ⟨d, _, yields_leaf hr .free hbody hreads, ?_, c.offset, rfl⟩
  rwa [hat.skip]

theorem Fails.leaf (hr : r.spacing = .atomic) (h : ∀ tail, Loose tail → Refuses r.body (t.toList ++ tail))
    (s : List Token) : Fails (.rule r) (t :: s) := by
  intro c hc
  obtain ⟨tail, hrest, hloose, -⟩ := hc.cons
  have hgaps : Spacing.within .free r.spacing = .atomic := by rw [hr]; rfl
  exact .ruleFailed (hgaps.symm ▸ h tail hloose c hrest)

end Tokens

/-! ### Words and names -/

/-- No further name character follows. -/
def Apart (cs : List Char) : Prop := ∀ x xs, cs = x :: xs → isNameChar x = false

theorem Loose.apart {cs : List Char} (h : Loose cs) : Apart cs := by
  intro x xs hx
  have hspace := h x xs hx
  simp only [Cursor.isSpace, Bool.or_eq_true, beq_iff_eq] at hspace
  rcases hspace with ((rfl | rfl) | rfl) | rfl <;> rfl

section Words

variable {cs ds tail : List Char} {w : String}

/-- Characters that pass a test and begin a text end before the first one that does not. -/
theorem prefix_of_test {test : Char → Bool} (hcs : ∀ x ∈ cs, test x = true)
    (htail : ∀ x xs, tail = x :: xs → test x = false) (h : cs <+: ds ++ tail) : cs <+: ds := by
  rcases List.prefix_or_prefix_of_prefix h (List.prefix_append ds tail) with hprefix | ⟨more, rfl⟩
  · exact hprefix
  · obtain ⟨rest, hrest⟩ := h
    rw [List.append_assoc] at hrest
    have htail' : more ++ rest = tail := List.append_cancel_left hrest
    cases more with
    | nil => simp
    | cons x xs =>
      have hx := htail x (xs ++ rest) htail'.symm
      rw [hcs x (by simp)] at hx
      cases hx

/-- What is made of name characters and begins a text begins its first word. -/
theorem prefix_of_apart (hcs : ∀ x ∈ cs, isNameChar x = true) (htail : Apart tail) (h : cs <+: ds ++ tail) :
    cs <+: ds :=
  prefix_of_test hcs htail h

/-- What holds no white space and begins a text begins its first token. -/
theorem prefix_of_loose (hcs : ∀ x ∈ cs, Cursor.isSpace x = false) (htail : Loose tail) (h : cs <+: ds ++ tail) :
    cs <+: ds := by
  refine @prefix_of_test cs ds tail (fun x => !Cursor.isSpace x) (fun x hx => ?_) (fun x xs hx => ?_) h
  · rw [hcs x hx]
    rfl
  · rw [htail x xs hx]
    rfl

/-- Of several texts, the first one that stands there is read. -/
theorem yields_oneOf_lit_of_find {ks : List String} {c : Cursor} {t : String} {gaps : Spacing}
    (hfind : ks.find? (fun k => k.toList.isPrefixOf c.rest) = some t) :
    ∃ d, Yields gaps (oneOf (ks.map lit)) c (.matched d []) ∧ c.Reads t.toList d := by
  induction ks with
  | nil => cases hfind
  | cons k ks ih =>
    rw [List.find?_cons] at hfind
    split at hfind
    · rename_i hk
      cases hfind
      obtain ⟨rest, hrest⟩ := List.isPrefixOf_iff_prefix.mp hk
      obtain ⟨d, hd, hreads⟩ := Cursor.accept?_append hrest.symm
      refine ⟨d, ?_, hreads⟩
      cases ks with
      | nil => exact .text hd
      | cons k' ks => exact .altFirst (.text hd)
    · rename_i hk
      have hfailed : Yields gaps (lit k) c .failed := by
        refine .textFailed (Cursor.accept?_eq_none_of (fun hprefix => ?_))
        rw [List.isPrefixOf_iff_prefix.mpr hprefix] at hk
        cases hk
      obtain ⟨d, hd, hreads⟩ := ih hfind
      refine ⟨d, ?_, hreads⟩
      cases ks with
      | nil => cases hfind
      | cons k' ks => exact .altSecond hfailed hd

/-- One of several words is read, or none stands there. -/
theorem yields_oneOf_lit (ks : List String) (c : Cursor) : Yields .atomic (oneOf (ks.map lit)) c .failed ∨
    ∃ k ∈ ks, ∃ d, Yields .atomic (oneOf (ks.map lit)) c (.matched d []) ∧ c.Reads k.toList d := by
  induction ks with
  | nil => exact .inl (.avoidFailed (.text rfl))
  | cons k ks ih =>
    cases hk : c.accept? k.toList with
    | some d =>
      refine .inr ⟨k, .head _, d, ?_, Cursor.reads_of_accept? hk⟩
      cases ks with
      | nil => exact .text hk
      | cons k' ks => exact .altFirst (.text hk)
    | none =>
      cases ks with
      | nil => exact .inl (.textFailed hk)
      | cons k' ks =>
        rcases ih with hfailed | ⟨k'', hk'', d, hd, hreads⟩
        · exact .inl (.altSecond (.textFailed hk) hfailed)
        · exact .inr ⟨k'', .tail _ hk'', d, .altSecond (.textFailed hk) hd, hreads⟩

theorem isNameChar_of_mem_keywords : ∀ k ∈ keywords, ∀ x ∈ k.toList, isNameChar x = true := by
  have hall : ∀ k ∈ keywords, k.toList.all isNameChar = true := by decide
  exact fun k hk => List.all_eq_true.mp (hall k hk)

/-- A reserved word is taken where no further name character follows. -/
theorem takes_words {ks : List String} (hks : ks ⊆ keywords) (hw : w ∈ ks) (htail : Apart tail) :
    Takes (seq (oneOf (ks.map lit)) (avoid (char isNameChar))) w.toList tail := by
  have honly : ∀ k ∈ ks, k.toList <+: w.toList ++ tail → k = w := fun k hk hprefix =>
    eq_of_isPrefix_of_mem_keywords k (hks hk) w (hks hw)
      (prefix_of_apart (isNameChar_of_mem_keywords k (hks hk)) htail hprefix)
  have hword : Takes (oneOf (ks.map lit)) w.toList tail := by
    intro c hc
    obtain ⟨k, hk⟩ : ∃ k, ks.find? (fun k => k.toList.isPrefixOf c.rest) = some k := by
      rw [← Option.isSome_iff_exists, List.find?_isSome]
      exact ⟨w, hw, List.isPrefixOf_iff_prefix.mpr ⟨tail, hc.symm⟩⟩
    have hfound := List.find?_some (p := fun k : String => k.toList.isPrefixOf c.rest) hk
    have hprefix := List.isPrefixOf_iff_prefix.mp hfound
    rw [hc] at hprefix
    obtain rfl := honly k (List.mem_of_find?_eq_some hk) hprefix
    obtain ⟨d, hd, hreads⟩ := @yields_oneOf_lit_of_find ks c k .atomic hk
    exact ⟨d, [], hd, hreads⟩
  have hend : Takes (avoid (char isNameChar)) [] tail := (refuses_char htail).avoid
  have hboth := hword.seq hend
  rwa [List.append_nil] at hboth

/-- No other word is taken. -/
theorem refuses_words {ks : List String} (hcs : ∀ x ∈ cs, isNameChar x = true) (hks : ks ⊆ keywords)
    (hnot : String.ofList cs ∉ ks) (htail : Apart tail) :
    Refuses (seq (oneOf (ks.map lit)) (avoid (char isNameChar))) (cs ++ tail) := by
  intro c hc
  rcases yields_oneOf_lit ks c with hfailed | ⟨k, hk, d, hd, hreads⟩
  · exact .seqFirst hfailed
  · -- a shorter word is read, and the next character belongs to the same word
    obtain ⟨more, rfl⟩ : k.toList <+: cs := by
      refine prefix_of_apart (isNameChar_of_mem_keywords k (hks hk)) htail ?_
      rw [← hc]
      exact ⟨d.rest, hreads.rest.symm⟩
    rw [List.append_assoc] at hc
    have hrest : d.rest = more ++ tail := List.append_cancel_left (hreads.rest.symm.trans hc)
    cases more with
    | nil =>
      rw [List.append_nil, String.ofList_toList] at hnot
      exact absurd hk hnot
    | cons x more =>
      have hx : isNameChar x = true := hcs x (by simp)
      have hnext : d.satisfy? isNameChar = some (d.past x (more ++ tail)) := by
        simp only [Cursor.satisfy?, hrest, List.cons_append, hx, if_true]
      exact .seqSecond hd (.avoidFailed (.char hnext))

/-- A reserved word as a token. -/
theorem gives_wordOf {ks : List String} (hks : ks ⊆ keywords) (hw : w ∈ ks) (s : List Token) :
    Gives (wordOf ks) (w :: s) s Bare :=
  Gives.tight (fun _ htail => takes_words hks hw htail.apart) s

theorem gives_word (hw : w ∈ keywords) (s : List Token) : Gives (word w) (w :: s) s Bare :=
  gives_wordOf (by simpa using hw) (List.mem_singleton_self w) s

/-- A rule for one of several symbols. -/
theorem gives_sign {r : Rule} {ks : List String} {t : Token} (hr : r.spacing = .free)
    (hbody : r.body = oneOf (ks.map lit)) (hks : ∀ k ∈ ks, k.toList.any Cursor.isSpace = false)
    (hfind : ks.find? (fun k => k.toList.isPrefixOf t.toList) = some t) (s : List Token) :
    Gives (.rule r) (t :: s) s (Leaf r t) := by
  intro c hc
  obtain ⟨tail, hrest, hloose, hnext⟩ := hc.cons
  have hfind' : ks.find? (fun k => k.toList.isPrefixOf c.rest) = some t := by
    rw [← hfind, hrest]
    refine List.find?_congr (fun k hk => ?_)
    rw [Bool.eq_iff_iff, List.isPrefixOf_iff_prefix, List.isPrefixOf_iff_prefix]
    have hnone : ∀ x ∈ k.toList, Cursor.isSpace x = false := by simpa using hks k hk
    exact ⟨prefix_of_loose hnone hloose, fun h => h.trans (List.prefix_append _ _)⟩
  obtain ⟨d, hd, hreads⟩ := @yields_oneOf_lit_of_find ks c t .free hfind'
  have hrest' : d.rest = tail := List.append_cancel_left (hreads.rest.symm.trans hrest)
  have hgaps : Spacing.within .free r.spacing = .free := by rw [hr]; rfl
  have hnode := Yields.rule (hgaps.symm ▸ hbody.symm ▸ hd)
  rw [hreads.textTo, String.ofList_toList, ite_self] at hnode
  exact ⟨d, _, hnode, hnext d hrest', c.offset, rfl⟩

/-- A name is taken where no further name character follows. -/
theorem takes_identifier (h : Rule.identifier.Spells cs) (htail : Apart tail) :
    Takes Rule.identifier.body cs tail := by
  obtain ⟨⟨x, xs, rfl, hx, hxs⟩, hkeyword⟩ := h
  have hchars : ∀ y ∈ x :: xs, isNameChar y = true := by
    intro y hy
    rcases List.mem_cons.mp hy with rfl | hy
    · exact isNameChar_of_isNameStart hx
    · exact hxs y hy
  have hword : Refuses (wordOf keywords) (x :: xs ++ tail) :=
    (refuses_words hchars (List.Subset.refl _) hkeyword htail).tight
  have hstart : Takes (char isNameStart) [x] (xs ++ tail) := takes_char hx
  have hmore : Takes (many (char isNameChar)) xs tail := takes_many_char hxs htail
  have hname : Takes (seq (char isNameStart) (many (char isNameChar))) (x :: xs) tail := hstart.seq hmore
  exact hword.avoid.seq hname

/-- A reserved word is no name. -/
theorem refuses_identifier (hw : w ∈ keywords) (htail : Apart tail) :
    Refuses Rule.identifier.body (w.toList ++ tail) :=
  (takes_words (List.Subset.refl _) hw htail).tight.avoid.seqFirst

end Words

/-! ### Dotted names -/

/-- A part of a dotted name: the receiver, or a name. -/
def IsSegment (cs : List Char) : Prop := String.ofList cs ∈ ["this", "super"] ∨ Rule.identifier.Spells cs

/-- Segments with dots between them. -/
def IsDotted (cs : List Char) : Prop :=
  ∃ (first : List Char) (more : List (List Char)), IsSegment first ∧ (∀ m ∈ more, IsSegment m) ∧
    cs = first ++ more.flatMap (fun m => '.' :: m)

/-- A name is made of name characters. -/
theorem isNameChar_of_identifier {cs : List Char} (h : Rule.identifier.Spells cs) :
    ∀ x ∈ cs, isNameChar x = true := by
  obtain ⟨⟨x, xs, rfl, hx, hxs⟩, -⟩ := h
  intro y hy
  rcases List.mem_cons.mp hy with rfl | hy
  · exact isNameChar_of_isNameStart hx
  · exact hxs y hy

section Names

variable {cs tail : List Char}

theorem takes_segment (h : IsSegment cs) (htail : Apart tail) : Takes nameSegment cs tail := by
  rcases h with hword | hname
  · have htakes : Takes (wordOf ["this", "super"]) (String.ofList cs).toList tail :=
      (takes_words (by decide) hword htail).tight
    rw [String.toList_ofList] at htakes
    exact htakes.altFirst
  · have hword : Refuses (wordOf ["this", "super"]) (cs ++ tail) := by
      refine (refuses_words (isNameChar_of_identifier hname) (by decide) (fun h => ?_) htail).tight
      exact hname.2 ((by decide : ["this", "super"] ⊆ keywords) h)
    exact .altSecond hword ((takes_identifier hname htail).rule rfl)

/-- A dotted name is taken where neither a name character nor a dot follows. -/
theorem takes_dotted (h : IsDotted cs) (htail : Apart tail) (hdot : ∀ xs, tail ≠ '.' :: xs) :
    Takes Rule.expressionName.body cs tail := by
  obtain ⟨first, more, hfirst, hmore, rfl⟩ := h
  have hapart : ∀ more : List (List Char), Apart (more.flatMap (fun m => '.' :: m) ++ tail) := by
    intro more
    cases more with
    | nil => exact htail
    | cons m more =>
      intro x xs hx
      cases hx
      decide
  have hrest : Takes (many (seq (lit ".") nameSegment)) (more.flatMap (fun m => '.' :: m)) tail := by
    induction more with
    | nil =>
      have hlit : Refuses (lit ".") tail := refuses_one hdot
      exact hlit.seqFirst.many
    | cons m more ih =>
      have hlit : Takes (lit ".") ['.'] (m ++ (more.flatMap (fun m => '.' :: m) ++ tail)) := takes_text
      have hsegment : Takes nameSegment m (more.flatMap (fun m => '.' :: m) ++ tail) :=
        takes_segment (hmore m (.head _)) (hapart more)
      exact (hlit.seq hsegment).manyMore (ih (fun m hm => hmore m (.tail _ hm)))
  exact (takes_segment hfirst (hapart more)).seq hrest

end Names

/-! ### Types -/

/-- The words of the primitive types. -/
def primitiveWords : List String := ["int", "long", "double", "float", "boolean", "char", "short", "byte"]

/-- The word of a type without brackets. -/
def IsTypeWord (cs : List Char) : Prop := String.ofList cs ∈ primitiveWords ∨ Rule.identifier.Spells cs

/-- A type: a word, with brackets or without. -/
def IsTypeText (cs : List Char) : Prop := ∃ w, IsTypeWord w ∧ (cs = w ∨ cs = w ++ ['[', ']'])

section Types

variable {cs tail : List Char} {w : String}

theorem IsTypeWord.chars (h : IsTypeWord cs) : ∀ x ∈ cs, isNameChar x = true := by
  rcases h with hword | hname
  · have hkeyword : String.ofList cs ∈ keywords := (by decide : primitiveWords ⊆ keywords) hword
    have hchars := isNameChar_of_mem_keywords _ hkeyword
    rwa [String.toList_ofList] at hchars
  · exact isNameChar_of_identifier hname

theorem takes_typeWord (h : IsTypeWord cs) (htail : Apart tail) : Takes typeWord cs tail := by
  rcases h with hword | hname
  · have htakes : Takes (wordOf primitiveWords) (String.ofList cs).toList tail :=
      (takes_words (by decide) hword htail).tight
    rw [String.toList_ofList] at htakes
    exact htakes.altFirst
  · have hword : Refuses (wordOf primitiveWords) (cs ++ tail) := by
      refine (refuses_words (isNameChar_of_identifier hname) (by decide) (fun h => ?_) htail).tight
      exact hname.2 ((by decide : primitiveWords ⊆ keywords) h)
    exact .altSecond hword ((takes_identifier hname htail).rule rfl)

theorem takes_brackets : Takes brackets ['[', ']'] tail := by
  have hopen : Takes (lit "[") ['['] (']' :: tail) := takes_text
  have hclose : Takes (lit "]") [']'] tail := takes_text
  exact hopen.seq hclose

theorem refuses_brackets (h : ∀ xs, tail ≠ '[' :: xs) : Refuses brackets tail := (refuses_one h).seqFirst

theorem apart_brackets : Apart ('[' :: tail) := by
  rintro x xs hx
  cases hx
  decide

/-- The word of a type is a type where no bracket follows. -/
theorem takes_typeText_word (h : IsTypeWord cs) (htail : Apart tail) (hbracket : ∀ xs, tail ≠ '[' :: xs) :
    Takes Rule.unannType.body cs tail := by
  have hword : Takes typeWord cs ([] ++ tail) := takes_typeWord h htail
  have hall := hword.seq (refuses_brackets hbracket).opt
  rwa [List.append_nil] at hall

theorem takes_typeText (h : IsTypeText cs) (htail : Loose tail) : Takes Rule.unannType.body cs tail := by
  obtain ⟨w, hw, rfl | rfl⟩ := h
  · refine takes_typeText_word hw htail.apart (fun xs hxs => ?_)
    cases htail _ _ hxs
  · have hword : Takes typeWord w (['[', ']'] ++ tail) := takes_typeWord hw apart_brackets
    exact hword.seq takes_brackets.optSome

theorem takes_arrayText (h : IsTypeWord cs) : Takes Rule.arrayType.body (cs ++ ['[', ']']) tail := by
  have hword : Takes typeWord cs (['[', ']'] ++ tail) := takes_typeWord h apart_brackets
  exact hword.seq takes_brackets

/-- The word of a type is no array type. -/
theorem refuses_arrayText (h : IsTypeWord cs) (htail : Loose tail) : Refuses Rule.arrayType.body (cs ++ tail) := by
  refine .seqSecond (takes_typeWord h htail.apart) (refuses_brackets (fun xs hxs => ?_))
  cases htail _ _ hxs

/-- The result of a method: a type, or none. -/
theorem takes_resultText (h : cs = "void".toList ∨ IsTypeText cs) (htail : Loose tail) :
    Takes Rule.resultType.body cs tail := by
  rcases h with rfl | htype
  · have hvoid : Takes (wordOf ["void"]) "void".toList tail :=
      (takes_words (by decide) (.head _) htail.apart).tight
    exact hvoid.altFirst
  · refine .altSecond ?_ ((takes_typeText htype htail).rule rfl)
    obtain ⟨w, hw, hcs⟩ := htype
    have hvoid : String.ofList w ∉ ["void"] := by
      intro h
      rcases hw with hw | hw
      · revert h hw
        generalize String.ofList w = k
        intro h hk
        obtain rfl := List.mem_singleton.mp h
        revert hk
        decide
      · exact hw.2 ((by decide : ["void"] ⊆ keywords) h)
    rcases hcs with rfl | rfl
    · exact (refuses_words hw.chars (by decide) hvoid htail.apart).tight
    · rw [List.append_assoc]
      exact (refuses_words hw.chars (by decide) hvoid apart_brackets).tight

end Types

/-! ### Numbers -/

section Numbers

variable {cs tail : List Char} {x : Char}

theorem takes_digits (hne : cs ≠ []) (hcs : ∀ x ∈ cs, x.isDigit = true)
    (htail : ∀ x xs, tail = x :: xs → x.isDigit = false) : Takes digits cs tail := by
  cases cs with
  | nil => exact absurd rfl hne
  | cons x cs =>
    have hx : Takes (char Char.isDigit) [x] (cs ++ tail) := takes_char (hcs x (.head _))
    exact hx.seq (takes_many_char (fun y hy => hcs y (.tail _ hy)) htail)

/-- Neither of two letters follows. -/
theorem refuses_letters {a b : Char} (h : ∀ x xs, tail = x :: xs → x ≠ a ∧ x ≠ b) :
    Refuses (alt (text [a]) (text [b])) tail :=
  (refuses_one (fun xs hxs => (h a xs hxs).1 rfl)).alt (refuses_one (fun xs hxs => (h b xs hxs).2 rfl))

/-- Digits are no fraction if neither a dot nor the letter of one follows. -/
theorem refuses_double (hne : cs ≠ []) (hcs : ∀ x ∈ cs, x.isDigit = true)
    (htail : ∀ x xs, tail = x :: xs → x.isDigit = false ∧ x ≠ '.' ∧ x ≠ 'd' ∧ x ≠ 'D') :
    Refuses Rule.doubleLiteral.body (cs ++ tail) := by
  have hdigits : Takes digits cs tail := takes_digits hne hcs (fun x xs h => (htail x xs h).1)
  have hdot : Refuses (lit ".") tail := refuses_one (fun xs hxs => (htail _ xs hxs).2.1 rfl)
  have hletter : Refuses (alt (lit "d") (lit "D")) tail := refuses_letters (fun x xs h => (htail x xs h).2.2)
  exact (Refuses.seqSecond hdigits hdot.seqFirst).alt (.seqSecond hdigits hletter)

/-- Behind digits alone, white space or nothing. -/
theorem Loose.notDigit (h : Loose tail) : ∀ x xs, tail = x :: xs → x.isDigit = false := by
  intro x xs hx
  have hname := h.apart x xs hx
  simp only [isNameChar, Char.isAlphanum, Bool.or_eq_false_iff] at hname
  exact hname.1.1.2

theorem takes_int (hne : cs ≠ []) (hcs : ∀ x ∈ cs, x.isDigit = true) (htail : Loose tail) :
    Refuses Rule.doubleLiteral.body (cs ++ tail) ∧ Refuses Rule.longLiteral.body (cs ++ tail) ∧
      Takes Rule.intLiteral.body cs tail := by
  have hnot : ∀ (k : Char), Cursor.isSpace k = false → ∀ x xs, tail = x :: xs → x ≠ k := by
    rintro k hk x xs hx rfl
    rw [htail x xs hx] at hk
    cases hk
  have hdigits : Takes digits cs tail := takes_digits hne hcs htail.notDigit
  refine ⟨refuses_double hne hcs (fun x xs h => ?_), .seqSecond hdigits (refuses_letters (fun x xs h => ?_)), hdigits⟩
  · exact ⟨htail.notDigit x xs h, hnot '.' rfl x xs h, hnot 'd' rfl x xs h, hnot 'D' rfl x xs h⟩
  · exact ⟨hnot 'L' rfl x xs h, hnot 'l' rfl x xs h⟩

theorem takes_long (hne : cs ≠ []) (hcs : ∀ x ∈ cs, x.isDigit = true) (hx : x = 'L' ∨ x = 'l') :
    Refuses Rule.doubleLiteral.body (cs ++ x :: tail) ∧ Takes Rule.longLiteral.body (cs ++ [x]) tail := by
  have hletter : Takes (alt (lit "L") (lit "l")) [x] tail := by
    rcases hx with rfl | rfl
    · have hL : Takes (lit "L") ['L'] tail := takes_text
      exact hL.altFirst
    · have hl : Takes (lit "l") ['l'] tail := takes_text
      have hL : Refuses (text ['L']) ('l' :: tail) := refuses_one (by simp)
      exact .altSecond hL hl
  have hdigits : Takes digits cs ([x] ++ tail) := by
    refine takes_digits hne hcs (fun y ys hy => ?_)
    cases hy
    rcases hx with rfl | rfl <;> decide
  refine ⟨refuses_double hne hcs (fun y ys hy => ?_), hdigits.seq hletter⟩
  cases hy
  rcases hx with rfl | rfl <;> decide

end Numbers

/-! ### Quotations -/

/-- What a character behind a backslash stands for. -/
def escaped : Char → Char
  | 'n' => '\n'
  | 't' => '\t'
  | 'r' => '\r'
  | '0' => Char.ofNat 0
  | x => x

/-- A spelling of a character inside quotation marks: itself, or behind a backslash. -/
inductive SpellsChar (quote : Char) : Char → List Char → Prop
  | plain {x : Char} : x ≠ quote → x ≠ '\\' → SpellsChar quote x [x]
  | behind (k : Char) : SpellsChar quote (escaped k) ['\\', k]

/-- A spelling of characters inside quotation marks, one after the other. -/
inductive SpellsChars (quote : Char) : List Char → List Char → Prop
  | nil : SpellsChars quote [] []
  | cons {x : Char} {xs cs ds : List Char} : SpellsChar quote x cs → SpellsChars quote xs ds →
    SpellsChars quote (x :: xs) (cs ++ ds)

section Quotations

variable {quote x : Char} {xs cs ds tail : List Char}

theorem unescape_of_spells (h : SpellsChar quote x cs) (ds : List Char) :
    unescape (cs ++ ds) = x :: unescape ds := by
  cases h with
  | plain _ hx =>
    rw [List.singleton_append, unescape]
    all_goals
      intros
      contradiction
  | behind k =>
    rw [List.cons_append, List.singleton_append]
    unfold escaped
    split <;> simp_all [unescape]

theorem unescape_of_spellsChars (h : SpellsChars quote xs cs) : unescape cs = xs := by
  induction h with
  | nil => rfl
  | cons hx _ ih => rw [unescape_of_spells hx, ih]

theorem takes_quotedChar (h : SpellsChar quote x cs) : Takes (quotedChar quote) cs tail := by
  cases h with
  | plain hquote hx =>
    have hback : Refuses (text ['\\']) ([x] ++ tail) := refuses_one (by simpa using hx)
    refine .altSecond hback.seqFirst (takes_char ?_)
    simp [hquote, hx]
  | behind k =>
    have hback : Takes (text ['\\']) ['\\'] ([k] ++ tail) := takes_text
    have hany : Takes (char (fun _ => true)) [k] tail := takes_char rfl
    exact (hback.seq hany).altFirst

theorem takes_quotedChars (h : SpellsChars quote xs cs) (hquote : quote ≠ '\\') :
    Takes (many (quotedChar quote)) cs (quote :: tail) := by
  induction h with
  | nil =>
    have hback : Refuses (text ['\\']) (quote :: tail) := refuses_one (by simpa using hquote)
    refine (hback.seqFirst.alt (refuses_char ?_)).many
    rintro y ys hy
    cases hy
    simp
  | cons hx _ ih => exact (takes_quotedChar hx).manyMore ih

/-- A quotation is a node with a leaf for what stands between its marks. -/
theorem gives_quotation {r content : Rule} {t : Token} (hr : r.spacing = .compound)
    (hbody : r.body = inOrder [text [quote], rule content, text [quote]]) (hcontent : content.spacing = .atomic)
    (htakes : ∀ tail, Takes content.body cs (quote :: tail)) (ht : t.toList = quote :: (cs ++ [quote]))
    (s : List Token) : Gives (.rule r) (t :: s) s (Node r (Leaf content (String.ofList cs))) := by
  intro c hc
  obtain ⟨tail, hrest, -, hnext⟩ := hc.cons
  rw [ht, List.cons_append, List.append_assoc, List.singleton_append] at hrest
  obtain ⟨c₁, hopen, hreads₁⟩ := @Cursor.accept?_append [quote] _ _ hrest
  have hrest₁ : c₁.rest = cs ++ quote :: tail := List.append_cancel_left (hreads₁.rest.symm.trans hrest)
  obtain ⟨c₂, ts, hinside, hreads₂⟩ := htakes tail c₁ hrest₁
  have hrest₂ : c₂.rest = [quote] ++ tail := List.append_cancel_left (hreads₂.rest.symm.trans hrest₁)
  obtain ⟨c₃, hclose, hreads₃⟩ := Cursor.accept?_append hrest₂
  have hrest₃ : c₃.rest = tail := List.append_cancel_left (hreads₃.rest.symm.trans hrest₂)
  have hleaf : Yields .compound (rule content) c₁
      (.matched c₂ [.node content c₁.offset (String.ofList cs) []]) :=
    yields_leaf hcontent .compound hinside (by rwa [String.toList_ofList])
  have hall : r.body.Yields .compound c (.matched c₃ [.node content c₁.offset (String.ofList cs) []]) := by
    rw [hbody]
    exact .seq (.text hopen) (.seq hleaf (.text hclose))
  have hgaps : Spacing.within .free r.spacing = .compound := by rw [hr]; rfl
  have hnode := Yields.rule (hgaps.symm ▸ hall)
  rw [hr] at hnode
  exact ⟨c₃, _, hnode, hnext c₃ hrest₃, c.offset, c.textTo c₃, _, rfl, c₁.offset, rfl⟩

end Quotations

end Grammar
end StashMachine
