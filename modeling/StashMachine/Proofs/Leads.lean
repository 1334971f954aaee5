import StashMachine.Proofs.Lexis

/-!
# StashMachine.Proofs.Leads — what cannot be read in front of a token

The beginning of what is left of a source decides which patterns fail there.

* `Lead`: how a source goes on: with a symbol, a reserved word, a name, one of some characters, or not at all.
* `Pattern.fate`: whether a pattern is sure to fail in front of a lead, or to match nothing.
* `Pattern.fate_sound`, `Fails.of_lead`: what `fate` foretells happens.
-/

namespace StashMachine
namespace Grammar

open Pattern Cursor

/-! ### Leads -/

/-- How a source goes on. -/
inductive Lead
  /-- With a symbol, behind which white space or the end follows. -/
  | symbol (t : Token)
  /-- With a reserved word. -/
  | word (w : String)
  /-- With a name. -/
  | name
  /-- With one of these characters. -/
  | among (xs : List Char)
  /-- Not at all. -/
  | done
deriving DecidableEq

/-- The characters of names. -/
def nameChars : List Char := ((List.range 128).map Char.ofNat).filter isNameChar

/-- The characters that names begin with. -/
def nameStarts : List Char := ((List.range 128).map Char.ofNat).filter isNameStart

namespace Lead

/-- The characters that the source can go on with. -/
def heads : Lead → List Char
  | symbol t => t.toList.take 1
  | word w => w.toList.take 1
  | name => nameStarts
  | among xs => xs
  | done => []

/-- The source goes on as the lead says. -/
def Holds : Lead → List Char → Prop
  | symbol t, cs => ∃ tail, cs = t.toList ++ tail ∧ Loose tail ∧ t.toList ≠ []
  | word w, cs => ∃ tail, cs = w.toList ++ tail ∧ Apart tail ∧ w ∈ keywords
  | name, cs => ∃ w tail, cs = w ++ tail ∧ Apart tail ∧ Rule.identifier.Spells w
  | among xs, cs => ∃ x tail, cs = x :: tail ∧ x ∈ xs
  | done, cs => cs = []

/-- Whether the source is sure not to begin with the characters. -/
def excludes (l : Lead) : List Char → Bool
  | [] => false
  | x :: cs => !l.heads.contains x ||
    match l with
    | symbol t => !(x :: cs).isPrefixOf t.toList && (x :: cs).all (fun y => !isSpace y)
    | word w => !(x :: cs).isPrefixOf w.toList && (x :: cs).all isNameChar
    | _ => false

/-- Whether the lead is a reserved word. -/
def isWord : Lead → Bool
  | word _ => true
  | _ => false

/-- Whether the lead is a name. -/
def isName : Lead → Bool
  | name => true
  | _ => false

end Lead

theorem lt_of_isNameChar {x : Char} (h : isNameChar x = true) : x.toNat < 128 := by
  delta isNameChar Char.isAlphanum Char.isAlpha Char.isUpper Char.isLower Char.isDigit at h
  simp only [Bool.or_eq_true, Bool.and_eq_true, decide_eq_true_eq, beq_iff_eq, ge_iff_le,
    UInt32.le_iff_toNat_le] at h
  rcases h with (((⟨-, h⟩ | ⟨-, h⟩) | ⟨-, h⟩) | rfl) | rfl
  · exact Nat.lt_of_le_of_lt h (by decide)
  · exact Nat.lt_of_le_of_lt h (by decide)
  · exact Nat.lt_of_le_of_lt h (by decide)
  · decide
  · decide

theorem mem_nameChars {x : Char} (h : isNameChar x = true) : x ∈ nameChars :=
  List.mem_filter.mpr ⟨List.mem_map.mpr ⟨x.toNat, List.mem_range.mpr (lt_of_isNameChar h), Char.ofNat_toNat x⟩, h⟩

theorem mem_nameStarts {x : Char} (h : isNameStart x = true) : x ∈ nameStarts := by
  have hlt := lt_of_isNameChar (isNameChar_of_isNameStart h)
  exact List.mem_filter.mpr ⟨List.mem_map.mpr ⟨x.toNat, List.mem_range.mpr hlt, Char.ofNat_toNat x⟩, h⟩

namespace Lead

variable {l : Lead} {cs rest : List Char}

theorem Holds.head (h : l.Holds rest) : ∀ x xs, rest = x :: xs → x ∈ l.heads := by
  rintro x xs rfl
  -- the first character of a token is its head
  have htoken : ∀ {t : String} {tail : List Char}, x :: xs = t.toList ++ tail → t.toList ≠ [] →
      x ∈ t.toList.take 1 := by
    intro t tail heq hne
    cases ht : t.toList with
    | nil => exact absurd ht hne
    | cons y ys =>
      rw [ht] at heq
      cases heq
      simp
  cases l with
  | symbol t =>
    obtain ⟨tail, heq, -, hne⟩ := h
    exact htoken heq hne
  | word w =>
    obtain ⟨tail, heq, -, hw⟩ := h
    refine htoken heq (fun hnil => ?_)
    have hnone : ∀ k ∈ keywords, k.toList ≠ [] := by decide
    exact hnone w hw hnil
  | name =>
    obtain ⟨w, tail, heq, -, ⟨y, ys, rfl, hy, -⟩, -⟩ := h
    cases heq
    exact mem_nameStarts hy
  | among ys =>
    obtain ⟨y, tail, heq, hy⟩ := h
    cases heq
    exact hy
  | done => cases h

theorem Holds.not_prefix (h : l.Holds rest) (hcs : l.excludes cs = true) : ¬ cs <+: rest := by
  intro hprefix
  cases cs with
  | nil => cases hcs
  | cons x cs =>
    simp only [excludes, Bool.or_eq_true, Bool.not_eq_true'] at hcs
    rcases hcs with hhead | hmore
    · obtain ⟨more, hmore⟩ := hprefix
      have hmem := h.head x (cs ++ more) hmore.symm
      simp only [List.contains_eq_mem, decide_eq_false_iff_not] at hhead
      exact hhead hmem
    · cases l with
      | symbol t =>
        simp only [Bool.and_eq_true, Bool.not_eq_true', List.all_eq_true] at hmore
        obtain ⟨tail, rfl, htail, -⟩ := h
        rw [List.isPrefixOf_iff_prefix.mpr (prefix_of_loose hmore.2 htail hprefix)] at hmore
        cases hmore.1
      | word w =>
        simp only [Bool.and_eq_true, Bool.not_eq_true', List.all_eq_true] at hmore
        obtain ⟨tail, rfl, htail, -⟩ := h
        rw [List.isPrefixOf_iff_prefix.mpr (prefix_of_apart hmore.2 htail hprefix)] at hmore
        cases hmore.1
      | name => cases hmore
      | among xs => cases hmore
      | done => cases hmore

end Lead

/-! ### Fates -/

/-- What can be foretold of a pattern. -/
inductive Fate
  /-- It fails. -/
  | fails
  /-- It matches nothing. -/
  | idles
  /-- Nothing is foretold. -/
  | unsure
deriving DecidableEq

namespace Pattern

/-- Whether the pattern is a choice of reserved words. -/
def isWords : Pattern → Bool
  | text cs => keywords.contains (String.ofList cs)
  | alt p q => p.isWords && q.isWords
  | _ => false

/-- Whether a name goes on behind every one of the words, and the next pattern does not allow for that. -/
def overruns (l : Lead) (p : Pattern) : Pattern → Bool
  | avoid (char test) => l.isName && p.isWords && nameChars.all test
  | _ => false

/-- What becomes of a pattern in front of a lead, given which rules fail there. -/
def fate (l : Lead) (call : Rule → Bool) : Pattern → Fate
  | text cs => if l.excludes cs then .fails else .unsure
  | char test => if l.heads.all (fun x => !test x) then .fails else .unsure
  | rule r => if call r then .fails else .unsure
  | seq p q =>
    match p.fate l call with
    | .fails => .fails
    | .idles => q.fate l call
    | .unsure => if p.overruns l q then .fails else .unsure
  | alt p q =>
    match p.fate l call with
    | .fails => q.fate l call
    | f => f
  | opt p | many p | avoid p =>
    match p.fate l call with
    | .fails => .idles
    | _ => .unsure
  | tight p => p.fate l call
  | start | stop => .unsure

end Pattern

/-- Whether a rule is sure to fail in front of a lead, as far as rules inside one another are looked at. -/
def Rule.fails (l : Lead) : Nat → Rule → Bool
  | 0, _ => false
  | n + 1, r => (r == .identifier && l.isWord) || r.body.fate l (Rule.fails l n) == .fails

namespace Pattern

variable {l : Lead} {c : Cursor} {p q : Pattern} {gaps : Spacing}

/-- A name character is no gap. -/
theorem skipUnder_of_isNameChar {x : Char} {xs : List Char} (h : c.rest = x :: xs) (hx : isNameChar x = true) :
    c.skipUnder gaps = c := by
  have hslash : x ≠ '/' := by
    rintro rfl
    cases hx
  have hspace : isSpace x = false := by
    cases hs : isSpace x with
    | false => rfl
    | true =>
      have hloose : Loose [x] := by
        rintro y ys hy
        cases hy
        exact hs
      rw [hloose.apart x [] rfl] at hx
      cases hx
  have hskip : c.skip = c := by
    rw [Cursor.skip, h, skipFrom.eq_3 _ _ _ _ (fun _ h => absurd h hslash) (fun _ h => absurd h hslash), hspace]
    rw [← h]
    rfl
  unfold skipUnder
  split_ifs
  · exact hskip
  · rfl

/-- In front of a name, no reserved word is read, or the name goes on behind it. -/
theorem yields_isWords (hp : p.isWords = true) (hl : Lead.name.Holds c.rest) : p.Yields gaps c .failed ∨
    ∃ d, p.Yields gaps c (.matched d []) ∧ ∃ x xs, d.rest = x :: xs ∧ isNameChar x = true := by
  induction p with
  | text cs =>
    cases hd : c.accept? cs with
    | none => exact .inl (.textFailed hd)
    | some d =>
      refine .inr ⟨d, .text hd, ?_⟩
      have hreads := reads_of_accept? hd
      obtain ⟨w, tail, hw, htail, hspells⟩ := hl
      have hkeyword : String.ofList cs ∈ keywords := by simpa [isWords] using hp
      have hchars := isNameChar_of_mem_keywords _ hkeyword
      rw [String.toList_ofList] at hchars
      obtain ⟨more, rfl⟩ : cs <+: w := prefix_of_apart hchars htail ⟨d.rest, by rw [← hw, hreads.rest]⟩
      rw [hreads.rest, List.append_assoc] at hw
      have hrest : d.rest = more ++ tail := List.append_cancel_left hw
      cases more with
      | nil =>
        rw [List.append_nil] at hspells
        exact absurd hkeyword hspells.2
      | cons x more => exact ⟨x, more ++ tail, hrest, isNameChar_of_identifier hspells x (by simp)⟩
  | alt p q ihp ihq =>
    rw [isWords, Bool.and_eq_true] at hp
    rcases ihp hp.1 with hfailed | ⟨d, hd, hnext⟩
    · rcases ihq hp.2 with hfailed' | ⟨d, hd, hnext⟩
      · exact .inl (.altSecond hfailed hfailed')
      · exact .inr ⟨d, .altSecond hfailed hd, hnext⟩
    · exact .inr ⟨d, .altFirst hd, hnext⟩
  | _ => cases hp

theorem yields_of_overruns (h : p.overruns l q = true) (hl : l.Holds c.rest) : (seq p q).Yields gaps c .failed := by
  unfold overruns at h
  split at h
  · rename_i test
    simp only [Bool.and_eq_true, List.all_eq_true] at h
    obtain ⟨⟨hname, hwords⟩, htest⟩ := h
    cases l <;> try cases hname
    rcases yields_isWords hwords hl with hfailed | ⟨d, hd, x, xs, hrest, hx⟩
    · exact .seqFirst hfailed
    · have hnext : d.satisfy? test = some (d.past x xs) := by
        simp only [satisfy?, hrest, htest x (mem_nameChars hx), if_true]
      refine .seqSecond hd ?_
      rw [skipUnder_of_isNameChar hrest hx]
      exact .avoidFailed (.char hnext)
  · cases h

/-- What is foretold of a pattern happens. -/
theorem fate_sound {call : Rule → Bool} (hcall : ∀ gaps r, call r = true → Yields gaps (rule r) c .failed)
    (hl : l.Holds c.rest) (hskip : ∀ gaps, c.skipUnder gaps = c) :
    (p.fate l call = .fails → p.Yields gaps c .failed) ∧
      (p.fate l call = .idles → p.Yields gaps c (.matched c [])) := by
  induction p generalizing gaps with
  | text cs =>
    simp only [fate]
    split_ifs with h
    · exact ⟨fun _ => .textFailed (accept?_eq_none_of (hl.not_prefix h)), nofun⟩
    · exact ⟨nofun, nofun⟩
  | char test =>
    simp only [fate]
    split_ifs with h
    · refine ⟨fun _ => .charFailed (satisfy?_eq_none.mpr (fun x xs hx => ?_)), nofun⟩
      simpa using List.all_eq_true.mp h x (hl.head x xs hx)
    · exact ⟨nofun, nofun⟩
  | rule r =>
    simp only [fate]
    split_ifs with h
    · exact ⟨fun _ => hcall gaps r h, nofun⟩
    · exact ⟨nofun, nofun⟩
  | seq p q ihp ihq =>
    simp only [fate]
    cases hp : p.fate l call with
    | fails => exact ⟨fun _ => .seqFirst (ihp.1 hp), nofun⟩
    | idles =>
      have hfirst : p.Yields gaps c (.matched c []) := ihp.2 hp
      refine ⟨fun hq => .seqSecond hfirst ?_, fun hq => .seq hfirst ?_⟩
      · rw [hskip]
        exact ihq.1 hq
      · rw [hskip]
        exact ihq.2 hq
    | unsure =>
      dsimp only
      split_ifs with h
      · exact ⟨fun _ => yields_of_overruns h hl, nofun⟩
      · exact ⟨nofun, nofun⟩
  | alt p q ihp ihq =>
    simp only [fate]
    cases hp : p.fate l call with
    | fails => exact ⟨fun hq => .altSecond (ihp.1 hp) (ihq.1 hq), fun hq => .altSecond (ihp.1 hp) (ihq.2 hq)⟩
    | idles => exact ⟨nofun, fun _ => .altFirst (ihp.2 hp)⟩
    | unsure => exact ⟨nofun, nofun⟩
  | opt p ih =>
    simp only [fate]
    cases hp : p.fate l call with
    | fails => exact ⟨nofun, fun _ => .optNone (ih.1 hp)⟩
    | _ => exact ⟨nofun, nofun⟩
  | many p ih =>
    simp only [fate]
    cases hp : p.fate l call with
    | fails => exact ⟨nofun, fun _ => .manyNone (ih.1 hp)⟩
    | _ => exact ⟨nofun, nofun⟩
  | avoid p ih =>
    simp only [fate]
    cases hp : p.fate l call with
    | fails => exact ⟨nofun, fun _ => .avoid (ih.1 hp)⟩
    | _ => exact ⟨nofun, nofun⟩
  | tight p ih => exact ⟨fun hp => .tightFailed (ih.1 hp), fun hp => .tight (ih.2 hp)⟩
  | start => exact ⟨nofun, nofun⟩
  | stop => exact ⟨nofun, nofun⟩

end Pattern

/-- A rule fails where it is foretold to. -/
theorem Rule.fails_sound {l : Lead} {c : Cursor} {n : Nat} {gaps : Spacing} {r : Rule} (h : r.fails l n = true)
    (hl : l.Holds c.rest) (hskip : ∀ gaps, c.skipUnder gaps = c) : Pattern.Yields gaps (.rule r) c .failed := by
  induction n generalizing gaps r with
  | zero => cases h
  | succ n ih =>
    simp only [Rule.fails, Bool.or_eq_true, Bool.and_eq_true, beq_iff_eq] at h
    rcases h with ⟨rfl, hword⟩ | hbody
    · cases l <;> try cases hword
      obtain ⟨tail, hrest, htail, hw⟩ := hl
      exact .ruleFailed (refuses_identifier hw htail c hrest)
    · exact .ruleFailed ((Pattern.fate_sound (fun gaps r hr => ih hr) hl hskip).1 hbody)

/-- The tokens begin as the lead says. -/
def Leads (l : Lead) (s : List Token) : Prop := ∀ c, At s c → l.Holds c.rest

/-- Whether a pattern fails in front of each of the leads, rules being looked at 16 deep. -/
def Pattern.failsAt (ls : List Lead) (p : Pattern) : Bool :=
  ls.all (fun l => p.fate l (fun r => r.fails l 16) == .fails)

/-- A pattern fails in front of tokens if it is foretold to. -/
theorem Fails.of_leads {ls : List Lead} {p : Pattern} {s : List Token} (hs : ∃ l ∈ ls, Leads l s)
    (h : p.failsAt ls = true) : Fails p s := by
  obtain ⟨l, hl, hleads⟩ := hs
  have hfate := List.all_eq_true.mp h l hl
  rw [beq_iff_eq] at hfate
  intro c hc
  have hskip : ∀ gaps, c.skipUnder gaps = c := hc.skipUnder
  exact (Pattern.fate_sound (fun gaps r hr => Rule.fails_sound hr (hleads c hc) hskip) (hleads c hc) hskip).1 hfate

theorem Leads.one {l : Lead} {s : List Token} (h : Leads l s) : ∃ l' ∈ [l], Leads l' s := ⟨l, .head _, h⟩

theorem Fails.of_lead {l : Lead} {p : Pattern} {s : List Token} (hs : Leads l s)
    (h : p.failsAt [l] = true) : Fails p s :=
  Fails.of_leads hs.one h

/-- Of a choice, the patterns in front of one that matches fail. -/
theorem Gives.choice {p : Pattern} {ls : List Lead} {s s' : List Token} {P : List Tree → Prop} (ps : List Pattern)
    (hs : ∃ l ∈ ls, Leads l s) (hps : ps.all (fun q => q.failsAt ls) = true) (hp : Gives p s s' P)
    (qs : List Pattern) : Gives (oneOf (ps ++ p :: qs)) s s' P := by
  induction ps with
  | nil =>
    cases qs with
    | nil => exact hp
    | cons q qs => exact hp.altFirst
  | cons p' ps ih =>
    rw [List.all_cons, Bool.and_eq_true] at hps
    have hfails : Fails p' s := Fails.of_leads hs hps.1
    cases ps with
    | nil => exact .altSecond hfails (ih hps.2)
    | cons p'' ps => exact .altSecond hfails (ih hps.2)

/-! ### The leads of tokens -/

section Leads

variable {s : List Token} {t : Token} {cs ds : List Char}

theorem leads_nil : Leads .done [] := fun _ hc => hc.rest_nil

theorem leads_symbol (t : Token) (s : List Token) : Leads (.symbol t) (t :: s) := by
  intro c hc
  obtain ⟨tail, hrest, htail, -⟩ := hc.cons
  refine ⟨tail, hrest, htail, fun hnil => ?_⟩
  have ht := hc.tokens t (.head _)
  rw [isToken, hnil] at ht
  cases ht

/-- A token begins with a reserved word, and no name character follows it. -/
theorem leads_word {w : String} (hw : w ∈ keywords) (ht : t.toList = w.toList ++ ds) (hds : Apart ds)
    (s : List Token) : Leads (.word w) (t :: s) := by
  intro c hc
  obtain ⟨tail, hrest, htail, -⟩ := hc.cons
  refine ⟨ds ++ tail, by rw [hrest, ht, List.append_assoc], ?_, hw⟩
  cases ds with
  | nil => exact htail.apart
  | cons x xs =>
    rintro y ys hy
    cases hy
    exact hds x xs rfl

theorem leads_keyword {w : String} (hw : w ∈ keywords) (s : List Token) : Leads (.word w) (w :: s) :=
  leads_word hw (List.append_nil _).symm (fun _ _ h => nomatch h) s

/-- A token begins with a name, and no name character follows it. -/
theorem leads_name (hcs : Rule.identifier.Spells cs) (ht : t.toList = cs ++ ds) (hds : Apart ds)
    (s : List Token) : Leads .name (t :: s) := by
  intro c hc
  obtain ⟨tail, hrest, htail, -⟩ := hc.cons
  refine ⟨cs, ds ++ tail, by rw [hrest, ht, List.append_assoc], ?_, hcs⟩
  cases ds with
  | nil => exact htail.apart
  | cons x xs =>
    rintro y ys hy
    cases hy
    exact hds x xs rfl

theorem leads_among {x : Char} {xs : List Char} (ht : t.toList = x :: cs) (hx : x ∈ xs) (s : List Token) :
    Leads (.among xs) (t :: s) := by
  intro c hc
  obtain ⟨tail, hrest, -⟩ := hc.cons
  exact ⟨x, cs ++ tail, by rw [hrest, ht, List.cons_append], hx⟩

/-- How dotted names begin. -/
def dottedLeads : List Lead := [.name, .word "this", .word "super"]

theorem IsDotted.leads (h : IsDotted t.toList) (s : List Token) : ∃ l ∈ dottedLeads, Leads l (t :: s) := by
  obtain ⟨first, more, hfirst, -, ht⟩ := h
  have hapart : Apart (more.flatMap (fun m => '.' :: m)) := by
    cases more with
    | nil => exact fun _ _ h => nomatch h
    | cons m more =>
      rintro x xs hx
      cases hx
      decide
  rcases hfirst with hword | hname
  · have hkeyword : String.ofList first ∈ keywords := (by decide : ["this", "super"] ⊆ keywords) hword
    refine ⟨.word (String.ofList first), ?_, leads_word hkeyword ?_ hapart s⟩
    · simp only [List.mem_cons, List.not_mem_nil, or_false] at hword
      rcases hword with hword | hword <;> simp [hword, dottedLeads]
    · rwa [String.toList_ofList]
  · exact ⟨.name, .head _, leads_name hname ht hapart s⟩

/-- How types begin. -/
def typeLeads : List Lead := .name :: primitiveWords.map .word

theorem IsTypeWord.leads (h : IsTypeWord cs) (ht : t.toList = cs ++ ds) (hds : Apart ds) (s : List Token) :
    ∃ l ∈ typeLeads, Leads l (t :: s) := by
  rcases h with hword | hname
  · have hkeyword : String.ofList cs ∈ keywords := (by decide : primitiveWords ⊆ keywords) hword
    refine ⟨.word (String.ofList cs), ?_, leads_word hkeyword ?_ hds s⟩
    · exact .tail _ (List.mem_map_of_mem hword)
    · rwa [String.toList_ofList]
  · exact ⟨.name, .head _, leads_name hname ht hds s⟩

/-- The decimal digits. -/
def digitChars : List Char := ['0', '1', '2', '3', '4', '5', '6', '7', '8', '9']

theorem mem_digitChars {x : Char} (h : x.isDigit = true) : x ∈ digitChars := by
  have hname : isNameChar x = true := by
    simp only [isNameChar, Char.isAlphanum, Bool.or_eq_true]
    exact .inl (.inl (.inr h))
  have hdigits : nameChars.filter Char.isDigit = digitChars := by decide
  exact hdigits ▸ List.mem_filter.mpr ⟨mem_nameChars hname, h⟩

end Leads

end Grammar
end StashMachine
