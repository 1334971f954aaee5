import StashMachine.Grammar.Java
import Mathlib.Data.List.Basic

/-!
# StashMachine.Proofs.Matching — what a match looks like

* `Cursor.Reads`: the characters between two places of a source.
* `Pattern.Admits`: the characters that a match of a pattern may read and the rules of the nodes that it
  may leave, whatever is tried first.
* `Rule.Spells`: what is known of the text of a rule.  A name is no reserved word.
* `Tree.Grown`: every node of a tree has children that its rule admits, and a text that its rule spells.
* `parse?_grown`: the trees that the grammar gives are grown.
-/

namespace StashMachine
namespace Grammar

/-! ### Places -/

/-- The characters `cs` lead from one place to another. -/
structure Cursor.Reads (a : Cursor) (cs : List Char) (b : Cursor) : Prop where
  rest : a.rest = cs ++ b.rest
  index : b.index = a.index + cs.length

namespace Cursor

variable {a b c : Cursor} {cs ds : List Char}

theorem Reads.refl (a : Cursor) : a.Reads [] a := ⟨rfl, rfl⟩

theorem Reads.trans (h : a.Reads cs b) (h' : b.Reads ds c) : a.Reads (cs ++ ds) c where
  rest := by rw [h.rest, h'.rest, List.append_assoc]
  index := by rw [h'.index, h.index, List.length_append, Nat.add_assoc]

theorem Reads.past {x : Char} {rest : List Char} (h : a.rest = x :: rest) :
    a.Reads [x] (a.past x rest) := ⟨h, rfl⟩

theorem Reads.textTo (h : a.Reads cs b) : a.textTo b = String.ofList cs := by
  have hlength : b.index - a.index = cs.length := by rw [h.index]; omega
  rw [Cursor.textTo, hlength, h.rest, List.take_left]

theorem reads_of_accept? {wanted : List Char} (h : a.accept? wanted = some b) : a.Reads wanted b := by
  induction wanted generalizing a with
  | nil =>
    cases h
    exact .refl _
  | cons w more ih =>
    simp only [accept?] at h
    split at h
    · rename_i x rest hrest
      split_ifs at h with hx
      subst hx
      exact (Reads.past hrest).trans (ih h)
    · cases h

theorem accept?_eq_none (h : a.accept? cs = none) : ¬ cs <+: a.rest := by
  induction cs generalizing a with
  | nil => cases h
  | cons w more ih =>
    rintro ⟨rest, hrest⟩
    rw [List.cons_append] at hrest
    simp only [accept?, ← hrest, if_true] at h
    exact ih h ⟨rest, rfl⟩

theorem reads_of_satisfy? {test : Char → Bool} (h : a.satisfy? test = some b) :
    ∃ x, test x = true ∧ a.Reads [x] b := by
  simp only [satisfy?] at h
  split at h
  · rename_i x rest hrest
    split_ifs at h with hx
    cases h
    exact ⟨x, hx, .past hrest⟩
  · cases h

theorem satisfy?_eq_none {test : Char → Bool} :
    a.satisfy? test = none ↔ ∀ x rest, a.rest = x :: rest → test x = false := by
  unfold satisfy?
  split
  · rename_i x rest hrest
    simp [hrest]
  · rename_i hrest
    simp [hrest]

/-- A gap leads on from where it starts, or, if it is an open comment, back to where that began. -/
theorem reads_skipFrom {g : Gap} {i o : Nat} {rest : List Char} (h : a.Reads cs ⟨i, o, rest⟩)
    (hopened : ∀ opened, g = .block opened → ∃ ds, a.Reads ds opened) :
    ∃ ds, a.Reads ds (skipFrom g i o rest) := by
  fun_induction skipFrom g i o rest generalizing cs with
  | case1 i o rest ih =>
    exact @ih (cs ++ ['/', '/']) (h.trans ⟨rfl, rfl⟩) (by simp)
  | case2 i o rest ih =>
    refine @ih (cs ++ ['/', '*']) (h.trans ⟨rfl, rfl⟩) (fun opened ho => ?_)
    cases ho
    exact ⟨cs, h⟩
  | case3 i o c rest _ _ hspace ih => exact ih (h.trans (.past rfl)) (by simp)
  | case4 i o c rest _ _ hspace => exact ⟨cs, h⟩
  | case5 i o rest ih => exact @ih (cs ++ ['\n']) (h.trans ⟨rfl, rfl⟩) (by simp)
  | case6 i o c rest hc ih => exact ih (h.trans (.past rfl)) (by simp)
  | case7 opened i o rest ih => exact @ih (cs ++ ['*', '/']) (h.trans ⟨rfl, rfl⟩) (by simp)
  | case8 opened i o c rest _ ih => exact ih (h.trans (.past rfl)) hopened
  | case9 i o => exact ⟨cs, h⟩
  | case10 i o => exact ⟨cs, h⟩
  | case11 opened i o => exact hopened opened rfl

theorem reads_skipUnder (gaps : Spacing) (a : Cursor) :
    ∃ cs, a.Reads cs (a.skipUnder gaps) ∧ (gaps ≠ .free → cs = []) := by
  unfold skipUnder
  split_ifs with hgaps
  · obtain ⟨cs, h⟩ := reads_skipFrom (g := .blank) (a := a) (.refl a) (by simp)
    exact ⟨cs, h, fun hfree => absurd hgaps hfree⟩
  · exact ⟨[], .refl a, fun _ => rfl⟩

end Cursor

/-! ### Patterns -/

/-- What is known of the text of a rule: a name is made of name characters and is no reserved word, and
a type is made of name characters and square brackets. -/
def Rule.Spells : Rule → List Char → Prop
  | .identifier, cs => (∃ x xs, cs = x :: xs ∧ isNameStart x = true ∧ ∀ y ∈ xs, isNameChar y = true) ∧
    String.ofList cs ∉ keywords
  | .unannType, cs => cs ≠ [] ∧ ∀ y ∈ cs, isNameChar y = true ∨ y = '[' ∨ y = ']'
  | _, _ => True

/-- A match of the pattern may read the characters `cs` and leave nodes of the rules `rs`. -/
inductive Pattern.Admits : Spacing → Pattern → List Char → List Rule → Prop
  | text {gaps : Spacing} (cs : List Char) : Admits gaps (.text cs) cs []
  | char {gaps : Spacing} {test : Char → Bool} {x : Char} :
    test x = true → Admits gaps (.char test) [x] []
  | rule {gaps : Spacing} {r : Rule} {cs : List Char} : r.Spells cs → Admits gaps (.rule r) cs [r]
  | seq {gaps : Spacing} {p q : Pattern} {cs gap cs' : List Char} {rs rs' : List Rule} :
    Admits gaps p cs rs → (gaps ≠ .free → gap = []) → Admits gaps q cs' rs' →
      Admits gaps (.seq p q) (cs ++ (gap ++ cs')) (rs ++ rs')
  | first {gaps : Spacing} {p q : Pattern} {cs : List Char} {rs : List Rule} :
    Admits gaps p cs rs → Admits gaps (.alt p q) cs rs
  | second {gaps : Spacing} {p q : Pattern} {cs : List Char} {rs : List Rule} :
    Admits gaps q cs rs → Admits gaps (.alt p q) cs rs
  | present {gaps : Spacing} {p : Pattern} {cs : List Char} {rs : List Rule} :
    Admits gaps p cs rs → Admits gaps (.opt p) cs rs
  | absent {gaps : Spacing} {p : Pattern} : Admits gaps (.opt p) [] []
  | none {gaps : Spacing} {p : Pattern} : Admits gaps (.many p) [] []
  | more {gaps : Spacing} {p : Pattern} {cs gap cs' : List Char} {rs rs' : List Rule} :
    Admits gaps (.many p) cs rs → (gaps ≠ .free → gap = []) → Admits gaps p cs' rs' →
      Admits gaps (.many p) (cs ++ (gap ++ cs')) (rs ++ rs')
  | avoid {gaps : Spacing} {p : Pattern} : Admits gaps (.avoid p) [] []
  | tight {gaps : Spacing} {p : Pattern} {cs : List Char} {rs : List Rule} :
    Admits .atomic p cs rs → Admits gaps (.tight p) cs []
  | start {gaps : Spacing} : Admits gaps .start [] []
  | stop {gaps : Spacing} : Admits gaps .stop [] []

/-- One round makes a repetition. -/
theorem Pattern.Admits.one {gaps : Spacing} {p : Pattern} {cs : List Char} {rs : List Rule} (h : p.Admits gaps cs rs) :
    (Pattern.many p).Admits gaps cs rs := by
  have hmany : (Pattern.many p).Admits gaps ([] ++ ([] ++ cs)) ([] ++ rs) := .more .none (fun _ => rfl) h
  exact hmany

/-- Whether all rules of a pattern pass a test. -/
def Pattern.allRules (test : Rule → Bool) : Pattern → Bool
  | .rule r => test r
  | .seq p q | .alt p q => p.allRules test && q.allRules test
  | .opt p | .many p => p.allRules test
  | .text _ | .char _ | .avoid _ | .tight _ | .start | .stop => true

theorem Pattern.Admits.forall_rules {t : Rule → Bool} {gaps : Spacing} {p : Pattern}
    {cs : List Char} {rs : List Rule} (h : p.Admits gaps cs rs) (hp : p.allRules t = true) :
    ∀ r ∈ rs, t r = true := by
  induction h with
  | rule =>
    rw [Pattern.allRules] at hp
    simpa using hp
  | seq _ _ _ ih ih' =>
    rw [Pattern.allRules, Bool.and_eq_true] at hp
    intro r hr
    rcases List.mem_append.mp hr with hr | hr
    · exact ih hp.1 r hr
    · exact ih' hp.2 r hr
  | first _ ih =>
    rw [Pattern.allRules, Bool.and_eq_true] at hp
    exact ih hp.1
  | second _ ih =>
    rw [Pattern.allRules, Bool.and_eq_true] at hp
    exact ih hp.2
  | present _ ih => exact ih hp
  | more _ _ _ ih ih' =>
    intro r hr
    rcases List.mem_append.mp hr with hr | hr
    · exact ih hp r hr
    · exact ih' hp r hr
  | _ => simp

/-- A tree as the grammar gives them. -/
inductive Tree.Grown : Tree → Prop
  | node {r : Rule} {start : Nat} {text : String} {children : List Tree}
    (hchildren : ∀ t ∈ children, Grown t) (hleaf : r.spacing = .atomic → children = [])
    (hadmits : r.spacing ≠ .atomic → ∃ gaps cs, r.body.Admits gaps cs (children.map Tree.rule))
    (hspells : r.Spells text.toList) : Grown (.node r start text children)

/-- Matching a rule leaves one grown tree of it. -/
def Grows (call : Spacing → Rule → Cursor → Outcome) : Prop :=
  ∀ gaps r c d ts, call gaps r c = .matched d ts →
    ∃ t cs, ts = [t] ∧ t.rule = r ∧ t.Grown ∧ c.Reads cs d ∧ r.Spells cs

namespace Pattern

variable {call : Spacing → Rule → Cursor → Outcome} {gaps : Spacing} {p q : Pattern} {c d : Cursor}
  {ts : List Tree}

/-! Matches of patterns, taken apart. -/

theorem run_text_eq_matched {cs : List Char} : (text cs).run call gaps c = .matched d ts ↔
    c.accept? cs = some d ∧ ts = [] := by
  simp only [run]
  cases c.accept? cs <;> simp [Outcome.ofCursor?, eq_comm]

theorem run_char_eq_matched {test : Char → Bool} : (char test).run call gaps c = .matched d ts ↔
    c.satisfy? test = some d ∧ ts = [] := by
  simp only [run]
  cases c.satisfy? test <;> simp [Outcome.ofCursor?, eq_comm]

theorem run_seq_eq_matched : (seq p q).run call gaps c = .matched d ts ↔
    ∃ e ts₁ ts₂, p.run call gaps c = .matched e ts₁ ∧
      q.run call gaps (e.skipUnder gaps) = .matched d ts₂ ∧ ts = ts₁ ++ ts₂ := by
  simp only [run]
  constructor
  · intro h
    cases hp : p.run call gaps c with
    | matched e ts₁ =>
      rw [hp] at h
      simp only [Outcome.andThen] at h
      cases hq : q.run call gaps (e.skipUnder gaps) with
      | matched e' ts₂ =>
        rw [hq] at h
        cases h
        exact ⟨e, ts₁, ts₂, rfl, hq, rfl⟩
      | _ => simp [hq, Outcome.after, Outcome.andThen] at h
    | _ => simp [hp, Outcome.andThen] at h
  · rintro ⟨e, ts₁, ts₂, hp, hq, rfl⟩
    simp only [hp, hq, Outcome.andThen, Outcome.after]

theorem run_alt_eq_matched : (alt p q).run call gaps c = .matched d ts ↔
    p.run call gaps c = .matched d ts ∨ p.run call gaps c = .failed ∧ q.run call gaps c = .matched d ts := by
  simp only [run]
  cases p.run call gaps c <;> simp [Outcome.orElse]

theorem run_opt_eq_matched : (opt p).run call gaps c = .matched d ts ↔
    p.run call gaps c = .matched d ts ∨ p.run call gaps c = .failed ∧ d = c ∧ ts = [] := by
  simp only [run]
  cases p.run call gaps c <;> simp [Outcome.orElse, eq_comm]

theorem run_many_eq_matched : (many p).run call gaps c = .matched d ts ↔
    (∃ e us, p.run call gaps c = .matched e us ∧
      rounds (fun e => p.run call gaps (e.skipUnder gaps)) e.rest.length e us = .matched d ts) ∨
    p.run call gaps c = .failed ∧ d = c ∧ ts = [] := by
  simp only [run]
  cases p.run call gaps c <;> simp [eq_comm]

theorem run_avoid_eq_matched : (avoid p).run call gaps c = .matched d ts ↔
    p.run call gaps c = .failed ∧ d = c ∧ ts = [] := by
  simp only [run]
  cases p.run call gaps c <;> simp [Outcome.inverted, eq_comm]

theorem run_tight_eq_matched : (tight p).run call gaps c = .matched d ts ↔
    (∃ us, p.run call .atomic c = .matched d us) ∧ ts = [] := by
  simp only [run]
  cases p.run call .atomic c <;> simp [Outcome.bare, Outcome.andThen, eq_comm]

theorem run_start_eq_matched : start.run call gaps c = .matched d ts ↔ c.index = 0 ∧ d = c ∧ ts = [] := by
  simp only [run]
  split_ifs with hi <;> simp [hi, eq_comm]

theorem run_stop_eq_matched : stop.run call gaps c = .matched d ts ↔ c.rest = [] ∧ d = c ∧ ts = [] := by
  simp only [run]
  split_ifs with hr
  · simp [List.isEmpty_iff.mp hr, eq_comm]
  · simp [mt List.isEmpty_iff.mpr hr]

/-- What holds after the first round, and after one round more if before it, holds at the end. -/
theorem rounds_induction {round : Cursor → Outcome} {P : Cursor → List Tree → Prop} {n : Nat} {us : List Tree}
    (hround : ∀ c ts d us, P c ts → round c = .matched d us → P d (ts ++ us)) (hfirst : P c ts)
    (h : rounds round n c ts = .matched d us) : P d us := by
  induction n generalizing c ts with
  | zero =>
    cases h
    exact hfirst
  | succ n ih =>
    simp only [rounds] at h
    split at h
    · rename_i e vs hr
      exact ih (hround _ _ _ _ hfirst hr) h
    · cases h
      exact hfirst
    · cases h

theorem run_oneOf_cons (p : Pattern) (ps : List Pattern) : (oneOf (p :: ps)).run call gaps c =
    (p.run call gaps c).orElse (fun _ => (oneOf ps).run call gaps c) := by
  cases ps with
  | nil =>
    have hnone : (oneOf []).run call gaps c = .failed := rfl
    rw [hnone, oneOf]
    cases p.run call gaps c <;> rfl
  | cons q ps => rfl

/-- The characters from `c` to `d` and the rules of the nodes `ts` are what the pattern admits, and the nodes are
grown. -/
def Fulfils (p : Pattern) (gaps : Spacing) (c d : Cursor) (ts : List Tree) : Prop :=
  ∃ cs, c.Reads cs d ∧ p.Admits gaps cs (ts.map Tree.rule) ∧ ∀ t ∈ ts, t.Grown

theorem Fulfils.leafless {cs : List Char} (hreads : c.Reads cs d) (hadmits : p.Admits gaps cs []) :
    p.Fulfils gaps c d [] := ⟨cs, hreads, hadmits, nofun⟩

theorem Fulfils.imp {gaps' : Spacing} (h : p.Fulfils gaps c d ts)
    (hpq : ∀ {cs rs}, p.Admits gaps cs rs → q.Admits gaps' cs rs) : q.Fulfils gaps' c d ts := by
  obtain ⟨cs, hreads, hadmits, hgrown⟩ := h
  exact ⟨cs, hreads, hpq hadmits, hgrown⟩

/-- One part, a gap, and another part behind it. -/
theorem Fulfils.append {r : Pattern} {e : Cursor} {us : List Tree} (h : p.Fulfils gaps c d ts)
    (h' : q.Fulfils gaps (d.skipUnder gaps) e us)
    (hr : ∀ {cs gap cs' rs rs'}, p.Admits gaps cs rs → (gaps ≠ .free → gap = []) → q.Admits gaps cs' rs' →
      r.Admits gaps (cs ++ (gap ++ cs')) (rs ++ rs')) : r.Fulfils gaps c e (ts ++ us) := by
  obtain ⟨cs, hcs, hadmits, hgrown⟩ := h
  obtain ⟨gap, hgap, hfree⟩ := Cursor.reads_skipUnder gaps d
  obtain ⟨cs', hcs', hadmits', hgrown'⟩ := h'
  refine ⟨_, hcs.trans (hgap.trans hcs'), ?_, fun t ht => ?_⟩
  · rw [List.map_append]
    exact hr hadmits hfree hadmits'
  · exact (List.mem_append.mp ht).elim (hgrown t) (hgrown' t)

/-- A match reads what its pattern admits, and leaves grown trees. -/
theorem run_admits (hcall : Grows call) (h : p.run call gaps c = .matched d ts) : p.Fulfils gaps c d ts := by
  induction p generalizing gaps c d ts with
  | text cs =>
    obtain ⟨ha, rfl⟩ := run_text_eq_matched.mp h
    exact .leafless (Cursor.reads_of_accept? ha) (.text cs)
  | char test =>
    obtain ⟨hc, rfl⟩ := run_char_eq_matched.mp h
    obtain ⟨x, hx, hreads⟩ := Cursor.reads_of_satisfy? hc
    exact .leafless hreads (.char hx)
  | rule r =>
    obtain ⟨t, cs, rfl, hrule, hgrown, hreads, hspells⟩ := hcall _ _ _ _ _ h
    exact ⟨cs, hreads, by simpa [hrule] using .rule hspells, by simpa using hgrown⟩
  | seq p q ihp ihq =>
    obtain ⟨e, ts₁, ts₂, hp, hq, rfl⟩ := run_seq_eq_matched.mp h
    exact (ihp hp).append (ihq hq) .seq
  | alt p q ihp ihq =>
    rcases run_alt_eq_matched.mp h with hp | ⟨-, hq⟩
    · exact (ihp hp).imp .first
    · exact (ihq hq).imp .second
  | opt p ih =>
    rcases run_opt_eq_matched.mp h with hp | ⟨-, rfl, rfl⟩
    · exact (ih hp).imp .present
    · exact .leafless (.refl d) .absent
  | many p ih =>
    rcases run_many_eq_matched.mp h with ⟨e, us, hp, hrounds⟩ | ⟨-, rfl, rfl⟩
    · have hfirst : (many p).Fulfils gaps c e us := (ih hp).imp .one
      exact rounds_induction (fun e vs e' us hbefore he => hbefore.append (ih he) .more) hfirst hrounds
    · exact .leafless (.refl d) .none
  | avoid p ih =>
    obtain ⟨-, rfl, rfl⟩ := run_avoid_eq_matched.mp h
    exact .leafless (.refl d) .avoid
  | tight p ih =>
    obtain ⟨⟨us, hp⟩, rfl⟩ := run_tight_eq_matched.mp h
    obtain ⟨cs, hcs, hadmits, -⟩ := ih hp
    exact .leafless hcs (.tight hadmits)
  | start =>
    obtain ⟨-, rfl, rfl⟩ := run_start_eq_matched.mp h
    exact .leafless (.refl d) .start
  | stop =>
    obtain ⟨-, rfl, rfl⟩ := run_stop_eq_matched.mp h
    exact .leafless (.refl d) .stop

/-! ### Reserved words -/

/-- Of several words of which no other one is a beginning of the source, the one that is gets read. -/
theorem run_oneOf_lit {ks : List String} {k : String} {rest : List Char} (hk : k ∈ ks)
    (hrest : c.rest = k.toList ++ rest) (honly : ∀ k' ∈ ks, k'.toList <+: c.rest → k' = k) :
    ∃ e, (oneOf (ks.map lit)).run call gaps c = .matched e [] ∧ e.rest = rest := by
  induction ks with
  | nil => cases hk
  | cons k' ks ih =>
    rw [List.map_cons, run_oneOf_cons]
    simp only [lit, run]
    cases ha : c.accept? k'.toList with
    | some e =>
      have hreads := Cursor.reads_of_accept? ha
      obtain rfl := honly k' (by simp) ⟨e.rest, hreads.rest.symm⟩
      refine ⟨e, rfl, ?_⟩
      exact List.append_cancel_left (hreads.rest.symm.trans hrest)
    | none =>
      have hne : k ≠ k' := by
        rintro rfl
        exact Cursor.accept?_eq_none ha ⟨rest, hrest.symm⟩
      exact ih (List.mem_of_ne_of_mem hne hk) (fun k'' h'' => honly k'' (by simp [h'']))

/-- A repetition of single characters stops only where there is no further one. -/
theorem satisfy?_of_rounds {test : Char → Bool} {n : Nat} {us : List Tree}
    (hn : c.rest.length ≤ n)
    (h : rounds (fun e => (char test).run call .atomic (e.skipUnder .atomic)) n c ts = .matched d us) :
    d.satisfy? test = none := by
  induction n generalizing c ts with
  | zero =>
    cases h
    rw [Cursor.satisfy?_eq_none]
    rintro x rest hrest
    simp [hrest] at hn
  | succ n ih =>
    simp only [rounds, run] at h
    cases hc : (c.skipUnder .atomic).satisfy? test with
    | none =>
      rw [hc] at h
      cases h
      exact hc
    | some e =>
      rw [hc] at h
      obtain ⟨x, -, hreads⟩ := Cursor.reads_of_satisfy? hc
      have hlength := congrArg List.length hreads.rest
      refine ih ?_ h
      change c.rest.length = _ at hlength
      rw [List.length_append, List.length_singleton] at hlength
      omega

theorem satisfy?_of_run_many {test : Char → Bool}
    (h : (many (char test)).run call .atomic c = .matched d ts) : d.satisfy? test = none := by
  rcases run_many_eq_matched.mp h with ⟨e, us, -, hrounds⟩ | ⟨hfailed, rfl, -⟩
  · exact satisfy?_of_rounds (Nat.le_refl _) hrounds
  · cases hs : d.satisfy? test with
    | none => rfl
    | some e => simp [run, hs, Outcome.ofCursor?] at hfailed

/-- No reserved word is the beginning of another one. -/
theorem eq_of_isPrefix_of_mem_keywords :
    ∀ k ∈ keywords, ∀ k' ∈ keywords, k.toList <+: k'.toList → k = k' := by
  decide +kernel

/-- A name is no reserved word. -/
theorem notMem_keywords {cs : List Char} (h : Rule.identifier.body.run call .atomic c = .matched d ts)
    (hreads : c.Reads cs d) : String.ofList cs ∉ keywords := by
  intro hk
  obtain ⟨c', ts₁, ts₂, hword, hname, -⟩ := run_seq_eq_matched.mp h
  obtain ⟨hword, rfl, -⟩ := run_avoid_eq_matched.mp hword
  obtain ⟨e, ts₁, ts₂, -, hmany, -⟩ := run_seq_eq_matched.mp hname
  have hend := satisfy?_of_run_many hmany
  -- the word is read where the name starts, and no name character follows it
  have hrest : c'.rest = (String.ofList cs).toList ++ d.rest := by
    rw [String.toList_ofList]
    exact hreads.rest
  obtain ⟨e', he', hrest'⟩ : ∃ e', (oneOf (keywords.map lit)).run call .atomic c' = .matched e' [] ∧
      e'.rest = d.rest := run_oneOf_lit hk hrest (fun k' hk' hp => by
    rcases List.prefix_or_prefix_of_prefix hp ⟨d.rest, hrest.symm⟩ with hp | hp
    · exact eq_of_isPrefix_of_mem_keywords _ hk' _ hk hp
    · exact (eq_of_isPrefix_of_mem_keywords _ hk _ hk' hp).symm)
  have hend' : (e'.skipUnder .atomic).satisfy? isNameChar = none := by
    change e'.satisfy? isNameChar = none
    rw [Cursor.satisfy?_eq_none] at hend ⊢
    rwa [hrest']
  have hboth : (seq (oneOf (keywords.map lit)) (avoid (char isNameChar))).run call .atomic c'
      = .matched (e'.skipUnder .atomic) [] := by
    refine run_seq_eq_matched.mpr ⟨e', [], [], he', run_avoid_eq_matched.mpr ⟨?_, rfl, rfl⟩, rfl⟩
    rw [run, hend']
    rfl
  rw [wordOf, run, hboth] at hword
  cases hword

end Pattern

/-! ### Rules -/

theorem isNameChar_of_isNameStart {x : Char} (h : isNameStart x = true) : isNameChar x = true := by
  simp only [isNameStart, isNameChar, Char.isAlphanum, Bool.or_eq_true] at h ⊢
  tauto

namespace Pattern.Admits

variable {gaps : Spacing} {p : Pattern} {cs : List Char} {rs : List Rule}

theorem forall_chars_of_many {P : Char → Prop} (hgaps : gaps ≠ .free)
    (hp : ∀ cs rs, p.Admits gaps cs rs → ∀ y ∈ cs, P y) (h : (many p).Admits gaps cs rs) :
    ∀ y ∈ cs, P y := by
  generalize hq : many p = q at h
  induction h with
  | none => simp
  | more h hgap h' ih _ =>
    cases hq
    intro y hy
    rw [hgap hgaps, List.nil_append, List.mem_append] at hy
    exact hy.elim (ih hgaps hp rfl y) (hp _ _ h' y)
  | _ => cases hq

theorem exists_of_oneOf_lit {ks : List String} (h : (oneOf (ks.map lit)).Admits gaps cs rs) :
    ks = [] ∨ ∃ k ∈ ks, cs = k.toList := by
  induction ks with
  | nil => exact .inl rfl
  | cons k ks ih =>
    refine .inr ?_
    cases ks with
    | nil =>
      cases h
      exact ⟨k, by simp, rfl⟩
    | cons k' ks =>
      cases h with
      | first h =>
        cases h
        exact ⟨k, by simp, rfl⟩
      | second h =>
        obtain ⟨k'', hk'', rfl⟩ := (ih h).resolve_left (by simp)
        exact ⟨k'', List.mem_cons_of_mem k hk'', rfl⟩

/-- The text of a name. -/
theorem name (h : Rule.identifier.body.Admits .atomic cs rs) :
    ∃ x xs, cs = x :: xs ∧ isNameStart x = true ∧ ∀ y ∈ xs, isNameChar y = true := by
  cases h with
  | seq h hgap h' =>
    cases h
    cases h' with
    | seq h hgap' h' =>
      cases h with
      | @char _ _ x hx =>
        refine ⟨x, _, by rw [hgap (by simp), hgap' (by simp)]; rfl, hx, ?_⟩
        refine forall_chars_of_many (by simp) (fun cs rs h y hy => ?_) h'
        cases h with
        | char ht =>
          obtain rfl := List.mem_singleton.mp hy
          exact ht

/-- The text of a type. -/
theorem type (h : Rule.unannType.body.Admits .atomic cs rs) :
    cs ≠ [] ∧ ∀ y ∈ cs, isNameChar y = true ∨ y = '[' ∨ y = ']' := by
  cases h with
  | @seq _ _ _ cs₁ gap cs₂ _ _ h hgap h' =>
    have hword : cs₁ ≠ [] ∧ ∀ y ∈ cs₁, isNameChar y = true := by
      cases h with
      | first h =>
        cases h with
        | tight h =>
          cases h with
          | @seq _ _ _ cs gap _ _ _ h hgap h' =>
            cases h'
            obtain ⟨k, hk, rfl⟩ := (exists_of_oneOf_lit h).resolve_left (by simp)
            rw [hgap (by simp), List.append_nil, List.append_nil]
            rw [← List.all_eq_true]
            clear h
            revert k
            decide
      | second h =>
        cases h with
        | rule h =>
          obtain ⟨⟨x, xs, rfl, hx, hxs⟩, -⟩ := h
          refine ⟨by simp, fun y hy => ?_⟩
          rcases List.mem_cons.mp hy with rfl | hy
          · exact isNameChar_of_isNameStart hx
          · exact hxs y hy
    have hsuffix : ∀ y ∈ cs₂, y = '[' ∨ y = ']' := by
      cases h' with
      | absent => simp
      | present h =>
        cases h with
        | seq h hgap h' =>
          cases h
          cases h'
          rw [hgap (by simp)]
          simp
    rw [hgap (by simp), List.nil_append]
    refine ⟨by simp [hword.1], fun y hy => ?_⟩
    rcases List.mem_append.mp hy with hy | hy
    · exact .inl (hword.2 y hy)
    · exact .inr (hsuffix y hy)

end Pattern.Admits

theorem Rule.run_eq_matched {room : Nat} {gaps : Spacing} {r : Rule} {c d : Cursor} {ts : List Tree} :
    Rule.run (room + 1) gaps r c = .matched d ts ↔
      ∃ us, r.body.run (Rule.run room) (gaps.within r.spacing) c = .matched d us ∧ r.wrap c d us = .matched d ts := by
  simp only [Rule.run]
  constructor
  · intro h
    cases hbody : r.body.run (Rule.run room) (gaps.within r.spacing) c with
    | matched e us =>
      rw [hbody] at h
      cases h
      exact ⟨us, rfl, rfl⟩
    | _ => simp [hbody, Outcome.andThen] at h
  · rintro ⟨us, hbody, hwrap⟩
    rw [hbody]
    exact hwrap

/-- Matching a rule leaves one grown tree of it. -/
theorem grows_run (room : Nat) : Grows (Rule.run room) := by
  induction room with
  | zero =>
    intro gaps r c d ts h
    cases h
  | succ room ih =>
    intro gaps r c d ts h
    obtain ⟨us, hbody, hwrap⟩ := Rule.run_eq_matched.mp h
    cases hwrap
    obtain ⟨cs, hreads, hadmits, hgrown⟩ := Pattern.run_admits ih hbody
    have hspells : r.Spells cs := by
      cases r with
      | identifier => exact ⟨hadmits.name, Pattern.notMem_keywords hbody hreads⟩
      | unannType => exact hadmits.type
      | _ => trivial
    refine ⟨_, cs, rfl, rfl, .node ?_ ?_ ?_ ?_, hreads, hspells⟩
    · split_ifs
      · simp
      · exact hgrown
    · intro hatomic
      simp [hatomic]
    · intro hatomic
      rw [if_neg (by simpa using hatomic)]
      exact ⟨_, cs, hadmits⟩
    · rw [hreads.textTo, String.toList_ofList]
      exact hspells

/-- The trees that the grammar gives are grown. -/
theorem parse?_grown {r : Rule} {source : String} {t : Tree} (h : parse? r source = some t) :
    t.rule = r ∧ t.Grown := by
  unfold parse? at h
  split at h
  · rename_i d t' hrun
    obtain ⟨t'', cs, ht, hrule, hgrown, -⟩ := grows_run _ _ _ _ _ _ hrun
    cases ht
    cases h
    exact ⟨hrule, hgrown⟩
  · cases h

end Grammar
end StashMachine
