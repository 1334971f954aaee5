import StashMachine.Proofs.Matching

/-!
# StashMachine.Proofs.Derivation — the meaning of the grammar

A pattern matches or fails by the rules of parsing expressions, with gaps passed over between the parts of a
sequence and between the rounds of a repetition.

* `Pattern.Yields gaps p c o`: these rules as an inductive relation, in which no room is spoken of.
* `Rule.run_progress`: a rule that is not nullable reads at least one character.
* `Rule.run_ne_exhausted`: matching with room for 32 rules per character never runs out of it.
* `Pattern.Yields.run`: matching with room enough gives what the rules say; so the relation has one outcome
  (`Pattern.Yields.unique`), and it is total (`Pattern.exists_yields`).
* `parse?_eq_some`: the trees of whole sources are those that the rules derive.
-/

namespace StashMachine
namespace Grammar

/-! ### The rules of matching -/

/-- The pattern comes to the outcome at a place, gaps being treated as told. -/
inductive Pattern.Yields : Spacing → Pattern → Cursor → Outcome → Prop
  | text {gaps : Spacing} {cs : List Char} {c d : Cursor} : c.accept? cs = some d →
    Yields gaps (.text cs) c (.matched d [])
  | textFailed {gaps : Spacing} {cs : List Char} {c : Cursor} : c.accept? cs = none →
    Yields gaps (.text cs) c .failed
  | char {gaps : Spacing} {test : Char → Bool} {c d : Cursor} : c.satisfy? test = some d →
    Yields gaps (.char test) c (.matched d [])
  | charFailed {gaps : Spacing} {test : Char → Bool} {c : Cursor} : c.satisfy? test = none →
    Yields gaps (.char test) c .failed
  | rule {gaps : Spacing} {r : Rule} {c d : Cursor} {ts : List Tree} :
    Yields (gaps.within r.spacing) r.body c (.matched d ts) →
      Yields gaps (.rule r) c
        (.matched d [.node r c.offset (c.textTo d) (if r.spacing == .atomic then [] else ts)])
  | ruleFailed {gaps : Spacing} {r : Rule} {c : Cursor} :
    Yields (gaps.within r.spacing) r.body c .failed → Yields gaps (.rule r) c .failed
  | seq {gaps : Spacing} {p q : Pattern} {c d e : Cursor} {ts us : List Tree} :
    Yields gaps p c (.matched d ts) → Yields gaps q (d.skipUnder gaps) (.matched e us) →
      Yields gaps (.seq p q) c (.matched e (ts ++ us))
  | seqFirst {gaps : Spacing} {p q : Pattern} {c : Cursor} :
    Yields gaps p c .failed → Yields gaps (.seq p q) c .failed
  | seqSecond {gaps : Spacing} {p q : Pattern} {c d : Cursor} {ts : List Tree} :
    Yields gaps p c (.matched d ts) → Yields gaps q (d.skipUnder gaps) .failed →
      Yields gaps (.seq p q) c .failed
  | altFirst {gaps : Spacing} {p q : Pattern} {c d : Cursor} {ts : List Tree} :
    Yields gaps p c (.matched d ts) → Yields gaps (.alt p q) c (.matched d ts)
  | altSecond {gaps : Spacing} {p q : Pattern} {c : Cursor} {o : Outcome} :
    Yields gaps p c .failed → Yields gaps q c o → Yields gaps (.alt p q) c o
  | optSome {gaps : Spacing} {p : Pattern} {c d : Cursor} {ts : List Tree} :
    Yields gaps p c (.matched d ts) → Yields gaps (.opt p) c (.matched d ts)
  | optNone {gaps : Spacing} {p : Pattern} {c : Cursor} :
    Yields gaps p c .failed → Yields gaps (.opt p) c (.matched c [])
  | manyNone {gaps : Spacing} {p : Pattern} {c : Cursor} :
    Yields gaps p c .failed → Yields gaps (.many p) c (.matched c [])
  | manyLast {gaps : Spacing} {p : Pattern} {c d : Cursor} {ts : List Tree} :
    Yields gaps p c (.matched d ts) → Yields gaps p (d.skipUnder gaps) .failed →
      Yields gaps (.many p) c (.matched d ts)
  | manyMore {gaps : Spacing} {p : Pattern} {c d e f : Cursor} {ts us vs : List Tree} :
    Yields gaps p c (.matched d ts) → Yields gaps p (d.skipUnder gaps) (.matched e us) →
      Yields gaps (.many p) (d.skipUnder gaps) (.matched f vs) →
      Yields gaps (.many p) c (.matched f (ts ++ vs))
  | avoid {gaps : Spacing} {p : Pattern} {c : Cursor} :
    Yields gaps p c .failed → Yields gaps (.avoid p) c (.matched c [])
  | avoidFailed {gaps : Spacing} {p : Pattern} {c d : Cursor} {ts : List Tree} :
    Yields gaps p c (.matched d ts) → Yields gaps (.avoid p) c .failed
  | tight {gaps : Spacing} {p : Pattern} {c d : Cursor} {ts : List Tree} :
    Yields .atomic p c (.matched d ts) → Yields gaps (.tight p) c (.matched d [])
  | tightFailed {gaps : Spacing} {p : Pattern} {c : Cursor} :
    Yields .atomic p c .failed → Yields gaps (.tight p) c .failed
  | start {gaps : Spacing} {c : Cursor} : c.index = 0 → Yields gaps .start c (.matched c [])
  | startFailed {gaps : Spacing} {c : Cursor} : c.index ≠ 0 → Yields gaps .start c .failed
  | stop {gaps : Spacing} {c : Cursor} : c.rest = [] → Yields gaps .stop c (.matched c [])
  | stopFailed {gaps : Spacing} {c : Cursor} : c.rest ≠ [] → Yields gaps .stop c .failed

/-- The rules of the nodes of a match pass a test that all rules of the pattern pass. -/
theorem Pattern.Yields.forall_rules {f : Rule → Bool} {gaps : Spacing} {p : Pattern} {c d : Cursor} {ts : List Tree}
    (h : p.Yields gaps c (.matched d ts)) (hp : p.allRules f = true) : ∀ t ∈ ts, f t.rule = true := by
  generalize ho : Outcome.matched d ts = o at h
  induction h generalizing d ts with
  | rule _ _ =>
    cases ho
    exact List.forall_mem_singleton.mpr hp
  | seq _ _ ih ih' =>
    cases ho
    rw [allRules, Bool.and_eq_true] at hp
    exact List.forall_mem_append.mpr ⟨ih hp.1 rfl, ih' hp.2 rfl⟩
  | altFirst _ ih =>
    rw [allRules, Bool.and_eq_true] at hp
    exact ih hp.1 ho
  | altSecond _ _ _ ih =>
    rw [allRules, Bool.and_eq_true] at hp
    exact ih hp.2 ho
  | optSome _ ih => exact ih hp ho
  | manyLast _ _ ih _ => exact ih hp ho
  | manyMore _ _ _ ih _ ih' =>
    cases ho
    exact List.forall_mem_append.mpr ⟨ih hp rfl, ih' hp rfl⟩
  | _ =>
    cases ho
    try exact List.forall_mem_nil _

theorem Pattern.Yields.rule_eq {gaps : Spacing} {p : Pattern} {c d : Cursor} {ts : List Tree}
    (h : p.Yields gaps c (.matched d ts)) (r : Rule) (hp : p.allRules (fun r' => r' == r) = true) :
    ∀ t ∈ ts, t.rule = r :=
  fun t ht => eq_of_beq (h.forall_rules hp t ht)

theorem Pattern.Yields.rule_mem {gaps : Spacing} {p : Pattern} {c d : Cursor} {ts : List Tree}
    (h : p.Yields gaps c (.matched d ts)) (rs : List Rule) (hp : p.allRules rs.contains = true) :
    ∀ t ∈ ts, t.rule ∈ rs :=
  fun t ht => List.contains_iff_mem.mp (h.forall_rules hp t ht)

/-! ### Progress -/

/-- Whether a rule can match without reading a character. -/
def Rule.nullable : Rule → Bool
  | .compilationUnit | .stringContent | .endOfInput => true
  | _ => false

namespace Pattern

/-- Whether a pattern can match without reading a character. -/
def nullable : Pattern → Bool
  | text cs => cs.isEmpty
  | char _ => false
  | rule r => r.nullable
  | seq p q => p.nullable && q.nullable
  | alt p q => p.nullable || q.nullable
  | opt _ | many _ | avoid _ | start | stop => true
  | tight p => p.nullable

/-- Whether every round of every repetition reads a character. -/
def advances : Pattern → Bool
  | seq p q | alt p q => p.advances && q.advances
  | opt p | avoid p | tight p => p.advances
  | many p => !p.nullable && p.advances
  | text _ | char _ | rule _ | start | stop => true

end Pattern

theorem Rule.nullable_body (r : Rule) : r.body.nullable = r.nullable := by
  cases r <;> decide

theorem Rule.advances_body (r : Rule) : r.body.advances = true := by
  cases r <;> decide

/-- Matching never goes back, and a rule that is not nullable goes on. -/
def Advances (call : Spacing → Rule → Cursor → Outcome) : Prop :=
  ∀ gaps r c d ts, call gaps r c = .matched d ts →
    d.rest.length ≤ c.rest.length ∧ (r.nullable = false → d.rest.length < c.rest.length)

theorem Cursor.length_skipUnder (gaps : Spacing) (c : Cursor) :
    (c.skipUnder gaps).rest.length ≤ c.rest.length := by
  obtain ⟨cs, hreads, -⟩ := reads_skipUnder gaps c
  rw [hreads.rest, List.length_append]
  omega

namespace Pattern

variable {call : Spacing → Rule → Cursor → Outcome} {gaps : Spacing} {p q : Pattern} {c d : Cursor}
  {ts us : List Tree}

/-- A match never goes back, and one of a pattern that is not nullable goes on. -/
theorem run_progress (hcall : Advances call) (h : p.run call gaps c = .matched d ts) :
    d.rest.length ≤ c.rest.length ∧ (p.nullable = false → d.rest.length < c.rest.length) := by
  induction p generalizing gaps c d ts with
  | text cs =>
    obtain ⟨ha, -⟩ := run_text_eq_matched.mp h
    have hrest := congrArg List.length (Cursor.reads_of_accept? ha).rest
    rw [List.length_append] at hrest
    refine ⟨by omega, fun hcs => ?_⟩
    cases cs with
    | nil => cases hcs
    | cons x xs =>
      rw [List.length_cons] at hrest
      omega
  | char test =>
    obtain ⟨hc, -⟩ := run_char_eq_matched.mp h
    obtain ⟨x, -, hreads⟩ := Cursor.reads_of_satisfy? hc
    have hrest := congrArg List.length hreads.rest
    rw [List.length_append, List.length_singleton] at hrest
    exact ⟨by omega, fun _ => by omega⟩
  | rule r => exact hcall _ _ _ _ _ h
  | seq p q ihp ihq =>
    obtain ⟨e, ts₁, ts₂, hp, hq, -⟩ := run_seq_eq_matched.mp h
    have hfirst := ihp hp
    have hsecond := ihq hq
    have hskip := Cursor.length_skipUnder gaps e
    refine ⟨by omega, fun hnull => ?_⟩
    simp only [nullable, Bool.and_eq_false_iff] at hnull
    rcases hnull with hnull | hnull
    · have := hfirst.2 hnull
      omega
    · have := hsecond.2 hnull
      omega
  | alt p q ihp ihq =>
    have hnull : (alt p q).nullable = false → p.nullable = false ∧ q.nullable = false :=
      Bool.or_eq_false_iff.mp
    rcases run_alt_eq_matched.mp h with hp | ⟨-, hq⟩
    · exact ⟨(ihp hp).1, fun hn => (ihp hp).2 (hnull hn).1⟩
    · exact ⟨(ihq hq).1, fun hn => (ihq hq).2 (hnull hn).2⟩
  | opt p ih =>
    refine ⟨?_, nofun⟩
    rcases run_opt_eq_matched.mp h with hp | ⟨-, rfl, -⟩
    · exact (ih hp).1
    · exact Nat.le_refl _
  | many p ih =>
    refine ⟨?_, nofun⟩
    rcases run_many_eq_matched.mp h with ⟨e, us, hp, hrounds⟩ | ⟨-, rfl, -⟩
    · refine rounds_induction (P := fun d _ => d.rest.length ≤ c.rest.length) (fun d _ e _ hd he => ?_) (ih hp).1 hrounds
      exact Nat.le_trans (Nat.le_trans (ih he).1 (Cursor.length_skipUnder gaps d)) hd
    · exact Nat.le_refl _
  | avoid p ih =>
    obtain ⟨-, rfl, -⟩ := run_avoid_eq_matched.mp h
    exact ⟨Nat.le_refl _, nofun⟩
  | tight p ih =>
    obtain ⟨⟨us, hp⟩, -⟩ := run_tight_eq_matched.mp h
    exact ih hp
  | start =>
    obtain ⟨-, rfl, -⟩ := run_start_eq_matched.mp h
    exact ⟨Nat.le_refl _, nofun⟩
  | stop =>
    obtain ⟨-, rfl, -⟩ := run_stop_eq_matched.mp h
    exact ⟨Nat.le_refl _, nofun⟩

end Pattern

/-- A rule that is not nullable reads at least one character. -/
theorem Rule.run_progress (room : Nat) : Advances (Rule.run room) := by
  induction room with
  | zero =>
    intro gaps r c d ts h
    cases h
  | succ room ih =>
    intro gaps r c d ts h
    obtain ⟨us, hbody, -⟩ := Rule.run_eq_matched.mp h
    rw [← r.nullable_body]
    exact Pattern.run_progress ih hbody

/-! ### Room -/

/-- The number of rules that can be entered inside a rule before a character is read is below its rank. -/
def Rule.rank : Rule → Nat
  | .expressionEntry => 14
  | .expression => 13
  | .conditionalOr => 12
  | .conditionalAnd => 11
  | .equality => 10
  | .relational => 9
  | .additive => 8
  | .multiplicative => 7
  | .compilationUnit => 7
  | .forInit | .forUpdate | .expressionStatement | .localVariableDeclarationStatement => 6
  | .classDeclaration | .fieldDeclaration | .methodDeclaration | .constructorDeclaration => 5
  | .assignment | .postIncrement | .methodInvocation | .localVariableDeclaration => 4
  | .switchBlockGroup | .resultType | .formalParameter | .explicitConstructorInvocation => 3
  | .expressionName | .unannType | .arrayType | .variableDeclarator | .caseLabel | .defaultLabel
  | .preIncrement | .unaryExpression | .charLiteral | .stringLiteral => 2
  | _ => 1

/-- Whether every rule that the pattern can call before it has read a character has a rank below `k`. -/
def Pattern.fits (k : Nat) : Pattern → Bool
  | text _ | char _ | start | stop => true
  | rule r => r.rank < k
  | seq p q => p.fits k && (!p.nullable || q.fits k)
  | alt p q => p.fits k && q.fits k
  | opt p | avoid p | tight p => p.fits k
  | many p => !p.nullable && p.fits k

theorem Rule.fits_body (r : Rule) : r.body.fits r.rank = true := by
  cases r <;> decide

theorem Rule.rank_lt (r : Rule) : r.rank < 32 := by
  cases r <;> decide

/-- A call at a place with `limit` characters left may be of a rule with a rank below `k`, and further on it may be
of any rule. -/
def Copes (call : Spacing → Rule → Cursor → Outcome) (limit k : Nat) : Prop :=
  ∀ gaps r c, c.rest.length < limit ∨ c.rest.length = limit ∧ r.rank < k → call gaps r c ≠ .exhausted

namespace Pattern

variable {call : Spacing → Rule → Cursor → Outcome} {gaps : Spacing} {p q : Pattern} {c d : Cursor}
  {ts us : List Tree} {round : Cursor → Outcome} {limit k : Nat}

theorem rounds_ne_exhausted {n : Nat}
    (hround : ∀ c d ts, round c = .matched d ts → d.rest.length ≤ c.rest.length)
    (hcopes : ∀ c, c.rest.length < limit → round c ≠ .exhausted) (hc : c.rest.length < limit) :
    rounds round n c ts ≠ .exhausted := by
  induction n generalizing c ts with
  | zero => simp [rounds]
  | succ n ih =>
    simp only [rounds]
    split
    · rename_i d us hd
      exact ih (Nat.lt_of_le_of_lt (hround _ _ _ hd) hc)
    · simp
    · rename_i he
      exact absurd he (hcopes c hc)

/-- Matching a pattern runs out of room only if a call does. -/
theorem run_ne_exhausted (hadvances : Advances call) (hcall : Copes call limit k) (hc : c.rest.length ≤ limit)
    (hp : c.rest.length = limit → p.fits k = true) : p.run call gaps c ≠ .exhausted := by
  induction p generalizing gaps c with
  | text cs =>
    simp only [run]
    cases c.accept? cs <;> simp [Outcome.ofCursor?]
  | char test =>
    simp only [run]
    cases c.satisfy? test <;> simp [Outcome.ofCursor?]
  | rule r =>
    refine hcall gaps r c ?_
    rcases Nat.lt_or_eq_of_le hc with hlt | heq
    · exact .inl hlt
    · exact .inr ⟨heq, of_decide_eq_true (hp heq)⟩
  | seq p q ihp ihq =>
    simp only [fits, Bool.and_eq_true, Bool.or_eq_true, Bool.not_eq_true'] at hp
    simp only [run]
    have hfirst : p.run call gaps c ≠ .exhausted := ihp hc (fun h => (hp h).1)
    cases hrun : p.run call gaps c with
    | matched d ts =>
      have hprogress := run_progress hadvances hrun
      have hskip := Cursor.length_skipUnder gaps d
      have hsecond : q.run call gaps (d.skipUnder gaps) ≠ .exhausted := by
        refine ihq (by omega) (fun h => ?_)
        rcases (hp (by omega)).2 with hnull | hfits
        · have := hprogress.2 hnull
          omega
        · exact hfits
      simp only [Outcome.andThen, Outcome.after]
      cases hrun' : q.run call gaps (d.skipUnder gaps) with
      | exhausted => exact absurd hrun' hsecond
      | _ => simp
    | failed => simp [Outcome.andThen]
    | exhausted => exact absurd hrun hfirst
  | alt p q ihp ihq =>
    simp only [fits, Bool.and_eq_true] at hp
    simp only [run]
    cases hrun : p.run call gaps c with
    | matched d ts => simp [Outcome.orElse]
    | failed => exact ihq hc (fun h => (hp h).2)
    | exhausted => exact absurd hrun (ihp hc (fun h => (hp h).1))
  | opt p ih =>
    simp only [run]
    cases hrun : p.run call gaps c with
    | exhausted => exact absurd hrun (ih hc hp)
    | _ => simp [Outcome.orElse]
  | many p ih =>
    simp only [fits, Bool.and_eq_true, Bool.not_eq_true'] at hp
    simp only [run]
    cases hrun : p.run call gaps c with
    | matched d ts =>
      have hprogress := run_progress hadvances hrun
      refine @rounds_ne_exhausted _ _ _ limit _ (fun c d ts hround => ?_) (fun e he => ?_) ?_
      · exact Nat.le_trans (run_progress hadvances hround).1 (Cursor.length_skipUnder gaps c)
      · have hskip := Cursor.length_skipUnder gaps e
        exact ih (by omega) (fun h => by omega)
      · rcases Nat.lt_or_eq_of_le hc with hlt | heq
        · omega
        · have := hprogress.2 (hp heq).1
          omega
    | failed => simp
    | exhausted => exact absurd hrun (ih hc (fun h => (hp h).2))
  | avoid p ih =>
    simp only [run]
    cases hrun : p.run call gaps c with
    | exhausted => exact absurd hrun (ih hc hp)
    | _ => simp [Outcome.inverted]
  | tight p ih =>
    simp only [run]
    cases hrun : p.run call .atomic c with
    | exhausted => exact absurd hrun (ih hc hp)
    | _ => simp [Outcome.bare, Outcome.andThen]
  | start =>
    simp only [run]
    split_ifs <;> simp
  | stop =>
    simp only [run]
    split_ifs <;> simp

end Pattern

/-- Room for 32 rules per character is enough. -/
theorem Rule.run_ne_exhausted {room : Nat} {gaps : Spacing} {r : Rule} {c : Cursor}
    (h : 32 * c.rest.length + r.rank < room) : Rule.run room gaps r c ≠ .exhausted := by
  induction room generalizing gaps r c with
  | zero => cases h
  | succ room ih =>
    have hcopes : Copes (Rule.run room) c.rest.length r.rank := by
      rintro gaps' r' c' (hlt | ⟨heq, hrank⟩)
      · have := r'.rank_lt
        exact ih (by omega)
      · exact ih (by omega)
    have hbody : r.body.run (Rule.run room) (gaps.within r.spacing) c ≠ .exhausted :=
      Pattern.run_ne_exhausted (Rule.run_progress room) hcopes (Nat.le_refl _) (fun _ => r.fits_body)
    rw [Rule.run]
    cases hrun : r.body.run (Rule.run room) (gaps.within r.spacing) c with
    | matched d ts => simp [Outcome.andThen, Rule.wrap]
    | failed => simp [Outcome.andThen]
    | exhausted => exact absurd hrun hbody

/-! ### Matching and its rules -/

namespace Pattern

variable {call : Spacing → Rule → Cursor → Outcome} {gaps : Spacing} {p q : Pattern} {c d : Cursor}
  {ts us : List Tree} {o : Outcome} {round : Cursor → Outcome}

/-- Nodes that were found before the rounds stay in front. -/
theorem rounds_append (n : Nat) (c : Cursor) (ts us : List Tree) :
    rounds round n c (ts ++ us) = (rounds round n c us).after ts := by
  induction n generalizing c us with
  | zero => rfl
  | succ n ih =>
    simp only [rounds]
    cases round c with
    | matched d vs =>
      simp only
      rw [List.append_assoc]
      exact ih d (us ++ vs)
    | failed => rfl
    | exhausted => rfl

/-- The number of characters left allows for all rounds that there can be. -/
theorem rounds_eq_of_length {n m : Nat}
    (hround : ∀ c d ts, round c = .matched d ts → d.rest.length < c.rest.length)
    (hcopes : ∀ c', c'.rest.length ≤ c.rest.length → round c' ≠ .exhausted) (hn : c.rest.length ≤ n)
    (hm : c.rest.length ≤ m) (ts : List Tree) : rounds round n c ts = rounds round m c ts := by
  -- without characters left there is no round, whatever number is allowed
  have hzero : ∀ {k : Nat} {c : Cursor}, round c ≠ .exhausted → c.rest.length = 0 → ∀ ts,
      rounds round k c ts = .matched c ts := by
    intro k c hc hlength ts
    cases k with
    | zero => rfl
    | succ k =>
      simp only [rounds]
      cases hr : round c with
      | matched d us =>
        have := hround _ _ _ hr
        omega
      | failed => rfl
      | exhausted => exact absurd hr hc
  induction n generalizing c m ts with
  | zero =>
    have hlength := Nat.le_zero.mp hn
    have hc := hcopes c (Nat.le_refl _)
    rw [hzero hc hlength, hzero hc hlength]
  | succ n ih =>
    cases m with
    | zero =>
      have hlength := Nat.le_zero.mp hm
      have hc := hcopes c (Nat.le_refl _)
      rw [hzero hc hlength, hzero hc hlength]
    | succ m =>
      simp only [rounds]
      cases hr : round c with
      | matched d us =>
        have := hround _ _ _ hr
        exact ih (fun c' hc' => hcopes c' (by omega)) (by omega) (by omega) _
      | failed => rfl
      | exhausted => rfl

theorem fits_of_advances (hp : p.advances = true) : p.fits 32 = true := by
  induction p with
  | rule r => exact decide_eq_true r.rank_lt
  | seq p q ihp ihq =>
    rw [advances, Bool.and_eq_true] at hp
    simp [fits, ihp hp.1, ihq hp.2]
  | alt p q ihp ihq =>
    rw [advances, Bool.and_eq_true] at hp
    simp [fits, ihp hp.1, ihq hp.2]
  | many p ih =>
    rw [advances, Bool.and_eq_true] at hp
    rw [fits, hp.1, ih hp.2]
    rfl
  | opt p ih => exact ih hp
  | avoid p ih => exact ih hp
  | tight p ih => exact ih hp
  | _ => rfl

/-- A rule copes with what may come before it has read a character if it has the room for it. -/
theorem copes_run {room limit k : Nat} (hroom : 32 * limit + k ≤ room) : Copes (Rule.run room) limit k := by
  rintro gaps r c (hlt | ⟨heq, hrank⟩)
  · have := r.rank_lt
    exact Rule.run_ne_exhausted (by omega)
  · exact Rule.run_ne_exhausted (by omega)

/-- The room that is left for the body of a rule. -/
theorem exists_room {r : Rule} {room limit k : Nat} (hroom : 32 * limit + k ≤ room) (hc : c.rest.length ≤ limit)
    (hr : c.rest.length = limit → (rule r).fits k = true) :
    ∃ room', room = room' + 1 ∧ 32 * c.rest.length + r.rank ≤ room' := by
  have hrank := r.rank_lt
  have hfits : c.rest.length = limit → r.rank < k := fun h => of_decide_eq_true (hr h)
  refine ⟨room - 1, ?_, ?_⟩
  · rcases Nat.lt_or_eq_of_le hc with hlt | heq
    · omega
    · have := hfits heq
      omega
  · rcases Nat.lt_or_eq_of_le hc with hlt | heq
    · omega
    · have := hfits heq
      omega

/-- What a pattern may call after another one has matched. -/
theorem fits_second {room limit k : Nat} (hrun : p.run (Rule.run room) gaps c = .matched d ts)
    (hc : c.rest.length ≤ limit) (hp : c.rest.length = limit → (seq p q).fits k = true) :
    (d.skipUnder gaps).rest.length ≤ limit ∧ ((d.skipUnder gaps).rest.length = limit → q.fits k = true) := by
  have hprogress := run_progress (Rule.run_progress room) hrun
  have hskip := Cursor.length_skipUnder gaps d
  refine ⟨by omega, fun h => ?_⟩
  have hseq := hp (by omega)
  simp only [fits, Bool.and_eq_true, Bool.or_eq_true, Bool.not_eq_true'] at hseq
  rcases hseq.2 with hnull | hfits
  · have := hprogress.2 hnull
    omega
  · exact hfits

theorem fits_first {limit k : Nat} (hp : c.rest.length = limit → (seq p q).fits k = true) :
    c.rest.length = limit → p.fits k = true := by
  intro h
  have hseq := hp h
  rw [fits, Bool.and_eq_true] at hseq
  exact hseq.1

theorem fits_many {limit k : Nat} (hp : c.rest.length = limit → (many p).fits k = true) :
    c.rest.length = limit → p.fits k = true := by
  intro h
  have hmany := hp h
  rw [fits, Bool.and_eq_true] at hmany
  exact hmany.2

/-- One round more, with the rest of a repetition known. -/
theorem rounds_of_many {room limit k : Nat} {e f : Cursor} {vs : List Tree} (hadvances : (many p).advances = true)
    (hroom : 32 * limit + k ≤ room) (hd : d.rest.length < limit)
    (hround : p.run (Rule.run room) gaps (d.skipUnder gaps) = .matched e us)
    (hmany : (many p).run (Rule.run room) gaps (d.skipUnder gaps) = .matched f vs) (ts : List Tree) :
    rounds (fun e => p.run (Rule.run room) gaps (e.skipUnder gaps)) d.rest.length d ts =
      .matched f (ts ++ vs) := by
  rw [advances, Bool.and_eq_true, Bool.not_eq_true'] at hadvances
  have hprogress : ∀ (c d : Cursor) ts, p.run (Rule.run room) gaps (c.skipUnder gaps) = .matched d ts →
      d.rest.length < c.rest.length := by
    intro c d ts hrun
    have := (run_progress (Rule.run_progress room) hrun).2 hadvances.1
    have := Cursor.length_skipUnder gaps c
    omega
  have hshorter := hprogress d e us hround
  have hcopes : ∀ c' : Cursor, c'.rest.length ≤ e.rest.length →
      p.run (Rule.run room) gaps (c'.skipUnder gaps) ≠ .exhausted := by
    intro c' hc'
    have := Cursor.length_skipUnder gaps c'
    exact run_ne_exhausted (Rule.run_progress room) (copes_run hroom) (by omega) (fun h => by omega)
  obtain ⟨n, hn⟩ : ∃ n, d.rest.length = n + 1 := ⟨d.rest.length - 1, by omega⟩
  simp only [run, hround] at hmany
  rw [hn]
  simp only [rounds, hround]
  rw [rounds_eq_of_length hprogress hcopes (by omega) (Nat.le_refl _), rounds_append, hmany]
  rfl

/-- Matching with room enough gives what the rules of matching say. -/
theorem Yields.run {room limit k : Nat} (h : Yields gaps p c o) (hadvances : p.advances = true)
    (hroom : 32 * limit + k ≤ room) (hc : c.rest.length ≤ limit) (hp : c.rest.length = limit → p.fits k = true) :
    p.run (Rule.run room) gaps c = o := by
  induction h generalizing room limit k with
  | text ha => simp only [Pattern.run, ha, Outcome.ofCursor?]
  | textFailed ha => simp only [Pattern.run, ha, Outcome.ofCursor?]
  | char ha => simp only [Pattern.run, ha, Outcome.ofCursor?]
  | charFailed ha => simp only [Pattern.run, ha, Outcome.ofCursor?]
  | @rule gaps r c d ts _ ih =>
    obtain ⟨room', rfl, hroom'⟩ := exists_room hroom hc hp
    have hbody := ih r.advances_body hroom' (Nat.le_refl _) (fun _ => r.fits_body)
    simp only [Pattern.run, Rule.run, hbody, Outcome.andThen, Rule.wrap]
  | @ruleFailed gaps r c _ ih =>
    obtain ⟨room', rfl, hroom'⟩ := exists_room hroom hc hp
    have hbody := ih r.advances_body hroom' (Nat.le_refl _) (fun _ => r.fits_body)
    simp only [Pattern.run, Rule.run, hbody, Outcome.andThen]
  | seq _ _ ih₁ ih₂ =>
    rw [advances, Bool.and_eq_true] at hadvances
    have hfirst := ih₁ hadvances.1 hroom hc (fits_first hp)
    obtain ⟨hlength, hfits⟩ := fits_second hfirst hc hp
    have hsecond := ih₂ hadvances.2 hroom hlength hfits
    simp only [Pattern.run, hfirst, hsecond, Outcome.andThen, Outcome.after]
  | seqFirst _ ih =>
    rw [advances, Bool.and_eq_true] at hadvances
    have hfirst := ih hadvances.1 hroom hc (fits_first hp)
    simp only [Pattern.run, hfirst, Outcome.andThen]
  | seqSecond _ _ ih₁ ih₂ =>
    rw [advances, Bool.and_eq_true] at hadvances
    have hfirst := ih₁ hadvances.1 hroom hc (fits_first hp)
    obtain ⟨hlength, hfits⟩ := fits_second hfirst hc hp
    have hsecond := ih₂ hadvances.2 hroom hlength hfits
    simp only [Pattern.run, hfirst, hsecond, Outcome.andThen, Outcome.after]
  | altFirst _ ih =>
    rw [advances, Bool.and_eq_true] at hadvances
    simp only [fits, Bool.and_eq_true] at hp
    simp only [Pattern.run, ih hadvances.1 hroom hc (fun h => (hp h).1), Outcome.orElse]
  | altSecond _ _ ih₁ ih₂ =>
    rw [advances, Bool.and_eq_true] at hadvances
    simp only [fits, Bool.and_eq_true] at hp
    simp only [Pattern.run, ih₁ hadvances.1 hroom hc (fun h => (hp h).1), Outcome.orElse]
    exact ih₂ hadvances.2 hroom hc (fun h => (hp h).2)
  | optSome _ ih => simp only [Pattern.run, ih hadvances hroom hc hp, Outcome.orElse]
  | optNone _ ih => simp only [Pattern.run, ih hadvances hroom hc hp, Outcome.orElse]
  | manyNone _ ih =>
    rw [advances, Bool.and_eq_true] at hadvances
    simp only [fits, Bool.and_eq_true] at hp
    simp only [Pattern.run, ih hadvances.2 hroom hc (fun h => (hp h).2)]
  | @manyLast gaps p c d ts _ _ ih₁ ih₂ =>
    have hp' := fits_many hp
    rw [advances, Bool.and_eq_true, Bool.not_eq_true'] at hadvances
    have hfirst := ih₁ hadvances.2 hroom hc hp'
    have hshorter := (run_progress (Rule.run_progress room) hfirst).2 hadvances.1
    have hskip := Cursor.length_skipUnder gaps d
    have hnext := ih₂ hadvances.2 hroom (by omega) (fun h => by omega)
    simp only [Pattern.run, hfirst]
    cases d.rest.length with
    | zero => rfl
    | succ n => simp only [rounds, hnext]
  | @manyMore gaps p c d e f ts us vs _ _ _ ih₁ ih₂ ih₃ =>
    have hp' := fits_many hp
    have hmany := hadvances
    rw [advances, Bool.and_eq_true, Bool.not_eq_true'] at hadvances
    have hfirst := ih₁ hadvances.2 hroom hc hp'
    have hshorter := (run_progress (Rule.run_progress room) hfirst).2 hadvances.1
    have hskip := Cursor.length_skipUnder gaps d
    have hnext := ih₂ hadvances.2 hroom (by omega) (fun h => by omega)
    have hrest := ih₃ hmany hroom (by omega) (fun h => by omega)
    simp only [Pattern.run, hfirst]
    exact rounds_of_many hmany hroom (by omega) hnext hrest ts
  | avoid _ ih => simp only [Pattern.run, ih hadvances hroom hc hp, Outcome.inverted]
  | avoidFailed _ ih => simp only [Pattern.run, ih hadvances hroom hc hp, Outcome.inverted]
  | tight _ ih => simp only [Pattern.run, ih hadvances hroom hc hp, Outcome.bare, Outcome.andThen]
  | tightFailed _ ih => simp only [Pattern.run, ih hadvances hroom hc hp, Outcome.bare, Outcome.andThen]
  | start hi => simp only [Pattern.run, if_pos hi]
  | startFailed hi => simp only [Pattern.run, if_neg hi]
  | stop hr => simp [Pattern.run, hr]
  | stopFailed hr => simp [Pattern.run, hr]

/-- A match never goes back, and one of a pattern that is not nullable goes on. -/
theorem Yields.progress (h : Yields gaps p c (.matched d ts)) (hadvances : p.advances = true) :
    d.rest.length ≤ c.rest.length ∧ (p.nullable = false → d.rest.length < c.rest.length) :=
  run_progress (Rule.run_progress _)
    (h.run hadvances (Nat.le_refl _) (Nat.le_refl _) (fun _ => fits_of_advances hadvances))

/-- The rules of matching leave no choice. -/
theorem Yields.unique {o' : Outcome} (h : Yields gaps p c o) (h' : Yields gaps p c o') (hadvances : p.advances = true) :
    o = o' := by
  have hfits : c.rest.length = c.rest.length → p.fits 32 = true := fun _ => fits_of_advances hadvances
  have hrun := h.run hadvances (Nat.le_refl _) (Nat.le_refl _) hfits
  rw [← hrun]
  exact h'.run hadvances (Nat.le_refl _) (Nat.le_refl _) hfits

/-- Room is not spoken of. -/
theorem not_yields_exhausted : ¬ Yields gaps p c .exhausted := by
  generalize ho : Outcome.exhausted = o
  intro h
  induction h with
  | altSecond _ _ _ ih => exact ih ho
  | _ => cases ho

/-- A repetition comes to an end if each of its rounds does. -/
theorem exists_yields_many {limit : Nat} (hadvances : (many p).advances = true) (hc : c.rest.length ≤ limit)
    (hp : ∃ o, Yields gaps p c o) (hrounds : ∀ c' : Cursor, c'.rest.length < limit → ∃ o, Yields gaps p c' o) :
    ∃ o, Yields gaps (many p) c o := by
  have hp' := hadvances
  rw [advances, Bool.and_eq_true, Bool.not_eq_true'] at hp'
  induction hn : c.rest.length using Nat.strongRecOn generalizing c with
  | _ n ih =>
    obtain ⟨o, ho⟩ := hp
    cases o with
    | failed => exact ⟨_, .manyNone ho⟩
    | matched d ts =>
      have hshorter := (ho.progress hp'.2).2 hp'.1
      have hskip := Cursor.length_skipUnder gaps d
      obtain ⟨o', ho'⟩ := hrounds (d.skipUnder gaps) (by omega)
      cases o' with
      | failed => exact ⟨_, .manyLast ho ho'⟩
      | matched e us =>
        obtain ⟨o'', hmany⟩ := ih (d.skipUnder gaps).rest.length (by omega) (by omega) ⟨_, ho'⟩ rfl
        cases o'' with
        | matched f vs => exact ⟨_, .manyMore ho ho' hmany⟩
        | failed => cases hmany
        | exhausted => cases hmany
      | exhausted => exact absurd ho' (not_yields_exhausted)
    | exhausted => exact absurd ho (not_yields_exhausted)

/-- A sequence comes to an end if its parts do. -/
theorem exists_yields_seq (hp : ∃ o, Yields gaps p c o)
    (hq : ∀ d ts, Yields gaps p c (.matched d ts) → ∃ o, Yields gaps q (d.skipUnder gaps) o) :
    ∃ o, Yields gaps (seq p q) c o := by
  obtain ⟨o, ho⟩ := hp
  cases o with
  | failed => exact ⟨_, .seqFirst ho⟩
  | matched d ts =>
    obtain ⟨o', ho'⟩ := hq d ts ho
    cases o' with
    | matched e us => exact ⟨_, .seq ho ho'⟩
    | failed => exact ⟨_, .seqSecond ho ho'⟩
    | exhausted => exact absurd ho' not_yields_exhausted
  | exhausted => exact absurd ho not_yields_exhausted

/-- A pattern comes to an outcome if the rules that it calls do. -/
theorem exists_yields_of_calls {limit k : Nat} (hcalls : ∀ gaps r (c : Cursor),
      c.rest.length < limit ∨ c.rest.length = limit ∧ r.rank < k → ∃ o, Yields gaps (rule r) c o)
    (hadvances : p.advances = true) (hc : c.rest.length ≤ limit)
    (hp : c.rest.length = limit → p.fits k = true) : ∃ o, Yields gaps p c o := by
  induction p generalizing gaps c with
  | text cs =>
    cases ha : c.accept? cs with
    | some d => exact ⟨_, .text ha⟩
    | none => exact ⟨_, .textFailed ha⟩
  | char test =>
    cases ha : c.satisfy? test with
    | some d => exact ⟨_, .char ha⟩
    | none => exact ⟨_, .charFailed ha⟩
  | rule r =>
    refine hcalls gaps r c ?_
    rcases Nat.lt_or_eq_of_le hc with hlt | heq
    · exact .inl hlt
    · exact .inr ⟨heq, of_decide_eq_true (hp heq)⟩
  | seq p q ihp ihq =>
    rw [advances, Bool.and_eq_true] at hadvances
    refine exists_yields_seq (ihp hadvances.1 hc (fits_first hp)) (fun d ts hd => ?_)
    have hrun := hd.run hadvances.1 (Nat.le_refl _) (Nat.le_refl _) (fun _ => fits_of_advances hadvances.1)
    obtain ⟨hlength, hfits⟩ := fits_second hrun hc hp
    exact ihq hadvances.2 hlength hfits
  | alt p q ihp ihq =>
    rw [advances, Bool.and_eq_true] at hadvances
    simp only [fits, Bool.and_eq_true] at hp
    obtain ⟨o, ho⟩ : ∃ o, Yields gaps p c o := ihp hadvances.1 hc (fun h => (hp h).1)
    cases o with
    | matched d ts => exact ⟨_, .altFirst ho⟩
    | failed =>
      obtain ⟨o', ho'⟩ := ihq hadvances.2 hc (fun h => (hp h).2)
      exact ⟨_, .altSecond ho ho'⟩
    | exhausted => exact absurd ho not_yields_exhausted
  | opt p ih =>
    obtain ⟨o, ho⟩ : ∃ o, Yields gaps p c o := ih hadvances hc hp
    cases o with
    | matched d ts => exact ⟨_, .optSome ho⟩
    | failed => exact ⟨_, .optNone ho⟩
    | exhausted => exact absurd ho not_yields_exhausted
  | many p ih =>
    have hp' := hadvances
    rw [advances, Bool.and_eq_true] at hp'
    refine exists_yields_many hadvances hc (ih hp'.2 hc (fits_many hp)) (fun c' hc' => ?_)
    exact ih hp'.2 (Nat.le_of_lt hc') (fun h => absurd h (Nat.ne_of_lt hc'))
  | avoid p ih =>
    obtain ⟨o, ho⟩ : ∃ o, Yields gaps p c o := ih hadvances hc hp
    cases o with
    | matched d ts => exact ⟨_, .avoidFailed ho⟩
    | failed => exact ⟨_, .avoid ho⟩
    | exhausted => exact absurd ho not_yields_exhausted
  | tight p ih =>
    obtain ⟨o, ho⟩ : ∃ o, Yields .atomic p c o := ih hadvances hc hp
    cases o with
    | matched d ts => exact ⟨_, .tight ho⟩
    | failed => exact ⟨_, .tightFailed ho⟩
    | exhausted => exact absurd ho not_yields_exhausted
  | start =>
    by_cases hi : c.index = 0
    · exact ⟨_, .start hi⟩
    · exact ⟨_, .startFailed hi⟩
  | stop =>
    by_cases hr : c.rest = []
    · exact ⟨_, .stop hr⟩
    · exact ⟨_, .stopFailed hr⟩

/-- Every rule comes to an outcome. -/
theorem exists_yields_rule {bound : Nat} {r : Rule} (hbound : 32 * c.rest.length + r.rank < bound) :
    ∃ o, Yields gaps (rule r) c o := by
  induction bound generalizing gaps c r with
  | zero => cases hbound
  | succ bound ih =>
    obtain ⟨o, ho⟩ : ∃ o, Yields (gaps.within r.spacing) r.body c o := by
      refine exists_yields_of_calls (fun gaps' r' c' hc' => ih ?_) r.advances_body (Nat.le_refl _)
        (fun _ => r.fits_body)
      have := r'.rank_lt
      omega
    cases o with
    | matched d ts => exact ⟨_, .rule ho⟩
    | failed => exact ⟨_, .ruleFailed ho⟩
    | exhausted => exact absurd ho not_yields_exhausted

/-- Every pattern whose repetitions advance comes to an outcome. -/
theorem exists_yields (hadvances : p.advances = true) : ∃ o, Yields gaps p c o :=
  exists_yields_of_calls (fun _ _ _ _ => exists_yields_rule (Nat.lt_succ_self _)) hadvances (Nat.le_refl _)
    (fun _ => fits_of_advances hadvances)

end Pattern

/-- The tree of a whole source is the one that the rules of matching derive. -/
theorem parse?_eq_some {r : Rule} {source : String} {t : Tree} : parse? r source = some t ↔
    ∃ d, Pattern.Yields .free (.rule r) (Cursor.start source) (.matched d [t]) := by
  obtain ⟨o, ho⟩ : ∃ o, Pattern.Yields .free (.rule r) (Cursor.start source) o := Pattern.exists_yields rfl
  have hlength : (Cursor.start source).rest.length = source.length := String.length_toList
  have hrun : Rule.run (roomFor source) .free r (Cursor.start source) = o := by
    refine ho.run (k := 32) rfl ?_ (Nat.le_of_eq hlength)
      (fun _ => Pattern.fits_of_advances (p := .rule r) rfl)
    rw [roomFor]
    omega
  have hparse : parse? r source = some t ↔ ∃ d, o = .matched d [t] := by
    unfold parse?
    rw [hrun]
    constructor
    · intro h
      split at h
      · cases h
        exact ⟨_, rfl⟩
      · cases h
    · rintro ⟨d, rfl⟩
      rfl
  rw [hparse]
  constructor
  · rintro ⟨d, rfl⟩
    exact ⟨d, ho⟩
  · rintro ⟨d, hd⟩
    exact ⟨d, ho.unique hd rfl⟩

end Grammar
end StashMachine
