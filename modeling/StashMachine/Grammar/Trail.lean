import StashMachine.Grammar.Java

/-!
# StashMachine.Grammar.Trail — how far a source was understood

A source that the grammar rejects is faulty at the furthest place where a rule or a word was looked for
and not found.

* `Trail`: an outcome together with the furthest such place.
* `Pattern.trail`, `Rule.trail`: matching as `Pattern.run` and `Rule.run` do, with that place noted; the
  outcomes are the same (`Rule.outcome_trail`).
* `furthest`: the place at which a whole source is faulty.

What is missed inside a rule without gaps counts as missed where the rule begins.
-/

namespace StashMachine
namespace Grammar

/-- An outcome, and the furthest byte at which something was missed on the way to it. -/
structure Trail where
  outcome : Outcome
  reach : Nat

namespace Trail

/-- An outcome on the way to which nothing was missed. -/
def direct (o : Outcome) : Trail := ⟨o, 0⟩

/-- Changes the outcome. -/
def map (f : Outcome → Outcome) (t : Trail) : Trail := ⟨f t.outcome, t.reach⟩

/-- Goes on after a match. -/
def andThen (t : Trail) (next : Cursor → List Tree → Trail) : Trail :=
  match t.outcome with
  | .matched c ts =>
    let u := next c ts
    ⟨u.outcome, max t.reach u.reach⟩
  | o => ⟨o, t.reach⟩

/-- Goes on after a mismatch. -/
def orElse (t : Trail) (other : Unit → Trail) : Trail :=
  match t.outcome with
  | .failed =>
    let u := other ()
    ⟨u.outcome, max t.reach u.reach⟩
  | o => ⟨o, t.reach⟩

/-- Notes that something looked for at a place was missed, if it was and single parts count. -/
def missed (gaps : Spacing) (here : Cursor) (t : Trail) : Trail :=
  match t.outcome with
  | .failed => if gaps = .atomic then t else ⟨.failed, max t.reach here.offset⟩
  | _ => t

theorem outcome_andThen (t : Trail) (next : Cursor → List Tree → Trail) :
    (t.andThen next).outcome = t.outcome.andThen (fun c ts => (next c ts).outcome) := by
  obtain ⟨o, n⟩ := t
  cases o <;> rfl

theorem outcome_orElse (t : Trail) (other : Unit → Trail) :
    (t.orElse other).outcome = t.outcome.orElse (fun u => (other u).outcome) := by
  obtain ⟨o, n⟩ := t
  cases o <;> rfl

theorem outcome_missed (gaps : Spacing) (here : Cursor) (t : Trail) :
    (t.missed gaps here).outcome = t.outcome := by
  obtain ⟨o, n⟩ := t
  cases o <;> simp only [missed]
  split <;> rfl

end Trail

namespace Pattern

/-- Matches one round after the other, as `rounds` does. -/
def trailRounds (round : Cursor → Trail) : Nat → Cursor → List Tree → Nat → Trail
  | 0, c, ts, reach => ⟨.matched c ts, reach⟩
  | n + 1, c, ts, reach =>
    match round c with
    | ⟨.matched d us, r⟩ => trailRounds round n d (ts ++ us) (max reach r)
    | ⟨.failed, r⟩ => ⟨.matched c ts, max reach r⟩
    | ⟨.exhausted, r⟩ => ⟨.exhausted, max reach r⟩

/-- Matches a pattern as `run` does, and notes what is missed.  Nothing is missed in a pattern that is to
be avoided. -/
def trail (call : Spacing → Rule → Cursor → Trail) : Pattern → Spacing → Cursor → Trail
  | text chars, _, c => .direct (.ofCursor? (c.accept? chars))
  | char test, _, c => .direct (.ofCursor? (c.satisfy? test))
  | rule r, gaps, c => (call gaps r c).missed gaps c
  | seq p q, gaps, c =>
    (trail call p gaps c).andThen (fun d ts =>
      (trail call q gaps (d.skipUnder gaps)).map (Outcome.after ts))
  | alt p q, gaps, c => (trail call p gaps c).orElse (fun _ => trail call q gaps c)
  | opt p, gaps, c => (trail call p gaps c).orElse (fun _ => .direct (.matched c []))
  | many p, gaps, c =>
    match trail call p gaps c with
    | ⟨.matched d ts, n⟩ =>
      trailRounds (fun e => trail call p gaps (e.skipUnder gaps)) d.rest.length d ts n
    | ⟨.failed, n⟩ => ⟨.matched c [], n⟩
    | ⟨.exhausted, n⟩ => ⟨.exhausted, n⟩
  | avoid p, gaps, c => .direct ((trail call p gaps c).outcome.inverted c)
  | tight p, gaps, c => ((trail call p .atomic c).map Outcome.bare).missed gaps c
  | start, _, c => .direct (if c.index = 0 then .matched c [] else .failed)
  | stop, _, c => .direct (if c.rest.isEmpty then .matched c [] else .failed)

theorem outcome_trailRounds {round : Cursor → Trail} {round' : Cursor → Outcome}
    (h : ∀ c, (round c).outcome = round' c) (n : Nat) (c : Cursor) (ts : List Tree) (reach : Nat) :
    (trailRounds round n c ts reach).outcome = rounds round' n c ts := by
  induction n generalizing c ts reach with
  | zero => rfl
  | succ n ih =>
    rw [trailRounds, rounds, ← h c]
    obtain ⟨o, r⟩ := round c
    cases o
    · exact ih _ _ _
    · rfl
    · rfl

/-- Noting what is missed does not change the outcome. -/
theorem outcome_trail {call : Spacing → Rule → Cursor → Trail}
    {call' : Spacing → Rule → Cursor → Outcome} (h : ∀ g r c, (call g r c).outcome = call' g r c)
    (p : Pattern) (gaps : Spacing) (c : Cursor) :
    (trail call p gaps c).outcome = run call' p gaps c := by
  induction p generalizing gaps c with
  | text | char | start | stop => rfl
  | rule r => rw [trail, Trail.outcome_missed, h, run]
  | seq p q ihp ihq => simp only [trail, Trail.outcome_andThen, Trail.map, ihp, ihq, run]
  | alt p q ihp ihq => simp only [trail, Trail.outcome_orElse, ihp, ihq, run]
  | opt p ih => simp only [trail, Trail.outcome_orElse, ih, run, Trail.direct]
  | many p ih =>
    rw [trail, run, ← ih gaps c]
    obtain ⟨o, n⟩ := trail call p gaps c
    cases o
    · exact outcome_trailRounds (fun e => ih gaps _) _ _ _ _
    · rfl
    · rfl
  | avoid p ih => simp only [trail, Trail.direct, ih, run]
  | tight p ih => rw [trail, Trail.outcome_missed, Trail.map, ih, run]

end Pattern

/-- Matches a rule as `Rule.run` does, and notes what is missed inside. -/
def Rule.trail : Nat → Spacing → Rule → Cursor → Trail
  | 0, _, _, _ => .direct .exhausted
  | room + 1, gaps, r, c =>
    (r.body.trail (Rule.trail room) (gaps.within r.spacing) c).andThen
      (fun d ts => .direct (r.wrap c d ts))

/-- Noting what is missed does not change the outcome. -/
theorem Rule.outcome_trail (room : Nat) (gaps : Spacing) (r : Rule) (c : Cursor) :
    (Rule.trail room gaps r c).outcome = Rule.run room gaps r c := by
  induction room generalizing gaps r c with
  | zero => rfl
  | succ room ih =>
    rw [Rule.trail, Rule.run, Trail.outcome_andThen, Pattern.outcome_trail ih]
    rfl

/-- The furthest byte of a source at which something was missed under a rule. -/
def furthest (r : Rule) (source : String) : Nat :=
  (Rule.trail (roomFor source) .free r (Cursor.start source)).reach

end Grammar
end StashMachine
