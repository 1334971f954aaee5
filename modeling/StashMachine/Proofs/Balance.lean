import StashMachine.Proofs.Parsed
import StashMachine.Proofs.Phases

/-!
# StashMachine.Proofs.Balance — expressions leave one result, statements none

* `Machine.Until.segment`: a piece of control that fits runs down to what is below it, or a jump escapes.
* `expression_balanced`: an expression is evaluated to one more item on the stash, with control and the
  current frame as they were.
* `LeftBy`: a jump has led out of a statement, to the construct that put down its marker.
* `completes_or_leftBy`: a statement leaves everything as it was, or a jump has led out of it.
-/

namespace StashMachine

open Environment Step Machine

/-- The regime that only counts. -/
def Regime.loose : Regime := ⟨False, fun _ => True, fun _ => True⟩

section Segment

variable {natives : Natives} {p : Program} {m m' : Machine} {b : Base} {K : List Item}
  {S : List StashItem}

theorem phase_of_reached (hneutral : natives.Neutral) (hm : Reached natives p m) :
    Phase .loose p m.registers :=
  .reached hneutral False.elim False.elim (fun _ _ => False.elim) (fun _ => trivial) hm

theorem sound_of_reached (hneutral : natives.Neutral) (hm : Reached natives p m) :
    Sound .loose m.registers.env :=
  ⟨fun _ hk => (phase_of_reached hneutral hm).returns hk, False.elim, False.elim, False.elim⟩

/-- A jump leads further down than where it escapes from. -/
theorem Escapes.length_lt {j : Jump} {r : Registers} (h : Escapes b K S j r) :
    r.control.length < K.length := by
  obtain ⟨front, rfl, -⟩ := exists_of_unwind_eq_ok h.2.1
  simp only [List.length_append, List.length_cons]
  omega

/-- A piece of control that fits runs down to what is below it, or a jump escapes from it. -/
theorem Machine.Until.segment (hneutral : natives.Neutral) (hu : Until natives K.length m m')
    {c : List Item} {s : List StashItem} (hc : m.registers.control = c ++ K)
    (hstash : m.registers.stash = s ++ S) (hne : c ≠ [])
    (ht : OnTrack .loose b c s m.registers.env) (hsound : Sound .loose m.registers.env) :
    (∃ s', m'.registers.control = K ∧ m'.registers.stash = s' ++ S ∧
      OnTrack .loose b [] s' m'.registers.env) ∨
    ∃ n m₁ j rest, evaluate natives n m = .ok () m₁ ∧ Next natives m₁ m' ∧
      m₁.registers.control = .reset j :: rest ∧ Escapes b K S j m'.registers := by
  -- what one step does
  have step : ∀ {m m₁ : Machine} {c : List Item} {s : List StashItem}, Next natives m m₁ →
      m.registers.control = c ++ K → m.registers.stash = s ++ S → c ≠ [] →
      OnTrack .loose b c s m.registers.env → Sound .loose m.registers.env →
      Stays .loose b K S m.registers.env m₁.registers ∨
        ∃ j rest, m.registers.control = .reset j :: rest ∧ Escapes b K S j m₁.registers := by
    intro m m₁ c s hnext hc hstash hne ht hsound
    obtain ⟨i, c', rfl⟩ := List.exists_cons_of_ne_nil hne
    obtain ⟨i', control, hcontrol, hperform, -⟩ := next_iff.mp hnext
    rw [hc] at hcontrol
    cases hcontrol
    change perform natives i ⟨c' ++ K, m.registers.stash, m.registers.env, m.registers.output⟩ = _ at hperform
    rw [hstash] at hperform
    have hgoes := (perform_goes (K := K) (S := S) hneutral False.elim hsound False.elim
      (fun _ _ => trivial) ht).of_ok hperform
    rcases hgoes with hstays | ⟨j, rfl, hescapes⟩
    · exact .inl hstays
    · exact .inr ⟨j, _, hc, hescapes⟩
  induction hu generalizing c s with
  | @last m m' hnext hheight =>
    rcases step hnext hc hstash hne ht hsound with ⟨-, c', s', hc', hs', ht'⟩ | ⟨j, rest, hj, hesc⟩
    · refine .inl ⟨s', ?_⟩
      have : c' = [] := by
        rw [Machine.height, hc', List.length_append] at hheight
        exact List.length_eq_zero_iff.mp (by omega)
      subst this
      exact ⟨hc', hs', ht'⟩
    · exact .inr ⟨0, m, j, rest, rfl, hnext, hj, hesc⟩
  | @next m m₁ m' hnext hheight _ ih =>
    rcases step hnext hc hstash hne ht hsound with ⟨hev, c', s', hc', hs', ht'⟩ | ⟨j, rest, -, hesc⟩
    · have hne' : c' ≠ [] := by
        rintro rfl
        rw [Machine.height, hc'] at hheight
        simp at hheight
      rcases ih hc' hs' hne' ht' (hsound.evolves hev) with hdone | ⟨n, m₂, j, rest, hn, hlast, hj, hesc⟩
      · exact .inl hdone
      · refine .inr ⟨n + 1, m₂, j, rest, ?_, hlast, hj, hesc⟩
        rw [evaluate_succ, hnext.2]
        exact hn
    · exact absurd hesc.length_lt (Nat.not_lt.mpr (Nat.le_of_lt hheight))

end Segment

/-! ### Sample runs -/

/-- Whether a run of a source without natives comes within `n` steps to a first item that passes a test,
and within `k` more to a machine with no more on control than was behind that item, which passes another
test. -/
def passes (source : String) (n k : Nat) (test : Item → Bool) (done : List Item → Machine → Bool) : Bool :=
  (sample? source n).any (fun m =>
    match m.registers.control with
    | [] => false
    | i :: K => test i && (m.until? Natives.empty K.length k).any (done K))

theorem exists_of_passes {source : String} {n k : Nat} {test : Item → Bool}
    {done : List Item → Machine → Bool} (h : passes source n k test done = true) :
    ∃ p m i K m', Program.parse source = .ok p ∧ Reached Natives.empty p m ∧
      m.registers.control = i :: K ∧ test i = true ∧ Until Natives.empty K.length m m' ∧
      done K m' = true := by
  obtain ⟨m, hm, h⟩ := (Option.any_eq_true _ _).mp h
  obtain ⟨p, hp, hreached⟩ := exists_of_sample? hm
  split at h
  · cases h
  · rename_i i K hc
    rw [Bool.and_eq_true, Option.any_eq_true] at h
    obtain ⟨hi, m', hm', hdone⟩ := h
    exact ⟨p, m, i, K, m', hp, hreached, hc, hi, until_of_until? hm', hdone⟩

def Item.isExpr : Item → Bool
  | .expr _ => true
  | _ => false

/-- A source whose `main` leaves a loop by a `break`. -/
def breakSource : String :=
  "class M \x7b public static void main(String[] a) \x7b while (true) \x7b break; \x7d \x7d \x7d"

section Balance

variable {natives : Natives} {p : Program} {m m' : Machine} {K : List Item}

/-- An expression is evaluated to one more item on the stash.  When control is next as low as it was
below the expression, it is what it was there, and so is the current frame. -/
theorem expression_balanced {e : Expr} (hneutral : natives.Neutral) (hm : Reached natives p m)
    (hc : m.registers.control = .expr e :: K) (hu : Until natives K.length m m') :
    m'.registers.control = K ∧
      (∃ item, m'.registers.stash = item :: m.registers.stash ∧
        ((∃ v, item = .value v) ∨ ∃ c, item = .cls c)) ∧
      m'.registers.env.current = m.registers.env.current := by
  have ht : OnTrack .loose (.value m.registers.env.current) [.expr e] [] m.registers.env :=
    ⟨.value, [], trivial, .inl ⟨rfl, rfl⟩, .nil⟩
  rcases hu.segment hneutral (c := [.expr e]) (s := []) hc rfl (by simp) ht
      (sound_of_reached hneutral hm) with ⟨s', hcontrol, hstash, hend⟩ | ⟨n, m₁, j, rest, -, -, -, hesc⟩
  · rcases hend.nil with ⟨f, hf, hcurrent, hs'⟩ | ⟨f, hf | hf, -⟩
    · cases hf
      obtain ⟨item, rest, hitem, hrest, rfl⟩ := List.forall₂_cons_left_iff.mp hs'
      cases hrest
      exact ⟨hcontrol, ⟨item, hstash, hitem⟩, hcurrent⟩
    · cases hf
    · cases hf
  · obtain ⟨⟨f, hf⟩, -⟩ := hesc
    cases hf

/-- The call of `main`, with all that it runs. -/
theorem expression_balanced_main : ∃ p m e K m', Program.parse breakSource = .ok p ∧
    Reached Natives.empty p m ∧ m.registers.control = .expr e :: K ∧ Until Natives.empty K.length m m' ∧
    m'.registers.control = K ∧ ∃ item, m'.registers.stash = item :: m.registers.stash := by
  have hrun : passes breakSource 8 30 Item.isExpr (fun _ _ => true) = true := by
    rw [passes, sample?_eq_parseDecoded?]
    decide +kernel
  obtain ⟨p, m, i, K, m', hp, hm, hc, hi, hu, -⟩ := exists_of_passes hrun
  cases i with
  | expr e =>
    obtain ⟨hcontrol, ⟨item, hstash, -⟩, -⟩ := expression_balanced Natives.neutral_empty hm hc hu
    exact ⟨p, m, e, K, m', hp, hm, hc, hu, hcontrol, item, hstash⟩
  | _ => cases hi

/-- A jump has led out of a statement over `K`.  The last step unwound control to the topmost marker of
the jump in `K`, which no marker of a call stands above.  The next item leads back to the frame in which
one step put down that marker and this item. -/
structure LeftBy (natives : Natives) (p : Program) (j : Jump) (K : List Item) (m m' : Machine) : Prop where
  last : ∃ n m₁ above, evaluate natives n m = .ok () m₁ ∧ m₁.registers.control = .reset j :: above ∧
    Next natives m₁ m'
  lands : ∃ front f rest, K = front ++ .marker j :: .restore f :: rest ∧ Item.marker j ∉ front ∧
    Item.marker .ret ∉ front ∧ m'.registers.control = .restore f :: rest ∧
    Opened natives p (.marker j :: .restore f :: rest)
  loop : j ≠ .ret → m'.registers.stash = m.registers.stash
  call : j = .ret → ∃ item, m'.registers.stash = item :: m.registers.stash

/-- A statement leaves everything as it was, or a jump leads out of it. -/
theorem completes_or_leftBy {s : Stmt} (hneutral : natives.Neutral) (hm : Reached natives p m)
    (hc : m.registers.control = .stmt s :: K) (hu : Until natives K.length m m') :
    (m'.registers.control = K ∧ m'.registers.stash = m.registers.stash ∧
      m'.registers.env.current = m.registers.env.current) ∨ ∃ j, LeftBy natives p j K m m' := by
  have ht : OnTrack .loose (.statement m.registers.env.current) [.stmt s] [] m.registers.env :=
    ⟨.stmt, [], trivial, ⟨False.elim, .inl ⟨rfl, rfl⟩⟩, .nil⟩
  rcases hu.segment hneutral (c := [.stmt s]) (s := []) hc rfl (by simp) ht
      (sound_of_reached hneutral hm) with ⟨s', hcontrol, hstash, hend⟩ | ⟨n, m₁, j, above, hn, hlast, hj, hesc⟩
  · rcases hend.nil with ⟨f, hf, -⟩ | ⟨f, hf | hf, hcurrent, rfl⟩
    · cases hf
    · cases hf
      exact .inl ⟨hcontrol, hstash, hcurrent⟩
    · cases hf
  · obtain ⟨-, hunwind, hstash⟩ := hesc
    obtain ⟨front, hK, hfront, hret⟩ := exists_of_unwind_eq_ok hunwind
    have hc' : m.registers.control = (.stmt s :: front) ++ .marker j :: m'.registers.control := by
      rw [hc, hK]
      rfl
    obtain ⟨f, rest, hrest⟩ := (phase_of_reached hneutral hm).exists_restore hc'
    refine .inr ⟨j, ⟨n, m₁, above, hn, hj, hlast⟩, ⟨front, f, rest, ?_, hfront, hret, hrest, ?_⟩, ?_, ?_⟩
    · rw [hK, hrest]
    · rw [← hrest]
      exact opened_of_turns hneutral hm (.marker j) hc'
    · rintro hj
      rcases hstash with ⟨-, hstash⟩ | ⟨rfl, -⟩
      · exact hstash
      · exact absurd rfl hj
    · rintro rfl
      rcases hstash with ⟨hne, -⟩ | ⟨-, item, -, hstash⟩
      · exact absurd rfl hne
      · exact ⟨item, hstash⟩

end Balance

end StashMachine
