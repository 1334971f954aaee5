import StashMachine.Proofs.Enclosing

/-!
# StashMachine.Proofs.Completion — how statements end

* `evaluate_jump`: when a `break` or `continue` finds no marker.
* `exists_of_reset`: a jump of a `break` or `continue` is performed right after that statement.
* `jump_of_noMarker`: nothing but a `break` or `continue` stops a run for a missing marker.
* `statement_completes`: a statement leaves everything as it was, or a jump leads out of it to the
  construct that it belongs to; a `break` or `continue` that no construct encloses stops the run.
-/

namespace StashMachine

open Environment Step Machine

/-! ### Jumps that lead nowhere -/

section Nowhere

variable {p : Program} {m m' : Machine} {K R above : List Item} {j : Jump}

theorem not_encloses_iff : ¬ Encloses j K ↔ ∃ rest, unwind j K = .error rest := by
  rw [← unwind_isOk_iff]
  cases unwind j K <;> simp

/-- A `break` or `continue` is executed in two steps, and finds no marker if no construct encloses it
within its call. -/
theorem evaluate_jump {natives : Natives} {s : Stmt} (hs : s.jump? = some j)
    (hc : m.registers.control = .stmt s :: K) :
    (∃ m', evaluate natives 2 m = .error (.noMarker j) m') ↔ ¬ Encloses j K := by
  obtain ⟨⟨control, stash, env, out⟩, steps⟩ := m
  cases hc
  -- the first step puts down the jump, and the second one unwinds control
  have hfirst : evaluate natives 1 ⟨⟨.stmt s :: K, stash, env, out⟩, steps⟩
      = .ok () ⟨⟨.reset j :: K, stash, env, out⟩, steps + 1⟩ := by
    cases s <;> cases hs <;> rfl
  have hsecond : Ends (Step.reset j) ⟨K, stash, env, out⟩ (fun _ _ => ∃ rest, unwind j K = .ok rest)
      (fun e _ => e = .noMarker j ∧ ∃ rest, unwind j K = .error rest) := by
    simp only [Step.reset, ends_bind, ends_get]
    split
    · rename_i rest hrest
      exact ⟨rest, hrest⟩
    · rename_i rest hrest
      exact ⟨rfl, rest, hrest⟩
  rw [evaluate_succ, hfirst, not_encloses_iff]
  constructor
  · rintro ⟨m', hstep⟩
    obtain ⟨i, c, hc, hperform⟩ := evaluate_one_error hstep
    cases hc
    exact (hsecond.of_error hperform).2
  · rintro ⟨rest, hrest⟩
    cases hstep : evaluate natives 1 ⟨⟨.reset j :: K, stash, env, out⟩, steps + 1⟩ with
    | ok _ m' =>
      obtain ⟨i, c, hc, hperform, -⟩ := next_iff.mp ⟨rfl, hstep⟩
      cases hc
      obtain ⟨rest', hok⟩ := hsecond.of_ok hperform
      rw [hrest] at hok
      cases hok
    | error e m' =>
      obtain ⟨i, c, hc, hperform⟩ := evaluate_one_error hstep
      cases hc
      obtain ⟨rfl, -⟩ := hsecond.of_error hperform
      exact ⟨m', hstep⟩

/-- The jump of a `break` or `continue` comes to the top of control in one step, and this step performs that
statement. -/
theorem exists_of_reset (hm : Reached Natives.empty p m) (hj : j ≠ .ret)
    (hc : m.registers.control = above ++ .reset j :: R) : above = [] ∧ ∃ s m₀, s.jump? = some j ∧
      Reached Natives.empty p m₀ ∧ m₀.registers.control = .stmt s :: R ∧ Next Natives.empty m₀ m := by
  refine hm.induction (P := fun m => ∀ above R, m.registers.control = above ++ .reset j :: R → above = [] ∧
    ∃ s m₀, s.jump? = some j ∧ Reached Natives.empty p m₀ ∧ m₀.registers.control = .stmt s :: R ∧
      Next Natives.empty m₀ m) (fun above R hc => ?_) (fun m m₁ hm ih hnext above R hc₁ => ?_) above R hc
  · cases above with
    | nil => cases hc
    | cons i above =>
      obtain ⟨-, hnil⟩ := List.cons.inj hc
      cases above <;> cases hnil
  · obtain ⟨i, c, hc, -⟩ := next_iff.mp hnext
    rcases hnext.suffix hm hc hc₁ rfl rfl with ⟨above', rfl⟩ | ⟨back, f, rfl, hagenda⟩
    · -- below the item that is performed, no such jump waits
      cases (ih (i :: above') R hc).1
    · have hwalks := walks_of_reached hm
      rw [hc] at hwalks
      rcases hagenda.of_mem_reset hwalks.stands (k := j) (by simp) with ⟨e, hret, -⟩ | ⟨s, hs, rfl, hnew⟩
      · exact absurd hret hj
      · cases above with
        | nil =>
          cases hnew
          exact ⟨rfl, s, m, hs, hm, hc, hnext⟩
        | cons i above => simp at hnew

/-- A jump that finds no marker has just been put down by a `break` or `continue`. -/
theorem jump_of_noMarker (hp : ∀ d ∈ p, d.Plain) (hm : Reached Natives.empty p m)
    (h : evaluate Natives.empty 1 m = .error (.noMarker j) m') :
    ∃ s R m₀, s.jump? = some j ∧ Reached Natives.empty p m₀ ∧ m₀.registers.control = .stmt s :: R ∧
      Next Natives.empty m₀ m ∧ ¬ Encloses j R := by
  obtain ⟨i, R, hc, hperform⟩ := evaluate_one_error h
  have hphase : Phase .strict p m.registers := .strict hp hm
  have hfault := (phase_step (g := .strict) Natives.neutral_empty (fun _ => rfl)
    (Regime.strict_knows _) (fun _ _ => trivial) (fun _ => hp) (hc ▸ hphase)).of_error hperform
  rcases hfault with hblames | ⟨j', rest, rfl, he, hunwind⟩
  · rcases hblames trivial with hordinary | ⟨d, hd, -⟩
    · cases hordinary
    · cases hd
  · cases he
    have hret : j ≠ .ret := by
      rintro rfl
      obtain ⟨rest', hok⟩ := hphase.exists_unwind_ret hc
      rw [hunwind] at hok
      cases hok
    have hc' : m.registers.control = [] ++ .reset j :: R := hc
    obtain ⟨-, s, m₀, hs, hm₀, hc₀, hnext⟩ := exists_of_reset hm hret hc'
    exact ⟨s, R, m₀, hs, hm₀, hc₀, hnext, not_encloses_iff.mpr ⟨rest, hunwind⟩⟩

theorem Stmt.of_jump? {s : Stmt} (hs : s.jump? = some j) : s.isHeader = false ∧ j ≠ .ret := by
  cases s <;> cases hs <;> exact ⟨rfl, nofun⟩

end Nowhere

/-- In a run of a source:

* A statement leaves control, stash and the current frame as they were, or a jump leads out of it to the construct
  that it belongs to.
* Markers are put down by loops, `switch`es, rounds of loops and calls only.
* As long as a loop or a `switch` is executed, the marker of a `break` is on control right above the way back, unless
  control is at the way back; and as long as a loop is executed, control is in its rounds, where the body stands above
  the marker of a `continue`.
* For a statement other than those in headers, the marker of a jump is on control above the marker of the call exactly
  if a construct for the jump is being executed in that call.
* A `break` or `continue` stops the run for a missing marker exactly if no construct for it encloses it in this way,
  and nothing else does. -/
theorem statement_completes {source : String} {p : Program} {m : Machine}
    (hparse : Program.parse source = .ok p) (hm : Reached Natives.empty p m) :
    (∀ s K m', m.registers.control = .stmt s :: K → Until Natives.empty K.length m m' →
      (m'.registers.control = K ∧ m'.registers.stash = m.registers.stash ∧
        m'.registers.env.current = m.registers.env.current) ∨
      ∃ j, LeftBy Natives.empty p j K m m') ∧
    (∀ j front rest, m.registers.control = front ++ .marker j :: rest →
      Opened Natives.empty p (.marker j :: rest)) ∧
    (∀ s K m₁ m', s.catches .brk = true → m.registers.control = .stmt s :: K → Next Natives.empty m m₁ →
      Since Natives.empty K.length m₁ m' → K.length < m'.height →
      (∃ above, m'.registers.control = above ++ .marker .brk :: .restore m.registers.env.current :: K) ∨
        m'.registers.control = .restore m.registers.env.current :: K) ∧
    (∀ s round body update K m₁ m', s.Repeats round body update → m.registers.control = .stmt s :: K →
      Next Natives.empty m m₁ → Since Natives.empty K.length m₁ m' → K.length < m'.height →
      Rounds round body update (.marker .brk :: .restore m.registers.env.current :: K) m'.registers.control ∨
        m'.registers.control = .restore m.registers.env.current :: K) ∧
    (∀ s j K, s.isHeader = false → j ≠ .ret → m.registers.control = .stmt s :: K →
      (Encloses j K ↔ Enclosed p j m)) ∧
    (∀ s j K, s.jump? = some j → m.registers.control = .stmt s :: K →
      ((∃ m', evaluate Natives.empty 2 m = .error (.noMarker j) m') ↔ ¬ Enclosed p j m)) ∧
    (∀ j m', evaluate Natives.empty 1 m = .error (.noMarker j) m' →
      ∃ s K m₀, s.jump? = some j ∧ Reached Natives.empty p m₀ ∧ m₀.registers.control = .stmt s :: K ∧
        Next Natives.empty m₀ m ∧ ¬ Enclosed p j m₀) := by
  have hiff : ∀ {s : Stmt} {j : Jump} {K : List Item} {m : Machine}, Reached Natives.empty p m → s.jump? = some j →
      m.registers.control = .stmt s :: K → (Encloses j K ↔ Enclosed p j m) := by
    intro s j K m hm hs hc
    obtain ⟨hheader, hj⟩ := Stmt.of_jump? hs
    exact encloses_iff hparse hm hc hheader hj
  refine ⟨fun s K m' hc hu => ?_, fun j front rest hc => ?_, fun s K m₁ m' hs hc hfirst hsince hhigh => ?_,
    fun s round body update K m₁ m' hround hc hfirst hsince hhigh => ?_, fun s j K hs hj hc => ?_,
    fun s j K hs hc => ?_, fun j m' h => ?_⟩
  · exact completes_or_leftBy Natives.neutral_empty hm hc hu
  · exact opened_of_turns Natives.neutral_empty hm (.marker j) hc
  · exact marker_of_since hm hs hc hfirst hsince hhigh
  · exact rounds_of_since hparse hm hround hc hfirst hsince hhigh
  · exact encloses_iff hparse hm hc hs hj
  · rw [evaluate_jump hs hc, hiff hm hs hc]
  · obtain ⟨s, K, m₀, hs, hm₀, hc₀, hnext, hnot⟩ := jump_of_noMarker (Program.parse_plain hparse) hm h
    rw [hiff hm₀ hs hc₀] at hnot
    exact ⟨s, K, m₀, hs, hm₀, hc₀, hnext, hnot⟩

def Item.isBreak : Item → Bool
  | .stmt .breakOut => true
  | _ => false

/-- A `break` leaves its loop. -/
theorem statement_completes_break : ∃ p m K m', Program.parse breakSource = .ok p ∧
    Reached Natives.empty p m ∧ m.registers.control = .stmt .breakOut :: K ∧
    Until Natives.empty K.length m m' ∧ ∃ j, LeftBy Natives.empty p j K m m' := by
  have hrun : passes breakSource 22 30 Item.isBreak (fun K m' => m'.height < K.length) = true := by
    rw [passes, sample?_eq_parseDecoded?]
    decide +kernel
  obtain ⟨p, m, i, K, m', hp, hm, hc, hi, hu, hheight⟩ := exists_of_passes hrun
  have hbreak : i = .stmt .breakOut := by
    unfold Item.isBreak at hi
    split at hi
    · rfl
    · cases hi
  subst hbreak
  refine ⟨p, m, K, m', hp, hm, hc, hu, ?_⟩
  refine ((statement_completes hp hm).1 _ _ _ hc hu).resolve_left (fun hnormal => ?_)
  rw [Machine.height, hnormal.1] at hheight
  simp at hheight

end StashMachine
