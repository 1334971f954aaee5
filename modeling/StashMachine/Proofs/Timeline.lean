import StashMachine.Proofs.Descent
import StashMachine.Proofs.Scopes

/-!
# StashMachine.Proofs.Timeline — the machines of a run in the order of their steps

A run is determined by its program, so the number of steps says which of its machines one is at.

* `Reached.evaluate_steps`, `Reached.eq_of_steps`, `Reached.run`, `Reached.exists_steps`: the machine after a
  number of steps.
* `Reached.between`: what every step keeps, on a part of a run; `size_le_of_steps`: frames only get more.
* `Until.steps`, `until_of_steps`: coming down to a height of control, in terms of the steps in between.
* `Machine.Arrives.descends`: wherever a run descends to on its way, it comes.
-/

namespace StashMachine

open Environment Step Machine

namespace Machine

variable {natives : Natives} {p : Program} {m m₁ m₂ m' : Machine} {h h₁ n : Nat}

theorem Next.steps (hnext : Next natives m m₁) : m₁.steps = m.steps + 1 := by
  obtain ⟨-, -, -, -, hsteps⟩ := next_iff.mp hnext
  exact hsteps

theorem steps_le_of_evaluate (h : evaluate natives n m = .ok () m') : m.steps ≤ m'.steps := by
  refine evaluate_induction (P := fun m' => m.steps ≤ m'.steps) h (Nat.le_refl _) (fun _ m₁ m₂ _ ih hnext => ?_)
  rw [hnext.steps]
  exact Nat.le_succ_of_le ih

namespace Reached

/-- The number of steps of a machine says how far the run has come. -/
theorem evaluate_steps (hm : Reached natives p m) : evaluate natives m.steps (initial.loadProgram p) = .ok () m := by
  refine hm.induction (P := fun m => evaluate natives m.steps (initial.loadProgram p) = .ok () m) rfl ?_
  intro m₁ m₂ _ ih hnext
  rw [hnext.steps, evaluate_add, ih]
  exact hnext.2

/-- A run is at one machine after a number of steps. -/
theorem eq_of_steps (hm : Reached natives p m) (hm' : Reached natives p m') (h : m.steps = m'.steps) : m = m' := by
  have heq := hm.evaluate_steps
  rw [h, hm'.evaluate_steps] at heq
  cases heq
  rfl

/-- The later one of two machines of a run is reached from the earlier one. -/
theorem run (hm : Reached natives p m) (hm' : Reached natives p m') (h : m.steps ≤ m'.steps) :
    evaluate natives (m'.steps - m.steps) m = .ok () m' := by
  have hrun := hm'.evaluate_steps
  rw [show m'.steps = m.steps + (m'.steps - m.steps) by omega, evaluate_add, hm.evaluate_steps] at hrun
  exact hrun

/-- A run passes every number of steps. -/
theorem exists_steps (hm' : Reached natives p m') (hn : n ≤ m'.steps) : ∃ m, Reached natives p m ∧ m.steps = n := by
  refine hm'.induction (P := fun m' => ∀ n ≤ m'.steps, ∃ m, Reached natives p m ∧ m.steps = n) ?_ ?_ n hn
  · intro n hn
    exact ⟨initial.loadProgram p, .start, (Nat.le_zero.mp hn).symm⟩
  · intro m₁ m₂ hm₁ ih hnext n hn
    rw [hnext.steps] at hn
    rcases Nat.le_succ_iff.mp hn with hn | rfl
    · exact ih n hn
    · exact ⟨m₂, hm₁.next hnext, hnext.steps⟩

/-- Between two machines of a run that are one step apart there is a step. -/
theorem next_of_steps (hm : Reached natives p m) (hm' : Reached natives p m') (h : m'.steps = m.steps + 1) :
    Next natives m m' := by
  have hrun := hm.run hm' (by omega)
  rw [show m'.steps - m.steps = 1 by omega] at hrun
  refine ⟨?_, hrun⟩
  by_contra hf
  rw [Bool.not_eq_false] at hf
  rw [evaluate_of_isFinished hf] at hrun
  cases hrun
  omega

/-- What holds of a machine and is kept by the steps between it and a later one holds of the later one. -/
theorem between {P : Machine → Prop} (hm : Reached natives p m) (hm' : Reached natives p m')
    (hle : m.steps ≤ m'.steps) (hstart : P m) (hnext : ∀ m₁ m₂, Reached natives p m₁ → m.steps ≤ m₁.steps →
      m₁.steps < m'.steps → P m₁ → Next natives m₁ m₂ → P m₂) : P m' := by
  obtain ⟨d, hd⟩ := Nat.exists_eq_add_of_le hle
  induction d generalizing m' with
  | zero => rwa [← hm.eq_of_steps hm' (by omega)]
  | succ d ih =>
    obtain ⟨m₁, hm₁, hsteps⟩ := hm'.exists_steps (n := m.steps + d) (by omega)
    have hlast := hm₁.next_of_steps hm' (by omega)
    refine hnext m₁ m' hm₁ (by omega) (by omega) (ih hm₁ (by omega) ?_ hsteps) hlast
    exact fun m₂ m₃ hm₂ hge hlt => hnext m₂ m₃ hm₂ hge (by omega)

end Reached

/-- Frames only get more. -/
theorem size_le_of_steps (hm : Reached Natives.empty p m) (hm' : Reached Natives.empty p m')
    (h : m.steps ≤ m'.steps) : m.registers.env.frames.size ≤ m'.registers.env.frames.size :=
  size_le_of_evaluate (hm.run hm' h)

/-! ### Heights -/

/-- Between the two ends of a descent control is higher than at its end. -/
theorem Until.steps (hu : Until natives h m m') (hm : Reached natives p m) : Reached natives p m' ∧
    m.steps < m'.steps ∧ m'.height ≤ h ∧
      ∀ m₁, Reached natives p m₁ → m.steps < m₁.steps → m₁.steps < m'.steps → h < m₁.height := by
  induction hu with
  | last hnext hheight =>
    refine ⟨hm.next hnext, ?_, hheight, fun m₁ _ hgt hlt => ?_⟩
    · rw [hnext.steps]
      exact Nat.lt_succ_self _
    · rw [hnext.steps] at hlt
      omega
  | @next m m₂ m' hnext hheight _ ih =>
    obtain ⟨hm', hlt, hlow, hbetween⟩ := ih (hm.next hnext)
    have hsteps := hnext.steps
    refine ⟨hm', by omega, hlow, fun m₁ hm₁ hgt hlt₁ => ?_⟩
    by_cases hfirst : m₁.steps = m₂.steps
    · rw [hm₁.eq_of_steps (hm.next hnext) hfirst]
      exact hheight
    · exact hbetween m₁ hm₁ (by omega) hlt₁

theorem until_of_steps (hm : Reached natives p m) (hm' : Reached natives p m') (hlt : m.steps < m'.steps)
    (hlow : m'.height ≤ h) (hbetween : ∀ m₁, Reached natives p m₁ → m.steps < m₁.steps → m₁.steps < m'.steps →
      h < m₁.height) : Until natives h m m' := by
  obtain ⟨d, hd⟩ := Nat.exists_eq_add_of_lt hlt
  induction d generalizing m with
  | zero => exact .last (hm.next_of_steps hm' (by omega)) hlow
  | succ d ih =>
    obtain ⟨m₁, hm₁, hsteps⟩ := hm'.exists_steps (n := m.steps + 1) (by omega)
    refine .next (hm.next_of_steps hm₁ hsteps) (hbetween m₁ hm₁ (by omega) (by omega)) ?_
    exact ih hm₁ (by omega) (fun m₂ hm₂ hgt => hbetween m₂ hm₂ (by omega)) (by omega)

theorem Arrives.steps (ha : Arrives natives h m m') (hm : Reached natives p m) : Reached natives p m' ∧
    m.steps ≤ m'.steps ∧ m'.height ≤ h ∧
      ∀ m₁, Reached natives p m₁ → m.steps ≤ m₁.steps → m₁.steps < m'.steps → h < m₁.height := by
  rcases ha with ⟨hlow, rfl⟩ | ⟨hhigh, hu⟩
  · exact ⟨hm, Nat.le_refl _, hlow, fun m₁ _ hge hlt => by omega⟩
  · obtain ⟨hm', hlt, hlow, hbetween⟩ := hu.steps hm
    refine ⟨hm', Nat.le_of_lt hlt, hlow, fun m₁ hm₁ hge hlt₁ => ?_⟩
    by_cases hfirst : m₁.steps = m.steps
    · rwa [hm₁.eq_of_steps hm hfirst]
    · exact hbetween m₁ hm₁ (by omega) hlt₁

theorem Arrives.until (ha : Arrives natives h m m') (hhigh : h < m.height) : Until natives h m m' := by
  rcases ha with ⟨hlow, -⟩ | ⟨-, hu⟩
  · omega
  · exact hu

theorem Arrives.unique (ha : Arrives natives h m m') (ha' : Arrives natives h m m₁) : m' = m₁ := by
  rcases ha with ⟨hlow, rfl⟩ | ⟨hhigh, hu⟩
  · rcases ha' with ⟨-, rfl⟩ | ⟨hhigh, -⟩
    · rfl
    · omega
  · rcases ha' with ⟨hlow, -⟩ | ⟨-, hu'⟩
    · omega
    · exact hu.unique hu'

/-- Wherever a run descends to on its way down, it comes. -/
theorem Arrives.descends {Q : Registers → Prop} {F : Fault → Registers → Prop} (ha : m.Arrives natives h m')
    (hh : h ≤ h₁) (hd : Descends natives h₁ m.registers Q F) :
    ∃ m₁, m.Arrives natives h₁ m₁ ∧ Q m₁.registers ∧ m₁.Arrives natives h m' := by
  rcases hd m.steps with ⟨m₁, ⟨hlow, rfl⟩ | ⟨hheight, hu₁⟩, hQ⟩ | ⟨hheight, f, m₁, hfails, -⟩
  · exact ⟨m, .inl ⟨hlow, rfl⟩, hQ, ha⟩
  all_goals
    have hhigh : h₁ < m.height := hheight
    obtain ⟨m₂, hu₂, harrives⟩ := (ha.until (Nat.lt_of_le_of_lt hh hhigh)).split hh
  · cases hu₁.unique hu₂
    exact ⟨m₁, .inr ⟨hheight, hu₁⟩, hQ, harrives⟩
  · exact absurd hu₂ hfails.not_until

end Machine

end StashMachine
