import StashMachine.Proofs.Runs
import StashMachine.Proofs.StepLogic

/-!
# StashMachine.Proofs.Descent — runs down to a height of control

* `exists_next`: a step that ends with no fault leads on.
* `Arrives natives h m m'`, `Fails natives h f m m'`: a run from `m` is down to `h` items of control for the
  first time at `m'`, or stops there with the fault `f` before it is.
* `Until.split`, `Until.unique`, `Fails.not_until`: a run comes to every height in between, and only one of
  the two comes about.
* `Descends natives h r Q F`: from the registers `r` on, one of the two does come about.  `descends_here` and
  `descends_step` are its rules, and `Descends.above` says what it means.
-/

namespace StashMachine

open Step

/-- A step that ends with no fault leads on. -/
theorem exists_next (natives : Natives) {m : Machine} {i : Item} {c : List Item} {Q : Registers → Prop}
    (hc : m.registers.control = i :: c)
    (h : Step.Ends (Step.perform natives i) { m.registers with control := c } (fun _ r => Q r)
      (fun _ _ => False)) : ∃ m₁, Machine.Next natives m m₁ ∧ Q m₁.registers := by
  cases hperform : Step.perform natives i { m.registers with control := c } with
  | ok _ r => exact ⟨⟨r, m.steps + 1⟩, Machine.next_iff.mpr ⟨i, c, hc, hperform, rfl⟩, h.of_ok hperform⟩
  | error e r => exact (h.of_error hperform).elim

namespace Machine

/-! ### Runs down to a height -/

section Runs

variable {natives : Natives} {h h₁ : Nat} {m m₁ m₂ m' : Machine} {f : Fault}

/-- From `m` on, `m` included, `m'` is the first machine that has at most `h` items on control. -/
def Arrives (natives : Natives) (h : Nat) (m m' : Machine) : Prop :=
  m.height ≤ h ∧ m' = m ∨ h < m.height ∧ Until natives h m m'

/-- The step of `m`, or a later one before which control always has more than `h` items, stops with the fault
`f` and leaves `m'`. -/
inductive Fails (natives : Natives) (h : Nat) (f : Fault) : Machine → Machine → Prop
  | here {m m' : Machine} : evaluate natives 1 m = .error f m' → Fails natives h f m m'
  | next {m m₁ m' : Machine} :
    Next natives m m₁ → h < m₁.height → Fails natives h f m₁ m' → Fails natives h f m m'

theorem Next.unique (h₁ : Next natives m m₁) (h₂ : Next natives m m₂) : m₁ = m₂ := by
  have heq := h₁.2.symm.trans h₂.2
  cases heq
  rfl

theorem Until.exists_next (hu : Until natives h m m') :
    ∃ m₁, Next natives m m₁ ∧ Arrives natives h m₁ m' := by
  cases hu with
  | last hnext hheight => exact ⟨m', hnext, .inl ⟨hheight, rfl⟩⟩
  | next hnext hheight hu => exact ⟨_, hnext, .inr ⟨hheight, hu⟩⟩

/-- On its way down, a run comes to every height in between. -/
theorem Until.split (hu : Until natives h m m') (hh : h ≤ h₁) :
    ∃ m₁, Until natives h₁ m m₁ ∧ Arrives natives h m₁ m' := by
  induction hu with
  | last hnext hheight => exact ⟨_, .last hnext (Nat.le_trans hheight hh), .inl ⟨hheight, rfl⟩⟩
  | @next m m₁ m' hnext hheight hu ih =>
    by_cases hlow : m₁.height ≤ h₁
    · exact ⟨m₁, .last hnext hlow, .inr ⟨hheight, hu⟩⟩
    · obtain ⟨m₂, hm₂, harrives⟩ := ih
      exact ⟨m₂, .next hnext (Nat.lt_of_not_le hlow) hm₂, harrives⟩

theorem Until.unique (hu : Until natives h m m₁) (hu' : Until natives h m m₂) : m₁ = m₂ := by
  induction hu with
  | last hnext hheight =>
    cases hu' with
    | last hnext' _ => exact hnext.unique hnext'
    | next hnext' hheight' _ =>
      cases hnext.unique hnext'
      exact absurd hheight (Nat.not_le_of_lt hheight')
  | next hnext hheight _ ih =>
    cases hu' with
    | last hnext' hheight' =>
      cases hnext.unique hnext'
      exact absurd hheight' (Nat.not_le_of_lt hheight)
    | next hnext' _ hu' =>
      cases hnext.unique hnext'
      exact ih hu'

/-- A run comes down in two parts. -/
theorem Until.trans (hu : Until natives h₁ m m₁) (hh : h ≤ h₁) (hheight : h < m₁.height)
    (hu' : Until natives h m₁ m') : Until natives h m m' := by
  induction hu with
  | last hnext _ => exact .next hnext hheight hu'
  | next hnext hheight₁ _ ih => exact .next hnext (Nat.lt_of_le_of_lt hh hheight₁) (ih hheight hu')

/-- A run that comes down does not stop before. -/
theorem Fails.not_until (hf : Fails natives h f m m₁) : ¬ Until natives h m m' := by
  intro hu
  induction hf with
  | here hfault =>
    obtain ⟨m₁, hnext, -⟩ := hu.exists_next
    have heq := hfault.symm.trans hnext.2
    cases heq
  | next hnext hheight _ ih =>
    obtain ⟨m₂, hnext', harrives⟩ := hu.exists_next
    cases hnext.unique hnext'
    rcases harrives with ⟨hlow, -⟩ | ⟨-, hu⟩
    · exact absurd hheight (Nat.not_lt_of_le hlow)
    · exact ih hu

end Runs

/-! ### Descending -/

/-- A machine at the registers `r` comes down to `h` items of control at registers that satisfy `Q`, or a fault
stops it before, and then `F` holds of the fault and of the registers that it leaves. -/
def Descends (natives : Natives) (h : Nat) (r : Registers) (Q : Registers → Prop)
    (F : Fault → Registers → Prop) : Prop :=
  ∀ steps, (∃ m', Arrives natives h ⟨r, steps⟩ m' ∧ Q m'.registers) ∨
    h < r.control.length ∧ ∃ f m', Fails natives h f ⟨r, steps⟩ m' ∧ F f m'.registers

section Descends

variable {natives : Natives} {h : Nat} {c : List Item} {s : List StashItem} {env : Environment}
  {out : List String} {Q : Registers → Prop} {F : Fault → Registers → Prop}

theorem Descends.above {r : Registers} (hd : Descends natives h r Q F) (hr : h < r.control.length) (steps : Nat) :
    (∃ m', Until natives h ⟨r, steps⟩ m' ∧ Q m'.registers) ∨
      ∃ f m', Fails natives h f ⟨r, steps⟩ m' ∧ F f m'.registers := by
  rcases hd steps with ⟨m', ⟨hlow, -⟩ | ⟨-, hu⟩, hQ⟩ | ⟨-, hfails⟩
  · exact absurd hr (Nat.not_lt_of_le hlow)
  · exact .inl ⟨m', hu, hQ⟩
  · exact .inr hfails

theorem descends_here {r : Registers} (hh : r.control.length ≤ h) (hQ : Q r) : Descends natives h r Q F :=
  fun steps => .inl ⟨⟨r, steps⟩, .inl ⟨hh, rfl⟩, hQ⟩

/-- A run takes its next step. -/
theorem descends_step {i : Item} (hh : h ≤ c.length)
    (hends : Ends (perform natives i) ⟨c, s, env, out⟩ (fun _ r => Descends natives h r Q F) F) :
    Descends natives h ⟨i :: c, s, env, out⟩ Q F := by
  intro steps
  have hhigh : h < (i :: c).length := Nat.lt_succ_of_le hh
  cases hperform : perform natives i ⟨c, s, env, out⟩ with
  | ok a r =>
    have hnext : Next natives ⟨⟨i :: c, s, env, out⟩, steps⟩ ⟨r, steps + 1⟩ :=
      next_iff.mpr ⟨i, c, rfl, hperform, rfl⟩
    rcases hends.of_ok hperform (steps + 1) with ⟨m', harrives, hQ⟩ | ⟨hheight, f, m', hfails, hF⟩
    · refine .inl ⟨m', .inr ⟨hhigh, ?_⟩, hQ⟩
      rcases harrives with ⟨hlow, rfl⟩ | ⟨hheight, hu⟩
      · exact .last hnext hlow
      · exact .next hnext hheight hu
    · exact .inr ⟨hhigh, f, m', .next hnext hheight hfails, hF⟩
  | error f r =>
    refine .inr ⟨hhigh, f, ⟨r, steps⟩, .here ?_, hends.of_error hperform⟩
    rw [evaluate_one_cons, hperform]

end Descends

end Machine
end StashMachine
