import StashMachine.Proofs.Runs
import Mathlib.Algebra.GroupWithZero.Nat

/-!
# StashMachine.Proofs.Resumption — runs that are cut and resumed

A caller runs a machine for a number of steps, looks at the top of the stash and runs it again.

* `Machine.answer`: one such call; `Machine.answers`: calls one after another, up to the first fault.
* `Machine.Spends n m r`: what a call for `n` steps on `m` does to the count of steps.
* `answers_resume`: calls one after another do what one call for all their steps does.
-/

namespace StashMachine
namespace Machine

variable {natives : Natives} {m : Machine}

/-- Runs for at most a number of steps and gives the top of the stash. -/
def answer (natives : Natives) (n : Nat) : EStateM Fault Machine (Option StashItem) := do
  evaluate natives n
  return (← get).top?

/-- Runs for the first number of steps, then for the next one, and so on up to the first fault; the
answer is that of the last call. -/
def answers (natives : Natives) : Nat → List Nat → EStateM Fault Machine (Option StashItem)
  | n, [] => answer natives n
  | n, k :: ks => do
    let _ ← answer natives n
    answers natives k ks

/-- A call for `n` steps stops short of them only on an empty control or at a fault, and a faulty step
is not counted. -/
def Spends (n : Nat) (m : Machine) {α : Type} : EStateM.Result Fault Machine α → Prop
  | .ok _ m' => m'.steps ≤ m.steps + n ∧ (m'.isFinished = false → m'.steps = m.steps + n)
  | .error _ m' => m'.steps < m.steps + n

theorem answer_eq (n : Nat) (m : Machine) : answer natives n m =
    match evaluate natives n m with
    | .ok _ m' => .ok m'.top? m'
    | .error e m' => .error e m' := by
  simp only [answer, bind, EStateM.bind]
  cases evaluate natives n m <;> rfl

/-- A call for `n + k` steps is a call for `n` steps, whose answer is not used, and one for `k` steps. -/
theorem answer_add (n k : Nat) (m : Machine) : answer natives (n + k) m =
    (answer natives n >>= fun _ => answer natives k) m := by
  simp only [bind, EStateM.bind, answer_eq, evaluate_add]
  cases evaluate natives n m <;> rfl

theorem answers_eq_answer (n : Nat) (ks : List Nat) (m : Machine) :
    answers natives n ks m = answer natives (n + ks.sum) m := by
  induction ks generalizing n m with
  | nil => rfl
  | cons k ks ih =>
    rw [List.sum_cons, answer_add, answers]
    simp only [bind, EStateM.bind]
    cases answer natives n m with
    | ok a m₁ => exact ih k m₁
    | error e m₁ => rfl

/-! ### Counting -/

/-- A machine that goes on has done one step more. -/
theorem steps_of_step {m' : Machine} (hrunning : m.isFinished = false)
    (h : evaluate natives 1 m = .ok () m') : m'.steps = m.steps + 1 := by
  obtain ⟨_, _, _, _, hsteps⟩ := next_iff.mp ⟨hrunning, h⟩
  exact hsteps

/-- The step that a fault ends is not counted. -/
theorem steps_of_fault {e : Fault} {m' : Machine} (h : evaluate natives 1 m = .error e m') :
    m'.steps = m.steps := by
  obtain ⟨⟨control, stash, env, output⟩, steps⟩ := m
  cases control with
  | nil => simp [evaluate] at h
  | cons item control =>
    rw [evaluate_one_cons] at h
    split at h
    · cases h
    · cases h
      rfl

theorem spends_evaluate (n : Nat) (m : Machine) : Spends n m (evaluate natives n m) := by
  induction n generalizing m with
  | zero => exact ⟨Nat.le_refl _, fun _ => rfl⟩
  | succ n ih =>
    by_cases hfinished : m.isFinished = true
    · rw [evaluate_of_isFinished hfinished]
      exact ⟨Nat.le_add_right _ _, fun hrunning => absurd hfinished (by simp [hrunning])⟩
    rw [evaluate_succ]
    cases hstep : evaluate natives 1 m with
    | error e m₁ =>
      show m₁.steps < m.steps + (n + 1)
      have hsteps := steps_of_fault hstep
      omega
    | ok a m₁ =>
      -- the rest of the run counts on from the first step
      have hsteps := steps_of_step (by simpa using hfinished) hstep
      have hrest := ih m₁
      show Spends (n + 1) m (evaluate natives n m₁)
      cases hrun : evaluate natives n m₁ with
      | ok a' m' =>
        rw [hrun] at hrest
        obtain ⟨hle, hall⟩ := hrest
        refine ⟨by omega, fun hrunning => ?_⟩
        have := hall hrunning
        omega
      | error e m' =>
        rw [hrun] at hrest
        show m'.steps < m.steps + (n + 1)
        have hlt : m'.steps < m₁.steps + n := hrest
        omega

theorem spends_answer (n : Nat) (m : Machine) : Spends n m (answer natives n m) := by
  rw [answer_eq]
  have h : Spends n m (evaluate natives n m) := spends_evaluate n m
  cases hrun : evaluate natives n m <;> rw [hrun] at h <;> exact h

end Machine

open Machine

/-- Calls one after another end as one call for the sum of their steps: with the same answer and the same
machine, its count of steps included, or with the same fault on the same machine.  No call stops before
its steps are done unless control is empty or a step is faulty. -/
theorem answers_resume (natives : Natives) (n : Nat) (ks : List Nat) (m : Machine) :
    answers natives n ks m = answer natives (n + ks.sum) m ∧
      Spends (n + ks.sum) m (answers natives n ks m) := by
  have hone : answers natives n ks m = answer natives (n + ks.sum) m := answers_eq_answer n ks m
  refine ⟨hone, ?_⟩
  rw [hone]
  exact spends_answer _ m

end StashMachine
