import StashMachine.Machine.Run
import StashMachine.Proofs.Decoding

/-!
# StashMachine.Proofs.Runs — runs, step by step

* `Next natives m m'`: one step leads from `m` to `m'`.
* `Reached natives p m`: a run of the program `p` comes to `m`; `Reached.induction` carries what every
  step keeps to every machine that a run comes to.
* `Until natives h m m'`: `m'` is the first machine after `m` that has at most `h` items on control.
* `after?`, `until?`, `sample?`: the machines that these speak of, computed (`sample?_eq_parseDecoded?` is the
  form to evaluate); `foundVar?` and `foundType?`: what is on top of their stash.
* `evaluate_add`: a run of `n + k` steps is a run of `n` steps followed by one of `k` steps;
  `evaluate_induction`: what every step keeps.
-/

namespace StashMachine
namespace Machine

variable {natives : Natives} {m m₁ m₂ m' : Machine}

/-- The number of items on control. -/
def height (m : Machine) : Nat := m.registers.control.length

/-- One step leads from `m` to `m'`. -/
def Next (natives : Natives) (m m' : Machine) : Prop :=
  m.isFinished = false ∧ evaluate natives 1 m = .ok () m'

/-- A run of the program `p` on a new machine comes to `m`. -/
def Reached (natives : Natives) (p : Program) (m : Machine) : Prop :=
  ∃ n, evaluate natives n (initial.loadProgram p) = .ok () m

/-- `m'` is the first machine after `m` that has at most `h` items on control. -/
inductive Until (natives : Natives) (h : Nat) : Machine → Machine → Prop
  | last {m m' : Machine} : Next natives m m' → m'.height ≤ h → Until natives h m m'
  | next {m m₁ m' : Machine} :
    Next natives m m₁ → h < m₁.height → Until natives h m₁ m' → Until natives h m m'

/-! ### One step -/

theorem evaluate_one_cons {item : Item} {control : List Item} {stash : List StashItem}
    {env : Environment} {output : List String} {steps : Nat} :
    evaluate natives 1 ⟨⟨item :: control, stash, env, output⟩, steps⟩ =
      match Step.perform natives item ⟨control, stash, env, output⟩ with
      | .ok _ r => .ok () ⟨r, steps + 1⟩
      | .error e r => .error e ⟨r, steps⟩ := rfl

/-- A step takes the first item off control and performs it. -/
theorem next_iff : Next natives m m' ↔
    ∃ item control, m.registers.control = item :: control ∧
      Step.perform natives item { m.registers with control := control } = .ok () m'.registers ∧
      m'.steps = m.steps + 1 := by
  obtain ⟨⟨control, stash, env, output⟩, steps⟩ := m
  obtain ⟨r', steps'⟩ := m'
  cases control with
  | nil => simp [Next, isFinished]
  | cons item control =>
    simp only [Next, evaluate_one_cons, isFinished, List.isEmpty_cons, true_and]
    cases h : Step.perform natives item ⟨control, stash, env, output⟩ with
    | ok a r =>
      simp only [EStateM.Result.ok.injEq, mk.injEq, true_and, List.cons.injEq]
      constructor
      · rintro ⟨rfl, rfl⟩
        exact ⟨item, control, ⟨rfl, rfl⟩, h, rfl⟩
      · rintro ⟨item', control', ⟨rfl, rfl⟩, h', rfl⟩
        rw [h] at h'
        cases h'
        exact ⟨rfl, rfl⟩
    | error e r =>
      simp only [reduceCtorEq, List.cons.injEq, false_iff]
      rintro ⟨item', control', ⟨rfl, rfl⟩, h', -⟩
      rw [h] at h'
      cases h'

/-- A step performs the first item of control. -/
theorem Next.perform {item : Item} {control : List Item} (h : Next natives m m')
    (hc : m.registers.control = item :: control) :
    Step.perform natives item { m.registers with control := control } = .ok () m'.registers := by
  obtain ⟨item', control', hc', hperform, -⟩ := next_iff.mp h
  cases hc.symm.trans hc'
  exact hperform

/-- A faulty step performs the first item of control. -/
theorem evaluate_one_error {e : Fault} (h : evaluate natives 1 m = .error e m') :
    ∃ item control, m.registers.control = item :: control ∧
      Step.perform natives item { m.registers with control := control } = .error e m'.registers := by
  obtain ⟨⟨control, stash, env, output⟩, steps⟩ := m
  cases control with
  | nil => simp [evaluate] at h
  | cons item control =>
    rw [evaluate_one_cons] at h
    cases hp : Step.perform natives item ⟨control, stash, env, output⟩ with
    | ok a r => simp [hp] at h
    | error e' r =>
      rw [hp] at h
      cases h
      exact ⟨item, control, rfl, hp⟩

theorem evaluate_of_isFinished (h : m.isFinished = true) (n : Nat) :
    evaluate natives n m = .ok () m := by
  obtain ⟨⟨control, stash, env, output⟩, steps⟩ := m
  simp only [isFinished, List.isEmpty_iff] at h
  subst h
  cases n <;> rfl

/-! ### Many steps -/

/-- A run starts with one step. -/
theorem evaluate_succ (n : Nat) (m : Machine) : evaluate natives (n + 1) m =
    match evaluate natives 1 m with
    | .ok _ m₁ => evaluate natives n m₁
    | .error e m₁ => .error e m₁ := by
  obtain ⟨⟨control, stash, env, output⟩, steps⟩ := m
  cases control with
  | nil => cases n <;> rfl
  | cons item control =>
    rw [evaluate_one_cons]
    rw [evaluate]
    cases Step.perform natives item ⟨control, stash, env, output⟩ <;> rfl

/-- A run of `n + k` steps is a run of `n` steps followed by one of `k` steps. -/
theorem evaluate_add (n k : Nat) (m : Machine) : evaluate natives (n + k) m =
    match evaluate natives n m with
    | .ok _ m₁ => evaluate natives k m₁
    | .error e m₁ => .error e m₁ := by
  induction n generalizing m with
  | zero => rw [Nat.zero_add]; rfl
  | succ n ih =>
    rw [Nat.succ_add, evaluate_succ (n + k), evaluate_succ n]
    cases evaluate natives 1 m with
    | ok _ m₁ => exact ih m₁
    | error e m₁ => rfl

/-- What holds of a machine and is kept by every step that comes after it holds wherever these steps lead. -/
theorem evaluate_induction {P : Machine → Prop} {n : Nat} (h : evaluate natives n m = .ok () m')
    (hstart : P m)
    (hnext : ∀ k m₁ m₂, evaluate natives k m = .ok () m₁ → P m₁ → Next natives m₁ m₂ → P m₂) : P m' := by
  induction n generalizing m' with
  | zero =>
    cases h
    exact hstart
  | succ n ih =>
    rw [evaluate_add] at h
    cases h₁ : evaluate natives n m with
    | ok _ m₁ =>
      rw [h₁] at h
      replace h : evaluate natives 1 m₁ = .ok () m' := h
      by_cases hf : m₁.isFinished = true
      · rw [evaluate_of_isFinished hf] at h
        cases h
        exact ih h₁
      · exact hnext n m₁ m' h₁ (ih h₁) ⟨by simpa using hf, h⟩
    | error e m₁ =>
      rw [h₁] at h
      cases h

/-- The first faulty step of a run. -/
theorem exists_of_evaluate_error {e : Fault} {n : Nat} (h : evaluate natives n m = .error e m') :
    ∃ k m₁, evaluate natives k m = .ok () m₁ ∧ evaluate natives 1 m₁ = .error e m' := by
  induction n generalizing m with
  | zero => simp [evaluate] at h
  | succ n ih =>
    rw [evaluate_succ] at h
    cases h₁ : evaluate natives 1 m with
    | ok _ m₁ =>
      rw [h₁] at h
      obtain ⟨k, m₂, hk, he⟩ := ih h
      refine ⟨k + 1, m₂, ?_, he⟩
      rw [evaluate_succ, h₁]
      exact hk
    | error e' m₁ =>
      rw [h₁] at h
      exact ⟨0, m, rfl, h₁.trans h⟩

/-! ### Runs that are computed -/

/-- The machine that a number of steps leads to, if none of them is faulty. -/
def after? (natives : Natives) (n : Nat) (m : Machine) : Option Machine :=
  match evaluate natives n m with
  | .ok _ m' => some m'
  | .error _ _ => none

theorem after?_eq_some {n : Nat} : m.after? natives n = some m' ↔ evaluate natives n m = .ok () m' := by
  unfold after?
  cases evaluate natives n m <;> simp

/-- The first machine after `m` that has at most `h` items on control, if a number of steps leads
there. -/
def until? (natives : Natives) (h : Nat) : Nat → Machine → Option Machine
  | 0, _ => none
  | n + 1, m =>
    if m.isFinished then none
    else match m.after? natives 1 with
      | some m₁ => if m₁.height ≤ h then some m₁ else until? natives h n m₁
      | none => none

theorem until_of_until? {h n : Nat} (hu : until? natives h n m = some m') : Until natives h m m' := by
  induction n generalizing m with
  | zero => cases hu
  | succ n ih =>
    rw [until?] at hu
    split at hu
    · cases hu
    · rename_i hrunning
      split at hu
      · rename_i m₁ hstep
        have hnext : Next natives m m₁ := ⟨by simpa using hrunning, after?_eq_some.mp hstep⟩
        split at hu
        · rename_i hheight
          cases hu
          exact .last hnext hheight
        · rename_i hheight
          exact .next hnext (Nat.lt_of_not_le hheight) (ih hu)
      · cases hu

/-- The machine that a number of steps of a source lead to without natives, if the source can be read and
none of the steps is faulty. -/
def sample? (source : String) (n : Nat) : Option Machine :=
  match Program.parse source with
  | .ok p => (initial.loadProgram p).after? Natives.empty n
  | .error _ => none

theorem sample?_eq_parseDecoded? (source : String) (n : Nat) : sample? source n =
    (Grammar.parseDecoded? .compilationUnit source).bind (fun t => (Program.ofTree t).toOption.bind (fun p =>
      (initial.loadProgram p).after? Natives.empty n)) := by
  unfold sample?
  rw [Program.parse_eq_parseDecoded?]
  cases Grammar.parseDecoded? .compilationUnit source with
  | none => rfl
  | some t =>
    dsimp only [Option.bind_some]
    cases Program.ofTree t <;> rfl

/-- The variable on top of the stash. -/
def foundVar? (m : Machine) : Option VarId :=
  match m.registers.stash.head? with
  | some (.var id) => some id
  | _ => none

theorem foundVar?_eq_some {id : VarId} :
    m.foundVar? = some id ↔ m.registers.stash.head? = some (.var id) := by
  unfold foundVar?
  split <;> simp_all

/-- The type on top of the stash. -/
def foundType? (m : Machine) : Option TypeName :=
  match m.registers.stash.head? with
  | some (.type t) => some t
  | _ => none

theorem foundType?_eq_some {t : TypeName} :
    m.foundType? = some t ↔ m.registers.stash.head? = some (.type t) := by
  unfold foundType?
  split <;> simp_all

theorem exists_of_sample? {source : String} {n : Nat} (h : sample? source n = some m) :
    ∃ p, Program.parse source = .ok p ∧ Reached Natives.empty p m := by
  unfold sample? at h
  split at h
  · rename_i p hp
    exact ⟨p, hp, n, after?_eq_some.mp h⟩
  · cases h

namespace Reached

variable {p : Program}

theorem start : Reached natives p (initial.loadProgram p) := ⟨0, rfl⟩

theorem next (hm : Reached natives p m) (h : Next natives m m') : Reached natives p m' := by
  obtain ⟨n, hn⟩ := hm
  refine ⟨n + 1, ?_⟩
  rw [evaluate_add, hn]
  exact h.2

theorem trans (hm : Reached natives p m) {n : Nat} (h : evaluate natives n m = .ok () m') :
    Reached natives p m' :=
  evaluate_induction (P := Reached natives p) h hm (fun _ _ _ _ hm₁ hnext => hm₁.next hnext)

/-- What holds at the start of a run and is kept by every step of it holds of every machine that the
run comes to. -/
theorem induction {P : Machine → Prop} (hm : Reached natives p m)
    (hstart : P (initial.loadProgram p))
    (hnext : ∀ m₁ m₂, Reached natives p m₁ → P m₁ → Next natives m₁ m₂ → P m₂) : P m := by
  obtain ⟨n, h⟩ := hm
  exact evaluate_induction h hstart (fun k m₁ m₂ hk => hnext m₁ m₂ ⟨k, hk⟩)

end Reached

end Machine
end StashMachine
