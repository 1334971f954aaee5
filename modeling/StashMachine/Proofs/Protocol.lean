import StashMachine.Proofs.Parsed
import StashMachine.Proofs.Phases

/-!
# StashMachine.Proofs.Protocol — which defects a run can stop with

A defect tells that control and stash do not fit.  `defect_of_run` lists the defects that the run of a
source without natives can stop with.  In three of them the program is to blame.  The fourth one comes
from an assignment to `super`, whose value a method is then invoked on.
-/

namespace StashMachine

open Machine

variable {p : Program} {n : Nat} {d : Defect} {m : Machine}

/-- A value that is neither an object nor `null` was assigned to `super`, somewhere in a run. -/
def AssignedToSuper (p : Program) (w : Value) : Prop :=
  w ≠ .null ∧ (∀ c f, w ≠ .object c f) ∧ ∃ m x v, Reached Natives.empty p m ∧
    m.registers.env.var? x = some v ∧ v.name = superName ∧ v.value = some w

/-- The regime in which receivers come from assignments to `super`. -/
def Regime.blaming (p : Program) : Regime where
  careful := True
  odd w := ∃ m x v, Reached Natives.empty p m ∧ m.registers.env.var? x = some v ∧ v.name = superName ∧
    v.value = some w
  origin _ := True

/-- A run of a source stops with a defect only in four ways: a class is named where a value should be, a
static field is read before it is declared, an object lacks the field that is read, or a method is invoked
on a value that is neither an object nor `null` and that was assigned to `super`. -/
theorem defect_of_run {source : String} (hparse : Program.parse source = .ok p)
    (h : evaluate Natives.empty n (initial.loadProgram p) = .error (.internal d) m) :
    (∃ c, d = .expected .value ("class " ++ c)) ∨ (∃ c x, d = .unboundField c x) ∨
    (∃ o x, d = .lostField o x) ∨
    ∃ method w, d = .receiver method ("Some(" ++ w.term ++ ")") ∧ AssignedToSuper p w := by
  have hp := Program.parse_plain hparse
  obtain ⟨k, m₁, hk, hlast⟩ := exists_of_evaluate_error h
  have hm₁ : Reached Natives.empty p m₁ := ⟨k, hk⟩
  have hknows : ∀ m, Reached Natives.empty p m → (Regime.blaming p).Knows m.registers.env :=
    fun m hm _ x v w hx hname hvalue => ⟨m, x, v, hm, hx, hname, hvalue⟩
  have hphase : Phase (.blaming p) p m₁.registers :=
    .reached Natives.neutral_empty (fun _ => rfl) (fun _ => hp) hknows (fun _ => trivial) hm₁
  obtain ⟨i, c, hc, hperform⟩ := evaluate_one_error hlast
  have hfault := (phase_step Natives.neutral_empty (fun _ => rfl) (hknows m₁ hm₁)
    (fun _ _ => trivial) (fun _ => hp) (hc ▸ hphase)).of_error hperform
  rcases hfault with hblames | ⟨j, rest, -, he, -⟩
  · rcases hblames trivial with hordinary | ⟨d', hd', hpermits⟩
    · cases hordinary
    · cases hd'
      rcases hpermits with hclass | hunbound | hlost | ⟨method, w, hd, hodd, hnull, hobject⟩
      · exact .inl hclass
      · exact .inr (.inl hunbound)
      · exact .inr (.inr (.inl hlost))
      · exact .inr (.inr (.inr ⟨method, w, hd, hnull, hobject, hodd⟩))
  · cases he

/-- A source that assigns a number to `super` and invokes a method on it. -/
def superSource : String :=
  "class A\x7bvoid g()\x7b\x7d\x7d class M extends A\x7bM()\x7bsuper = 5; super.g();\x7d "
    ++ "public static void main(String[] a)\x7bnew M();\x7d\x7d"

/-- The method and the value of a bad receiver that a run of a source without natives stops with. -/
def badReceiver? (source : String) (n : Nat) : Option (String × String) :=
  match Program.parse source with
  | .error _ => none
  | .ok p =>
    match evaluate Natives.empty n (initial.loadProgram p) with
    | .error (.internal (.receiver method value)) _ => some (method, value)
    | _ => none

theorem badReceiver?_eq_parseDecoded? (source : String) (n : Nat) : badReceiver? source n =
    (Grammar.parseDecoded? .compilationUnit source).bind (fun t => (Program.ofTree t).toOption.bind (fun p =>
      match evaluate Natives.empty n (initial.loadProgram p) with
      | .error (.internal (.receiver method value)) _ => some (method, value)
      | _ => none)) := by
  unfold badReceiver?
  rw [Program.parse_eq_parseDecoded?]
  cases Grammar.parseDecoded? .compilationUnit source with
  | none => rfl
  | some t =>
    dsimp only [Option.bind_some]
    cases Program.ofTree t <;> rfl

theorem exists_of_badReceiver? {source method value : String} {n : Nat}
    (h : badReceiver? source n = some (method, value)) : ∃ p m, Program.parse source = .ok p ∧
      evaluate Natives.empty n (initial.loadProgram p) = .error (.internal (.receiver method value)) m := by
  unfold badReceiver? at h
  split at h
  · cases h
  · rename_i p hp
    split at h
    · rename_i method' value' m hd
      cases h
      exact ⟨p, m, hp, hd⟩
    · cases h

/-- A number is a bad receiver. -/
theorem defect_of_run_super : ∃ p n m w, Program.parse superSource = .ok p ∧
    evaluate Natives.empty n (initial.loadProgram p)
      = .error (.internal (.receiver "g()" "Some(Number(Int(5)))")) m ∧
    AssignedToSuper p w ∧ "Some(" ++ w.term ++ ")" = "Some(Number(Int(5)))" := by
  have hrun : badReceiver? superSource 100 = some ("g()", "Some(Number(Int(5)))") := by
    rw [badReceiver?_eq_parseDecoded?]
    decide +kernel
  obtain ⟨p, m, hp, hd⟩ := exists_of_badReceiver? hrun
  rcases defect_of_run hp hd with ⟨c, hc⟩ | ⟨c, x, hx⟩ | ⟨o, x, hx⟩ | ⟨method, w, hreceiver, hw⟩
  · cases hc
  · cases hx
  · cases hx
  · simp only [Defect.receiver.injEq] at hreceiver
    exact ⟨p, 100, m, w, hp, hd, hw, hreceiver.2.symm⟩

end StashMachine
