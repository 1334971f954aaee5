import StashMachine.Proofs.Assignability
import StashMachine.Proofs.Heap

/-!
# StashMachine.Proofs.TypeOrder — type names are partially ordered

* `Environment.assigns`: assignability between the names of types.
* `assigns_iff_of_class`: what a class can be assigned to is found in its lineage.
* `assignability_orders_types`: in whatever a run visits, assignability is a partial order.
-/

namespace StashMachine

open Environment Machine

/-- Whether a value of the type with one name can be passed where the type with another name is expected. -/
def Environment.assigns (env : Environment) (target source : String) : Bool :=
  env.assignable (TypeName.ofString target) (TypeName.ofString source)

section Names

variable {env : Environment} {a b x y : String} {c : Class}

/-- Nothing of a name is lost when it is read as a type. -/
theorem TypeName.ofString_injective (h : TypeName.ofString a = TypeName.ofString b) : a = b := by
  rw [← TypeName.text_ofString a, h, TypeName.text_ofString]

theorem assigns_iff (henv : env.Orderly) :
    env.assigns a b = true ↔ Accepts env (TypeName.ofString a) (TypeName.ofString b) := by
  refine assignable_iff henv ?_ ?_ <;> rw [TypeName.text_ofString]

/-- What a class can be assigned to, apart from the root, is found in its lineage. -/
theorem assigns_iff_of_class (henv : env.Orderly) (hc : env.findClass x = .ok c) (hy : y ≠ rootName) :
    env.assigns y x = true ↔ ∃ d ∈ c.lineage, d.name = y := by
  have hreg := henv x c hc
  rw [assigns_iff henv, hreg.word]
  constructor
  · intro h
    generalize ht : TypeName.ofString y = t at h
    generalize hs : TypeName.named x = s at h
    cases h with
    | same =>
      refine ⟨c.toClassInfo, .head _, ?_⟩
      have hxy : y = x := TypeName.ofString_injective (ht.trans (hs.symm.trans hreg.word.symm))
      rw [hreg.name, hxy]
    | widening => cases hs
    | null => cases hs
    | object =>
      refine absurd ?_ hy
      rw [← TypeName.text_ofString y, ht]
      rfl
    | @ancestor x' c' d hc' hd =>
      cases hs
      rw [hc] at hc'
      cases hc'
      refine ⟨d, hd, ?_⟩
      rw [← TypeName.text_ofString y, ht]
      rfl
  · rintro ⟨d, hd, rfl⟩
    rw [hreg.word_of_mem henv hd]
    exact .ancestor hc hd

end Names

section Visited

variable {source : String} {p : Program} {m : Machine}

/-- In whatever a run of a source without natives visits, assignability is a partial order on the names of types, and
what a class can be assigned to, apart from `Object`, are the classes of its lineage. -/
theorem assignability_orders_types (hparse : Program.parse source = .ok p) (hm : Visited Natives.empty p m) :
    (∀ a, m.registers.env.assigns a a = true) ∧
    (∀ a b c, m.registers.env.assigns a b = true → m.registers.env.assigns b c = true →
      m.registers.env.assigns a c = true) ∧
    (∀ a b, m.registers.env.assigns a b = true → m.registers.env.assigns b a = true → a = b) ∧
    ∀ x c, m.registers.env.findClass x = .ok c → ∀ y, y ≠ "Object" →
      (m.registers.env.assigns y x = true ↔ ∃ d ∈ c.lineage, d.name = y) := by
  have henv : m.registers.env.Orderly := hm.registered (Program.parse_plain hparse)
  refine ⟨fun a => ?_, fun a b c hab hbc => ?_, fun a b hab hba => ?_, fun x c hc y hy => ?_⟩
  · rw [assigns_iff henv]
    exact .same _
  · rw [assigns_iff henv] at hab hbc ⊢
    exact accepts_trans henv hab hbc
  · rw [assigns_iff henv] at hab hba
    exact TypeName.ofString_injective (accepts_antisymm henv hab hba)
  · exact assigns_iff_of_class henv hc hy

/-- A source with a class that stands before its superclass. -/
def orderSource : String :=
  "class A extends B \x7b\x7d class B \x7b\x7d class M \x7bpublic static void main(String[] a) \x7b\x7d\x7d"

/-- A class can be assigned to its superclass, which is in its lineage, but not the other way round. -/
theorem assignability_orders_types_superclass : ∃ p m c, Program.parse orderSource = .ok p ∧
    Visited Natives.empty p m ∧ m.registers.env.findClass "A" = .ok c ∧ m.registers.env.assigns "B" "A" = true ∧
    (∃ d ∈ c.lineage, d.name = "B") ∧ m.registers.env.assigns "A" "B" = false := by
  have hrun : (sample? orderSource 12).any (fun m => m.registers.env.assigns "B" "A" &&
      (m.registers.env.findClass "A").isOk) = true := by
    rw [sample?_eq_parseDecoded?]
    decide +kernel
  obtain ⟨m, hm, hrun⟩ := (Option.any_eq_true _ _).mp hrun
  obtain ⟨p, hp, hreached⟩ := exists_of_sample? hm
  rw [Bool.and_eq_true] at hrun
  obtain ⟨-, -, hantisymm, hclasses⟩ := assignability_orders_types hp (.inl hreached)
  cases hc : m.registers.env.findClass "A" with
  | error e => simp [hc, Except.isOk, Except.toBool] at hrun
  | ok c =>
    refine ⟨p, m, c, hp, .inl hreached, hc, hrun.1, (hclasses "A" c hc "B" (by decide)).mp hrun.1, ?_⟩
    by_contra hback
    have hsame := hantisymm "A" "B" (by simpa using hback) hrun.1
    exact absurd hsame (by decide)

end Visited

end StashMachine
