import StashMachine.Proofs.Elaborated
import StashMachine.Proofs.Parts

/-!
# StashMachine.Proofs.Headers — what stands in the headers of loops

In a source the header of a `for` holds expressions and declarations, and neither elaboration nor a run changes that.

* `Stmt.inherited_headed`: so it is in all statements that are read, at any depth.
* `Goes.mem_parts`: the statements that wait after a step waited before, or the step has split a declaration or
  entered a body.
* `headed_of_waits`: so it is in all statements that wait on control.
-/

namespace StashMachine

open Step Machine

/-! ### Statements -/

namespace Stmt

variable {onExpr : Expr → Expr} {onLeaf : Stmt → Stmt} {s : Stmt}

theorem isHeader_mapParts (h : s.isHeader = true) : (mapParts onExpr onLeaf s).isHeader = true := by
  cases s <;> first | rfl | cases h

theorem all_isHeader_mapAll {ss : List Stmt} (h : ss.all isHeader = true) :
    (mapAll onExpr onLeaf ss).all isHeader = true := by
  induction ss with
  | nil => rfl
  | cons s ss ih =>
    rw [List.all_cons, Bool.and_eq_true] at h
    rw [mapAll, List.all_cons, Bool.and_eq_true]
    exact ⟨isHeader_mapParts h.1, ih h.2⟩

/-- Rebuilding a statement keeps its header. -/
theorem isHeaded_mapParts (hleaf : ∀ s, s.isHeaded = true → (onLeaf s).isHeaded = true) (h : s.isHeaded = true) :
    (mapParts onExpr onLeaf s).isHeaded = true := by
  cases s with
  | forLoop init c update body =>
    simp only [isHeaded, List.all_append, Bool.and_eq_true] at h
    simp only [mapParts, isHeaded, List.all_append, Bool.and_eq_true]
    exact ⟨all_isHeader_mapAll h.1, all_isHeader_mapAll h.2⟩
  | ret e =>
    cases e with
    | none => exact hleaf _ rfl
    | some e => rfl
  | breakOut => exact hleaf _ rfl
  | continueLoop => exact hleaf _ rfl
  | empty => exact hleaf _ rfl
  | _ => rfl

/-- Every `for` that is read from a source has a header of expressions and declarations, and keeps it. -/
theorem inherited_headed : Inherited (fun s => ∀ t ∈ s.parts, t.isHeaded = true) where
  toHereditary := hereditary_parts (fun _ h _ => h)
  construct _ _ := List.forall_mem_singleton.mpr rfl
  qualify q h := by
    rw [parts_qualify]
    refine List.forall_mem_map.mpr (fun t ht => ?_)
    exact isHeaded_mapParts (fun _ hs => hs) (h t ht)
  returnThis h := by
    rw [parts_returnThis]
    refine List.forall_mem_map.mpr (fun t ht => isHeaded_mapParts (fun s hs => ?_) (h t ht))
    unfold retThisLeaf
    split
    · rfl
    · exact hs

end Stmt

/-! ### Control -/

section Control

variable {r r' : Registers} {i : Item} {c c' : List Item} {t : Stmt}

theorem partsOf_addReceiver? {n : Nat} (h : addReceiver? n c = some c') : partsOf c' = partsOf c := by
  fun_induction addReceiver? n c generalizing c' with
  | case1 n rest =>
    cases h
    simp [Item.parts]
  | case2 depth item rest ih =>
    obtain ⟨rest', hrest, rfl⟩ := Option.map_eq_some_iff.mp h
    simp [ih hrest]
  | case3 => cases h

/-- The statements that wait after a step waited before, or the step has split a declaration or entered a body. -/
theorem Goes.mem_parts (h : Goes r i r') (ht : t ∈ partsOf r'.control) :
    t ∈ partsOf (i :: r.control) ∨ (∃ type vars, t = .declare type vars) ∨
      ∃ k object body, Calls r i k object ∧ k.callable.body? = some body ∧ t ∈ (Stmt.block body).parts := by
  rw [partsOf_cons, List.mem_append]
  rcases h with ⟨hagenda, hcontrol, -⟩ | ⟨rfl, hunwind, -⟩ | ⟨rfl, hsimple, hadd, hcontrol, -⟩
  · rw [hcontrol, partsOf_append, List.mem_append] at ht
    rcases ht with ht | ht
    · exact (hagenda.mem_parts ht).imp .inl id
    · exact .inl (.inr ht)
  · obtain ⟨front, hfront, -⟩ := exists_of_unwind_eq_ok hunwind
    refine .inl (.inr ?_)
    rw [hfront]
    simp [ht]
  · rw [hcontrol, partsOf_append, partsOf_simple hsimple, partsOf_addReceiver? hadd] at ht
    exact .inl (.inr ht)

end Control

section Runs

variable {source : String} {p : Program} {m : Machine}

/-- Wherever the run of a program that is read from a source stands, the statements that wait have such headers. -/
theorem headed_of_waits (hparse : Program.parse source = .ok p) (hm : Reached Natives.empty p m) :
    ∀ t ∈ partsOf m.registers.control, t.isHeaded = true := by
  refine hm.induction (P := fun m => ∀ t ∈ partsOf m.registers.control, t.isHeaded = true) (fun t ht => ?_)
    (fun m m₁ hm ih hnext t ht => ?_)
  · simp [loadProgram, Machine.initial, Registers.initial, Item.parts] at ht
  · obtain ⟨i, c, hc, -⟩ := next_iff.mp hnext
    rw [hc] at ih
    by_cases hi : i.isStep = true
    · rcases (hnext.proceeds hc hi).goes.mem_parts ht with ht | ⟨_, _, rfl⟩ | ⟨k, object, body, hcalls, hbody, ht⟩
      · exact ih t ht
      · rfl
      · refine Stmt.inherited_headed.block (fun s hs => ?_) t ht
        exact forall_of_calls Stmt.inherited_headed hparse hm hcalls hbody s hs
    · obtain ⟨new, hcontrol, hnew⟩ := hnext.declares hc (by simpa using hi)
      have hnone : partsOf new = [] := by
        refine partsOf_eq_nil (fun j hj => ?_)
        have houtline := List.all_eq_true.mp hnew j hj
        cases j <;> first | simp only [Item.parts]; done | cases houtline
      rw [hcontrol, partsOf_append, hnone] at ht
      exact ih t (by simpa using .inr ht)

end Runs

end StashMachine
