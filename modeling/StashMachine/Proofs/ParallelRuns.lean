import StashMachine.Proofs.ParallelFrames

/-!
# StashMachine.Proofs.ParallelRuns — two whole runs at once

* `superclassesFirst_alike`: programs that differ in the name of a parameter are elaborated in the same order.
* `perform_onward`: whatever item is next, both runs perform it and come to registers that are alike, or both stop
  with faults that are alike.
* `evaluate_alike`: the same for any number of steps.
-/

namespace StashMachine

open Environment Step

variable {x y : String} {marks : List Bool} {b : Bool}

/-! ### The order of elaboration -/

section Order

variable {α β : Type} {R : α → β → Prop}

theorem rel_getElem? {l : List α} {l' : List β} (h : List.Forall₂ R l l') (i : Nat) : Option.Rel R l[i]? l'[i]? := by
  induction h generalizing i with
  | nil => exact .none
  | cons ha _ ih =>
    cases i with
    | zero => exact .some ha
    | succ i => simpa using ih i

theorem rel_find? {p : α → Bool} {q : β → Bool} (hpq : ∀ a b, R a b → q b = p a) {l : List α} {l' : List β}
    (h : List.Forall₂ R l l') : Option.Rel R (l.find? p) (l'.find? q) := by
  induction h with
  | nil => exact .none
  | @cons a a' _ _ ha _ ih =>
    rw [List.find?_cons, List.find?_cons, hpq a a' ha]
    split
    · exact .some ha
    · exact ih

theorem rel_zipIdx {l : List α} {l' : List β} (h : List.Forall₂ R l l') (k : Nat) :
    List.Forall₂ (fun a b => R a.1 b.1 ∧ b.2 = a.2) (l.zipIdx k) (l'.zipIdx k) := by
  induction h generalizing k with
  | nil => exact .nil
  | cons ha _ ih => exact .cons ⟨ha, rfl⟩ (ih (k + 1))

variable {p p' : Program}

theorem indexOf?_eq (h : List.Forall₂ (ClassDecl.Alike x y) p p') (n : String) : p'.indexOf? n = p.indexOf? n := by
  have hfind := rel_find? (p := fun c => c.1.name == n) (q := fun c => c.1.name == n)
    (fun a b hab => by rw [hab.1.name]) (List.rel_reverse (rel_zipIdx h 0))
  unfold Program.indexOf?
  generalize p.zipIdx.reverse.find? _ = found at hfind ⊢
  generalize p'.zipIdx.reverse.find? _ = found' at hfind ⊢
  cases hfind with
  | none => rfl
  | some hc => exact congrArg some hc.2

theorem superIndex?_eq (h : List.Forall₂ (ClassDecl.Alike x y) p p') (i : Nat) : p'.superIndex? i = p.superIndex? i := by
  have hclass := rel_getElem? h i
  unfold Program.superIndex?
  generalize p[i]? = c at hclass ⊢
  generalize p'[i]? = c' at hclass ⊢
  cases hclass with
  | none => rfl
  | @some c c' hc =>
    simp only [Option.bind_eq_bind, Option.bind_some, hc.superclass]
    exact congrArg (Option.bind c.superclass) (funext (indexOf?_eq h))

theorem climb_eq (h : List.Forall₂ (ClassDecl.Alike x y) p p') (placed : List Nat) (room : Nat) (chain : List Nat)
    (i : Option Nat) : p'.climb placed room chain i = p.climb placed room chain i := by
  induction room generalizing chain i with
  | zero => rfl
  | succ room ih =>
    cases i with
    | none => rfl
    | some i =>
      have hname : p'[i]?.map ClassDecl.name = p[i]?.map ClassDecl.name := by
        have hclass := rel_getElem? h i
        generalize p[i]? = c at hclass ⊢
        generalize p'[i]? = c' at hclass ⊢
        cases hclass with
        | none => rfl
        | some hc => exact congrArg some hc.name
      rw [Program.climb, Program.climb, hname, superIndex?_eq h, ih]

theorem place_eq (h : List.Forall₂ (ClassDecl.Alike x y) p p') (placed is : List Nat) :
    p'.place placed is = p.place placed is := by
  induction is generalizing placed with
  | nil => rfl
  | cons i is ih =>
    rw [Program.place, Program.place, ← h.length_eq, climb_eq h]
    split
    · exact ih _
    · rfl

/-- Both programs are elaborated in the same order. -/
theorem superclassesFirst_alike (h : List.Forall₂ (ClassDecl.Alike x y) p p') :
    Agree x y (List.Forall₂ (ClassDecl.Alike x y)) p.superclassesFirst p'.superclassesFirst := by
  unfold Program.superclassesFirst
  rw [← h.length_eq, place_eq h]
  split
  · refine List.rel_filterMap (R := Eq) ?_ (List.forall₂_same.mpr (fun _ _ => rfl))
    rintro i _ rfl
    exact rel_getElem? h i
  · exact .same _

end Order

/-! ### Steps -/

section Steps

variable {r r' : Registers} {p p' : Program}

theorem ClassDecl.Alike.refl (d : ClassDecl) : d.Alike x y d :=
  ⟨rfl, rfl, rfl, rfl, fun _ => List.forall₂_same.mpr (fun _ _ => .refl x y _)⟩

theorem Follows.classes {c c' : List Item} (h : Follows x y marks false c c') {ds ds' : Program}
    (hds : List.Forall₂ (ClassDecl.Alike x y) ds ds') :
    Follows x y marks false (ds.map .classDecl ++ c) (ds'.map .classDecl ++ c') := by
  induction hds with
  | nil => exact h
  | cons hd _ ih => exact .classDecl hd ih

theorem parallel_start (hp : List.Forall₂ (ClassDecl.Alike x y) p p') :
    Parallel x y marks false (fun _ _ => True) (start p) (start p') := by
  have hmain := rel_find? (p := ClassDecl.declaresMain) (q := ClassDecl.declaresMain)
    (fun d d' hd => by rw [ClassDecl.declaresMain, ClassDecl.declaresMain, hd.methods]) hp
  have hroot : p'.any (fun c => c.name == rootName) = p.any (fun c => c.name == rootName) := by
    clear hmain
    induction hp with
    | nil => rfl
    | cons hd _ ih => rw [List.any_cons, List.any_cons, hd.name, ih]
  unfold start
  generalize p.find? _ = main at hmain ⊢
  generalize p'.find? _ = main' at hmain ⊢
  cases hmain with
  | none => exact parallel_throw (.same _)
  | @some main main' hmain =>
    refine (parallel_ofExcept (superclassesFirst_alike hp)).bind (fun ds ds' hds => ?_)
    simp only [hroot, hmain.name]
    refine parallel_schedule (fun c c' h => ?_)
    have hcall : Follows x y marks false (.expr (.mainCall main.name) :: c) (.expr (.mainCall main.name) :: c') := by
      simpa [Item.rename, oldName, newName] using
        Follows.code (x := x) (y := y) (b := false) (i := .expr (.mainCall main.name)) rfl h
    have hsame : ∀ root : Program, List.Forall₂ (ClassDecl.Alike x y) root root :=
      fun _ => List.forall₂_same.mpr (fun d _ => .refl d)
    have hclasses := hcall.classes
      (List.rel_append (hsame (if p.any (fun c => c.name == rootName) then [] else [.root])) hds)
    simpa using hclasses

/-- Items of code in the frame that they belong to. -/
theorem plain_onward (hxy : Ordinary x y) {i : Item} (hi : i.isPlain = true) (hr : r.Alike x y marks b r') :
    Onward x y (perform Natives.empty (i.rename (oldName x y b))) (perform Natives.empty (i.rename (newName x y b)))
      r r' := by
  cases i with
  | program | classDecl | method | constructor | restore | marker | switch | branch => cases hi
  | field f => exact (parallel_declareStatic f).onward hr
  | stmt s =>
    cases hs : s.opens with
    | false => exact (parallel_execute hxy hs).onward hr
    | true =>
      cases s with
      | block body => exact block_onward hr body
      | forLoop init e update body => exact forLoop_onward hr init e update body
      | _ => cases hs
  | expr e => exact (parallel_evaluate e).onward hr
  | assign => exact parallel_assign.onward hr
  | compoundAssign op => exact (parallel_compoundAssign op).onward hr
  | increment op fix => exact (parallel_increment op fix).onward hr
  | load => exact parallel_load.onward hr
  | binary op => exact (parallel_binary op).onward hr
  | unary op => exact (parallel_unary op).onward hr
  | pop => exact (parallel_pop.bind (fun _ _ _ => parallel_pure trivial)).onward hr
  | find p => exact (parallel_find p).onward hr
  | deref => exact parallel_deref.onward hr
  | select n => exact (parallel_select n).onward hr
  | arrayOf t n => exact (parallel_arrayOf t n).onward hr
  | reset j => exact (parallel_reset j).onward hr
  | whileRound e body => exact (parallel_whileRound e body).onward hr
  | forRound e update body => exact (parallel_forRound e update body).onward hr
  | typeOf e => exact (parallel_typeOf e).onward hr
  | typeOfField n => exact (parallel_typeOfField n).onward hr
  | overload m n q => exact (parallel_overload hxy m n q).onward hr
  | override => exact parallel_override.onward hr
  | overloadConstructor c n => exact (parallel_overloadConstructor c n).onward hr
  | new n => exact new_onward hr n
  | invoke n => exact invoke_onward hxy hr n

/-- Both runs perform their next item. -/
theorem perform_onward (hxy : Ordinary x y) {i i' : Item} {c c' : List Item} (hc : Follows x y marks b (i :: c) (i' :: c'))
    {s s' : List StashItem} (hs : List.Forall₂ (StashItem.Alike x y marks) s s') {env env' : Environment}
    (henv : Paired x y marks b env env') (output : List String) :
    Onward x y (perform Natives.empty i) (perform Natives.empty i') ⟨c, s, env, output⟩ ⟨c', s', env', output⟩ := by
  have hr : ∀ {b}, Follows x y marks b c c' → Paired x y marks b env env' →
      Registers.Alike x y marks b ⟨c, s, env, output⟩ ⟨c', s', env', output⟩ := fun hc henv => ⟨henv, hs, hc, rfl⟩
  cases hc with
  | code hi hc => exact plain_onward hxy hi (hr hc henv)
  | branch hf hb hc => exact (parallel_branch hf hb).onward (hr hc henv)
  | @restore _ b' f _ _ hf hc =>
    exact ⟨marks, b', ⟨henv.alike.restore f, henv.sheltered.keep (fun _ => rfl) (fun _ hx => hx), hf⟩, hs, hc, rfl⟩
  | marker hc => exact ⟨marks, b, hr (hc b) henv⟩
  | switch hc => exact switch_onward (hr (hc b) henv) _
  | @callable k k' _ _ hk hc =>
    have hbind := (parallel_bindCallable hk).onward (hr hc henv)
    cases k <;> cases k' <;> exact hbind
  | classDecl hd hc => exact classDecl_onward (hr hc henv) hd
  | program hp hc => exact (parallel_start hp).onward (hr hc henv)

/-- Two runs of any length: both go on with machines that are alike, or both stop with faults that are alike. -/
theorem evaluate_alike (hxy : Ordinary x y) (n : Nat) {m m' : Machine}
    (h : ∃ marks b, m.registers.Alike x y marks b m'.registers) (hsteps : m'.steps = m.steps) :
    (∃ m₁ m₁', Machine.evaluate Natives.empty n m = .ok () m₁ ∧ Machine.evaluate Natives.empty n m' = .ok () m₁' ∧
      m₁'.steps = m₁.steps ∧ ∃ marks b, m₁.registers.Alike x y marks b m₁'.registers) ∨
    ∃ e e' m₁ m₁', Machine.evaluate Natives.empty n m = .error e m₁ ∧
      Machine.evaluate Natives.empty n m' = .error e' m₁' ∧ m₁'.steps = m₁.steps ∧ e.Alike x y e' := by
  induction n generalizing m m' with
  | zero => exact .inl ⟨m, m', rfl, rfl, hsteps, h⟩
  | succ n ih =>
    obtain ⟨⟨c, s, env, output⟩, steps⟩ := m
    obtain ⟨⟨c', s', env', output'⟩, steps'⟩ := m'
    obtain ⟨marks, b, henv, hs, hc, houtput⟩ := h
    obtain rfl : steps' = steps := hsteps
    obtain rfl : output' = output := houtput
    cases c with
    | nil =>
      cases hc
      exact .inl ⟨_, _, rfl, rfl, rfl, marks, b, henv, hs, .nil, rfl⟩
    | cons i c =>
      obtain ⟨i', c', rfl⟩ : ∃ i' rest, c' = i' :: rest := by cases hc <;> exact ⟨_, _, rfl⟩
      have hstep := perform_onward hxy hc hs henv output'
      unfold Onward Pairs at hstep
      simp only [Machine.evaluate]
      split at hstep
      · rename_i hi hi'
        rw [hi, hi']
        exact ih hstep rfl
      · rename_i hi hi'
        rw [hi, hi']
        exact .inr ⟨_, _, _, _, rfl, rfl, rfl, hstep⟩
      · exact hstep.elim

end Steps

end StashMachine
