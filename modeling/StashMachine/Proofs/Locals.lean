import StashMachine.Proofs.Elaborated

/-!
# StashMachine.Proofs.Locals — the names of local variables

* `Stmt.locals`: the names that a statement declares, at any depth.  Elaboration neither adds nor drops any.
* `Agenda.mem_locals`: what a step queues declares names of what it performs, or of the body that it enters.
* `spells_of_waits`: in the run of a program that is read from a source, all statements that wait declare
  identifiers; `spells_of_block`: so the frames of blocks bind nothing else.
-/

namespace StashMachine

open Environment Step Machine Grammar

/-! ### Statements -/

namespace Stmt

mutual

/-- The names that a statement declares, at any depth. -/
def locals : Stmt → List String
  | block body => localsAll body
  | declare _ vars => vars.map Declarator.name
  | ite _ yes no => yes.locals ++ localsOption no
  | loop _ body => body.locals
  | forLoop init _ update body => localsAll init ++ localsAll update ++ body.locals
  | switch _ arms => localsArms arms
  | expr _ | ret _ | breakOut | continueLoop | empty | construct .. => []

/-- The names that several statements declare. -/
def localsAll : List Stmt → List String
  | [] => []
  | s :: ss => s.locals ++ localsAll ss

/-- The names of a statement that may be missing. -/
def localsOption : Option Stmt → List String
  | none => []
  | some s => s.locals

/-- The names that the groups of a `switch` declare. -/
def localsArms : List (Arm Stmt) → List String
  | [] => []
  | ⟨_, body⟩ :: arms => localsAll body ++ localsArms arms

end

variable {x : String}

theorem mem_localsAll {ss : List Stmt} : x ∈ localsAll ss ↔ ∃ s ∈ ss, x ∈ s.locals := by
  induction ss with
  | nil => simp [localsAll]
  | cons s ss ih => simp [localsAll, ih]

theorem mem_localsOption {no : Option Stmt} : x ∈ localsOption no ↔ ∃ s ∈ no.toList, x ∈ s.locals := by
  cases no <;> simp [localsOption]

theorem mem_localsArms {arms : List (Arm Stmt)} :
    x ∈ localsArms arms ↔ ∃ arm ∈ arms, x ∈ localsAll arm.body := by
  induction arms with
  | nil => simp [localsArms]
  | cons arm arms ih =>
    obtain ⟨labels, body⟩ := arm
    simp [localsArms, ih]

/-! Changing expressions and leaves changes no name. -/

section MapParts

variable {onExpr : Expr → Expr} {onLeaf : Stmt → Stmt}

mutual

theorem locals_mapParts (h : ∀ s, s.locals = [] → (onLeaf s).locals = []) :
    ∀ s, (mapParts onExpr onLeaf s).locals = s.locals
  | block body => by simp only [mapParts, locals, localsAll_mapAll h body]
  | declare t vars => by simp [mapParts, locals, Declarator.mapInit]
  | ite c yes no => by simp only [mapParts, locals, locals_mapParts h yes, localsOption_mapOption h no]
  | loop c body => by simp only [mapParts, locals, locals_mapParts h body]
  | forLoop init c update body => by
    simp only [mapParts, locals, localsAll_mapAll h init, localsAll_mapAll h update, locals_mapParts h body]
  | switch e arms => by simp only [mapParts, locals, localsArms_mapArms h arms]
  | construct who args => by simp only [mapParts, locals]
  | expr e => by simp only [mapParts, locals]
  | ret (some e) => by simp only [mapParts, locals]
  | ret none => by simp only [mapParts, h (ret none) rfl, locals]
  | breakOut => by simp only [mapParts, h breakOut rfl, locals]
  | continueLoop => by simp only [mapParts, h continueLoop rfl, locals]
  | empty => by simp only [mapParts, h empty rfl, locals]

theorem localsAll_mapAll (h : ∀ s, s.locals = [] → (onLeaf s).locals = []) :
    ∀ ss, localsAll (mapAll onExpr onLeaf ss) = localsAll ss
  | [] => rfl
  | s :: ss => by simp only [mapAll, localsAll, locals_mapParts h s, localsAll_mapAll h ss]

theorem localsOption_mapOption (h : ∀ s, s.locals = [] → (onLeaf s).locals = []) :
    ∀ s, localsOption (mapOption onExpr onLeaf s) = localsOption s
  | none => rfl
  | some s => by simp only [mapOption, localsOption, locals_mapParts h s]

theorem localsArms_mapArms (h : ∀ s, s.locals = [] → (onLeaf s).locals = []) :
    ∀ arms, localsArms (mapArms onExpr onLeaf arms) = localsArms arms
  | [] => rfl
  | ⟨_, body⟩ :: arms => by
    simp only [mapArms, localsArms, localsAll_mapAll h body, localsArms_mapArms h arms]

end

end MapParts

@[simp] theorem locals_qualify (q : Path) (s : Stmt) : (s.qualify q).locals = s.locals :=
  locals_mapParts (fun _ hs => hs) s

@[simp] theorem locals_returnThis (s : Stmt) : s.returnThis.locals = s.locals := by
  refine locals_mapParts (fun s hs => ?_) s
  unfold retThisLeaf
  split
  · rfl
  · exact hs

/-- Statements that are read from a source declare identifiers, and elaboration declares nothing. -/
theorem inherited_locals : Inherited (fun s => ∀ x ∈ s.locals, Rule.identifier.Spells x.toList) where
  block h x hx := by
    obtain ⟨s, hs, hx⟩ := mem_localsAll.mp hx
    exact h s hs x hx
  declare _ _ h x hx := by
    obtain ⟨d, hd, rfl⟩ := List.mem_map.mp hx
    exact h d hd
  expr _ := nofun
  ret _ := nofun
  ite _ yes no hyes hno x hx := by
    rcases List.mem_append.mp hx with hx | hx
    · exact hyes x hx
    · obtain ⟨s, hs, hx⟩ := mem_localsOption.mp hx
      exact hno s (Option.mem_toList.mp hs) x hx
  loop _ _ h := h
  forLoop _ _ _ _ hinit hupdate hbody x hx := by
    rcases List.mem_append.mp hx with hx | hx
    · rcases List.mem_append.mp hx with hx | hx
      · obtain ⟨s, hs, hx⟩ := mem_localsAll.mp hx
        exact hinit s hs x hx
      · obtain ⟨s, hs, hx⟩ := mem_localsAll.mp hx
        exact hupdate s hs x hx
    · exact hbody x hx
  switch _ _ h x hx := by
    obtain ⟨arm, harm, hx⟩ := mem_localsArms.mp hx
    obtain ⟨s, hs, hx⟩ := mem_localsAll.mp hx
    exact h arm harm s hs x hx
  breakOut := nofun
  continueLoop := nofun
  empty := nofun
  construct _ _ := nofun
  qualify q h := by rwa [locals_qualify]
  returnThis h := by rwa [locals_returnThis]

end Stmt

/-! ### Callables -/

/-- The names that the body of a callable declares. -/
def Callable.locals (k : Callable) : List String := Stmt.localsAll (k.body?.getD [])

theorem Callable.mem_locals {k : Callable} {x : String} (hx : x ∈ k.locals) :
    ∃ body, k.body? = some body ∧ ∃ s ∈ body, x ∈ s.locals := by
  obtain ⟨s, hs, hx⟩ := Stmt.mem_localsAll.mp hx
  cases hbody : k.body? with
  | none => simp [hbody] at hs
  | some body => exact ⟨body, rfl, s, by simpa [hbody] using hs, hx⟩

/-! ### Control -/

mutual

/-- The names that the statements of an item declare. -/
def Item.locals : Item → List String
  | .stmt s => s.locals
  | .whileRound _ body => body.locals
  | .forRound _ update body => Stmt.localsAll update ++ body.locals
  | .switch arms => Stmt.localsArms arms
  | .branch yes no => localsOf yes ++ localsOf no
  | _ => []

/-- The names that the statements of several items declare. -/
def localsOf : List Item → List String
  | [] => []
  | i :: c => i.locals ++ localsOf c

end

section Control

variable {r r' : Registers} {i : Item} {new c c' : List Item} {f : FrameId} {x : String}

@[simp] theorem localsOf_nil : localsOf [] = [] := by rw [localsOf]

@[simp] theorem localsOf_cons (i : Item) (c : List Item) : localsOf (i :: c) = i.locals ++ localsOf c := by
  rw [localsOf]

@[simp] theorem localsOf_append (c c' : List Item) : localsOf (c ++ c') = localsOf c ++ localsOf c' := by
  induction c with
  | nil => simp
  | cons i c ih => simp [ih]

@[simp] theorem localsOf_stmts (ss : List Stmt) : localsOf (ss.map .stmt) = Stmt.localsAll ss := by
  induction ss with
  | nil => simp [Stmt.localsAll]
  | cons s ss ih => simp [Item.locals, Stmt.localsAll, ih]

theorem localsOf_declarators (t : TypeName) (vars : List Declarator) :
    localsOf (vars.map (fun d => .stmt (.declare t [d]))) = vars.map Declarator.name := by
  induction vars with
  | nil => simp
  | cons d vars ih => simp [Item.locals, Stmt.locals, ih]

theorem localsOf_eq_nil (h : ∀ i ∈ c, i.locals = []) : localsOf c = [] := by
  induction c with
  | nil => exact localsOf_nil
  | cons i c ih => rw [localsOf_cons, h i (.head _), ih (fun j hj => h j (.tail _ hj)), List.append_nil]

theorem localsOf_simple (h : new.all Item.isSimple = true) : localsOf new = [] := by
  refine localsOf_eq_nil (fun i hi => ?_)
  have hsimple := List.all_eq_true.mp h i hi
  cases i <;> first | simp only [Item.locals]; done | cases hsimple

/-- What a step queues declares names of what it performs, or of the body that it enters. -/
theorem Agenda.mem_locals (h : Agenda r i new f) (hx : x ∈ localsOf new) :
    x ∈ i.locals ∨ ∃ k object, Calls r i k object ∧ x ∈ k.callable.locals := by
  cases h with
  | simple _ hsimple =>
    rw [localsOf_simple hsimple] at hx
    cases hx
  | call hcalls hbody =>
    refine .inr ⟨_, _, hcalls, ?_⟩
    simpa [Callable.locals, hbody, Item.locals, Stmt.locals] using hx
  | fields fd =>
    rw [localsOf_eq_nil (by simp [Item.locals])] at hx
    cases hx
  | locals t vars =>
    rw [localsOf_declarators] at hx
    exact .inl hx
  | arms hchosen =>
    obtain ⟨s, hs, hx⟩ := Stmt.mem_localsAll.mp (localsOf_stmts _ ▸ hx)
    obtain ⟨arm, harm, hs⟩ := List.mem_flatMap.mp hs
    refine .inl (Stmt.mem_localsArms.mpr ⟨arm, hchosen arm harm, ?_⟩)
    exact Stmt.mem_localsAll.mpr ⟨s, hs, hx⟩
  | ite c yes no =>
    have hno : localsOf (no.toList.map .stmt) = Stmt.localsOption no := by
      cases no <;> simp [Stmt.localsOption, Item.locals]
    exact .inl (by simpa [Item.locals, Stmt.locals, hno] using hx)
  | forRound c update body =>
    -- the body and the updates, and once more for the next round
    have hround : x ∈ body.locals ∨ x ∈ Stmt.localsAll update ∨ x ∈ body.locals := by
      simpa [Item.locals] using hx
    refine .inl ?_
    rw [Item.locals, List.mem_append]
    exact hround.elim .inr id
  | _ => exact .inl (by simp_all [Item.locals, Stmt.locals])

theorem localsOf_addReceiver? {n : Nat} (h : addReceiver? n c = some c') : localsOf c' = localsOf c := by
  fun_induction addReceiver? n c generalizing c' with
  | case1 n rest =>
    cases h
    simp [Item.locals]
  | case2 depth item rest ih =>
    obtain ⟨rest', hrest, rfl⟩ := Option.map_eq_some_iff.mp h
    simp [ih hrest]
  | case3 => cases h

theorem mem_localsOf_of_unwind {j : Jump} (h : unwind j c = .ok c') (hx : x ∈ localsOf c') :
    x ∈ localsOf c := by
  obtain ⟨front, rfl, -⟩ := exists_of_unwind_eq_ok h
  simp [hx]

/-- The names that wait after a step waited before, or the step has entered the body that declares them. -/
theorem Goes.mem_locals (h : Goes r i r') (hx : x ∈ localsOf r'.control) :
    x ∈ localsOf (i :: r.control) ∨ ∃ k object, Calls r i k object ∧ x ∈ k.callable.locals := by
  rw [localsOf_cons, List.mem_append]
  rcases h with ⟨hagenda, hcontrol, -⟩ | ⟨rfl, hunwind, -⟩ | ⟨rfl, hsimple, hadd, hcontrol, -⟩
  · rw [hcontrol, localsOf_append, List.mem_append] at hx
    rcases hx with hx | hx
    · exact (hagenda.mem_locals hx).imp .inl id
    · exact .inl (.inr hx)
  · exact .inl (.inr (mem_localsOf_of_unwind hunwind hx))
  · rw [hcontrol, localsOf_append, localsOf_simple hsimple, localsOf_addReceiver? hadd] at hx
    exact .inl (.inr hx)

end Control

/-! ### Runs -/

section Runs

variable {source x : String} {p : Program} {m : Machine} {f : FrameId}

/-- The bodies that are entered declare identifiers. -/
theorem spells_of_calls (hparse : Program.parse source = .ok p) (hm : Reached Natives.empty p m) {i : Item}
    {c : List Item} {k : Closure} {object : Option (Class × FrameId)}
    (hcalls : Calls { m.registers with control := c } i k object) (hx : x ∈ k.callable.locals) :
    Rule.identifier.Spells x.toList := by
  obtain ⟨body, hbody, s, hs, hx⟩ := Callable.mem_locals hx
  exact forall_of_calls Stmt.inherited_locals hparse hm hcalls hbody s hs x hx

/-- Wherever the run of a program that is read from a source stands, the statements that wait declare
identifiers. -/
theorem spells_of_waits (hparse : Program.parse source = .ok p) (hm : Reached Natives.empty p m) :
    ∀ x ∈ localsOf m.registers.control, Rule.identifier.Spells x.toList := by
  refine hm.induction (P := fun m => ∀ x ∈ localsOf m.registers.control, Rule.identifier.Spells x.toList)
    (fun x hx => ?_) (fun m m₁ hm ih hnext x hx => ?_)
  · simp [loadProgram, Machine.initial, Registers.initial, Item.locals] at hx
  · obtain ⟨i, c, hc, hperform, -⟩ := next_iff.mp hnext
    rw [hc] at ih
    by_cases hi : i.isStep = true
    · rcases (hnext.proceeds hc hi).goes.mem_locals hx with hx | ⟨k, object, hcalls, hx⟩
      · exact ih x hx
      · exact spells_of_calls hparse hm hcalls hx
    · obtain ⟨new, hcontrol, hnew⟩ := hnext.declares hc (by simpa using hi)
      have hnone : localsOf new = [] := by
        refine localsOf_eq_nil (fun j hj => ?_)
        have houtline := List.all_eq_true.mp hnew j hj
        cases j <;> first | rfl | cases houtline
      rw [hcontrol, localsOf_append, hnone] at hx
      exact ih x (by simpa using .inr hx)

/-- The frames of blocks bind identifiers only. -/
theorem spells_of_block {id : VarId} (hparse : Program.parse source = .ok p) (hm : Reached Natives.empty p m)
    (hf : Plays p f .block) (h : m.registers.env.bound? f x = some (.var id)) :
    Rule.identifier.Spells x.toList := by
  cases place_of_variable hm h with
  | static hplays => cases hf.unique hplays
  | field hplays => cases hf.unique hplays
  | call hcall =>
    obtain ⟨k, object, hplays⟩ := hcall
    cases hf.unique hplays
  | @block m₀ t d c _ hm₀ hc hx =>
    refine spells_of_waits hparse hm₀ x ?_
    rw [hc]
    simp [Item.locals, Stmt.locals, hx]

end Runs

end StashMachine
