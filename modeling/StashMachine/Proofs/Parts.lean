import StashMachine.Proofs.Agenda
import StashMachine.Proofs.Parsed

/-!
# StashMachine.Proofs.Parts — the statements and expressions inside statements

* `Stmt.parts`: the statements in a statement, at any depth; `Stmt.ownExprs`: the expressions that a statement holds
  outside its parts.
* `Stmt.parts_mapParts`, `Stmt.ownExprs_mapParts`: rebuilding a statement rebuilds its parts one by one, and changes
  the expressions of each.
* `Item.parts`: the statements that wait in an item; `Agenda.mem_parts`: a step queues no others, apart from
  declarations that it splits and the body that it enters.
-/

namespace StashMachine

open Environment Step Machine

/-- The expression of a label. -/
def Label.value? : Label → Option Expr
  | case e => some e
  | otherwise => none

namespace Stmt

mutual

/-- The statements in a statement, at any depth and with the statement itself. -/
def parts : Stmt → List Stmt
  | block body => block body :: partsAll body
  | ite c yes no => ite c yes no :: (yes.parts ++ partsOption no)
  | loop c body => loop c body :: body.parts
  | forLoop init c update body => forLoop init c update body :: (partsAll init ++ partsAll update ++ body.parts)
  | switch e arms => switch e arms :: partsArms arms
  | declare t vars => [declare t vars]
  | expr e => [expr e]
  | ret e => [ret e]
  | breakOut => [breakOut]
  | continueLoop => [continueLoop]
  | empty => [empty]
  | construct who args => [construct who args]

/-- The statements in several statements. -/
def partsAll : List Stmt → List Stmt
  | [] => []
  | s :: ss => s.parts ++ partsAll ss

/-- The statements in one that may be missing. -/
def partsOption : Option Stmt → List Stmt
  | none => []
  | some s => s.parts

/-- The statements in the groups of a `switch`. -/
def partsArms : List (Arm Stmt) → List Stmt
  | [] => []
  | ⟨_, body⟩ :: arms => partsAll body ++ partsArms arms

end

/-- The expressions that a statement holds outside its parts. -/
def ownExprs : Stmt → List Expr
  | declare _ vars => vars.filterMap Declarator.init
  | expr e => [e]
  | ret e => e.toList
  | ite c _ _ => [c]
  | loop c _ => [c]
  | forLoop _ c _ _ => c.toList
  | switch e arms => e :: arms.flatMap (fun arm => arm.labels.filterMap Label.value?)
  | construct _ args => args
  | block _ | breakOut | continueLoop | empty => []

variable {s t : Stmt}

theorem self_mem_parts (s : Stmt) : s ∈ s.parts := by
  cases s <;> simp [parts]

theorem mem_partsAll {ss : List Stmt} : t ∈ partsAll ss ↔ ∃ s ∈ ss, t ∈ s.parts := by
  induction ss with
  | nil => simp [partsAll]
  | cons s ss ih => simp [partsAll, ih]

theorem mem_partsOption {no : Option Stmt} : t ∈ partsOption no ↔ ∃ s ∈ no.toList, t ∈ s.parts := by
  cases no <;> simp [partsOption]

theorem mem_partsArms {arms : List (Arm Stmt)} : t ∈ partsArms arms ↔ ∃ arm ∈ arms, ∃ s ∈ arm.body, t ∈ s.parts := by
  induction arms with
  | nil => simp [partsArms]
  | cons arm arms ih =>
    obtain ⟨labels, body⟩ := arm
    simp [partsArms, mem_partsAll, ih]

/-- What holds of the statements of code holds of all parts of a statement that is read. -/
theorem hereditary_parts {Q : Stmt → Prop}
    (hQ : ∀ s, s.isHeaded = true → (∀ who args, s ≠ .construct who args) → Q s) :
    Hereditary (fun s => ∀ t ∈ s.parts, Q t) where
  block h := by
    refine List.forall_mem_cons.mpr ⟨hQ _ rfl nofun, fun t ht => ?_⟩
    obtain ⟨s, hs, ht⟩ := mem_partsAll.mp ht
    exact h s hs t ht
  declare _ _ _ := List.forall_mem_singleton.mpr (hQ _ rfl nofun)
  expr _ := List.forall_mem_singleton.mpr (hQ _ rfl nofun)
  ret _ := List.forall_mem_singleton.mpr (hQ _ rfl nofun)
  ite _ yes no hyes hno := by
    refine List.forall_mem_cons.mpr ⟨hQ _ rfl nofun, List.forall_mem_append.mpr ⟨hyes, fun t ht => ?_⟩⟩
    obtain ⟨s, hs, ht⟩ := mem_partsOption.mp ht
    exact hno s (Option.mem_toList.mp hs) t ht
  loop _ _ h := List.forall_mem_cons.mpr ⟨hQ _ rfl nofun, h⟩
  forLoop _ _ _ hheaded hinit hupdate hbody := by
    have hall : ∀ {ss : List Stmt}, (∀ s ∈ ss, ∀ t ∈ s.parts, Q t) → ∀ t ∈ partsAll ss, Q t := by
      intro ss hss t ht
      obtain ⟨s, hs, ht⟩ := mem_partsAll.mp ht
      exact hss s hs t ht
    refine List.forall_mem_cons.mpr ⟨hQ _ hheaded nofun, List.forall_mem_append.mpr ⟨?_, hbody⟩⟩
    exact List.forall_mem_append.mpr ⟨hall hinit, hall hupdate⟩
  switch _ _ h := by
    refine List.forall_mem_cons.mpr ⟨hQ _ rfl nofun, fun t ht => ?_⟩
    obtain ⟨arm, harm, s, hs, ht⟩ := mem_partsArms.mp ht
    exact h arm harm s hs t ht
  breakOut := List.forall_mem_singleton.mpr (hQ _ rfl nofun)
  continueLoop := List.forall_mem_singleton.mpr (hQ _ rfl nofun)
  empty := List.forall_mem_singleton.mpr (hQ _ rfl nofun)

/-! ### Rebuilt statements -/

section MapParts

variable {onExpr onExpr' : Expr → Expr} {onLeaf : Stmt → Stmt}

mutual

theorem parts_mapParts (h : ∀ s, s.parts = [s] → (onLeaf s).parts = [onLeaf s]) :
    ∀ s, (mapParts onExpr onLeaf s).parts = s.parts.map (mapParts onExpr onLeaf)
  | block body => by simp only [mapParts, parts, partsAll_mapAll h body, List.map_cons]
  | ite c yes no => by
    simp only [mapParts, parts, parts_mapParts h yes, partsOption_mapOption h no, List.map_cons, List.map_append]
  | loop c body => by simp only [mapParts, parts, parts_mapParts h body, List.map_cons]
  | forLoop init c update body => by
    simp only [mapParts, parts, partsAll_mapAll h init, partsAll_mapAll h update, parts_mapParts h body,
      List.map_cons, List.map_append]
  | switch e arms => by simp only [mapParts, parts, partsArms_mapArms h arms, List.map_cons]
  | declare t vars => by simp only [mapParts, parts, List.map_cons, List.map_nil]
  | expr e => by simp only [mapParts, parts, List.map_cons, List.map_nil]
  | ret (some e) => by simp only [mapParts, parts, List.map_cons, List.map_nil]
  | construct who args => by simp only [mapParts, parts, List.map_cons, List.map_nil]
  | ret none => by simp only [mapParts, h (ret none) rfl, parts, List.map_cons, List.map_nil]
  | breakOut => by simp only [mapParts, h breakOut rfl, parts, List.map_cons, List.map_nil]
  | continueLoop => by simp only [mapParts, h continueLoop rfl, parts, List.map_cons, List.map_nil]
  | empty => by simp only [mapParts, h empty rfl, parts, List.map_cons, List.map_nil]

theorem partsAll_mapAll (h : ∀ s, s.parts = [s] → (onLeaf s).parts = [onLeaf s]) :
    ∀ ss, partsAll (mapAll onExpr onLeaf ss) = (partsAll ss).map (mapParts onExpr onLeaf)
  | [] => rfl
  | s :: ss => by simp only [mapAll, partsAll, parts_mapParts h s, partsAll_mapAll h ss, List.map_append]

theorem partsOption_mapOption (h : ∀ s, s.parts = [s] → (onLeaf s).parts = [onLeaf s]) :
    ∀ s, partsOption (mapOption onExpr onLeaf s) = (partsOption s).map (mapParts onExpr onLeaf)
  | none => rfl
  | some s => by simp only [mapOption, partsOption, parts_mapParts h s]

theorem partsArms_mapArms (h : ∀ s, s.parts = [s] → (onLeaf s).parts = [onLeaf s]) :
    ∀ arms, partsArms (mapArms onExpr onLeaf arms) = (partsArms arms).map (mapParts onExpr onLeaf)
  | [] => rfl
  | ⟨_, body⟩ :: arms => by
    simp only [mapArms, partsArms, partsAll_mapAll h body, partsArms_mapArms h arms, List.map_append]

end

theorem mapArms_eq_map (arms : List (Arm Stmt)) : mapArms onExpr onLeaf arms =
    arms.map (fun arm => ⟨arm.labels.map (Label.mapExpr onExpr), mapAll onExpr onLeaf arm.body⟩) := by
  induction arms with
  | nil => rfl
  | cons arm arms ih =>
    obtain ⟨labels, body⟩ := arm
    rw [mapArms, ih, List.map_cons]

/-- A rebuilt statement holds the changed expressions; one without expressions, what it is replaced by. -/
theorem ownExprs_mapParts {e : Expr} (he : e ∈ (mapParts onExpr onLeaf s).ownExprs) :
    (∃ e' ∈ s.ownExprs, e = onExpr e') ∨ s.ownExprs = [] ∧ e ∈ (onLeaf s).ownExprs := by
  cases s with
  | declare t vars =>
    simp only [mapParts, ownExprs, List.mem_filterMap, List.mem_map] at he
    obtain ⟨_, ⟨d, hd, rfl⟩, hinit⟩ := he
    obtain ⟨e', he', rfl⟩ := Option.map_eq_some_iff.mp hinit
    exact .inl ⟨e', List.mem_filterMap.mpr ⟨d, hd, he'⟩, rfl⟩
  | expr e' =>
    rw [List.mem_singleton.mp he]
    exact .inl ⟨e', .head _, rfl⟩
  | ret e' =>
    cases e' with
    | none => exact .inr ⟨rfl, he⟩
    | some e' =>
      rw [List.mem_singleton.mp he]
      exact .inl ⟨e', .head _, rfl⟩
  | ite c yes no =>
    rw [List.mem_singleton.mp he]
    exact .inl ⟨c, .head _, rfl⟩
  | loop c body =>
    rw [List.mem_singleton.mp he]
    exact .inl ⟨c, .head _, rfl⟩
  | forLoop init c update body =>
    obtain ⟨c', hc', rfl⟩ := Option.map_eq_some_iff.mp (Option.mem_toList.mp he)
    exact .inl ⟨c', Option.mem_toList.mpr hc', rfl⟩
  | switch e' arms =>
    rw [mapParts, ownExprs, mapArms_eq_map] at he
    rcases List.mem_cons.mp he with rfl | he
    · exact .inl ⟨e', .head _, rfl⟩
    · simp only [List.mem_flatMap, List.mem_map, List.mem_filterMap] at he
      obtain ⟨_, ⟨arm, harm, rfl⟩, label', hlabel', hvalue⟩ := he
      obtain ⟨label, hlabel, rfl⟩ := List.mem_map.mp hlabel'
      cases label with
      | otherwise => cases hvalue
      | case c =>
        cases hvalue
        refine .inl ⟨c, .tail _ (List.mem_flatMap.mpr ⟨arm, harm, ?_⟩), rfl⟩
        exact List.mem_filterMap.mpr ⟨.case c, hlabel, rfl⟩
  | construct who args =>
    obtain ⟨e', he', rfl⟩ := List.mem_map.mp he
    exact .inl ⟨e', he', rfl⟩
  | block body => cases he
  | breakOut => exact .inr ⟨rfl, he⟩
  | continueLoop => exact .inr ⟨rfl, he⟩
  | empty => exact .inr ⟨rfl, he⟩

mutual

/-- Changing the expressions twice is changing them once. -/
theorem mapParts_mapParts : ∀ s : Stmt, (s.mapParts onExpr id).mapParts onExpr' id = s.mapParts (onExpr' ∘ onExpr) id
  | block body => by simp only [mapParts, mapAll_mapAll body]
  | declare t vars => by simp [mapParts, Declarator.mapInit]
  | expr e => by simp only [mapParts, Function.comp]
  | ret (some e) => by simp only [mapParts, Function.comp]
  | ite c yes no => by simp only [mapParts, mapParts_mapParts yes, mapOption_mapOption no, Function.comp]
  | loop c body => by simp only [mapParts, mapParts_mapParts body, Function.comp]
  | forLoop init c update body => by
    simp only [mapParts, mapAll_mapAll init, mapAll_mapAll update, mapParts_mapParts body, Option.map_map]
  | switch e arms => by simp only [mapParts, mapArms_mapArms arms, Function.comp]
  | construct who args => by simp only [mapParts, List.map_map]
  | ret none => by simp only [mapParts, id]
  | breakOut => by simp only [mapParts, id]
  | continueLoop => by simp only [mapParts, id]
  | empty => by simp only [mapParts, id]

theorem mapAll_mapAll : ∀ ss, mapAll onExpr' id (mapAll onExpr id ss) = mapAll (onExpr' ∘ onExpr) id ss
  | [] => rfl
  | s :: ss => by simp only [mapAll, mapParts_mapParts s, mapAll_mapAll ss]

theorem mapOption_mapOption : ∀ s, mapOption onExpr' id (mapOption onExpr id s) = mapOption (onExpr' ∘ onExpr) id s
  | none => rfl
  | some s => by simp only [mapOption, mapParts_mapParts s]

theorem mapArms_mapArms : ∀ arms, mapArms onExpr' id (mapArms onExpr id arms) = mapArms (onExpr' ∘ onExpr) id arms
  | [] => rfl
  | ⟨labels, body⟩ :: arms => by
    have hlabels : (labels.map (Label.mapExpr onExpr)).map (Label.mapExpr onExpr')
        = labels.map (Label.mapExpr (onExpr' ∘ onExpr)) := by
      rw [List.map_map]
      refine List.map_congr_left (fun l _ => ?_)
      cases l <;> rfl
    simp only [mapArms, mapAll_mapAll body, mapArms_mapArms arms, hlabels]

end

end MapParts

/-- The parts of a statement with qualified calls. -/
theorem parts_qualify (q : Path) (s : Stmt) : (s.qualify q).parts = s.parts.map (qualify q) :=
  parts_mapParts (fun _ h => h) s

/-- The parts of a statement whose plain returns give the object. -/
theorem parts_returnThis (s : Stmt) : s.returnThis.parts = s.parts.map returnThis := by
  refine parts_mapParts (fun s h => ?_) s
  unfold retThisLeaf
  split
  · rfl
  · exact h

end Stmt

/-! ### What waits on control -/

mutual

/-- The statements that wait in an item. -/
def Item.parts : Item → List Stmt
  | .stmt s => s.parts
  | .whileRound _ body => body.parts
  | .forRound _ update body => Stmt.partsAll update ++ body.parts
  | .switch arms => Stmt.partsArms arms
  | .branch yes no => partsOf yes ++ partsOf no
  | _ => []

/-- The statements that wait in several items. -/
def partsOf : List Item → List Stmt
  | [] => []
  | i :: c => i.parts ++ partsOf c

end

theorem mem_partsOf {c : List Item} {t : Stmt} : t ∈ partsOf c ↔ ∃ i ∈ c, t ∈ i.parts := by
  induction c with
  | nil => simp [partsOf]
  | cons i c ih => simp [partsOf, ih]

@[simp] theorem partsOf_nil : partsOf [] = [] := by rw [partsOf]

@[simp] theorem partsOf_cons (i : Item) (c : List Item) : partsOf (i :: c) = i.parts ++ partsOf c := by
  rw [partsOf]

@[simp] theorem partsOf_append (c c' : List Item) : partsOf (c ++ c') = partsOf c ++ partsOf c' := by
  induction c with
  | nil => simp
  | cons i c ih => simp [ih]

@[simp] theorem partsOf_stmts (ss : List Stmt) : partsOf (ss.map .stmt) = Stmt.partsAll ss := by
  induction ss with
  | nil => simp [Stmt.partsAll]
  | cons s ss ih => simp [Item.parts, Stmt.partsAll, ih]

@[simp] theorem partsOf_exprs (es : List Expr) : partsOf (es.map .expr) = [] := by
  induction es with
  | nil => simp
  | cons e es ih => simp [Item.parts, ih]

@[simp] theorem partsOf_types (es : List Expr) : partsOf (es.map .typeOf) = [] := by
  induction es with
  | nil => simp
  | cons e es ih => simp [Item.parts, ih]

theorem partsOf_eq_nil {c : List Item} (h : ∀ i ∈ c, i.parts = []) : partsOf c = [] := by
  induction c with
  | nil => exact partsOf_nil
  | cons i c ih => rw [partsOf_cons, h i (.head _), ih (fun j hj => h j (.tail _ hj)), List.append_nil]

theorem Item.parts_simple {i : Item} (h : i.isSimple = true) : i.parts = [] := by
  cases i <;> first | simp only [Item.parts]; done | cases h

theorem partsOf_simple {c : List Item} (h : c.all Item.isSimple = true) : partsOf c = [] :=
  partsOf_eq_nil (fun i hi => Item.parts_simple (List.all_eq_true.mp h i hi))

theorem partsOf_declarators {t : TypeName} {vars : List Declarator} {s : Stmt}
    (hs : s ∈ partsOf (vars.map (fun d => .stmt (.declare t [d])))) : ∃ type vars, s = .declare type vars := by
  obtain ⟨i, hi, hs⟩ := mem_partsOf.mp hs
  obtain ⟨d, -, rfl⟩ := List.mem_map.mp hi
  exact ⟨t, [d], List.mem_singleton.mp hs⟩

/-- What a step queues are the statements that wait in what it performs, declarations that it splits, or the body
that it enters. -/
theorem Agenda.mem_parts {r : Registers} {i : Item} {new : List Item} {f : FrameId} {t : Stmt} (h : Agenda r i new f)
    (ht : t ∈ partsOf new) : t ∈ i.parts ∨ (∃ type vars, t = .declare type vars) ∨
      ∃ k object body, Calls r i k object ∧ k.callable.body? = some body ∧ t ∈ (Stmt.block body).parts := by
  cases h with
  | simple _ hsimple =>
    rw [partsOf_simple hsimple] at ht
    cases ht
  | call hcalls hbody =>
    refine .inr (.inr ⟨_, _, _, hcalls, hbody, ?_⟩)
    simpa [Item.parts] using ht
  | fields fd =>
    rw [partsOf_eq_nil (by simp [Item.parts])] at ht
    cases ht
  | locals t vars => exact .inr (.inl (partsOf_declarators ht))
  | arms hchosen =>
    rw [partsOf_stmts, Stmt.mem_partsAll] at ht
    obtain ⟨s, hs, ht⟩ := ht
    obtain ⟨arm, harm, hs⟩ := List.mem_flatMap.mp hs
    refine .inl ?_
    rw [Item.parts]
    exact Stmt.mem_partsArms.mpr ⟨arm, hchosen arm harm, s, hs, ht⟩
  | forRound c update body =>
    -- the body and the updates, and once more for the next round
    have hround : t ∈ body.parts ∨ t ∈ Stmt.partsAll update ∨ t ∈ body.parts := by
      simpa [Item.parts, or_assoc] using ht
    refine .inl ?_
    rw [Item.parts, List.mem_append]
    exact hround.elim .inr id
  | yes yes no =>
    rw [Item.parts, List.mem_append]
    exact .inl (.inl ht)
  | no yes no =>
    rw [Item.parts, List.mem_append]
    exact .inl (.inr ht)
  | ite c yes no =>
    refine .inl (List.mem_cons_of_mem _ ?_)
    simpa [Item.parts, Stmt.mem_partsOption, Stmt.mem_partsAll] using ht
  | whileRound c body => exact .inl (by simpa [Item.parts] using ht)
  | block | loop | forLoop | switch =>
    exact .inl (List.mem_cons_of_mem _ (by simpa [Item.parts] using ht))
  | _ => simp [Item.parts] at ht

end StashMachine
