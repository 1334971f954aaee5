import StashMachine.Elaboration.Class
import StashMachine.Proofs.Descriptors

/-!
# StashMachine.Proofs.Bodies — what elaboration makes of bodies

* `Callable.Returns`: the body ends with a `return`, so control never runs past its end.  Every
  elaborated method and constructor returns.
* `Stmt.delegates`: a call `this(…)` of another constructor stands somewhere in a statement.  In a
  source it stands only in front of a constructor's body (`Callable.Plain`), and elaboration keeps that.
-/

namespace StashMachine

/-- The last statement is a `return`. -/
def EndsInReturn (body : List Stmt) : Prop := ∃ before e, body = before ++ [.ret e]

/-- A callable whose body, if it has one, ends with a `return`. -/
def Callable.Returns : Callable → Prop
  | .method m => ∀ body, m.body = some body → EndsInReturn body
  | .constructor c => EndsInReturn c.body

theorem Stmt.endsInReturn_withTrailing (e : Option Expr) (body : List Stmt) :
    EndsInReturn (withTrailing (.ret e) body) := by
  unfold withTrailing
  split
  · rename_i s hs
    obtain ⟨before, rfl⟩ := List.getLast?_eq_some_iff.mp hs
    split
    · rename_i hret
      cases s with
      | ret e' => exact ⟨before, e', rfl⟩
      | _ => cases hret
    · exact ⟨_, e, rfl⟩
  · exact ⟨[], e, rfl⟩

theorem MethodDecl.elaborate_returns (className : String) (m : MethodDecl) :
    (Callable.method (m.elaborate className)).Returns := by
  intro body h
  simp only [elaborate, Option.map_eq_some_iff] at h
  obtain ⟨before, -, rfl⟩ := h
  exact Stmt.endsInReturn_withTrailing _ _

theorem ConstructorDecl.elaborate_returns (fields : List FieldDecl) (hasSuper : Bool)
    (c : ConstructorDecl) : (Callable.constructor (c.elaborate fields hasSuper)).Returns :=
  Stmt.endsInReturn_withTrailing _ _

/-! ### Calls of other constructors -/

namespace Stmt

mutual

/-- Whether `this(…)` stands somewhere in a statement. -/
def delegates : Stmt → Bool
  | block body => anyDelegates body
  | ite _ yes no => yes.delegates || optionDelegates no
  | loop _ body => body.delegates
  | forLoop init _ update body => anyDelegates init || anyDelegates update || body.delegates
  | switch _ arms => armsDelegate arms
  | construct who _ => who = .this
  | declare .. | expr _ | ret _ | breakOut | continueLoop | empty => false

/-- Whether `this(…)` stands somewhere in a list of statements. -/
def anyDelegates : List Stmt → Bool
  | [] => false
  | s :: ss => s.delegates || anyDelegates ss

/-- Whether `this(…)` stands in a statement that may be missing. -/
def optionDelegates : Option Stmt → Bool
  | none => false
  | some s => s.delegates

/-- Whether `this(…)` stands somewhere in the groups of a `switch`. -/
def armsDelegate : List (Arm Stmt) → Bool
  | [] => false
  | ⟨_, body⟩ :: arms => anyDelegates body || armsDelegate arms

end

theorem anyDelegates_eq_false {ss : List Stmt} :
    anyDelegates ss = false ↔ ∀ s ∈ ss, s.delegates = false := by
  induction ss with
  | nil => simp [anyDelegates]
  | cons s ss ih => simp [anyDelegates, ih]

theorem armsDelegate_eq_false {arms : List (Arm Stmt)} :
    armsDelegate arms = false ↔ ∀ arm ∈ arms, ∀ s ∈ arm.body, s.delegates = false := by
  induction arms with
  | nil => simp [armsDelegate]
  | cons arm arms ih =>
    obtain ⟨labels, body⟩ := arm
    simp [armsDelegate, anyDelegates_eq_false, ih]

/-! Changing expressions and leaves moves no constructor call. -/

section MapParts

variable {onExpr : Expr → Expr} {onLeaf : Stmt → Stmt}

mutual

theorem delegates_mapParts (h : ∀ s, s.delegates = false → (onLeaf s).delegates = false) :
    ∀ s, (mapParts onExpr onLeaf s).delegates = s.delegates
  | block body => by simp only [mapParts, delegates, anyDelegates_mapAll h body]
  | ite c yes no => by
    simp only [mapParts, delegates, delegates_mapParts h yes, optionDelegates_mapOption h no]
  | loop c body => by simp only [mapParts, delegates, delegates_mapParts h body]
  | forLoop init c update body => by
    simp only [mapParts, delegates, anyDelegates_mapAll h init, anyDelegates_mapAll h update,
      delegates_mapParts h body]
  | switch e arms => by simp only [mapParts, delegates, armsDelegate_mapArms h arms]
  | construct who args => by simp only [mapParts, delegates]
  | declare t vars => by simp only [mapParts, delegates]
  | expr e => by simp only [mapParts, delegates]
  | ret (some e) => by simp only [mapParts, delegates]
  | ret none => by simp only [mapParts, h (ret none) rfl, delegates]
  | breakOut => by simp only [mapParts, h breakOut rfl, delegates]
  | continueLoop => by simp only [mapParts, h continueLoop rfl, delegates]
  | empty => by simp only [mapParts, h empty rfl, delegates]

theorem anyDelegates_mapAll (h : ∀ s, s.delegates = false → (onLeaf s).delegates = false) :
    ∀ ss, anyDelegates (mapAll onExpr onLeaf ss) = anyDelegates ss
  | [] => rfl
  | s :: ss => by
    simp only [mapAll, anyDelegates, delegates_mapParts h s, anyDelegates_mapAll h ss]

theorem optionDelegates_mapOption (h : ∀ s, s.delegates = false → (onLeaf s).delegates = false) :
    ∀ s, optionDelegates (mapOption onExpr onLeaf s) = optionDelegates s
  | none => rfl
  | some s => by simp only [mapOption, optionDelegates, delegates_mapParts h s]

theorem armsDelegate_mapArms (h : ∀ s, s.delegates = false → (onLeaf s).delegates = false) :
    ∀ arms, armsDelegate (mapArms onExpr onLeaf arms) = armsDelegate arms
  | [] => rfl
  | ⟨_, body⟩ :: arms => by
    simp only [mapArms, armsDelegate, anyDelegates_mapAll h body, armsDelegate_mapArms h arms]

end

end MapParts

@[simp] theorem delegates_qualify (q : Path) (s : Stmt) : (s.qualify q).delegates = s.delegates :=
  delegates_mapParts (fun _ hs => hs) s

@[simp] theorem delegates_returnThis (s : Stmt) : s.returnThis.delegates = s.delegates := by
  refine delegates_mapParts (fun s hs => ?_) s
  unfold retThisLeaf
  split
  · rfl
  · exact hs

theorem mem_withTrailing {tail s : Stmt} {body : List Stmt} (h : s ∈ withTrailing tail body) :
    s ∈ body ∨ s = tail := by
  unfold withTrailing at h
  split at h
  · split at h
    · exact .inl h
    · simpa using h
  · exact .inr (by simpa using h)

end Stmt

/-- No statement of a body calls another constructor, except that the first one may be such a call. -/
def LeadsPlainly (body : List Stmt) : Prop :=
  (∀ s ∈ body, s.delegates = false) ∨
    ∃ args rest, body = .construct .this args :: rest ∧ ∀ s ∈ rest, s.delegates = false

/-- A callable as sources have them: the types of its parameters are plain, and only the first
statement of a constructor calls another constructor. -/
def Callable.Plain (k : Callable) : Prop :=
  (∀ t ∈ k.paramTypes, t.Plain) ∧
    match k with
    | .method m => ∀ body, m.body = some body → ∀ s ∈ body, s.delegates = false
    | .constructor c => LeadsPlainly c.body

theorem MethodDecl.elaborate_plain {m : MethodDecl} (className : String)
    (h : (Callable.method m).Plain) : (Callable.method (m.elaborate className)).Plain := by
  refine ⟨h.1, ?_⟩
  intro body hb s hs
  simp only [elaborate, Option.map_eq_some_iff] at hb
  obtain ⟨before, hbefore, rfl⟩ := hb
  rcases Stmt.mem_withTrailing hs with hs | rfl
  · obtain ⟨s', hs', rfl⟩ := List.mem_map.mp hs
    rw [Stmt.delegates_qualify]
    exact h.2 before hbefore s' hs'
  · rfl

namespace ConstructorDecl

theorem implicit_plain (name : String) : (Callable.constructor (implicit name)).Plain :=
  ⟨by simp [Callable.paramTypes, Callable.params, implicit], .inl (by simp [implicit])⟩

theorem delegates_setFields {fields : List FieldDecl} {s : Stmt} (h : s ∈ setFields fields) :
    s.delegates = false := by
  simp only [setFields, List.mem_flatMap, List.mem_map] at h
  obtain ⟨f, -, d, -, rfl⟩ := h
  rfl

theorem arrange_leadsPlainly {body : List Stmt} (fields : List FieldDecl) (hasSuper : Bool)
    (h : LeadsPlainly body) : LeadsPlainly (arrange fields hasSuper body) := by
  unfold arrange
  split
  · exact h
  · rename_i args rest
    rcases h with h | ⟨args', rest', hbody, -⟩
    · refine .inl (fun s hs => ?_)
      simp only [List.mem_cons, List.mem_append] at hs
      rcases hs with rfl | hs | hs
      · rfl
      · exact delegates_setFields hs
      · exact h s (by simp [hs])
    · cases hbody
  · rename_i hthis hsuper
    rcases h with h | ⟨args', rest', rfl, -⟩
    · refine .inl (fun s hs => ?_)
      simp only [List.mem_append] at hs
      rcases hs with (hs | hs) | hs
      · split at hs
        · obtain rfl := List.mem_singleton.mp hs
          rfl
        · cases hs
      · exact delegates_setFields hs
      · exact h s hs
    · exact absurd rfl (hthis args' rest')

theorem elaborate_plain {c : ConstructorDecl} (fields : List FieldDecl) (hasSuper : Bool)
    (h : (Callable.constructor c).Plain) :
    (Callable.constructor (c.elaborate fields hasSuper)).Plain := by
  refine ⟨h.1, ?_⟩
  have hkept : ∀ s : Stmt, ((s.qualify (.simple thisName)).returnThis).delegates = s.delegates :=
    fun s => by simp
  show LeadsPlainly (Stmt.withTrailing _ _)
  rcases arrange_leadsPlainly fields hasSuper h.2 with hplain | ⟨args, rest, harr, hrest⟩
  · refine .inl (fun s hs => ?_)
    rcases Stmt.mem_withTrailing hs with hs | rfl
    · obtain ⟨s', hs', rfl⟩ := List.mem_map.mp hs
      rw [hkept, hplain s' hs']
    · rfl
  · -- the call in front stays in front
    rw [harr]
    obtain ⟨rest', hrest', hbody⟩ : ∃ rest', (∀ s ∈ rest', s.delegates = false) ∧
        Stmt.withTrailing Stmt.retThis
          ((Stmt.construct .this args :: rest).map (fun s =>
            (s.qualify (.simple thisName)).returnThis))
          = .construct .this ((args.map (Expr.qualify (.simple thisName))).map id) :: rest' := by
      have hmapped : ∀ s ∈ rest.map (fun s => (s.qualify (.simple thisName)).returnThis),
          s.delegates = false := by
        intro s hs
        obtain ⟨s', hs', rfl⟩ := List.mem_map.mp hs
        rw [hkept, hrest s' hs']
      unfold Stmt.withTrailing
      split
      · split
        · exact ⟨_, hmapped, by simp [Stmt.qualify, Stmt.returnThis, Stmt.mapParts]⟩
        · refine ⟨_ ++ [Stmt.retThis], ?_, by simp [Stmt.qualify, Stmt.returnThis, Stmt.mapParts]; rfl⟩
          intro s hs
          rcases List.mem_append.mp hs with hs | hs
          · exact hmapped s hs
          · obtain rfl := List.mem_singleton.mp hs
            rfl
      · rename_i hnone
        simp at hnone
    exact .inr ⟨_, rest', hbody, hrest'⟩

end ConstructorDecl

end StashMachine
