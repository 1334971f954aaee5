import StashMachine.Machine.Run

/-!
# StashMachine.Proofs.Renaming — other names for the variables of code

* `instead x y`: the renaming that puts `y` in the place of `x`.
* `Expr.rename`, `Stmt.rename`: code with its variables renamed, both where they are used and where they are
  declared.  Fields, methods and classes keep their names.
* `Expr.names`, `Stmt.names`: the names that are renamed; `Stmt.rename_of_names`: no others matter.
* `ConstructorDecl.elaborate_rename`: elaboration commutes with renaming, if the initialisers that it puts into the
  constructor are left as they are.
-/

namespace StashMachine

/-- The renaming that puts `y` in the place of `x`. -/
def instead (x y n : String) : String := if n = x then y else n

theorem instead_of_ne {x y n : String} (h : n ≠ x) : instead x y n = n := if_neg h

/-! ### Names -/

namespace Path

/-- The variable or class that a dotted name starts from. -/
def head : Path → String
  | simple x => x
  | field p _ => p.head

/-- The dotted name from another start. -/
def rename (σ : String → String) : Path → Path
  | simple x => simple (σ x)
  | field p x => field (p.rename σ) x

variable {σ τ : String → String}

theorem rename_of_head {p : Path} (h : σ p.head = τ p.head) : p.rename σ = p.rename τ := by
  induction p with
  | simple x => exact congrArg simple h
  | field p x ih => rw [rename, rename, ih h]

@[simp] theorem rename_id (p : Path) : p.rename id = p := by
  induction p with
  | simple x => rfl
  | field p x ih => rw [rename, ih]

end Path

/-! ### Expressions -/

namespace Expr

mutual

/-- The variables that an expression names. -/
def names : Expr → List String
  | literal _ | void => []
  | name p => [p.head]
  | assign t v => t.head :: v.names
  | compound _ t v => t.head :: v.names
  | increment _ _ t => [t.head]
  | binary _ l r => l.names ++ r.names
  | unary _ e => e.names
  | call (.simple _) args => namesAll args
  | call (.field q _) args => q.head :: namesAll args
  | new _ args => namesAll args
  | array _ es => namesAll es

/-- The variables that several expressions name. -/
def namesAll : List Expr → List String
  | [] => []
  | e :: es => e.names ++ namesAll es

end

mutual

/-- The expression with its variables renamed. -/
def rename (σ : String → String) : Expr → Expr
  | literal l => literal l
  | void => void
  | name p => name (p.rename σ)
  | assign t v => assign (t.rename σ) (v.rename σ)
  | compound op t v => compound op (t.rename σ) (v.rename σ)
  | increment op fix t => increment op fix (t.rename σ)
  | binary op l r => binary op (l.rename σ) (r.rename σ)
  | unary op e => unary op (e.rename σ)
  | call (.simple m) args => call (.simple m) (renameAll σ args)
  | call (.field q m) args => call (.field (q.rename σ) m) (renameAll σ args)
  | new c args => new c (renameAll σ args)
  | array t es => array t (renameAll σ es)

/-- Several expressions with their variables renamed. -/
def renameAll (σ : String → String) : List Expr → List Expr
  | [] => []
  | e :: es => e.rename σ :: renameAll σ es

end

variable {σ τ : String → String}

@[simp] theorem renameAll_eq_map (σ : String → String) (es : List Expr) : renameAll σ es = es.map (rename σ) := by
  induction es with
  | nil => rfl
  | cons e es ih => rw [renameAll, ih, List.map_cons]

mutual

theorem rename_of_names : ∀ e : Expr, (∀ n ∈ e.names, σ n = τ n) → e.rename σ = e.rename τ
  | literal _, _ => rfl
  | void, _ => rfl
  | name p, h => by rw [rename, rename, Path.rename_of_head (h _ (.head _))]
  | assign t v, h => by
    rw [rename, rename, Path.rename_of_head (h _ (.head _)), rename_of_names v (fun n hn => h n (.tail _ hn))]
  | compound op t v, h => by
    rw [rename, rename, Path.rename_of_head (h _ (.head _)), rename_of_names v (fun n hn => h n (.tail _ hn))]
  | increment op fix t, h => by rw [rename, rename, Path.rename_of_head (h _ (.head _))]
  | binary op l r, h => by
    rw [rename, rename, rename_of_names l (fun n hn => h n (List.mem_append_left _ hn)),
      rename_of_names r (fun n hn => h n (List.mem_append_right _ hn))]
  | unary op e, h => by rw [rename, rename, rename_of_names e h]
  | call (.simple m) args, h => by rw [rename, rename, renameAll_of_names args h]
  | call (.field q m) args, h => by
    rw [rename, rename, Path.rename_of_head (h _ (.head _)),
      renameAll_of_names args (fun n hn => h n (.tail _ hn))]
  | new c args, h => by rw [rename, rename, renameAll_of_names args h]
  | array t es, h => by rw [rename, rename, renameAll_of_names es h]

theorem renameAll_of_names : ∀ es : List Expr, (∀ n ∈ namesAll es, σ n = τ n) → renameAll σ es = renameAll τ es
  | [], _ => rfl
  | e :: es, h => by
    rw [renameAll, renameAll, rename_of_names e (fun n hn => h n (List.mem_append_left _ hn)),
      renameAll_of_names es (fun n hn => h n (List.mem_append_right _ hn))]

end

mutual

@[simp] theorem rename_id : ∀ e : Expr, e.rename id = e
  | literal _ => rfl
  | void => rfl
  | name p => by rw [rename, Path.rename_id]
  | assign t v => by rw [rename, Path.rename_id, rename_id v]
  | compound op t v => by rw [rename, Path.rename_id, rename_id v]
  | increment op fix t => by rw [rename, Path.rename_id]
  | binary op l r => by rw [rename, rename_id l, rename_id r]
  | unary op e => by rw [rename, rename_id e]
  | call (.simple m) args => by rw [rename, renameAll_id args]
  | call (.field q m) args => by rw [rename, Path.rename_id, renameAll_id args]
  | new c args => by rw [rename, renameAll_id args]
  | array t es => by rw [rename, renameAll_id es]

theorem renameAll_id : ∀ es : List Expr, renameAll id es = es
  | [] => rfl
  | e :: es => by rw [renameAll, rename_id e, renameAll_id es]

end

mutual

/-- Bare calls get the qualifier from the start that is renamed with the rest. -/
theorem rename_qualify (q : Path) : ∀ e : Expr, (e.qualify q).rename σ = (e.rename σ).qualify (q.rename σ)
  | literal _ => rfl
  | void => rfl
  | name p => rfl
  | assign t v => by rw [qualify, rename, rename, qualify, rename_qualify q v]
  | compound op t v => by rw [qualify, rename, rename, qualify, rename_qualify q v]
  | increment op fix t => rfl
  | binary op l r => by rw [qualify, rename, rename, qualify, rename_qualify q l, rename_qualify q r]
  | unary op e => by rw [qualify, rename, rename, qualify, rename_qualify q e]
  | call (.simple m) args => by
    rw [qualify, Path.qualifiedBy, rename, rename, qualify, Path.qualifiedBy, renameAll_qualifyAll q args]
  | call (.field p m) args => by
    rw [qualify, Path.qualifiedBy, rename, rename, qualify, Path.qualifiedBy, renameAll_qualifyAll q args]
  | new c args => by rw [qualify, rename, rename, qualify, renameAll_qualifyAll q args]
  | array t es => by rw [qualify, rename, rename, qualify, renameAll_qualifyAll q es]

theorem renameAll_qualifyAll (q : Path) :
    ∀ es : List Expr, renameAll σ (qualifyAll q es) = qualifyAll (q.rename σ) (renameAll σ es)
  | [] => rfl
  | e :: es => by rw [qualifyAll, renameAll, renameAll, qualifyAll, rename_qualify q e, renameAll_qualifyAll q es]

end

end Expr

/-! ### Statements -/

/-- The variables of an expression that may be missing. -/
def Expr.namesOption (e : Option Expr) : List String := (e.map names).getD []

theorem Expr.map_rename_of_names {σ τ : String → String} {e : Option Expr}
    (h : ∀ n ∈ namesOption e, σ n = τ n) : e.map (rename σ) = e.map (rename τ) := by
  cases e with
  | none => rfl
  | some e => exact congrArg some (rename_of_names e h)

@[simp] theorem Expr.map_rename_id (e : Option Expr) : e.map (rename id) = e := by
  cases e <;> simp

namespace Declarator

/-- The variable that is declared, and those that its initialiser names. -/
def names (d : Declarator) : List String := d.name :: Expr.namesOption d.init

def rename (σ : String → String) (d : Declarator) : Declarator := ⟨σ d.name, d.init.map (Expr.rename σ)⟩

theorem rename_of_names {σ τ : String → String} {d : Declarator} (h : ∀ n ∈ d.names, σ n = τ n) :
    d.rename σ = d.rename τ := by
  rw [rename, rename, h _ (.head _), Expr.map_rename_of_names (fun n hn => h n (.tail _ hn))]

@[simp] theorem rename_id (d : Declarator) : d.rename id = d := by simp [rename]

end Declarator

namespace Label

def names : Label → List String
  | case e => e.names
  | otherwise => []

def rename (σ : String → String) : Label → Label
  | case e => case (e.rename σ)
  | otherwise => otherwise

theorem rename_of_names {σ τ : String → String} {l : Label} (h : ∀ n ∈ l.names, σ n = τ n) :
    l.rename σ = l.rename τ := by
  cases l with
  | case e => exact congrArg case (Expr.rename_of_names e h)
  | otherwise => rfl

@[simp] theorem rename_id (l : Label) : l.rename id = l := by
  cases l <;> simp [rename]

end Label

namespace Stmt

mutual

/-- The variables that a statement names or declares. -/
def names : Stmt → List String
  | block body => namesAll body
  | declare _ vars => vars.flatMap Declarator.names
  | expr e => e.names
  | ret e => Expr.namesOption e
  | ite c yes no => c.names ++ yes.names ++ namesOption no
  | loop c body => c.names ++ body.names
  | forLoop init c update body => namesAll init ++ Expr.namesOption c ++ namesAll update ++ body.names
  | switch e arms => e.names ++ namesArms arms
  | construct _ args => Expr.namesAll args
  | breakOut | continueLoop | empty => []

/-- The variables of several statements. -/
def namesAll : List Stmt → List String
  | [] => []
  | s :: ss => s.names ++ namesAll ss

/-- The variables of a statement that may be missing. -/
def namesOption : Option Stmt → List String
  | none => []
  | some s => s.names

/-- The variables of the groups of a `switch`. -/
def namesArms : List (Arm Stmt) → List String
  | [] => []
  | ⟨labels, body⟩ :: arms => labels.flatMap Label.names ++ namesAll body ++ namesArms arms

end

mutual

/-- The statement with its variables renamed. -/
def rename (σ : String → String) : Stmt → Stmt
  | block body => block (renameAll σ body)
  | declare t vars => declare t (vars.map (Declarator.rename σ))
  | expr e => expr (e.rename σ)
  | ret e => ret (e.map (Expr.rename σ))
  | ite c yes no => ite (c.rename σ) (yes.rename σ) (renameOption σ no)
  | loop c body => loop (c.rename σ) (body.rename σ)
  | forLoop init c update body =>
    forLoop (renameAll σ init) (c.map (Expr.rename σ)) (renameAll σ update) (body.rename σ)
  | switch e arms => switch (e.rename σ) (renameArms σ arms)
  | construct who args => construct who (args.map (Expr.rename σ))
  | breakOut => breakOut
  | continueLoop => continueLoop
  | empty => empty

/-- Several statements with their variables renamed. -/
def renameAll (σ : String → String) : List Stmt → List Stmt
  | [] => []
  | s :: ss => s.rename σ :: renameAll σ ss

/-- A statement that may be missing, with its variables renamed. -/
def renameOption (σ : String → String) : Option Stmt → Option Stmt
  | none => none
  | some s => some (s.rename σ)

/-- The groups of a `switch` with their variables renamed. -/
def renameArms (σ : String → String) : List (Arm Stmt) → List (Arm Stmt)
  | [] => []
  | ⟨labels, body⟩ :: arms => ⟨labels.map (Label.rename σ), renameAll σ body⟩ :: renameArms σ arms

end

variable {σ τ : String → String}

@[simp] theorem renameAll_eq_map (σ : String → String) (ss : List Stmt) : renameAll σ ss = ss.map (rename σ) := by
  induction ss with
  | nil => rfl
  | cons s ss ih => rw [renameAll, ih, List.map_cons]

mutual

theorem rename_of_names : ∀ s : Stmt, (∀ n ∈ s.names, σ n = τ n) → s.rename σ = s.rename τ
  | block body, h => by rw [rename, rename, renameAll_of_names body h]
  | declare t vars, h => by
    rw [rename, rename, List.map_congr_left (fun d hd =>
      Declarator.rename_of_names (fun n hn => h n (List.mem_flatMap.mpr ⟨d, hd, hn⟩)))]
  | expr e, h => by rw [rename, rename, Expr.rename_of_names e h]
  | ret e, h => by rw [rename, rename, Expr.map_rename_of_names h]
  | ite c yes no, h => by
    simp only [names, List.mem_append, or_imp, forall_and] at h
    rw [rename, rename, Expr.rename_of_names c h.1.1, rename_of_names yes h.1.2, renameOption_of_names no h.2]
  | loop c body, h => by
    simp only [names, List.mem_append, or_imp, forall_and] at h
    rw [rename, rename, Expr.rename_of_names c h.1, rename_of_names body h.2]
  | forLoop init c update body, h => by
    simp only [names, List.mem_append, or_imp, forall_and] at h
    rw [rename, rename, renameAll_of_names init h.1.1.1, Expr.map_rename_of_names h.1.1.2,
      renameAll_of_names update h.1.2, rename_of_names body h.2]
  | switch e arms, h => by
    simp only [names, List.mem_append, or_imp, forall_and] at h
    rw [rename, rename, Expr.rename_of_names e h.1, renameArms_of_names arms h.2]
  | construct who args, h => by
    rw [rename, rename, ← Expr.renameAll_eq_map, ← Expr.renameAll_eq_map, Expr.renameAll_of_names args h]
  | breakOut, _ => rfl
  | continueLoop, _ => rfl
  | empty, _ => rfl

theorem renameAll_of_names : ∀ ss : List Stmt, (∀ n ∈ namesAll ss, σ n = τ n) → renameAll σ ss = renameAll τ ss
  | [], _ => rfl
  | s :: ss, h => by
    rw [renameAll, renameAll, rename_of_names s (fun n hn => h n (List.mem_append_left _ hn)),
      renameAll_of_names ss (fun n hn => h n (List.mem_append_right _ hn))]

theorem renameOption_of_names :
    ∀ s : Option Stmt, (∀ n ∈ namesOption s, σ n = τ n) → renameOption σ s = renameOption τ s
  | none, _ => rfl
  | some s, h => by rw [renameOption, renameOption, rename_of_names s h]

theorem renameArms_of_names :
    ∀ arms : List (Arm Stmt), (∀ n ∈ namesArms arms, σ n = τ n) → renameArms σ arms = renameArms τ arms
  | [], _ => rfl
  | ⟨labels, body⟩ :: arms, h => by
    simp only [namesArms, List.mem_append, or_imp, forall_and] at h
    rw [renameArms, renameArms, renameAll_of_names body h.1.2, renameArms_of_names arms h.2,
      List.map_congr_left (fun l hl => Label.rename_of_names (fun n hn =>
        h.1.1 n (List.mem_flatMap.mpr ⟨l, hl, hn⟩)))]

end

mutual

@[simp] theorem rename_id : ∀ s : Stmt, s.rename id = s
  | block body => by rw [rename, renameAll_id body]
  | declare t vars => by simp [rename, funext Declarator.rename_id]
  | expr e => by rw [rename, Expr.rename_id]
  | ret e => by simp [rename]
  | ite c yes no => by rw [rename, Expr.rename_id, rename_id yes, renameOption_id no]
  | loop c body => by rw [rename, Expr.rename_id, rename_id body]
  | forLoop init c update body => by
    simp only [rename, renameAll_id init, renameAll_id update, rename_id body, Expr.map_rename_id]
  | switch e arms => by rw [rename, Expr.rename_id, renameArms_id arms]
  | construct who args => by simp [rename, funext Expr.rename_id]
  | breakOut => rfl
  | continueLoop => rfl
  | empty => rfl

theorem renameAll_id : ∀ ss : List Stmt, renameAll id ss = ss
  | [] => rfl
  | s :: ss => by rw [renameAll, rename_id s, renameAll_id ss]

theorem renameOption_id : ∀ s : Option Stmt, renameOption id s = s
  | none => rfl
  | some s => by rw [renameOption, rename_id s]

theorem renameArms_id : ∀ arms : List (Arm Stmt), renameArms id arms = arms
  | [] => rfl
  | ⟨labels, body⟩ :: arms => by
    rw [renameArms, renameAll_id body, renameArms_id arms]
    simp [funext Label.rename_id]

end

/-! Changing expressions and leaves commutes with renaming as the changes do. -/

section MapParts

variable {onExpr : Expr → Expr} {onLeaf : Stmt → Stmt}

/-- The changes commute with the renaming. -/
def Commute (σ : String → String) (onExpr : Expr → Expr) (onLeaf : Stmt → Stmt) : Prop :=
  (∀ e, (onExpr e).rename σ = onExpr (e.rename σ)) ∧ ∀ s, (onLeaf s).rename σ = onLeaf (s.rename σ)

mutual

theorem rename_mapParts (h : Commute σ onExpr onLeaf) :
    ∀ s, (mapParts onExpr onLeaf s).rename σ = mapParts onExpr onLeaf (s.rename σ)
  | block body => by rw [mapParts, rename, rename, mapParts, renameAll_mapAll h body]
  | declare t vars => by
    rw [mapParts, rename, rename, mapParts, List.map_map, List.map_map]
    refine congrArg _ (List.map_congr_left (fun d _ => ?_))
    simp [Declarator.rename, Declarator.mapInit, Function.comp_def, h.1]
  | expr e => by rw [mapParts, rename, rename, mapParts, h.1]
  | ret (some e) => by simp only [mapParts, rename, Option.map_some, h.1]
  | ret none => by simp only [mapParts, h.2, rename, Option.map_none]
  | ite c yes no => by
    rw [mapParts, rename, rename, mapParts, h.1, rename_mapParts h yes, renameOption_mapOption h no]
  | loop c body => by rw [mapParts, rename, rename, mapParts, h.1, rename_mapParts h body]
  | forLoop init c update body => by
    rw [mapParts, rename, rename, mapParts, renameAll_mapAll h init, renameAll_mapAll h update, rename_mapParts h body]
    simp [Function.comp_def, h.1]
  | switch e arms => by rw [mapParts, rename, rename, mapParts, h.1, renameArms_mapArms h arms]
  | construct who args => by simp [mapParts, rename, h.1]
  | breakOut => by simp only [mapParts, h.2, rename]
  | continueLoop => by simp only [mapParts, h.2, rename]
  | empty => by simp only [mapParts, h.2, rename]

theorem renameAll_mapAll (h : Commute σ onExpr onLeaf) :
    ∀ ss, renameAll σ (mapAll onExpr onLeaf ss) = mapAll onExpr onLeaf (renameAll σ ss)
  | [] => rfl
  | s :: ss => by rw [mapAll, renameAll, renameAll, mapAll, rename_mapParts h s, renameAll_mapAll h ss]

theorem renameOption_mapOption (h : Commute σ onExpr onLeaf) :
    ∀ s, renameOption σ (mapOption onExpr onLeaf s) = mapOption onExpr onLeaf (renameOption σ s)
  | none => rfl
  | some s => by rw [mapOption, renameOption, renameOption, mapOption, rename_mapParts h s]

theorem renameArms_mapArms (h : Commute σ onExpr onLeaf) :
    ∀ arms, renameArms σ (mapArms onExpr onLeaf arms) = mapArms onExpr onLeaf (renameArms σ arms)
  | [] => rfl
  | ⟨labels, body⟩ :: arms => by
    have hlabels : ∀ l, (Label.mapExpr onExpr l).rename σ = (l.rename σ).mapExpr onExpr := fun l => by
      cases l with
      | case e => exact congrArg Label.case (h.1 e)
      | otherwise => rfl
    rw [mapArms, renameArms, renameArms, mapArms, renameAll_mapAll h body, renameArms_mapArms h arms]
    simp [Function.comp_def, hlabels]

end

end MapParts

theorem rename_qualify (q : Path) (hq : q.rename σ = q) (s : Stmt) :
    (s.qualify q).rename σ = (s.rename σ).qualify q := by
  have h : Commute σ (Expr.qualify q) id := ⟨fun e => by rw [Expr.rename_qualify, hq], fun _ => rfl⟩
  exact rename_mapParts h s

theorem rename_returnThis (hthis : σ thisName = thisName) (s : Stmt) :
    s.returnThis.rename σ = (s.rename σ).returnThis := by
  have h : Commute σ id retThisLeaf := by
    refine ⟨fun _ => rfl, fun s => ?_⟩
    cases s with
    | ret e => cases e <;> simp [retThisLeaf, retThis, rename, Expr.this, Expr.rename, Path.rename, hthis]
    | _ => rfl
  exact rename_mapParts h s

theorem isRet_rename (s : Stmt) : (s.rename σ).isRet = s.isRet := by
  cases s <;> rfl

theorem map_rename_withTrailing (tail : Stmt) (ht : tail.rename σ = tail) (body : List Stmt) :
    (withTrailing tail body).map (rename σ) = withTrailing tail (body.map (rename σ)) := by
  unfold withTrailing
  rw [List.getLast?_map]
  cases body.getLast? with
  | none => simp [ht]
  | some s =>
    simp only [Option.map_some, isRet_rename]
    split
    · rfl
    · simp [ht]

end Stmt

/-! ### Constructors -/

namespace FieldDecl

/-- The variables that the initialisers of a field declaration name. -/
def initNames (f : FieldDecl) : List String := f.vars.flatMap (fun d => Expr.namesOption d.init)

end FieldDecl

namespace ConstructorDecl

/-- The variables of a constructor, its parameters among them. -/
def names (c : ConstructorDecl) : List String := c.params.map Param.name ++ Stmt.namesAll c.body

/-- The constructor with its parameters and other variables renamed. -/
def rename (σ : String → String) (c : ConstructorDecl) : ConstructorDecl :=
  { c with
    params := c.params.map (fun q => { q with name := σ q.name })
    body := c.body.map (Stmt.rename σ) }

/-- Whether a constructor leaves the fields to another one of its class. -/
def delegates (c : ConstructorDecl) : Bool :=
  match c.body with
  | .construct .this _ :: _ => true
  | _ => false

variable {σ : String → String} {c : ConstructorDecl} {fields : List FieldDecl} {hasSuper : Bool}

theorem rename_of_names {τ : String → String} (h : ∀ n ∈ c.names, σ n = τ n) : c.rename σ = c.rename τ := by
  simp only [names, List.mem_append, or_imp, forall_and] at h
  rw [rename, rename, ← Stmt.renameAll_eq_map, ← Stmt.renameAll_eq_map, Stmt.renameAll_of_names _ h.2]
  have hparams : ∀ q ∈ c.params, ({ q with name := σ q.name } : Param) = { q with name := τ q.name } :=
    fun q hq => by rw [h.1 q.name (List.mem_map_of_mem hq)]
  rw [List.map_congr_left hparams]

@[simp] theorem rename_id (c : ConstructorDecl) : c.rename id = c := by
  simp [rename, funext Stmt.rename_id]

/-- Only the initialisers of fields can be touched in the statements that set them. -/
theorem map_rename_setFields (hthis : σ thisName = thisName)
    (h : ∀ f ∈ fields, ∀ n ∈ f.initNames, σ n = n) :
    (setFields fields).map (Stmt.rename σ) = setFields fields := by
  have hid : ∀ s ∈ setFields fields, s.rename σ = s := by
    intro s hs
    simp only [setFields, List.mem_flatMap, List.mem_map] at hs
    obtain ⟨f, hf, d, hd, rfl⟩ := hs
    have hinit : (d.init.getD (.literal (Literal.default f.type))).rename σ
        = d.init.getD (.literal (Literal.default f.type)) := by
      cases hd' : d.init with
      | none => rfl
      | some e =>
        refine (Expr.rename_of_names e (fun n hn => ?_)).trans (Expr.rename_id e)
        exact h f hf n (List.mem_flatMap.mpr ⟨d, hd, by rw [hd']; exact hn⟩)
    rw [setField, Stmt.rename, Expr.rename, Path.rename, Path.rename, hthis, hinit]
  exact (List.map_congr_left hid).trans (List.map_id _)

theorem map_rename_arrange (hthis : σ thisName = thisName)
    (h : c.delegates = true ∨ ∀ f ∈ fields, ∀ n ∈ f.initNames, σ n = n) :
    (arrange fields hasSuper c.body).map (Stmt.rename σ)
      = arrange fields hasSuper (c.body.map (Stmt.rename σ)) := by
  have hplain : ∀ {body body' : List Stmt}, (c.delegates = true → False) → body' = body.map (Stmt.rename σ) →
      ((if hasSuper then [Stmt.construct .super []] else []) ++ setFields fields ++ body).map (Stmt.rename σ)
        = (if hasSuper then [Stmt.construct .super []] else []) ++ setFields fields ++ body' := by
    rintro body _ hnot rfl
    rw [List.map_append, List.map_append, map_rename_setFields hthis (h.resolve_left hnot)]
    cases hasSuper <;> rfl
  unfold delegates at h hplain
  cases hbody : c.body with
  | nil => exact hplain (by simp [hbody]) rfl
  | cons s rest =>
    rw [hbody] at h hplain
    cases s with
    | construct who args =>
      cases who with
      | this => rfl
      | super =>
        simp only [arrange, List.map_cons, Stmt.rename, List.map_append,
          map_rename_setFields hthis (h.resolve_left Bool.false_ne_true)]
    | _ => exact hplain Bool.false_ne_true rfl

/-- Elaboration commutes with a renaming that leaves the initialisers in the constructor as they are. -/
theorem elaborate_rename (hthis : σ thisName = thisName)
    (h : c.delegates = true ∨ ∀ f ∈ fields, ∀ n ∈ f.initNames, σ n = n) :
    (c.rename σ).elaborate fields hasSuper = (c.elaborate fields hasSuper).rename σ := by
  have hstmt : ∀ s : Stmt, ((s.qualify (.simple thisName)).returnThis).rename σ
      = ((s.rename σ).qualify (.simple thisName)).returnThis := by
    intro s
    rw [Stmt.rename_returnThis hthis, Stmt.rename_qualify _ (by rw [Path.rename, hthis])]
  have hret : Stmt.retThis.rename σ = Stmt.retThis := by
    simp [Stmt.retThis, Stmt.rename, Expr.this, Expr.rename, Path.rename, hthis]
  simp only [elaborate, rename, Stmt.map_rename_withTrailing _ hret, List.map_map, Function.comp_def, hstmt,
    ← map_rename_arrange hthis h]

end ConstructorDecl

/-! ### Callables -/

/-- The method with its parameters and other variables renamed. -/
def MethodDecl.rename (σ : String → String) (m : MethodDecl) : MethodDecl :=
  { m with
    params := m.params.map (fun q => { q with name := σ q.name })
    body := m.body.map (List.map (Stmt.rename σ)) }

@[simp] theorem MethodDecl.rename_id (m : MethodDecl) : m.rename id = m := by
  simp [rename, funext Stmt.rename_id]

namespace Callable

def rename (σ : String → String) : Callable → Callable
  | method m => method (m.rename σ)
  | constructor c => constructor (c.rename σ)

variable (σ : String → String) (k : Callable)

@[simp] theorem rename_id : k.rename id = k := by
  cases k <;> simp [rename]

@[simp] theorem name_rename : (k.rename σ).name = k.name := by cases k <;> rfl

@[simp] theorem isStatic_rename : (k.rename σ).isStatic = k.isStatic := by cases k <;> rfl

@[simp] theorem result_rename : (k.rename σ).result = k.result := by cases k <;> rfl

theorem params_rename : (k.rename σ).params = k.params.map (fun q => { q with name := σ q.name }) := by
  cases k <;> rfl

@[simp] theorem paramTypes_rename : (k.rename σ).paramTypes = k.paramTypes := by
  rw [paramTypes, paramTypes, params_rename, List.map_map]
  rfl

end Callable

end StashMachine
