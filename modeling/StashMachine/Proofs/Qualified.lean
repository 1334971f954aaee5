import StashMachine.Proofs.Locals
import StashMachine.Proofs.Orders
import StashMachine.Proofs.Parts

/-!
# StashMachine.Proofs.Qualified — every call has a qualifier

* `Expr.calls`, `Stmt.calls`: the names of all calls, at any depth and in any position.
* `Expr.UpToCalls R`, `Stmt.UpToCalls R`: the same code but for the names of calls, which `R` relates.
* `Item.Dotted`: all calls that wait in an item have a qualifier.  Elaboration makes it so
  (`ClassDecl.dotted_callables`), and every step keeps it (`allDotted_of_reached`).
* `qualification`: what qualifying does to a statement, and that no run finds a call without a qualifier.
-/

namespace StashMachine

open Environment Step Machine

/-- A name with a qualifier. -/
def Path.Dotted (p : Path) : Prop := ∃ q x, p = .field q x

theorem Path.dotted_field (p : Path) (x : String) : (Path.field p x).Dotted := ⟨p, x, rfl⟩

theorem Path.Dotted.mem_text {p : Path} (h : p.Dotted) : '.' ∈ p.text.toList := by
  obtain ⟨q, x, rfl⟩ := h
  simp

theorem Path.dotted_qualifiedBy (p q : Path) : (p.qualifiedBy q).Dotted := by
  cases p <;> exact dotted_field _ _

@[simp] theorem Path.qualifiedBy_qualifiedBy (p q q' : Path) : (p.qualifiedBy q).qualifiedBy q' = p.qualifiedBy q := by
  cases p <;> rfl

/-- The second name is the first one, or the first one is the last segment of the second. -/
def Path.Requalifies (p p' : Path) : Prop := p' = p ∨ p = .simple p'.last

theorem Path.requalifies_qualifiedBy (p q : Path) : p.Requalifies (p.qualifiedBy q) := by
  cases p with
  | simple x => exact .inr rfl
  | field p x => exact .inl rfl

/-! ### Expressions -/

namespace Expr

mutual

/-- The names of the calls in an expression, at any depth. -/
def calls : Expr → List Path
  | call m args => m :: callsAll args
  | assign _ v => v.calls
  | compound _ _ v => v.calls
  | binary _ l r => l.calls ++ r.calls
  | unary _ e => e.calls
  | new _ args => callsAll args
  | array _ es => callsAll es
  | literal _ | name _ | increment .. | void => []

/-- The names of the calls in several expressions. -/
def callsAll : List Expr → List Path
  | [] => []
  | e :: es => e.calls ++ callsAll es

end

theorem mem_callsAll {m : Path} {es : List Expr} : m ∈ callsAll es ↔ ∃ e ∈ es, m ∈ e.calls := by
  induction es with
  | nil => simp [callsAll]
  | cons e es ih => simp [callsAll, ih]

/-- The same expression, but for the names of calls, which `R` relates. -/
inductive UpToCalls (R : Path → Path → Prop) : Expr → Expr → Prop
  | literal (l : Literal) : UpToCalls R (literal l) (literal l)
  | name (p : Path) : UpToCalls R (name p) (name p)
  | void : UpToCalls R void void
  | increment (op : BinaryOp) (fix : Fixity) (t : Path) : UpToCalls R (increment op fix t) (increment op fix t)
  | assign (t : Path) {v v' : Expr} : UpToCalls R v v' → UpToCalls R (assign t v) (assign t v')
  | compound (op : BinaryOp) (t : Path) {v v' : Expr} : UpToCalls R v v' →
    UpToCalls R (compound op t v) (compound op t v')
  | binary (op : BinaryOp) {l l' r r' : Expr} : UpToCalls R l l' → UpToCalls R r r' →
    UpToCalls R (binary op l r) (binary op l' r')
  | unary (op : UnaryOp) {e e' : Expr} : UpToCalls R e e' → UpToCalls R (unary op e) (unary op e')
  | call {m m' : Path} {args args' : List Expr} : R m m' → List.Forall₂ (UpToCalls R) args args' →
    UpToCalls R (call m args) (call m' args')
  | new (c : String) {args args' : List Expr} : List.Forall₂ (UpToCalls R) args args' →
    UpToCalls R (new c args) (new c args')
  | array (t : TypeName) {es es' : List Expr} : List.Forall₂ (UpToCalls R) es es' →
    UpToCalls R (array t es) (array t es')

variable (q q' : Path)

mutual

/-- Qualifying leaves no call without a qualifier. -/
theorem dotted_qualify : ∀ e : Expr, ∀ m ∈ (e.qualify q).calls, m.Dotted
  | call m args => by
    rw [qualify, calls]
    exact List.forall_mem_cons.mpr ⟨m.dotted_qualifiedBy q, dotted_qualifyAll args⟩
  | assign t v => by
    rw [qualify, calls]
    exact dotted_qualify v
  | compound op t v => by
    rw [qualify, calls]
    exact dotted_qualify v
  | binary op l r => by
    rw [qualify, calls]
    exact List.forall_mem_append.mpr ⟨dotted_qualify l, dotted_qualify r⟩
  | unary op e => by
    rw [qualify, calls]
    exact dotted_qualify e
  | new c args => by
    rw [qualify, calls]
    exact dotted_qualifyAll args
  | array t es => by
    rw [qualify, calls]
    exact dotted_qualifyAll es
  | literal _ | name _ | increment .. | void => nofun

theorem dotted_qualifyAll : ∀ es : List Expr, ∀ m ∈ callsAll (qualifyAll q es), m.Dotted
  | [] => nofun
  | e :: es => by
    rw [qualifyAll, callsAll]
    exact List.forall_mem_append.mpr ⟨dotted_qualify e, dotted_qualifyAll es⟩

end

mutual

/-- Qualifying again changes nothing. -/
theorem qualify_qualify : ∀ e : Expr, (e.qualify q).qualify q' = e.qualify q
  | call m args => by simp only [qualify, Path.qualifiedBy_qualifiedBy, qualifyAll_qualifyAll args]
  | assign t v => by simp only [qualify, qualify_qualify v]
  | compound op t v => by simp only [qualify, qualify_qualify v]
  | binary op l r => by simp only [qualify, qualify_qualify l, qualify_qualify r]
  | unary op e => by simp only [qualify, qualify_qualify e]
  | new c args => by simp only [qualify, qualifyAll_qualifyAll args]
  | array t es => by simp only [qualify, qualifyAll_qualifyAll es]
  | literal _ | name _ | increment .. | void => rfl

theorem qualifyAll_qualifyAll : ∀ es : List Expr, qualifyAll q' (qualifyAll q es) = qualifyAll q es
  | [] => rfl
  | e :: es => by simp only [qualifyAll, qualify_qualify e, qualifyAll_qualifyAll es]

end

mutual

/-- Qualifying changes names of calls only, and of these only the qualifier. -/
theorem upToCalls_qualify : ∀ e : Expr, UpToCalls Path.Requalifies e (e.qualify q)
  | call m args => .call (m.requalifies_qualifiedBy q) (upToCalls_qualifyAll args)
  | assign t v => .assign t (upToCalls_qualify v)
  | compound op t v => .compound op t (upToCalls_qualify v)
  | binary op l r => .binary op (upToCalls_qualify l) (upToCalls_qualify r)
  | unary op e => .unary op (upToCalls_qualify e)
  | new c args => .new c (upToCalls_qualifyAll args)
  | array t es => .array t (upToCalls_qualifyAll es)
  | literal l => .literal l
  | name p => .name p
  | increment op fix t => .increment op fix t
  | void => .void

theorem upToCalls_qualifyAll : ∀ es : List Expr, List.Forall₂ (UpToCalls Path.Requalifies) es (qualifyAll q es)
  | [] => .nil
  | e :: es => .cons (upToCalls_qualify e) (upToCalls_qualifyAll es)

end

end Expr

/-! ### Statements -/

/-- The same variable, but for the names of calls in its initialiser. -/
def Declarator.UpToCalls (R : Path → Path → Prop) (d d' : Declarator) : Prop :=
  d.name = d'.name ∧ Option.Rel (Expr.UpToCalls R) d.init d'.init

/-- The same label, but for the names of calls in its expression. -/
inductive Label.UpToCalls (R : Path → Path → Prop) : Label → Label → Prop
  | case {e e' : Expr} : e.UpToCalls R e' → UpToCalls R (case e) (case e')
  | otherwise : UpToCalls R otherwise otherwise

namespace Stmt

/-- The names of the calls in a statement, at any depth. -/
def calls (s : Stmt) : List Path := s.parts.flatMap (fun t => t.ownExprs.flatMap Expr.calls)

theorem mem_calls {s : Stmt} {m : Path} : m ∈ s.calls ↔ ∃ t ∈ s.parts, ∃ e ∈ t.ownExprs, m ∈ e.calls := by
  simp [calls]

/-- The same statement, but for the names of calls, which `R` relates. -/
inductive UpToCalls (R : Path → Path → Prop) : Stmt → Stmt → Prop
  | block {ss ss' : List Stmt} : List.Forall₂ (UpToCalls R) ss ss' → UpToCalls R (block ss) (block ss')
  | declare (t : TypeName) {ds ds' : List Declarator} : List.Forall₂ (Declarator.UpToCalls R) ds ds' →
    UpToCalls R (declare t ds) (declare t ds')
  | expr {e e' : Expr} : e.UpToCalls R e' → UpToCalls R (expr e) (expr e')
  | ret {e e' : Option Expr} : Option.Rel (Expr.UpToCalls R) e e' → UpToCalls R (ret e) (ret e')
  | ite {c c' : Expr} {yes yes' : Stmt} {no no' : Option Stmt} : c.UpToCalls R c' → UpToCalls R yes yes' →
    Option.Rel (UpToCalls R) no no' → UpToCalls R (ite c yes no) (ite c' yes' no')
  | loop {c c' : Expr} {s s' : Stmt} : c.UpToCalls R c' → UpToCalls R s s' → UpToCalls R (loop c s) (loop c' s')
  | forLoop {init init' : List Stmt} {c c' : Option Expr} {update update' : List Stmt} {s s' : Stmt} :
    List.Forall₂ (UpToCalls R) init init' → Option.Rel (Expr.UpToCalls R) c c' →
    List.Forall₂ (UpToCalls R) update update' → UpToCalls R s s' →
    UpToCalls R (forLoop init c update s) (forLoop init' c' update' s')
  | switch {e e' : Expr} {arms arms' : List (Arm Stmt)} : e.UpToCalls R e' →
    List.Forall₂ (fun a a' => List.Forall₂ (Label.UpToCalls R) a.labels a'.labels) arms arms' →
    List.Forall₂ (fun a a' => List.Forall₂ (UpToCalls R) a.body a'.body) arms arms' →
    UpToCalls R (switch e arms) (switch e' arms')
  | construct (who : Delegate) {args args' : List Expr} : List.Forall₂ (Expr.UpToCalls R) args args' →
    UpToCalls R (construct who args) (construct who args')
  | breakOut : UpToCalls R breakOut breakOut
  | continueLoop : UpToCalls R continueLoop continueLoop
  | empty : UpToCalls R empty empty

section Qualify

variable (q q' : Path)

/-- Qualifying leaves no call without a qualifier. -/
theorem dotted_qualify (s : Stmt) : ∀ m ∈ (s.qualify q).calls, m.Dotted := by
  intro m hm
  obtain ⟨t, ht, e, he, hm⟩ := mem_calls.mp hm
  rw [parts_qualify] at ht
  obtain ⟨s', -, rfl⟩ := List.mem_map.mp ht
  rcases ownExprs_mapParts he with ⟨e', -, rfl⟩ | ⟨hnone, he⟩
  · exact Expr.dotted_qualify q e' m hm
  · rw [id, hnone] at he
    cases he

/-- Qualifying again changes nothing. -/
theorem qualify_qualify (s : Stmt) : (s.qualify q).qualify q' = s.qualify q := by
  rw [qualify, qualify, mapParts_mapParts]
  congr 1
  exact funext (Expr.qualify_qualify q q')

theorem rel_option (e : Option Expr) : Option.Rel (Expr.UpToCalls Path.Requalifies) e (e.map (Expr.qualify q)) := by
  cases e with
  | none => exact .none
  | some e => exact .some (Expr.upToCalls_qualify q e)

theorem upToCalls_labels (arms : List (Arm Stmt)) :
    List.Forall₂ (fun a a' => List.Forall₂ (Label.UpToCalls Path.Requalifies) a.labels a'.labels) arms
      (mapArms (Expr.qualify q) id arms) := by
  rw [mapArms_eq_map]
  refine List.forall₂_map_right_iff.mpr (List.forall₂_same.mpr (fun arm _ => ?_))
  refine List.forall₂_map_right_iff.mpr (List.forall₂_same.mpr (fun l _ => ?_))
  cases l with
  | case e => exact .case (Expr.upToCalls_qualify q e)
  | otherwise => exact .otherwise

mutual

/-- Qualifying changes names of calls only, and of these only the qualifier. -/
theorem upToCalls_qualify : ∀ s : Stmt, UpToCalls Path.Requalifies s (mapParts (Expr.qualify q) id s)
  | block body => by
    rw [mapParts]
    exact .block (upToCalls_all body)
  | declare t vars => by
    rw [mapParts]
    refine .declare t (List.forall₂_map_right_iff.mpr (List.forall₂_same.mpr (fun d _ => ⟨rfl, rel_option q d.init⟩)))
  | expr e => by
    rw [mapParts]
    exact .expr (Expr.upToCalls_qualify q e)
  | ret (some e) => by
    rw [mapParts]
    exact .ret (rel_option q (some e))
  | ite c yes no => by
    rw [mapParts]
    exact .ite (Expr.upToCalls_qualify q c) (upToCalls_qualify yes) (upToCalls_option no)
  | loop c body => by
    rw [mapParts]
    exact .loop (Expr.upToCalls_qualify q c) (upToCalls_qualify body)
  | forLoop init c update body => by
    rw [mapParts]
    exact .forLoop (upToCalls_all init) (rel_option q c) (upToCalls_all update) (upToCalls_qualify body)
  | switch e arms => by
    rw [mapParts]
    exact .switch (Expr.upToCalls_qualify q e) (upToCalls_labels q arms) (upToCalls_arms arms)
  | construct who args => by
    rw [mapParts]
    refine .construct who (List.forall₂_map_right_iff.mpr (List.forall₂_same.mpr (fun e _ => ?_)))
    exact Expr.upToCalls_qualify q e
  | ret none => .ret .none
  | breakOut => .breakOut
  | continueLoop => .continueLoop
  | empty => .empty

theorem upToCalls_all : ∀ ss : List Stmt,
    List.Forall₂ (UpToCalls Path.Requalifies) ss (mapAll (Expr.qualify q) id ss)
  | [] => .nil
  | s :: ss => .cons (upToCalls_qualify s) (upToCalls_all ss)

theorem upToCalls_option : ∀ s : Option Stmt,
    Option.Rel (UpToCalls Path.Requalifies) s (mapOption (Expr.qualify q) id s)
  | none => .none
  | some s => .some (upToCalls_qualify s)

theorem upToCalls_arms : ∀ arms : List (Arm Stmt),
    List.Forall₂ (fun a a' => List.Forall₂ (UpToCalls Path.Requalifies) a.body a'.body) arms
      (mapArms (Expr.qualify q) id arms)
  | [] => .nil
  | ⟨_, body⟩ :: arms => .cons (upToCalls_all body) (upToCalls_arms arms)

end

end Qualify

end Stmt

/-! ### Code with qualifiers -/

/-- Every call in the expression has a qualifier. -/
def Expr.Dotted (e : Expr) : Prop := ∀ m ∈ e.calls, m.Dotted

/-- Every call in the statement has a qualifier. -/
def Stmt.Dotted (s : Stmt) : Prop := ∀ m ∈ s.calls, m.Dotted

section Dotted

theorem dotted_callsAll {es : List Expr} : (∀ m ∈ Expr.callsAll es, m.Dotted) ↔ ∀ e ∈ es, e.Dotted := by
  simp only [Expr.mem_callsAll, Expr.Dotted]
  exact ⟨fun h e he m hm => h m ⟨e, he, hm⟩, fun h m ⟨e, he, hm⟩ => h e he m hm⟩

namespace Expr

variable {e l r v : Expr} {args es : List Expr} {p t m : Path} {op : BinaryOp} {uop : UnaryOp}
  {c : String} {type : TypeName} {lit : Literal}

@[simp] theorem dotted_literal : (literal lit).Dotted := nofun

@[simp] theorem dotted_name : (name p).Dotted := nofun

@[simp] theorem dotted_void : Expr.void.Dotted := nofun

@[simp] theorem dotted_assign : (assign t v).Dotted ↔ v.Dotted := by simp [Dotted, calls]

@[simp] theorem dotted_compound : (compound op t v).Dotted ↔ v.Dotted := by simp [Dotted, calls]

@[simp] theorem dotted_binary : (binary op l r).Dotted ↔ l.Dotted ∧ r.Dotted := by
  simp [Dotted, calls, or_imp, forall_and]

@[simp] theorem dotted_unary : (unary uop e).Dotted ↔ e.Dotted := by simp [Dotted, calls]

@[simp] theorem dotted_call : (call m args).Dotted ↔ m.Dotted ∧ ∀ e ∈ args, e.Dotted := by
  rw [Dotted, calls, List.forall_mem_cons, dotted_callsAll]

@[simp] theorem dotted_new : (new c args).Dotted ↔ ∀ e ∈ args, e.Dotted := by rw [Dotted, calls, dotted_callsAll]

@[simp] theorem dotted_array : (array type es).Dotted ↔ ∀ e ∈ es, e.Dotted := by rw [Dotted, calls, dotted_callsAll]

end Expr

namespace Stmt

theorem dotted_iff {s : Stmt} : s.Dotted ↔ ∀ t ∈ s.parts, ∀ e ∈ t.ownExprs, e.Dotted := by
  simp only [Dotted, mem_calls, Expr.Dotted]
  exact ⟨fun h t ht e he m hm => h m ⟨t, ht, e, he, hm⟩, fun h m ⟨t, ht, e, he, hm⟩ => h t ht e he m hm⟩

variable {s body yes : Stmt} {no : Option Stmt} {ss init update : List Stmt} {e c : Expr} {oe : Option Expr}
  {arms : List (Arm Stmt)} {args : List Expr} {t : TypeName} {vars : List Declarator} {who : Delegate}

theorem dotted_partsAll : (∀ t ∈ partsAll ss, ∀ e ∈ t.ownExprs, e.Dotted) ↔ ∀ s ∈ ss, s.Dotted := by
  simp only [mem_partsAll, dotted_iff]
  exact ⟨fun h s hs t ht => h t ⟨s, hs, ht⟩, fun h t ⟨s, hs, ht⟩ => h s hs t ht⟩

@[simp] theorem dotted_block : (block ss).Dotted ↔ ∀ s ∈ ss, s.Dotted := by
  rw [dotted_iff, parts, List.forall_mem_cons, dotted_partsAll]
  simp [ownExprs]

@[simp] theorem dotted_declare : (declare t vars).Dotted ↔ ∀ d ∈ vars, ∀ e, d.init = some e → e.Dotted := by
  simp only [dotted_iff, parts, List.forall_mem_singleton, ownExprs, List.mem_filterMap]
  constructor
  · intro h d hd e he
    exact h e ⟨d, hd, he⟩
  · rintro h e ⟨d, hd, he⟩
    exact h d hd e he

@[simp] theorem dotted_expr : (expr e).Dotted ↔ e.Dotted := by simp [dotted_iff, parts, ownExprs]

@[simp] theorem dotted_ret : (ret oe).Dotted ↔ ∀ e, oe = some e → e.Dotted := by simp [dotted_iff, parts, ownExprs]

@[simp] theorem dotted_ite : (ite c yes no).Dotted ↔ c.Dotted ∧ yes.Dotted ∧ ∀ s, no = some s → s.Dotted := by
  cases no <;> simp [dotted_iff, parts, partsOption, ownExprs, or_imp, forall_and]

@[simp] theorem dotted_loop : (loop c body).Dotted ↔ c.Dotted ∧ body.Dotted := by simp [dotted_iff, parts, ownExprs]

@[simp] theorem dotted_forLoop : (forLoop init oe update body).Dotted ↔ (∀ s ∈ init, s.Dotted) ∧
    (∀ e, oe = some e → e.Dotted) ∧ (∀ s ∈ update, s.Dotted) ∧ body.Dotted := by
  rw [dotted_iff, parts, List.forall_mem_cons, List.forall_mem_append, List.forall_mem_append, dotted_partsAll,
    dotted_partsAll, ← dotted_iff]
  simp only [ownExprs, Option.mem_toList]
  tauto

theorem dotted_of_switch (h : (switch e arms).Dotted) : e.Dotted ∧ ∀ arm ∈ arms, ∀ s ∈ arm.body, s.Dotted := by
  rw [dotted_iff, parts, List.forall_mem_cons] at h
  refine ⟨h.1 e (.head _), fun arm harm s hs => dotted_iff.mpr (fun t ht => h.2 t ?_)⟩
  exact mem_partsArms.mpr ⟨arm, harm, s, hs, ht⟩

@[simp] theorem dotted_construct : (construct who args).Dotted ↔ ∀ e ∈ args, e.Dotted := by
  simp [dotted_iff, parts, ownExprs]

end Stmt

end Dotted

/-! ### Control -/

mutual

/-- Every call that waits in the item has a qualifier, except for code that is not elaborated yet. -/
def Item.Dotted : Item → Prop
  | .stmt s => s.Dotted
  | .expr e => e.Dotted
  | .typeOf e => e.Dotted
  | .field f => ∀ d ∈ f.vars, ∀ e, d.init = some e → e.Dotted
  | .whileRound c body => c.Dotted ∧ body.Dotted
  | .forRound c update body => (∀ e, c = some e → e.Dotted) ∧ (∀ s ∈ update, s.Dotted) ∧ body.Dotted
  | .switch arms => ∀ arm ∈ arms, ∀ s ∈ arm.body, s.Dotted
  | .branch yes no => AllDotted yes ∧ AllDotted no
  | _ => True

/-- Every call that waits in the items has a qualifier. -/
def AllDotted : List Item → Prop
  | [] => True
  | i :: c => i.Dotted ∧ AllDotted c

end

theorem allDotted_iff {c : List Item} : AllDotted c ↔ ∀ i ∈ c, i.Dotted := by
  induction c with
  | nil => simp [AllDotted]
  | cons i c ih => simp [AllDotted, ih]

@[simp] theorem allDotted_nil : AllDotted [] := trivial

@[simp] theorem allDotted_cons {i : Item} {c : List Item} : AllDotted (i :: c) ↔ i.Dotted ∧ AllDotted c := Iff.rfl

@[simp] theorem allDotted_append {c c' : List Item} : AllDotted (c ++ c') ↔ AllDotted c ∧ AllDotted c' := by
  simp [allDotted_iff, or_imp, forall_and]

@[simp] theorem allDotted_stmts {ss : List Stmt} : AllDotted (ss.map .stmt) ↔ ∀ s ∈ ss, s.Dotted := by
  simp [allDotted_iff, Item.Dotted]

@[simp] theorem allDotted_exprs {es : List Expr} : AllDotted (es.map .expr) ↔ ∀ e ∈ es, e.Dotted := by
  simp [allDotted_iff, Item.Dotted]

@[simp] theorem allDotted_types {es : List Expr} : AllDotted (es.map .typeOf) ↔ ∀ e ∈ es, e.Dotted := by
  simp [allDotted_iff, Item.Dotted]

theorem dotted_mainCall (x : String) : (Expr.mainCall x).Dotted := by
  simp [Expr.mainCall, Path.dotted_field]

theorem FieldDecl.dotted_elaborate (f : FieldDecl) (x : String) : (Item.field (f.elaborate x)).Dotted := by
  intro d hd e he
  obtain ⟨d', -, rfl⟩ := List.mem_map.mp hd
  obtain ⟨e', -, rfl⟩ := Option.map_eq_some_iff.mp he
  exact Expr.dotted_qualify _ e'

theorem dotted_getD {e : Option Expr} {d : Expr} (h : ∀ e', e = some e' → e'.Dotted) (hd : d.Dotted) :
    (e.getD d).Dotted := by
  cases e with
  | none => exact hd
  | some e => exact h e rfl

/-- An item hands on code whose calls have qualifiers. -/
theorem Orders.dotted {i j : Item} (h : Orders i j) (hi : i.Dotted) : j.Dotted := by
  have hall : ∀ {c : List Item}, j ∈ c → AllDotted c → j.Dotted := fun hj h => allDotted_iff.mp h j hj
  cases h with
  | program hj =>
    rcases hj with ⟨d, rfl⟩ | ⟨x, rfl⟩
    · trivial
    · exact dotted_mainCall x
  | @member d k => cases k <;> trivial
  | static => exact FieldDecl.dotted_elaborate _ _
  | back => trivial
  | breakOut => trivial
  | continueLoop => trivial
  | fields hd =>
    intro d' hd' e he
    rw [List.mem_singleton.mp hd'] at he
    exact hi _ hd e he
  | locals hd =>
    rw [Item.Dotted, Stmt.dotted_declare] at hi ⊢
    intro d' hd' e he
    rw [List.mem_singleton.mp hd'] at he
    exact hi _ hd e he
  | setUp hd he hj => exact hall hj (by simpa [Item.Dotted] using hi _ hd _ he)
  | declare hd he hj =>
    rw [Item.Dotted, Stmt.dotted_declare] at hi
    exact hall hj (by simpa [Item.Dotted] using hi _ hd _ he)
  | ret hj =>
    rw [Item.Dotted, Stmt.dotted_ret] at hi
    exact hall hj (by simpa [Item.Dotted] using dotted_getD hi Expr.dotted_void)
  | whileRound hj =>
    obtain ⟨hc, hbody⟩ := hi
    exact hall hj (by simp [Item.Dotted, hc, hbody])
  | forRound hj =>
    obtain ⟨hc, hupdate, hbody⟩ := hi
    have hcond := dotted_getD hc (d := .literal (.boolean true)) Expr.dotted_literal
    exact hall hj (by simpa [Item.Dotted, hcond, hbody] using ⟨hupdate, hc, hupdate⟩)
  | switch hj => exact hall hj (by simpa [Item.Dotted] using Stmt.dotted_of_switch hi)
  | arms harm hs => exact hi _ harm _ hs
  | branch hj =>
    rw [Item.Dotted] at hi
    exact hj.elim (fun hj => hall hj hi.1) (fun hj => hall hj hi.2)
  | name hj | find hj | typeOf hj | increment hj => exact hall hj (by simp [Item.Dotted])
  | _ =>
    rename_i hj
    exact hall hj (by simpa [Item.Dotted, Path.dotted_field] using hi)

/-! ### Bodies -/

/-- Every call in the body of a callable has a qualifier. -/
def Callable.Dotted (k : Callable) : Prop := ∀ body, k.body? = some body → ∀ s ∈ body, s.Dotted

theorem Stmt.dotted_returnThis {s : Stmt} (h : s.Dotted) : s.returnThis.Dotted := by
  refine dotted_iff.mpr (fun t ht e he => ?_)
  rw [parts_returnThis] at ht
  obtain ⟨t', ht', rfl⟩ := List.mem_map.mp ht
  rcases ownExprs_mapParts he with ⟨_, he', rfl⟩ | ⟨hnone, he⟩
  · exact dotted_iff.mp h t' ht' e he'
  · unfold retThisLeaf at he
    split at he
    · rw [List.mem_singleton.mp he]
      exact Expr.dotted_name
    · rw [hnone] at he
      cases he

theorem MethodDecl.dotted_elaborate (m : MethodDecl) (className : String) :
    (Callable.method (m.elaborate className)).Dotted := by
  intro body hbody s hs
  rw [Callable.body?] at hbody
  split at hbody
  · cases hbody
  · obtain ⟨source, -, rfl⟩ := Option.map_eq_some_iff.mp hbody
    rcases Stmt.mem_withTrailing hs with hs | rfl
    · obtain ⟨s', -, rfl⟩ := List.mem_map.mp hs
      exact Stmt.dotted_qualify _ s'
    · refine Stmt.dotted_ret.mpr (fun e he => ?_)
      cases he

theorem ConstructorDecl.dotted_elaborate (c : ConstructorDecl) (fields : List FieldDecl) (hasSuper : Bool) :
    (Callable.constructor (c.elaborate fields hasSuper)).Dotted := by
  rintro body ⟨⟩ s hs
  rcases Stmt.mem_withTrailing hs with hs | rfl
  · obtain ⟨s', -, rfl⟩ := List.mem_map.mp hs
    exact Stmt.dotted_returnThis (Stmt.dotted_qualify _ s')
  · refine Stmt.dotted_ret.mpr (fun e he => ?_)
    cases he
    exact Expr.dotted_name

/-- The callables that run are elaborated. -/
theorem ClassDecl.dotted_callables {d : ClassDecl} {f : FrameId} {superclass : Option Class} {k : Callable}
    (hk : k ∈ (d.elaborate f superclass).toClassInfo.callables) : k.Dotted := by
  simp only [ClassInfo.callables, ClassInfo.methods, ClassDecl.elaborate, List.map_append, List.mem_append,
    List.mem_map] at hk
  rcases hk with (⟨_, ⟨m, -, rfl⟩, rfl⟩ | ⟨_, ⟨m, -, rfl⟩, rfl⟩) | ⟨_, ⟨k, -, rfl⟩, rfl⟩
  · exact m.dotted_elaborate d.name
  · exact m.dotted_elaborate d.name
  · exact k.dotted_elaborate _ _

/-! ### Runs -/

section Runs

variable {p : Program} {m m' : Machine}

theorem allDotted_addReceiver? {n : Nat} {c c' : List Item} (h : addReceiver? n c = some c') (hc : AllDotted c) :
    AllDotted c' := by
  fun_induction addReceiver? n c generalizing c' with
  | case1 n rest =>
    cases h
    exact ⟨trivial, hc.2⟩
  | case2 depth item rest ih =>
    obtain ⟨rest', hrest, rfl⟩ := Option.map_eq_some_iff.mp h
    exact ⟨hc.1, ih hrest hc.2⟩
  | case3 => cases h

/-- A step keeps all calls on control qualified, if the body that it may enter is. -/
theorem Hands.allDotted {r : Registers} {i : Item} {c' : List Item} (h : Hands r i c')
    (hbody : ∀ k object, Calls r i k object → k.callable.Dotted) (hc : AllDotted (i :: r.control)) : AllDotted c' := by
  obtain ⟨hi, hc⟩ := hc
  cases h with
  | orders new _ hnew hc' =>
    rw [hc', allDotted_append, allDotted_iff]
    exact ⟨fun j hj => (hnew j hj).dotted hi, hc⟩
  | keeps x n q _ hc' => rwa [hc']
  | selects x n q new c _ hnew hadd hc' =>
    rw [hc', allDotted_append, allDotted_iff]
    refine ⟨fun j hj => ?_, allDotted_addReceiver? hadd hc⟩
    exact allDotted_iff.mp (by simp [Item.Dotted] : AllDotted [.expr (.name q), .override]) j (hnew j hj)
  | jumps j _ hunwind =>
    obtain ⟨front, hfront, -⟩ := exists_of_unwind_eq_ok hunwind
    rw [hfront, allDotted_append] at hc
    exact hc.2.2
  | enters n k object body _ hcalls hbody' hc' =>
    rw [hc']
    exact ⟨Stmt.dotted_block.mpr (hbody k object hcalls body hbody'), trivial, trivial, hc⟩

/-- Wherever a run stands, every call that waits has a qualifier. -/
theorem allDotted_of_reached (hm : Reached Natives.empty p m) : AllDotted m.registers.control := by
  refine hm.induction (P := fun m => AllDotted m.registers.control) ⟨trivial, trivial⟩ (fun m m₁ hm ih hnext => ?_)
  obtain ⟨i, c, hc, -⟩ := next_iff.mp hnext
  rw [hc] at ih
  refine (hnext.hands hc).allDotted (fun k object hcalls => ?_) ih
  obtain ⟨d, g, superclass, -, hk⟩ := exists_decl_of_calls hm hcalls
  exact ClassDecl.dotted_callables hk

/-- No step of a run complains about a call without a qualifier. -/
theorem isBareCall_of_evaluate {e : Fault} {n : Nat}
    (h : evaluate Natives.empty n (initial.loadProgram p) = .error e m') : e.isBareCall = false := by
  obtain ⟨k, m, hk, hlast⟩ := exists_of_evaluate_error h
  obtain ⟨i, c, hc, hperform⟩ := evaluate_one_error hlast
  have hdotted := allDotted_of_reached ⟨k, hk⟩
  rw [hc] at hdotted
  refine (perform_spares (fun x args hi => ?_) _).of_error hperform
  -- the name of such a call has no qualifier
  rw [hi] at hdotted
  obtain ⟨⟨q, y, hname⟩, -⟩ := Expr.dotted_call.mp hdotted.1
  cases hname

end Runs

/-- Qualifying leaves no call of a statement without a qualifier, wherever it stands; it changes nothing but names
of calls, and a changed name has the old one for its last segment; and qualifying again changes nothing.  So no
run of a program comes to a call without a qualifier, which would be a fault. -/
theorem qualification : (∀ (s : Stmt) (q : Path), (∀ m ∈ (s.qualify q).calls, '.' ∈ m.text.toList) ∧
      s.UpToCalls (fun m m' => m' = m ∨ m = .simple m'.last) (s.qualify q) ∧
      ∀ q', (s.qualify q).qualify q' = s.qualify q) ∧
    ∀ (p : Program) n x m',
      evaluate Natives.empty n (initial.loadProgram p) ≠ .error (.unsupported (.bareCall x)) m' := by
  refine ⟨fun s q => ⟨fun m hm => (s.dotted_qualify q m hm).mem_text, ?_, s.qualify_qualify q⟩, ?_⟩
  · exact s.upToCalls_qualify q
  · intro p n x m' h
    cases isBareCall_of_evaluate h

end StashMachine
