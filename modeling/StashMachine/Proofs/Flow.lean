import StashMachine.Machine.Run
import StashMachine.Proofs.Bodies
import StashMachine.Proofs.Store
import Mathlib.Data.List.Forall2

/-!
# StashMachine.Proofs.Flow — control and stash fit together

Every item of control takes some items off the stash and leaves others.  `Flows g b c l f σ` says that
the items `c` of control fit: run one after the other from the frame `f` over a stash of the kinds `σ`,
each finds what it takes, and they end the way `b` says.

* `Kind`, `Holds`: what is known of an item of the stash.
* `Level`: where control stands: before a statement, in the middle of an expression, or at a place that
  only a `return` passes.
* `Item.asks`: what an item asks of the stash, and of the items behind it; `Flows` is `Item.asks` from
  the first item to the last.
* `OnTrack`: control and stash fit in an environment.

A `Regime` says how much is asked.  With `careful` the kinds also say which variables are valid, how
many parameters closures have and what receivers are; without it they only tell the forms of the items
apart, which is enough to count them.
-/

namespace StashMachine

open Environment

/-- What is known of an item of the stash. -/
inductive Kind
  /-- A value, or a class that was named where a value should be. -/
  | result
  /-- A variable or a class. -/
  | place
  /-- The variable `super`, or a class of that name. -/
  | self
  /-- What a method is invoked on. -/
  | receiver
  /-- A static type. -/
  | type
  /-- A closure that runs without a receiver. -/
  | callee (arity : Nat)
  /-- A closure that runs on a receiver. -/
  | method (arity : Nat)

/-- What is asked of a run. -/
structure Regime where
  /-- Whether variables, arities and receivers matter. -/
  careful : Prop
  /-- The values a receiver may be besides objects. -/
  odd : Value → Prop
  /-- Which markers and which jumps may stand on control, over which items. -/
  origin : List Item → Prop

namespace Regime

variable (g : Regime)

/-- What a method may be invoked on. -/
def Receiver (v : Value) : Prop := (∃ c f, v = .object c f) ∨ g.odd v

/-- A closure that waits on the stash for a number of arguments. -/
def Callee (k : Closure) (isStatic : Bool) (arity : Nat) : Prop :=
  k.callable.Returns ∧ (g.careful →
    k.callable.isStatic = isStatic ∧ k.callable.params.length = arity ∧ k.callable.Plain)

/-- A statement that stands somewhere else than in front of a constructor's body. -/
def Plain (s : Stmt) : Prop := g.careful → s.delegates = false

/-- The item that starts the next round of a loop. -/
def Round : Item → Prop
  | .whileRound _ body => g.Plain body
  | .forRound _ update body => (∀ s ∈ update, g.Plain s) ∧ g.Plain body
  | _ => False

/-- The environment has changed as code changes it. -/
def Evolves (env env' : Environment) : Prop :=
  (∀ k, env'.Binds k → env.Binds k ∨ k.callable.Returns) ∧ (g.careful → Lasts env env')

end Regime

/-- An item of the stash is of a kind. -/
def Holds (g : Regime) (env : Environment) : Kind → StashItem → Prop
  | .result, i => (∃ v, i = .value v) ∨ ∃ c, i = .cls c
  | .place, i => (∃ x, i = .var x ∧ (g.careful → ∃ v, env.var? x = some v)) ∨ ∃ c, i = .cls c
  | .self, i =>
    (∃ x, i = .var x ∧ (g.careful → ∃ v, env.var? x = some v ∧ v.name = superName)) ∨
      ∃ c, i = .cls c
  | .receiver, i => (∃ v, i = .value v ∧ (g.careful → g.Receiver v)) ∨ ∃ c, i = .cls c
  | .type, i => ∃ t, i = .type t
  | .callee n, i => ∃ k, i = .closure k ∧ g.Callee k true n
  | .method n, i => ∃ k, i = .closure k ∧ g.Callee k false n

/-- Where control stands. -/
inductive Level
  /-- In the middle of an expression. -/
  | value
  /-- Before a statement, or behind the last one. -/
  | stmt
  /-- Behind the `return` that ends a body. -/
  | land
  /-- Behind the initialiser of a static field. -/
  | done
  /-- Before the arguments of a call whose method is not selected yet: the number of arguments that are
  still to come, and of all of them. -/
  | pending (left all : Nat)
  /-- At the start of a constructor, before anything can have touched the receiver. -/
  | opening
  /-- As `opening`, with the variable of the receiver on the stash. -/
  | opened

/-- How a piece of control ends: with one result more on the stash, as statements end, or as the
initialiser of a static field ends. -/
inductive Base
  | value (frame : FrameId)
  | statement (frame : FrameId)
  | field (frame : FrameId)

/-- What holds when a piece of control is used up. -/
def Base.Ends : Base → Level → FrameId → List Kind → Prop
  | .value f, .value, f', σ => f' = f ∧ σ = [.result]
  | .statement f, .stmt, f', σ => f' = f ∧ σ = []
  | .field f, .done, f', σ => f' = f ∧ σ = []
  | _, _, _, _ => False

/-- Whether only a `return` leads out of a statement. -/
def Stmt.Leaves : Stmt → Prop
  | .ret _ => True
  | .block body => EndsInReturn body
  | _ => False

namespace Item

/-- The items whose origin is asked for: markers, and the jumps that look for one within a call. -/
inductive Turns : Item → Prop
  | marker (j : Jump) : Turns (.marker j)
  | reset {j : Jump} : j ≠ .ret → Turns (.reset j)

section Asks

variable (g : Regime) (rest : List Item) (next : Level → FrameId → List Kind → Prop) (f : FrameId)
  (σ : List Kind)

/-- What an item asks in the middle of an expression. -/
def asksValue : Item → Prop
  | .expr e => next .value f (.result :: σ) ∨
    ∃ x, e = .name (.simple x) ∧ (g.careful → x = superName) ∧ next .value f (.receiver :: σ)
  | .find p => next .value f (.place :: σ) ∨
    ∃ x, p = .simple x ∧ (g.careful → x = superName) ∧ next .value f (.self :: σ)
  | .deref => (∃ τ, σ = .place :: τ ∧ next .value f (.result :: τ)) ∨
    ∃ τ, σ = .self :: τ ∧ next .value f (.receiver :: τ)
  | .select _ => ∃ τ, σ = .place :: τ ∧ next .value f (.place :: τ)
  | .load => ∃ τ, σ = .place :: τ ∧ next .value f (.result :: .place :: τ)
  | .assign => ∃ τ, σ = .result :: .place :: τ ∧ next .value f (.result :: τ)
  | .compoundAssign _ =>
    ∃ τ, σ = .result :: .result :: .place :: τ ∧ next .value f (.result :: τ)
  | .increment _ _ => ∃ τ, σ = .place :: τ ∧ next .value f (.result :: τ)
  | .binary _ => ∃ τ, σ = .result :: .result :: τ ∧ next .value f (.result :: τ)
  | .unary _ => ∃ τ, σ = .result :: τ ∧ next .value f (.result :: τ)
  | .arrayOf _ n => ∃ τ, σ = List.replicate n .result ++ τ ∧ next .value f (.result :: τ)
  | .typeOf _ => next .value f (.type :: σ)
  | .typeOfField _ => ∃ τ, σ = .type :: τ ∧ next .value f (.type :: τ)
  | .overload _ n _ => ∃ τ, σ = List.replicate n .type ++ .type :: τ ∧ next (.pending n n) f τ
  | .overloadConstructor _ n =>
    ∃ τ, σ = List.replicate n .type ++ τ ∧ next .value f (.method n :: τ)
  | .override => ∃ n τ, σ = .result :: .method n :: τ ∧ next .value f (.receiver :: .method n :: τ)
  | .new _ => next .value f (.receiver :: σ)
  | .invoke n => ∃ τ, next .value f (.result :: τ) ∧
    (σ = List.replicate n .result ++ .callee n :: τ ∨
      ∃ k, n = k + 1 ∧ σ = List.replicate k .result ++ .receiver :: .method k :: τ)
  | .restore f' => next .value f' σ
  | .pop => ∃ τ, σ = .result :: τ ∧ (next .stmt f τ ∨ next .done f τ)
  | .reset j => j = .ret ∧ ∃ τ, σ = .result :: τ ∧ (next .stmt f τ ∨ next .land f τ)
  | .switch arms => (∀ arm ∈ arms, ∀ s ∈ arm.body, g.Plain s) ∧ (∃ c, rest = .marker .brk :: c) ∧
    ∃ τ, σ = .result :: τ ∧ next .stmt f τ
  | .branch yes no => ∃ τ, σ = .result :: τ ∧
    ((∃ l r, yes = [.expr l] ∧ no = [.expr r] ∧ next .value f (.result :: τ)) ∨
      (∃ y n : List Stmt, yes = y.map .stmt ∧ no = n.map .stmt ∧
        (∀ s ∈ y ++ n, g.Plain s) ∧ next .stmt f τ) ∨
      ∃ body update round, no = [] ∧
        yes = .stmt body :: .marker .cont :: .restore f :: (List.map .stmt update ++ [round]) ∧
        g.Plain body ∧ (∀ s ∈ update, g.Plain s) ∧ g.Round round ∧ next .stmt f τ)
  | _ => False

/-- What an item asks before a statement. -/
def asksStmt : Item → Prop
  | .stmt s => g.Plain s ∧ (next .stmt f σ ∨ s.Leaves ∧ next .land f σ)
  | .restore f' => next .stmt f' σ
  | .marker j =>
    j ≠ .ret ∧ (∃ f' c, rest = .restore f' :: c ∧ g.origin (.marker j :: rest)) ∧ next .stmt f σ
  | .reset j => j ≠ .ret ∧ g.origin (.reset j :: rest) ∧ next .stmt f σ
  | .whileRound c body => g.Round (.whileRound c body) ∧ next .stmt f σ
  | .forRound c update body => g.Round (.forRound c update body) ∧ next .stmt f σ
  | _ => False

/-- What an item asks that only a `return` passes. -/
def asksLand : Item → Prop
  | .restore _ => next .land f σ
  | .marker .ret =>
    (∃ f' c, rest = .restore f' :: c ∧ g.origin (.marker .ret :: rest)) ∧ next .value f (.result :: σ)
  | _ => False

/-- What an item asks before the arguments of a call whose method is not selected yet. -/
def asksPending : Nat → Nat → Item → Prop
  | left + 1, all, .expr _ => next (.pending left all) f σ
  | 0, all, .invoke n => n = all ∧ next .value f (.result :: σ)
  | _, _, _ => False

/-- What an item asks at the start of a constructor that calls another one. -/
def asksOpening : Item → Prop
  | .stmt s => (∃ args body, s = .block (.construct .this args :: body) ∧ EndsInReturn body ∧
      (∀ s ∈ body, g.Plain s) ∧ next .land f σ) ∨
    ∃ args, s = .construct .this args ∧ next .stmt f σ
  | .typeOf _ => next .opening f (.type :: σ)
  | .typeOfField _ => ∃ τ, σ = .type :: τ ∧ next .opening f (.type :: τ)
  | .overloadConstructor _ n =>
    ∃ τ, σ = List.replicate n .type ++ τ ∧ next .opening f (.method n :: τ)
  | .expr e => e = .name (.simple thisName) ∧ next .value f (.receiver :: σ)
  | .find p => p = .simple thisName ∧ next .opened f (.place :: σ)
  | _ => False

/-- What an item asks when the variable of the receiver is on the stash. -/
def asksOpened : Item → Prop
  | .deref => ∃ τ, σ = .place :: τ ∧ next .value f (.receiver :: τ)
  | _ => False

/-- What an item asks of the stash and of what comes behind it. -/
def asks (l : Level) (i : Item) : Prop :=
  match l with
  | .value => i.asksValue g rest next f σ
  | .stmt => i.asksStmt g rest next f σ
  | .land => i.asksLand g rest next f σ
  | .done => False
  | .pending left all => i.asksPending next f σ left all
  | .opening => i.asksOpening g next f σ
  | .opened => i.asksOpened next f σ

end Asks

end Item

/-- Control fits a stash of given kinds, from a frame on. -/
def Flows (g : Regime) (b : Base) : List Item → Level → FrameId → List Kind → Prop
  | [], l, f, σ => b.Ends l f σ
  | i :: c, l, f, σ => i.asks g c (Flows g b c) f σ l

/-- The receiver of the current call is an object. -/
def HasReceiver (env : Environment) : Prop :=
  ∃ x v c f, env.lookup? thisName = some (.var x) ∧ env.var? x = some v ∧
    v.value = some (.object c f)

/-- What a level asks of a machine that stands there. -/
def Level.Stands (env : Environment) (s : List StashItem) : Level → Prop
  | .value | .stmt | .done => True
  | .land | .pending _ _ => False
  | .opening => HasReceiver env
  | .opened => ∃ x v c f rest, s = .var x :: rest ∧ env.var? x = some v ∧
    v.value = some (.object c f)

/-- Control and stash fit in an environment. -/
def OnTrack (g : Regime) (b : Base) (c : List Item) (s : List StashItem) (env : Environment) : Prop :=
  ∃ l σ, l.Stands env s ∧ Flows g b c l env.current σ ∧ List.Forall₂ (Holds g env) σ s

section Holds

variable {g : Regime} {env : Environment}

theorem holds_value (v : Value) : Holds g env .result (.value v) := .inl ⟨v, rfl⟩

theorem holds_var {x : VarId} (h : g.careful → ∃ v, env.var? x = some v) :
    Holds g env .place (.var x) := .inl ⟨x, rfl, h⟩

theorem holds_receiver {v : Value} (h : g.careful → g.Receiver v) :
    Holds g env .receiver (.value v) := .inl ⟨v, rfl, h⟩

theorem holds_type (t : TypeName) : Holds g env .type (.type t) := ⟨t, rfl⟩

theorem holds_callee {k : Closure} {n : Nat} (h : g.Callee k true n) :
    Holds g env (.callee n) (.closure k) := ⟨k, rfl, h⟩

theorem holds_method {k : Closure} {n : Nat} (h : g.Callee k false n) :
    Holds g env (.method n) (.closure k) := ⟨k, rfl, h⟩

end Holds

/-! ### Changes of the environment -/

section Evolves

variable {g : Regime} {env env₁ env' : Environment}

theorem Regime.Evolves.of_lasts (h : Lasts env env') : g.Evolves env env' :=
  ⟨fun _ hk => .inl (h.binds hk), fun _ => h⟩

theorem Regime.Evolves.refl (env : Environment) : g.Evolves env env := .of_lasts (.refl env)

theorem Regime.Evolves.trans (h : g.Evolves env env₁) (h' : g.Evolves env₁ env') :
    g.Evolves env env' := by
  refine ⟨fun k hk => ?_, fun hg => (h.2 hg).trans (h'.2 hg)⟩
  rcases h'.1 k hk with hk | hk
  · exact h.1 k hk
  · exact .inr hk

/-- Items of the stash keep their kinds. -/
theorem Holds.mono (h : g.Evolves env env') {κ : Kind} {i : StashItem} (hi : Holds g env κ i) :
    Holds g env' κ i := by
  cases κ with
  | place =>
    rcases hi with ⟨x, rfl, hx⟩ | hc
    · refine .inl ⟨x, rfl, fun hg => ?_⟩
      obtain ⟨v, hv⟩ := hx hg
      obtain ⟨v', hv', -⟩ := (h.2 hg).vars x v hv
      exact ⟨v', hv'⟩
    · exact .inr hc
  | self =>
    rcases hi with ⟨x, rfl, hx⟩ | hc
    · refine .inl ⟨x, rfl, fun hg => ?_⟩
      obtain ⟨v, hv, hname⟩ := hx hg
      obtain ⟨v', hv', hname'⟩ := (h.2 hg).vars x v hv
      exact ⟨v', hv', hname'.trans hname⟩
    · exact .inr hc
  | result | receiver | type | callee | method => exact hi

theorem holds_mono (h : g.Evolves env env') {σ : List Kind} {s : List StashItem}
    (hs : List.Forall₂ (Holds g env) σ s) : List.Forall₂ (Holds g env') σ s :=
  hs.imp (fun _ _ hi => hi.mono h)

end Evolves

/-! ### Stashes -/

/-- The items of one kind on top of a stash. -/
theorem forall₂_replicate {α β : Type} {R : α → β → Prop} {a : α} {n : Nat} {as : List α}
    {bs : List β} (h : List.Forall₂ R (List.replicate n a ++ as) bs) :
    ∃ top rest, bs = top ++ rest ∧ top.length = n ∧ (∀ b ∈ top, R a b) ∧ List.Forall₂ R as rest := by
  induction n generalizing bs with
  | zero => exact ⟨[], bs, rfl, rfl, by simp, h⟩
  | succ n ih =>
    rw [List.replicate_succ, List.cons_append] at h
    cases h with
    | cons hb h =>
      obtain ⟨top, rest, rfl, hlen, htop, hrest⟩ := ih h
      refine ⟨_ :: top, rest, rfl, by simp [hlen], ?_, hrest⟩
      intro b' hb'
      rcases List.mem_cons.mp hb' with rfl | hb'
      · exact hb
      · exact htop b' hb'

theorem replicate_append_cons {α : Type} (n : Nat) (a : α) (as : List α) :
    List.replicate n a ++ a :: as = List.replicate (n + 1) a ++ as := by
  rw [List.replicate_succ', List.append_assoc]
  rfl

/-! ### Control that fits -/

section Flows

variable {g : Regime} {b : Base} {c : List Item} {l : Level} {f : FrameId} {σ : List Kind}

theorem flows_exprs (es : List Expr)
    (h : Flows g b c .value f (List.replicate es.length .result ++ σ)) :
    Flows g b (es.map .expr ++ c) .value f σ := by
  induction es generalizing σ with
  | nil => exact h
  | cons e es ih =>
    refine .inl (ih ?_)
    rw [replicate_append_cons]
    exact h

theorem flows_typeOfs (hl : l = .value ∨ l = .opening) (es : List Expr)
    (h : Flows g b c l f (List.replicate es.length .type ++ σ)) :
    Flows g b (es.map .typeOf ++ c) l f σ := by
  induction es generalizing σ with
  | nil => exact h
  | cons e es ih =>
    have hrest : Flows g b (es.map .typeOf ++ c) l f (.type :: σ) := by
      refine ih ?_
      rw [replicate_append_cons]
      exact h
    rcases hl with rfl | rfl <;> exact hrest

theorem flows_stmts {ss : List Stmt} (hss : ∀ s ∈ ss, g.Plain s) (h : Flows g b c .stmt f σ) :
    Flows g b (ss.map .stmt ++ c) .stmt f σ := by
  induction ss with
  | nil => exact h
  | cons s ss ih =>
    exact ⟨hss s (by simp), .inl (ih (fun s' hs' => hss s' (by simp [hs'])))⟩

/-- Only a `return` leads out of a body that ends with one. -/
theorem flows_body {body : List Stmt} (hbody : EndsInReturn body) (hplain : ∀ s ∈ body, g.Plain s)
    (h : Flows g b c .land f σ) : Flows g b (body.map .stmt ++ c) .stmt f σ := by
  obtain ⟨before, e, rfl⟩ := hbody
  rw [List.map_append, List.append_assoc]
  refine flows_stmts (fun s hs => hplain s (by simp [hs])) ?_
  exact ⟨hplain _ (by simp), .inr ⟨trivial, h⟩⟩

theorem flows_pending {n : Nat} (es : List Expr) (h : Flows g b c .value f (.result :: σ)) :
    Flows g b (es.map .expr ++ .invoke n :: c) (.pending es.length n) f σ := by
  induction es with
  | nil => exact ⟨rfl, h⟩
  | cons e es ih => exact ih

/-- The arguments and the invocation that a selection finds behind itself. -/
theorem exists_of_flows_pending {left n : Nat} (h : Flows g b c (.pending left n) f σ) :
    ∃ es c', es.length = left ∧ c = List.map .expr es ++ .invoke n :: c' ∧
      Flows g b c' .value f (.result :: σ) := by
  induction left generalizing c with
  | zero =>
    cases c with
    | nil => cases b <;> exact h.elim
    | cons i c =>
      cases i with
      | invoke m =>
        obtain ⟨rfl, h⟩ := h
        exact ⟨[], c, rfl, rfl, h⟩
      | _ => exact h.elim
  | succ left ih =>
    cases c with
    | nil => cases b <;> exact h.elim
    | cons i c =>
      cases i with
      | expr e =>
        obtain ⟨es, c', rfl, rfl, h'⟩ := ih (c := c) h
        exact ⟨e :: es, c', rfl, rfl, h'⟩
      | _ => exact h.elim

/-- The frame that a `return` leaves does not matter. -/
theorem flows_land_frame {f' : FrameId} (h : Flows g b c .land f σ) : Flows g b c .land f' σ := by
  induction c with
  | nil => cases b <;> exact h.elim
  | cons i c ih =>
    cases i with
    | restore f'' => exact ih h
    | marker j =>
      cases j with
      | ret =>
        obtain ⟨⟨f'', c', rfl, ho⟩, h⟩ := h
        exact ⟨⟨f'', c', rfl, ho⟩, h⟩
      | _ => exact h.elim
    | _ => exact h.elim

/-- The frame in front of a marker does not matter: the item behind the marker leads back to its own. -/
theorem flows_marker_frame {j : Jump} {f' : FrameId} (h : Flows g b (.marker j :: c) .stmt f σ) :
    Flows g b (.marker j :: c) .stmt f' σ := by
  obtain ⟨hj, ⟨f'', c', rfl, ho⟩, h⟩ := h
  exact ⟨hj, ⟨f'', c', rfl, ho⟩, h⟩

end Flows

end StashMachine
