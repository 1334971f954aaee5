import StashMachine.Proofs.Names

/-!
# StashMachine.Proofs.Evaluator — evaluating expressions directly

An evaluator by recursion on the expression, for expressions without calls.  It has no stacks: parts are
evaluated from left to right, and what they leave is bound to names.

* `Evaluation`: what changes the environment and gives a result or stops with a fault; `Evaluation.Gives` says
  how it ends, with one rule for each way evaluations are put together.
* `Path.place`: what a dotted name leads to.
* `Expr.eval`: the evaluator.  `Expr.isCallFree`: the expressions that it is for.
* `Expr.effort`: a bound on the steps that an expression takes.
-/

namespace StashMachine

open Environment

/-- An evaluation changes the environment, and gives a result or stops with a fault. -/
abbrev Evaluation := EStateM Fault Environment

namespace Evaluation

/-- Asks the environment. -/
def ask {α : Type} (f : Environment → Except Fault α) : Evaluation α := fun env =>
  match f env with
  | .ok a => .ok a env
  | .error e => .error e env

/-- Stops with a fault if a computation does. -/
def check {α : Type} (a : Except Fault α) : Evaluation α := ask (fun _ => a)

/-- The declared type of a variable. -/
def typeOf (x : VarId) : Evaluation TypeName :=
  ask (fun env => .ok (((env.var? x).map Variable.type).getD .void))

/-- Stores a value in a variable. -/
def store (x : VarId) (v : Value) : Evaluation Unit := fun env => .ok () (env.assign x v)

/-- Adds a variable that no frame binds. -/
def allocate (v : Variable) : Evaluation VarId := fun env => .ok env.vars.size (env.allocate v)

/-- Makes an array. -/
def createArray (element : TypeName) (vs : List Value) : Evaluation Value := fun env =>
  .ok (env.createArray element vs).1 (env.createArray element vs).2

end Evaluation

open Evaluation

/-! ### Dotted names -/

/-- The variable of a static field of a class or of one of its ancestors. -/
def Environment.staticPlace (c : Class) (x : String) (env : Environment) : Except Fault VarId :=
  match c.findField? x with
  | none => .error (.undeclaredVariable (c.name ++ "." ++ x))
  | some info =>
    if info.isStatic then
      match env.bound? info.owner.frame x with
      | some (.var id) => .ok id
      | _ => .error (.internal (.unboundField info.owner.name x))
    else .error (.typeMismatch (.instanceVariable x))

/-- The variable of a field of the object that the variable `v` holds. -/
def Environment.objectPlace (v : Variable) (x : String) (env : Environment) : Except Fault VarId :=
  match v.value with
  | some (.object d f) =>
    match env.bound? f x with
    | some (.var id) => .ok id
    | _ => .error (.internal (.lostField (Value.objectText d f) x))
  | some .null => .error (.nullPointer (.field x v.name))
  | some w => .error (.typeMismatch (.fieldless w.type))
  | none => .error (.unassigned v.name)

/-- The only field of an array is its length, a variable of its own. -/
def Evaluation.lengthPlace (v : Variable) (x : String) : Evaluation VarId :=
  match decide (x = "length"), v.value with
  | true, some (.array _ _ elements) => allocate (lengthVariable (Int32.ofNat elements.length))
  | true, some .null => throw (.nullPointer (.length v.name))
  | true, none => throw (.unassigned v.name)
  | _, _ => throw (.undeclaredVariable (v.name ++ "." ++ x))

/-- The variable of a field of what the variable `v` holds.  Its declared class says whether the field is
static. -/
def Evaluation.fieldPlace (v : Variable) (x : String) : Evaluation VarId :=
  match v.type with
  | .array _ => lengthPlace v x
  | .primitive _ => throw (.typeMismatch (.fieldless v.type))
  | _ => do
    let c ← ask (fun env => env.findClass v.type.text)
    match c.findField? x with
    | none => throw (.undeclaredVariable (v.type.text ++ "." ++ x))
    | some info => if info.isStatic then ask (staticPlace c x) else ask (objectPlace v x)

/-- The variable of a field of a place. -/
def Place.field (x : String) : Place → Evaluation VarId
  | .cls c => ask (staticPlace c x)
  | .var y => do
    match (← get).var? y with
    | some v => fieldPlace v x
    | none => throw (.internal (.fieldOf x ""))

/-- The variable or the class of a name. -/
def Environment.findPlace (x : String) (env : Environment) : Except Fault Place :=
  match env.findName x with
  | .ok (.var id) => .ok (.var id)
  | .ok (.cls c) => .ok (.cls c)
  | .ok (.closure k) => .error (.typeMismatch (.methodAsVariable k.descriptor))
  | .error e => .error e

/-- What a dotted name leads to. -/
def Path.place : Path → Evaluation Place
  | .simple x => ask (findPlace x)
  | .field p x => do
    let a ← p.place
    return .var (← a.field x)

/-- The variable of a place that is to be assigned. -/
def Place.target : Place → Evaluation VarId
  | .var x => return x
  | .cls c => throw (.typeMismatch (.target ("class " ++ c.name)))

/-! ### Expressions -/

/-- What an expression leaves: a value, or the class that a name stands for. -/
inductive Answer
  | value (v : Value)
  | cls (c : Class)

namespace Answer

/-- The item of the stash for an answer. -/
def item : Answer → StashItem
  | value v => .value v
  | cls c => .cls c

/-- The value of an answer, which has to be one. -/
def get : Answer → Evaluation Value
  | value v => return v
  | cls c => throw (.internal (.expected .value ("class " ++ c.name)))

/-- The values of several answers; the last one is looked at first. -/
def getAll : List Answer → Evaluation (List Value)
  | [] => return []
  | a :: as => do
    let vs ← getAll as
    return (← a.get) :: vs

/-- The truth value of an answer. -/
def truth (a : Answer) : Evaluation Bool := do
  match ← a.get with
  | .boolean b => return b
  | v => throw (.typeMismatch (.conversion v.type (.primitive .boolean)))

end Answer

/-- What a place stands for in an expression. -/
def Place.read : Place → Evaluation Answer
  | .var x => return .value (← ask (fun env => env.value x))
  | .cls c => return .cls c

namespace Expr

mutual

/-- What an expression evaluates to.  The target of an assignment is found before the right side is evaluated,
and a compound assignment reads it before, too. -/
def eval : Expr → Evaluation Answer
  | literal l => return .value (.ofLiteral l)
  | void => return .value .void
  | name p => do (← p.place).read
  | assign p e => do
    let a ← p.place
    let v ← (← e.eval).get
    let x ← a.target
    let v ← check (v.coerce (← typeOf x))
    store x v
    return .value v
  | compound op p e => do
    let x ← (← p.place).target
    let old ← ask (fun env => env.value x)
    let v ← (← e.eval).get
    let v ← check (Value.binary op old v)
    let v ← check (v.narrow (← typeOf x))
    store x v
    return .value v
  | increment op fix p => do
    let x ← (← p.place).target
    let t ← typeOf x
    if t.isNumeric = false then throw (.typeMismatch (.step op t))
    let old ← ask (fun env => env.value x)
    let v ← check (Value.binary op old (.int 1))
    let v ← check (v.narrow t)
    store x v
    return .value (match fix with
      | .pre => v
      | .post => old)
  | binary op l r => do
    let a ← l.eval
    match op with
    | .and => if ← a.truth then r.eval else return .value (.boolean false)
    | .or => if ← a.truth then return .value (.boolean true) else r.eval
    | _ =>
      let v ← (← r.eval).get
      let u ← a.get
      return .value (← check (Value.binary op u v))
  | unary op e => do
    let v ← (← e.eval).get
    return .value (← check (Value.unary op v))
  | array t es => do
    let vs ← Answer.getAll (← evalAll es)
    let vs ← check (Step.coerceAll t vs)
    return .value (← createArray t vs)
  | call _ _ | new _ _ => throw (.unsupported (.other "call"))

/-- What expressions evaluate to, from left to right. -/
def evalAll : List Expr → Evaluation (List Answer)
  | [] => return []
  | e :: es => do
    let a ← e.eval
    return a :: (← evalAll es)

end

mutual

/-- Neither a call nor the making of an object stands anywhere in the expression. -/
def isCallFree : Expr → Bool
  | literal _ | void | name _ | increment _ _ _ => true
  | assign _ e | compound _ _ e | unary _ e => e.isCallFree
  | binary _ l r => l.isCallFree && r.isCallFree
  | array _ es => areCallFree es
  | call _ _ | new _ _ => false

/-- None of several expressions has a call in it. -/
def areCallFree : List Expr → Bool
  | [] => true
  | e :: es => e.isCallFree && areCallFree es

end

end Expr

/-! ### Steps -/

/-- How many steps it takes to find what a dotted name leads to. -/
def Path.effort : Path → Nat
  | .simple _ => 1
  | .field p _ => p.effort + 2

namespace Expr

mutual

/-- How many steps an expression takes at most. -/
def effort : Expr → Nat
  | literal _ | void => 1
  | name p => p.effort + 2
  | assign p e => p.effort + e.effort + 2
  | compound _ p e => p.effort + e.effort + 3
  | increment _ _ p => p.effort + 2
  | binary _ l r => l.effort + r.effort + 3
  | unary _ e => e.effort + 2
  | array _ es => effortAll es + 2
  | call _ _ | new _ _ => 0

/-- How many steps several expressions take at most. -/
def effortAll : List Expr → Nat
  | [] => 0
  | e :: es => e.effort + effortAll es

end

end Expr

/-! ### How evaluations end -/

namespace Evaluation

variable {α β : Type} {env : Environment} {Q : α → Environment → Prop} {F : Fault → Environment → Prop}

/-- `x` started in `env` ends with a result that satisfies `Q` or with a fault that satisfies `F`. -/
def Gives (x : Evaluation α) (env : Environment) (Q : α → Environment → Prop)
    (F : Fault → Environment → Prop) : Prop :=
  match x env with
  | .ok a env' => Q a env'
  | .error e env' => F e env'

theorem Gives.mono {x : Evaluation α} {Q' : α → Environment → Prop} {F' : Fault → Environment → Prop}
    (h : x.Gives env Q F) (hQ : ∀ a env', Q a env' → Q' a env') (hF : ∀ e env', F e env' → F' e env') :
    x.Gives env Q' F' := by
  unfold Gives at h ⊢
  split at h
  · exact hQ _ _ h
  · exact hF _ _ h

theorem Gives.and {x : Evaluation α} {Q' : α → Environment → Prop} (h : x.Gives env Q F)
    (h' : x.Gives env Q' (fun _ _ => True)) : x.Gives env (fun a env' => Q a env' ∧ Q' a env') F := by
  unfold Gives at h h' ⊢
  cases hx : x env with
  | ok a env' =>
    rw [hx] at h h'
    exact ⟨h, h'⟩
  | error e env' =>
    rw [hx] at h
    exact h

theorem gives_of_forall {x : Evaluation α} (hQ : ∀ a env', Q a env') (hF : ∀ e env', F e env') :
    x.Gives env Q F := by
  unfold Gives
  split
  · exact hQ _ _
  · exact hF _ _

@[simp] theorem gives_pure (a : α) : Gives (pure a) env Q F ↔ Q a env := Iff.rfl

@[simp] theorem gives_throw (e : Fault) : Gives (throw e : Evaluation α) env Q F ↔ F e env := Iff.rfl

@[simp] theorem gives_bind (x : Evaluation β) (f : β → Evaluation α) :
    Gives (x >>= f) env Q F ↔ Gives x env (fun a env' => Gives (f a) env' Q F) F := by
  unfold Gives
  simp only [bind, EStateM.bind]
  cases x env <;> rfl

@[simp] theorem gives_ask (f : Environment → Except Fault α) :
    Gives (ask f) env Q F ↔ (∀ a, f env = .ok a → Q a env) ∧ ∀ e, f env = .error e → F e env := by
  unfold Gives ask
  cases f env <;> simp

@[simp] theorem gives_check (a : Except Fault α) :
    Gives (check a) env Q F ↔ (∀ b, a = .ok b → Q b env) ∧ ∀ e, a = .error e → F e env :=
  gives_ask _

@[simp] theorem gives_typeOf {Q : TypeName → Environment → Prop} (x : VarId) :
    Gives (typeOf x) env Q F ↔ Q (((env.var? x).map Variable.type).getD .void) env := Iff.rfl

@[simp] theorem gives_store {Q : Unit → Environment → Prop} (x : VarId) (v : Value) :
    Gives (store x v) env Q F ↔ Q () (env.assign x v) := Iff.rfl

@[simp] theorem gives_createArray {Q : Value → Environment → Prop} (t : TypeName) (vs : List Value) :
    Gives (createArray t vs) env Q F ↔ Q (env.createArray t vs).1 (env.createArray t vs).2 := Iff.rfl

end Evaluation

end StashMachine
