import StashMachine.Elaboration.Code
import StashMachine.Machine.Variables

/-!
# StashMachine.Machine.Statements — the steps of statements and expressions

Each of these steps only queues work: nothing here runs a part of a statement or an expression.
-/

namespace StashMachine
namespace Step

/-- Queues the items an expression is evaluated by. -/
def evaluate : Expr → Step Unit
  | .literal l => pushValue (.ofLiteral l)
  | .void => pushValue .void
  | .name p => schedule [.find p, .deref]
  | .assign target value => schedule [.find target, .expr value, .assign]
  | .compound op target value =>
    schedule [.find target, .load, .expr value, .compoundAssign op]
  | .increment op fix target => schedule [.find target, .increment op fix]
  | .binary .and l r => schedule [.expr l, .branch [.expr r] [.expr (.literal (.boolean false))]]
  | .binary .or l r => schedule [.expr l, .branch [.expr (.literal (.boolean true))] [.expr r]]
  | .binary op l r => schedule [.expr l, .expr r, .binary op]
  | .unary op e => schedule [.expr e, .unary op]
  | .call (.simple m) _ => throw (.unsupported (.bareCall m))
  | .call (.field q m) args =>
    schedule (.typeOf (.name q) :: args.map .typeOf ++ .overload m args.length q :: args.map .expr
      ++ [.invoke args.length])
  | .new c args =>
    schedule (args.map .typeOf ++ .overloadConstructor c args.length :: .new c :: args.map .expr
      ++ [.invoke (args.length + 1)])
  | .array t elements => schedule (elements.map .expr ++ [.arrayOf t elements.length])

/-- Declares one variable.  With an initialiser the variable goes on the stash and its assignment is
queued; without one it gets the default, or stays unassigned if there is none. -/
def declareOne (type : TypeName) (d : Declarator) (default : Option Literal) : Step Unit := do
  match d.init with
  | some init =>
    let id ← declare ⟨d.name, type, none⟩
    push (.var id)
    schedule [.expr init, .assign, .pop]
  | none => let _ ← declare ⟨d.name, type, default.map Value.ofLiteral⟩

/-- Declares local variables, several of them one by one. -/
def declareLocal (type : TypeName) : List Declarator → Step Unit
  | [] => return
  | [d] => declareOne type d none
  | vars => schedule (vars.map (fun d => .stmt (.declare type [d])))

/-- Declares static fields, several of them one by one. -/
def declareStatic (f : FieldDecl) : Step Unit :=
  match f.vars with
  | [] => return
  | [d] => declareOne f.type d (some (Literal.default f.type))
  | vars => schedule (vars.map (fun d => .field (f.only d)))

/-- Queues a call of another constructor on the object under construction. -/
def construct (who : Delegate) (args : List Expr) : Step Unit := do
  let x ← ask (fun env => env.findVariable who.text)
  let type ← typeOfVar x
  schedule (args.map .typeOf ++ .overloadConstructor type.text args.length
    :: .expr (.name (.simple who.text)) :: args.map .expr ++ [.invoke (args.length + 1), .pop])

/-- Queues the items a statement is executed by. -/
def execute : Stmt → Step Unit
  | .block body => do
    let outside ← here
    extend outside Environment.blockFrame
    schedule (body.map .stmt ++ [.restore outside])
  | .declare type vars => declareLocal type vars
  | .expr e => schedule [.expr e, .pop]
  | .ret e => schedule [.expr (e.getD .void), .reset .ret]
  | .ite c yes no => schedule [.expr c, .branch [.stmt yes] (no.toList.map .stmt)]
  | .loop c body => do
    schedule [.whileRound c body, .marker .brk, .restore (← here)]
  | .forLoop init c update body => do
    let outside ← here
    extend outside Environment.forFrame
    schedule (init.map .stmt ++ [.forRound c update body, .marker .brk, .restore outside])
  | .switch e arms => do
    schedule [.expr e, .switch arms, .marker .brk, .restore (← here)]
  | .breakOut => schedule [.reset .brk]
  | .continueLoop => schedule [.reset .cont]
  | .empty => return
  | .construct who args => construct who args

/-- Queues one round of a `while`: the condition, and behind it the body and the next round. -/
def whileRound (c : Expr) (body : Stmt) : Step Unit := do
  schedule [.expr c,
    .branch [.stmt body, .marker .cont, .restore (← here), .whileRound c body] []]

/-- Queues one round of a `for`: the condition, and behind it the body, the updates and the next
round. -/
def forRound (c : Option Expr) (update : List Stmt) (body : Stmt) : Step Unit := do
  let again := [.stmt body, .marker .cont, .restore (← here)] ++ update.map .stmt
    ++ [.forRound c update body]
  schedule [.expr (c.getD (.literal (.boolean true))), .branch again []]

/-- Goes on with one of two lists of items. -/
def branch (yes no : List Item) : Step Unit := do
  match ← popValue with
  | .boolean true => schedule yes
  | .boolean false => schedule no
  | v => throw (.typeMismatch (.conversion v.type (.primitive .boolean)))

/-- Drops items up to and including the nearest marker of a jump.  No jump leaves the call it is in;
a missing marker leaves what is below the marker of that call. -/
def unwind (jump : Jump) : List Item → Except (List Item) (List Item)
  | [] => .error []
  | .marker k :: rest =>
    if k = jump then .ok rest
    else if k = .ret then .error rest
    else unwind jump rest
  | _ :: rest => unwind jump rest

/-- Unwinds control to a marker. -/
def reset (jump : Jump) : Step Unit := do
  let r ← get
  match unwind jump r.control with
  | .ok rest => set { r with control := rest }
  | .error rest => do
    set { r with control := rest }
    throw (.noMarker jump)

/-- The value of a label, which is a literal or a negated literal. -/
def labelValue : Expr → Except Fault Value
  | .literal l => .ok (.ofLiteral l)
  | .unary .minus (.literal l) => Value.unary .minus (.ofLiteral l)
  | _ => .error (.unsupported .labelNotConstant)

/-- Whether one of several labels names a value; labels are read only up to the first that does. -/
def labelled (v : Value) : List Label → Except Fault Bool
  | [] => .ok false
  | .otherwise :: rest => labelled v rest
  | .case e :: rest => do
    let w ← labelValue e
    if w.equal v then return true else labelled v rest

/-- The groups from the first one on that a value enters by a label. -/
def entered? (v : Value) : List (Arm Stmt) → Except Fault (Option (List (Arm Stmt)))
  | [] => .ok none
  | arm :: arms => do
    if ← labelled v arm.labels then return some (arm :: arms) else entered? v arms

/-- The groups from the first one on that has the `default` label. -/
def fallback? : List (Arm Stmt) → Option (List (Arm Stmt))
  | [] => none
  | arm :: arms => if arm.labels.any Label.isOtherwise then some (arm :: arms) else fallback? arms

/-- Enters the groups of a `switch` at the one a value names, or else at `default`. -/
def switch (arms : List (Arm Stmt)) : Step Unit := do
  let v ← popValue
  let found ← ofExcept (entered? v arms)
  match found.or (fallback? arms) with
  | some chosen => do
    extend (← here) Environment.blockFrame
    schedule ((chosen.flatMap Arm.body).map .stmt)
  | none => return

end Step
end StashMachine
