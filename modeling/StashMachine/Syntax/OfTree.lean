import StashMachine.Grammar.Tree
import StashMachine.Syntax.ClassDecl

/-!
# StashMachine.Syntax.OfTree — programs from parse trees

Reads expressions, statements and classes off a parse tree.  On the trees of the grammar the only
fault is a number literal out of range; `Misread.shape` stands for a tree of any other shape.

* `expect`: the nodes inside a node whose parts have their places are of the rules it asks for.
* `VarDecls.part`, `MethodDecl.part`, `ClassDecl.part`, …: a declaration is put together part by part,
  in whatever order the parts stand, and a part of any other rule is a fault.

The smallest `int` and `long` are spelled with a magnitude that is out of range by itself, so a minus
sign takes such a literal together with its digits.
-/

namespace StashMachine

open Grammar

/-- Why a tree is no program. -/
inductive Misread
  /-- The number literal that starts at a byte is out of range. -/
  | tooLarge (start : Nat)
  /-- A node does not have the parts its rule promises. -/
  | shape (rule : Rule)

/-- A reading of a tree. -/
abbrev Reading := Except Misread

/-- Demands of the nodes inside a node of the rule `r` that their rules are the ones that are wanted. -/
def expect (r : Rule) (wanted : List Rule) (ts : List Tree) : Reading Unit :=
  if ts.map Tree.rule = wanted then .ok () else .error (.shape r)

/-- Demands that all of the nodes are of one rule. -/
def expectAll (r wanted : Rule) (ts : List Tree) : Reading Unit :=
  expect r (List.replicate ts.length wanted) ts

/-- Undoes the escapes of a quotation: a backslash stands before `n`, `t`, `r`, `0` for a control
character, and before any other character for that character. -/
def unescape : List Char → List Char
  | '\\' :: 'n' :: rest => '\n' :: unescape rest
  | '\\' :: 't' :: rest => '\t' :: unescape rest
  | '\\' :: 'r' :: rest => '\r' :: unescape rest
  | '\\' :: '0' :: rest => Char.ofNat 0 :: unescape rest
  | '\\' :: c :: rest => c :: unescape rest
  | c :: rest => c :: unescape rest
  | [] => []

namespace Literal

/-- The characters of a number literal, if nothing stands behind them but the letters of a mark. -/
def unmarked? (test : Char → Bool) (mark : List Char) (text : String) : Option (List Char) :=
  if (text.toList.dropWhile test).all mark.contains then some (text.toList.takeWhile test) else none

/-- The digits of a `long`. -/
def longDigits? (text : String) : Option (List Char) := unmarked? Char.isDigit ['L', 'l'] text

/-- Reads the number that digits spell, unless it is out of range. -/
def numberOf (r : Rule) (start bound : Nat) (digits : List Char) : Reading Nat :=
  if digits.isEmpty || !digits.all Char.isDigit then .error (.shape r)
  else if Decimal.value digits < bound then .ok (Decimal.value digits)
  else .error (.tooLarge start)

/-- Reads a literal, given the rule of its node. -/
def ofTree : Tree → Reading Literal
  | .node .intLiteral start text _ => do
    return .int (Int32.ofNat (← numberOf .intLiteral start (Nat.pow 2 31) text.toList))
  | .node .longLiteral start text _ =>
    match longDigits? text with
    | some digits => do return .long (Int64.ofNat (← numberOf .longLiteral start (Nat.pow 2 63) digits))
    | none => .error (.shape .longLiteral)
  | .node .doubleLiteral _ text _ =>
    match (unmarked? (fun c => c.isDigit || c == '.') ['d', 'D'] text).bind Decimal.magnitude? with
    | some x => .ok (.double x)
    | none => .error (.shape .doubleLiteral)
  | .node .booleanLiteral _ text _ => .ok (.boolean (text == "true"))
  | .node .nullLiteral _ _ _ => .ok .null
  | .node .charLiteral _ _ [.node .charContent _ text _] =>
    match unescape text.toList with
    | c :: _ => .ok (.char c)
    | [] => .error (.shape .charContent)
  | .node .stringLiteral _ _ [.node .stringContent _ text _] =>
    .ok (.string (String.ofList (unescape text.toList)))
  | .node r _ _ _ => .error (.shape r)

/-- The literal a minus sign makes of a node whose digits are out of range without it. -/
def negatedLeast? : Tree → Option Literal
  | .node .intLiteral _ text _ =>
    if text = "2147483648" then some (.int Int32.minValue) else none
  | .node .longLiteral _ text _ =>
    if longDigits? text = some "9223372036854775808".toList then some (.long Int64.minValue) else none
  | _ => none

end Literal

/-- Reads an operator that joins two operands. -/
def BinaryOp.ofTree (t : Tree) : Reading BinaryOp :=
  match BinaryOp.ofSymbol? t.text with
  | some op => .ok op
  | none => .error (.shape t.rule)

/-- Reads a sign. -/
def UnaryOp.ofTree (t : Tree) : Reading UnaryOp :=
  if t.text = "-" then .ok .minus
  else if t.text = "+" then .ok .plus
  else if t.text = "!" then .ok .not
  else .error (.shape t.rule)

/-- Reads the operator of an increment. -/
def incrementOp (t : Tree) : Reading BinaryOp :=
  if t.text = "++" then .ok .add
  else if t.text = "--" then .ok .sub
  else .error (.shape t.rule)

/-- Reads an assignment operator: `none` for a plain assignment, else the operator before the equals
sign. -/
def assignmentOp (t : Tree) : Reading (Option BinaryOp) :=
  if t.text = "=" then .ok none
  else match BinaryOp.ofSymbol? (String.ofList (t.text.toList.takeWhile (fun c => c != '='))) with
    | some op => .ok (some op)
    | none => .error (.shape t.rule)

/-- The element type of an array type. -/
def elementType (t : Tree) : TypeName :=
  match TypeName.ofString t.text with
  | .array element => element
  | other => other

namespace Expr

mutual

/-- Reads an expression. -/
def ofTree : Tree → Reading Expr
  | .node r start text children =>
    match r, children with
    | .expression, child :: _ => ofTree child
    | .assignment, [target, op, value] => do
      expect r [.expressionName, .assignmentOperator, .expression] children
      let op ← assignmentOp op
      let value ← ofTree value
      match op with
      | none => return .assign (Path.ofString target.text) value
      | some op => return .compound op (Path.ofString target.text) value
    | .conditionalOr, first :: more => do chainOf (← ofTree first) more
    | .conditionalAnd, first :: more => do chainOf (← ofTree first) more
    | .equality, first :: more => do chainOf (← ofTree first) more
    | .relational, first :: more => do chainOf (← ofTree first) more
    | .additive, first :: more => do chainOf (← ofTree first) more
    | .multiplicative, first :: more => do chainOf (← ofTree first) more
    | .unaryExpression, op :: operand :: _ => do
      let op ← UnaryOp.ofTree op
      match op, Literal.negatedLeast? operand with
      | .minus, some l => return .literal l
      | _, _ => return .unary op (← ofTree operand)
    | .preIncrement, [op, target] => do
      expect r [.incrementOp, .expressionName] children
      return .increment (← incrementOp op) .pre (Path.ofString target.text)
    | .postIncrement, [target, op] => do
      expect r [.expressionName, .incrementOp] children
      return .increment (← incrementOp op) .post (Path.ofString target.text)
    | .classInstanceCreation, [cls, args] => do
      expect r [.identifier, .arguments] children
      return .new cls.text (← argumentsOf args)
    | .arrayCreation, type :: elements => do
      expect r (.arrayType :: List.replicate elements.length .expression) children
      return .array (elementType type) (← listOf elements)
    | .methodInvocation, [method, args] => do
      expect r [.expressionName, .arguments] children
      return .call (Path.ofString method.text) (← argumentsOf args)
    | .expressionName, _ => return .name (Path.ofString text)
    | _, _ => return .literal (← Literal.ofTree (.node r start text children))

/-- Reads the arguments of a call. -/
def argumentsOf : Tree → Reading (List Expr)
  | .node r _ _ args => do
    expectAll r .expression args
    listOf args

/-- Reads expressions from left to right. -/
def listOf : List Tree → Reading (List Expr)
  | [] => .ok []
  | t :: ts => do
    let e ← ofTree t
    let es ← listOf ts
    return e :: es

/-- Reads the operators and operands after a left operand; operators of one level group to the
left. -/
def chainOf (left : Expr) : List Tree → Reading Expr
  | [] => .ok left
  | [op] => .error (.shape op.rule)
  | op :: right :: more => do
    let op ← BinaryOp.ofTree op
    let right ← ofTree right
    chainOf (.binary op left right) more

end

/-- Reads the expression inside a node, of whatever rule the node is. -/
def inside : Tree → Reading Expr
  | .node _ _ _ (child :: _) => ofTree child
  | .node r _ _ [] => .error (.shape r)

end Expr

/-! ### Statements -/

/-- Reads one variable of a declaration. -/
def Declarator.ofTree : Tree → Reading Declarator
  | .node r _ _ [name] => do
    expect r [.identifier] [name]
    return ⟨name.text, none⟩
  | .node r _ _ [name, init] => do
    expect r [.identifier, .expression] [name, init]
    return ⟨name.text, some (← Expr.ofTree init)⟩
  | .node r _ _ _ => .error (.shape r)

/-- The type and the variables of a declaration. -/
structure VarDecls where
  type : TypeName := .ofString ""
  vars : List Declarator := []

/-- Reads one more part of a declaration of variables. -/
def VarDecls.part (d : VarDecls) (t : Tree) : Reading VarDecls :=
  match t.rule with
  | .unannType => pure { d with type := .ofString t.text }
  | .variableDeclarator => do return { d with vars := d.vars ++ [← Declarator.ofTree t] }
  | r => .error (.shape r)

/-- Reads a label of a `switch`. -/
def Label.ofTree : Tree → Reading Label
  | .node .caseLabel _ _ [e] => do
    expect .caseLabel [.expression] [e]
    return .case (← Expr.ofTree e)
  | .node .defaultLabel _ _ _ => .ok .otherwise
  | .node r _ _ _ => .error (.shape r)

/-- Reads which constructor is called. -/
def Delegate.ofTree (t : Tree) : Reading Delegate :=
  if t.text = "this" then .ok .this
  else if t.text = "super" then .ok .super
  else .error (.shape t.rule)

namespace Stmt

/-- Reads a local declaration. -/
def declaration (t : Tree) : Reading Stmt := do
  let d ← t.children.foldlM VarDecls.part {}
  return .declare d.type d.vars

/-- Reads an expression that stands as a statement. -/
def ofExpr (t : Tree) : Reading Stmt := do return .expr (← Expr.ofTree t)

/-- Reads a declaration or an expression at the beginning of a `for`. -/
def ofInit (t : Tree) : Reading Stmt :=
  match t.rule with
  | .localVariableDeclaration => declaration t
  | _ => ofExpr t

/-- The parts of a `for` found so far. -/
structure ForParts where
  init : List Stmt := []
  cond : Option Expr := none
  update : List Stmt := []
  body : Option Stmt := none

mutual

/-- Reads a statement. -/
def ofTree : Tree → Reading Stmt
  | .node r _ _ children =>
    match r, children with
    | .localVariableDeclarationStatement, [decl] => do
      expect r [.localVariableDeclaration] children
      declaration decl
    | .block, body => return .block (← listOf body)
    | .ifStatement, [cond] => do
      let _ ← Expr.inside cond
      .error (.shape r)
    | .ifStatement, [cond, yes] => return .ite (← Expr.inside cond) (← ofTree yes) none
    | .ifStatement, cond :: yes :: no :: _ => do
      let cond ← Expr.inside cond
      let yes ← ofTree yes
      let no ← ofTree no
      return .ite cond yes (some no)
    | .whileStatement, cond :: body :: _ => return .loop (← Expr.inside cond) (← ofTree body)
    | .forStatement, parts => do
      let parts ← forOf {} parts
      match parts.body with
      | some body => return .forLoop parts.init parts.cond parts.update body
      | none => .error (.shape r)
    | .switchStatement, subject :: groups => do
      expect r (.expression :: List.replicate groups.length .switchBlockGroup) children
      return .switch (← Expr.ofTree subject) (← armsOf groups)
    | .returnStatement, [] => return .ret none
    | .returnStatement, [e] => do
      expect r [.expression] children
      return .ret (some (← Expr.ofTree e))
    | .breakStatement, _ => return .breakOut
    | .continueStatement, _ => return .continueLoop
    | .emptyStatement, _ => return .empty
    | .expressionStatement, e :: _ => ofExpr e
    | .explicitConstructorInvocation, [who, args] => do
      expect r [.thisOrSuper, .arguments] children
      return .construct (← Delegate.ofTree who) (← Expr.argumentsOf args)
    | _, _ => .error (.shape r)

/-- Reads statements from first to last. -/
def listOf : List Tree → Reading (List Stmt)
  | [] => .ok []
  | t :: ts => do
    let s ← ofTree t
    let ss ← listOf ts
    return s :: ss

/-- Reads the parts of a `for`, any of which but the body may be missing. -/
def forOf (parts : ForParts) : List Tree → Reading ForParts
  | [] => .ok parts
  | t :: ts =>
    match t.rule with
    | .forInit => do
      let init ← t.children.mapM ofInit
      forOf { parts with init := init } ts
    | .expression => do
      let cond ← Expr.ofTree t
      forOf { parts with cond := some cond } ts
    | .forUpdate => do
      let update ← t.children.mapM ofExpr
      forOf { parts with update := update } ts
    | _ => do
      let body ← ofTree t
      forOf { parts with body := some body } ts

/-- Reads the groups of a `switch`. -/
def armsOf : List Tree → Reading (List (Arm Stmt))
  | [] => .ok []
  | .node _ _ _ children :: ts => do
    let arm ← armOf ⟨[], []⟩ children
    let arms ← armsOf ts
    return arm :: arms

/-- Reads the labels and the statements of a group. -/
def armOf (arm : Arm Stmt) : List Tree → Reading (Arm Stmt)
  | [] => .ok arm
  | t :: ts =>
    match t.rule with
    | .caseLabel | .defaultLabel => do
      let label ← Label.ofTree t
      armOf { arm with labels := arm.labels ++ [label] } ts
    | _ => do
      let s ← ofTree t
      armOf { arm with body := arm.body ++ [s] } ts

end

end Stmt

/-! ### Classes -/

/-- Reads a modifier. -/
def Modifier.ofTree (t : Tree) : Reading Modifier :=
  match Modifier.ofString? t.text with
  | some m => .ok m
  | none => .error (.shape t.rule)

/-- Reads a formal parameter. -/
def Param.ofTree : Tree → Reading Param
  | .node r _ _ [type, name] => do
    expect r [.unannType, .identifier] [type, name]
    return ⟨TypeName.ofString type.text, name.text⟩
  | .node r _ _ _ => .error (.shape r)

/-- Reads the parameters of a method or of a constructor. -/
def paramsOf : Tree → Reading (List Param)
  | .node r _ _ params => do
    expectAll r .formalParameter params
    params.mapM Param.ofTree

/-- Reads one more part of a field declaration. -/
def FieldDecl.part (d : FieldDecl) (t : Tree) : Reading FieldDecl :=
  match t.rule with
  | .modifier => do return { d with modifiers := d.modifiers ++ [← Modifier.ofTree t] }
  | _ => do
    let v ← VarDecls.part ⟨d.type, d.vars⟩ t
    return { d with type := v.type, vars := v.vars }

/-- Reads a field declaration. -/
def FieldDecl.ofTree (t : Tree) : Reading FieldDecl := t.children.foldlM part ⟨[], .ofString "", []⟩

/-- Reads one more part of a method declaration. -/
def MethodDecl.part (d : MethodDecl) (t : Tree) : Reading MethodDecl :=
  match t.rule with
  | .modifier => do return { d with modifiers := d.modifiers ++ [← Modifier.ofTree t] }
  | .resultType => pure { d with result := .ofString t.text }
  | .identifier => pure { d with name := t.text }
  | .formalParameters => do return { d with params := ← paramsOf t }
  | .block => do return { d with body := some (← Stmt.listOf t.children) }
  | .emptyBody => pure { d with body := none }
  | r => .error (.shape r)

/-- Reads a method declaration. -/
def MethodDecl.ofTree (t : Tree) : Reading MethodDecl :=
  t.children.foldlM part ⟨[], .ofString "", "", [], none⟩

/-- Reads one more part of a constructor declaration. -/
def ConstructorDecl.part (d : ConstructorDecl) (t : Tree) : Reading ConstructorDecl :=
  match t.rule with
  | .modifier => do return { d with modifiers := d.modifiers ++ [← Modifier.ofTree t] }
  | .identifier => pure { d with name := t.text }
  | .formalParameters => do return { d with params := ← paramsOf t }
  | .constructorBody => do return { d with body := ← Stmt.listOf t.children }
  | r => .error (.shape r)

/-- Reads a constructor declaration. -/
def ConstructorDecl.ofTree (t : Tree) : Reading ConstructorDecl := t.children.foldlM part ⟨[], "", [], []⟩

/-- Reads a member of a class body. -/
def Member.ofTree (t : Tree) : Reading Member :=
  match t.rule with
  | .fieldDeclaration => do return .field (← FieldDecl.ofTree t)
  | .methodDeclaration => do return .method (← MethodDecl.ofTree t)
  | .constructorDeclaration => do return .constructor (← ConstructorDecl.ofTree t)
  | r => .error (.shape r)

/-- Reads the name of a superclass. -/
def superNameOf : Tree → Reading String
  | .node r _ _ [name] => do
    expect r [.identifier] [name]
    return name.text
  | .node r _ _ _ => .error (.shape r)

/-- Reads one more part of a class: a modifier, its name, its superclass or a member. -/
def ClassDecl.part (d : ClassDecl) (t : Tree) : Reading ClassDecl :=
  match t.rule with
  | .modifier => do return { d with modifiers := d.modifiers ++ [← Modifier.ofTree t] }
  | .identifier => pure { d with name := t.text }
  | .superclass => do return { d with superclass := some (← superNameOf t) }
  | _ => do return { d with body := d.body ++ [← Member.ofTree t] }

/-- Reads a class. -/
def ClassDecl.ofTree (t : Tree) : Reading ClassDecl := t.children.foldlM part ⟨[], "", none, []⟩

/-- Reads one more part of a program: a class, or the end of the source. -/
def Program.part (p : Program) (t : Tree) : Reading Program :=
  match t.rule with
  | .classDeclaration => do return p ++ [← ClassDecl.ofTree t]
  | .endOfInput => pure p
  | r => .error (.shape r)

/-- Reads a program. -/
def Program.ofTree (t : Tree) : Reading Program := t.children.foldlM part []

/-- Reads an expression that is a whole source. -/
def Expr.ofEntry : Tree → Reading Expr
  | .node r _ _ [e, last] => do
    expect r [.expression, .endOfInput] [e, last]
    Expr.ofTree e
  | .node r _ _ _ => .error (.shape r)

end StashMachine
