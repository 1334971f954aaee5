import StashMachine.Environment

/-!
# StashMachine.Control — what waits to be done

Control holds parts of the program that wait to be run, and the instructions that running them leaves
behind.
-/

namespace StashMachine

/-- An item of control. -/
inductive Item
  /-- A program: its classes and the call of its main method. -/
  | program (classes : Program)
  /-- A class that waits to be elaborated. -/
  | classDecl (decl : ClassDecl)
  /-- A method that waits to be bound. -/
  | method (decl : MethodDecl)
  /-- A constructor that waits to be bound. -/
  | constructor (decl : ConstructorDecl)
  /-- Static fields that wait to be bound. -/
  | field (decl : FieldDecl)
  /-- A statement. -/
  | stmt (stmt : Stmt)
  /-- An expression. -/
  | expr (expr : Expr)
  /-- Stores a value in a variable and leaves the value. -/
  | assign
  /-- Combines a variable's old value with a value, stores the result and leaves it. -/
  | compoundAssign (op : BinaryOp)
  /-- Moves a variable by one and leaves its new or old value. -/
  | increment (op : BinaryOp) (fix : Fixity)
  /-- Leaves the value of the variable on top above it. -/
  | load
  /-- Applies a binary operator. -/
  | binary (op : BinaryOp)
  /-- Applies a unary operator. -/
  | unary (op : UnaryOp)
  /-- Drops the top of the stash. -/
  | pop
  /-- Finds the variable or class of a name. -/
  | find (path : Path)
  /-- Turns a variable into its value. -/
  | deref
  /-- Finds a field of what the stash holds. -/
  | select (field : String)
  /-- Gathers values into an array. -/
  | arrayOf (element : TypeName) (size : Nat)
  /-- Goes back to a frame. -/
  | restore (frame : FrameId)
  /-- Marks how far a jump unwinds. -/
  | marker (jump : Jump)
  /-- Unwinds to a marker. -/
  | reset (jump : Jump)
  /-- Goes on with one of two lists of items, the first of which is run first. -/
  | branch (yes no : List Item)
  /-- One more round of a `while`. -/
  | whileRound (cond : Expr) (body : Stmt)
  /-- One more round of a `for`. -/
  | forRound (cond : Option Expr) (update : List Stmt) (body : Stmt)
  /-- Enters the matching group of a `switch`. -/
  | switch (arms : List (Arm Stmt))
  /-- Leaves the static type of an expression. -/
  | typeOf (expr : Expr)
  /-- Turns a type into the type of one of its fields. -/
  | typeOfField (field : String)
  /-- Selects a method from the types of its arguments. -/
  | overload (name : String) (arity : Nat) (qualifier : Path)
  /-- Replaces a selected method by the one of the receiver's class. -/
  | override
  /-- Selects a constructor from the types of its arguments. -/
  | overloadConstructor (className : String) (arity : Nat)
  /-- Makes an object. -/
  | new (className : String)
  /-- Invokes a closure with the values above it. -/
  | invoke (arity : Nat)

namespace Item

/-- Writes an item of control. -/
def text (env : Environment) : Item → String
  | program _ => "CompilationUnit"
  | classDecl d => "NormalClassDeclaration " ++ d.name
  | method d => "MethodDeclaration " ++ d.name
  | constructor _ => "ConstructorDeclaration"
  | field _ => "FieldDeclaration"
  | stmt s => s.kind
  | expr e => e.headline
  | assign => "Assign"
  | compoundAssign op => "CompoundAssign " ++ op.symbol
  | increment op .pre => "Increment prefix " ++ op.symbol
  | increment op .post => "Increment postfix " ++ op.symbol
  | load => "Load"
  | binary op => "BinOp " ++ op.symbol
  | unary _ => "UnOp"
  | pop => "Pop"
  | find p => "EvalVar " ++ p.text
  | deref => "Deref"
  | select f => "Res " ++ f
  | arrayOf .. => "ArrayLit"
  | restore f => "Env " ++ (env.frame f).name
  | marker j => "Marker " ++ j.label
  | reset j => "Reset " ++ j.label
  | branch .. => "Branch"
  | whileRound .. => "WhileIter"
  | forRound .. => "ForIter"
  | switch _ => "Switch"
  | typeOf _ => "ResType"
  | typeOfField f => "ResTypeCont " ++ f
  | overload x n q => "ResOverload " ++ q.text ++ "." ++ x ++ "/" ++ toString n
  | override => "ResOverride"
  | overloadConstructor c n => "ResConOverload " ++ c ++ "/" ++ toString n
  | new c => "New " ++ c
  | invoke n => "Invocation " ++ toString n

end Item

end StashMachine
