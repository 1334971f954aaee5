/-!
# StashMachine.Grammar.Rule — the rules that leave a node

One name per rule that leaves a node in the parse tree.
-/

namespace StashMachine
namespace Grammar

/-- The rules that leave a node. -/
inductive Rule
  | compilationUnit | classDeclaration | superclass | modifier | identifier
  | unannType | arrayType | resultType
  | fieldDeclaration | variableDeclarator | methodDeclaration | emptyBody
  | constructorDeclaration | constructorBody | explicitConstructorInvocation | thisOrSuper
  | formalParameters | formalParameter
  | block | localVariableDeclarationStatement | localVariableDeclaration
  | ifStatement | whileStatement | forStatement | forInit | forUpdate
  | switchStatement | switchBlockGroup | caseLabel | defaultLabel
  | returnStatement | breakStatement | continueStatement | emptyStatement | expressionStatement
  | expressionEntry | expression | assignment | assignmentOperator
  | conditionalOr | conditionalAnd | equality | relational | additive | multiplicative
  | orOp | andOp | equalityOp | relationalOp | additiveOp | multiplicativeOp
  | unaryExpression | unaryOp | preIncrement | postIncrement | incrementOp
  | classInstanceCreation | arrayCreation | methodInvocation | arguments | expressionName
  | doubleLiteral | longLiteral | intLiteral | charLiteral | charContent
  | stringLiteral | stringContent | booleanLiteral | nullLiteral
  | endOfInput
deriving DecidableEq

/-- How a rule treats gaps and the nodes of the rules it calls. -/
inductive Spacing
  /-- Gaps between its parts where the caller allows them, and nodes for its parts. -/
  | free
  /-- No gaps, and no nodes below its own. -/
  | atomic
  /-- No gaps, but nodes for its parts. -/
  | compound
deriving DecidableEq

/-- How a rule with a spacing of its own treats gaps when it is called under another one. -/
def Spacing.within (outer : Spacing) : Spacing → Spacing
  | .free => outer
  | own => own

namespace Rule

/-- The name a rule is shown by. -/
def label : Rule → String
  | compilationUnit => "compilation_unit"
  | classDeclaration => "class_declaration"
  | superclass => "superclass"
  | modifier => "modifier"
  | identifier => "identifier"
  | unannType => "unann_type"
  | arrayType => "array_type"
  | resultType => "result_type"
  | fieldDeclaration => "field_declaration"
  | variableDeclarator => "variable_declarator"
  | methodDeclaration => "method_declaration"
  | emptyBody => "empty_body"
  | constructorDeclaration => "constructor_declaration"
  | constructorBody => "constructor_body"
  | explicitConstructorInvocation => "explicit_constructor_invocation"
  | thisOrSuper => "this_or_super"
  | formalParameters => "formal_parameters"
  | formalParameter => "formal_parameter"
  | block => "block"
  | localVariableDeclarationStatement => "local_variable_declaration_statement"
  | localVariableDeclaration => "local_variable_declaration"
  | ifStatement => "if_statement"
  | whileStatement => "while_statement"
  | forStatement => "for_statement"
  | forInit => "for_init"
  | forUpdate => "for_update"
  | switchStatement => "switch_statement"
  | switchBlockGroup => "switch_block_group"
  | caseLabel => "case_label"
  | defaultLabel => "default_label"
  | returnStatement => "return_statement"
  | breakStatement => "break_statement"
  | continueStatement => "continue_statement"
  | emptyStatement => "empty_statement"
  | expressionStatement => "expression_statement"
  | expressionEntry => "expression_entry"
  | expression => "expression"
  | assignment => "assignment"
  | assignmentOperator => "assignment_operator"
  | conditionalOr => "conditional_or"
  | conditionalAnd => "conditional_and"
  | equality => "equality"
  | relational => "relational"
  | additive => "additive"
  | multiplicative => "multiplicative"
  | orOp => "or_op"
  | andOp => "and_op"
  | equalityOp => "equality_op"
  | relationalOp => "relational_op"
  | additiveOp => "additive_op"
  | multiplicativeOp => "multiplicative_op"
  | unaryExpression => "unary_expression"
  | unaryOp => "unary_op"
  | preIncrement => "pre_increment"
  | postIncrement => "post_increment"
  | incrementOp => "increment_op"
  | classInstanceCreation => "class_instance_creation"
  | arrayCreation => "array_creation"
  | methodInvocation => "method_invocation"
  | arguments => "arguments"
  | expressionName => "expression_name"
  | doubleLiteral => "double_literal"
  | longLiteral => "long_literal"
  | intLiteral => "int_literal"
  | charLiteral => "char_literal"
  | charContent => "char_content"
  | stringLiteral => "string_literal"
  | stringContent => "string_content"
  | booleanLiteral => "boolean_literal"
  | nullLiteral => "null_literal"
  | endOfInput => "EOI"

/-- How a rule treats gaps. -/
def spacing : Rule → Spacing
  | modifier | identifier | unannType | arrayType | resultType | thisOrSuper | expressionName
  | doubleLiteral | longLiteral | intLiteral | charContent | stringContent
  | booleanLiteral | nullLiteral => .atomic
  | charLiteral | stringLiteral => .compound
  | _ => .free

end Rule

end Grammar
end StashMachine
