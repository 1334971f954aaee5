import StashMachine.Grammar.Pattern

/-!
# StashMachine.Grammar.Java — the grammar of the language

* `Rule.body`: the pattern of every rule, for the teaching subset of Java that the machine runs.
* `Rule.run`, `parse?`: matching a rule, and a whole source under a rule.

Keywords are matched only where no further letter follows, so `returnValue` is an identifier.
-/

namespace StashMachine
namespace Grammar

open Pattern

/-- A letter, a digit, `_` or `$`. -/
def isNameChar (c : Char) : Bool := c.isAlphanum || c == '_' || c == '$'

/-- A character an identifier can begin with. -/
def isNameStart (c : Char) : Bool := c.isAlpha || c == '_' || c == '$'

/-- A word with no further name character behind it. -/
def word (s : String) : Pattern := tight (seq (lit s) (avoid (char isNameChar)))

/-- The first of several spellings, with no further name character behind it. -/
def wordOf (spellings : List String) : Pattern :=
  tight (seq (oneOf (spellings.map lit)) (avoid (char isNameChar)))

/-- The reserved words. -/
def keywords : List String :=
  ["abstract", "boolean", "break", "byte", "case", "char", "class", "continue",
   "default", "double", "else", "extends", "false", "final", "float", "for",
   "if", "int", "long", "native", "new", "null", "private", "protected",
   "public", "return", "short", "static", "super", "switch", "this", "true",
   "void", "while"]

/-- A primitive type or a class. -/
def typeWord : Pattern :=
  alt (wordOf ["int", "long", "double", "float", "boolean", "char", "short", "byte"])
    (rule .identifier)

/-- The suffix of an array type. -/
def brackets : Pattern := seq (lit "[") (lit "]")

/-- A member of a class body; a lone semicolon is none. -/
def member : Pattern :=
  oneOf [rule .constructorDeclaration, rule .methodDeclaration, rule .fieldDeclaration, lit ";"]

/-- A statement other than a local declaration. -/
def statement : Pattern :=
  oneOf [rule .block, rule .ifStatement, rule .whileStatement, rule .forStatement,
    rule .switchStatement, rule .returnStatement, rule .breakStatement, rule .continueStatement,
    rule .emptyStatement, rule .expressionStatement]

/-- A statement of a block. -/
def blockStatement : Pattern := alt (rule .localVariableDeclarationStatement) statement

/-- An expression that may stand as a statement. -/
def statementExpression : Pattern :=
  oneOf [rule .assignment, rule .preIncrement, rule .postIncrement, rule .methodInvocation,
    rule .classInstanceCreation]

/-- A constant. -/
def literal : Pattern :=
  oneOf [rule .doubleLiteral, rule .longLiteral, rule .intLiteral, rule .charLiteral,
    rule .stringLiteral, rule .booleanLiteral, rule .nullLiteral]

/-- An operand that no sign stands before. -/
def primary : Pattern :=
  oneOf [literal, inOrder [lit "(", rule .expression, lit ")"], rule .arrayCreation,
    rule .classInstanceCreation, rule .methodInvocation, rule .expressionName]

/-- An operand of a binary operator. -/
def unary : Pattern :=
  oneOf [rule .preIncrement, rule .unaryExpression, rule .postIncrement, primary]

/-- Operands joined by operators of one level. -/
def chain (operand : Pattern) (operator : Rule) : Pattern :=
  seq operand (many (seq (rule operator) operand))

/-- A list of expressions, which may be empty. -/
def expressions : Pattern := opt (separated "," (rule .expression))

/-- One segment of a dotted name. -/
def nameSegment : Pattern := alt (wordOf ["this", "super"]) (rule .identifier)

/-- Decimal digits, at least one. -/
def digits : Pattern := plus (char Char.isDigit)

/-- A character of a quotation: escaped, or neither the quote nor a backslash. -/
def quotedChar (quote : Char) : Pattern :=
  alt (seq (text ['\\']) (char (fun _ => true))) (char (fun c => c != quote && c != '\\'))

/-- The body of a rule. -/
def Rule.body : Rule → Pattern
  | .compilationUnit => inOrder [start, many (rule .classDeclaration), rule .endOfInput]
  | .classDeclaration =>
    inOrder [many (rule .modifier), word "class", rule .identifier, opt (rule .superclass),
      lit "\x7b", many member, lit "\x7d"]
  | .superclass => inOrder [word "extends", rule .identifier]
  | .modifier =>
    wordOf ["public", "private", "protected", "static", "final", "native", "abstract"]
  | .identifier =>
    inOrder [avoid (wordOf keywords), char isNameStart, many (char isNameChar)]
  | .unannType => seq typeWord (opt brackets)
  | .arrayType => seq typeWord brackets
  | .resultType => alt (word "void") (rule .unannType)
  | .fieldDeclaration =>
    inOrder [many (rule .modifier), rule .unannType, separated "," (rule .variableDeclarator),
      lit ";"]
  | .variableDeclarator => seq (rule .identifier) (opt (seq (lit "=") (rule .expression)))
  | .methodDeclaration =>
    inOrder [many (rule .modifier), rule .resultType, rule .identifier, rule .formalParameters,
      alt (rule .block) (rule .emptyBody)]
  | .emptyBody => lit ";"
  | .constructorDeclaration =>
    inOrder [many (rule .modifier), rule .identifier, rule .formalParameters, rule .constructorBody]
  | .constructorBody =>
    inOrder [lit "\x7b", opt (rule .explicitConstructorInvocation), many blockStatement, lit "\x7d"]
  | .explicitConstructorInvocation => inOrder [rule .thisOrSuper, rule .arguments, lit ";"]
  | .thisOrSuper => wordOf ["this", "super"]
  | .formalParameters =>
    inOrder [lit "(", opt (separated "," (rule .formalParameter)), lit ")"]
  | .formalParameter => inOrder [opt (word "final"), rule .unannType, rule .identifier]
  | .block => inOrder [lit "\x7b", many blockStatement, lit "\x7d"]
  | .localVariableDeclarationStatement => seq (rule .localVariableDeclaration) (lit ";")
  | .localVariableDeclaration =>
    seq (rule .unannType) (separated "," (rule .variableDeclarator))
  | .ifStatement =>
    inOrder [word "if", lit "(", rule .expression, lit ")", statement,
      opt (seq (word "else") statement)]
  | .whileStatement => inOrder [word "while", lit "(", rule .expression, lit ")", statement]
  | .forStatement =>
    inOrder [word "for", lit "(", opt (rule .forInit), lit ";", opt (rule .expression), lit ";",
      opt (rule .forUpdate), lit ")", statement]
  | .forInit => alt (rule .localVariableDeclaration) (separated "," statementExpression)
  | .forUpdate => separated "," statementExpression
  | .switchStatement =>
    inOrder [word "switch", lit "(", rule .expression, lit ")", lit "\x7b",
      many (rule .switchBlockGroup), lit "\x7d"]
  | .switchBlockGroup =>
    seq (plus (alt (rule .caseLabel) (rule .defaultLabel))) (many blockStatement)
  | .caseLabel => inOrder [word "case", rule .expression, lit ":"]
  | .defaultLabel => seq (word "default") (lit ":")
  | .returnStatement => inOrder [word "return", opt (rule .expression), lit ";"]
  | .breakStatement => seq (word "break") (lit ";")
  | .continueStatement => seq (word "continue") (lit ";")
  | .emptyStatement => lit ";"
  | .expressionStatement => seq statementExpression (lit ";")
  | .expressionEntry => inOrder [start, rule .expression, rule .endOfInput]
  | .expression => alt (rule .assignment) (rule .conditionalOr)
  | .assignment => inOrder [rule .expressionName, rule .assignmentOperator, rule .expression]
  | .assignmentOperator => oneOf (["=", "+=", "-=", "*=", "/=", "%="].map lit)
  | .conditionalOr => chain (rule .conditionalAnd) .orOp
  | .conditionalAnd => chain (rule .equality) .andOp
  | .equality => chain (rule .relational) .equalityOp
  | .relational => chain (rule .additive) .relationalOp
  | .additive => chain (rule .multiplicative) .additiveOp
  | .multiplicative => chain unary .multiplicativeOp
  | .orOp => lit "||"
  | .andOp => lit "&&"
  | .equalityOp => oneOf (["==", "!="].map lit)
  | .relationalOp => oneOf (["<=", ">=", "<", ">"].map lit)
  | .additiveOp => oneOf (["+", "-"].map lit)
  | .multiplicativeOp => oneOf (["*", "/", "%"].map lit)
  | .unaryExpression => seq (rule .unaryOp) unary
  | .unaryOp => oneOf (["-", "+", "!"].map lit)
  | .preIncrement => seq (rule .incrementOp) (rule .expressionName)
  | .postIncrement => seq (rule .expressionName) (rule .incrementOp)
  | .incrementOp => oneOf (["++", "--"].map lit)
  | .classInstanceCreation => inOrder [word "new", rule .identifier, rule .arguments]
  | .arrayCreation => inOrder [word "new", rule .arrayType, lit "\x7b", expressions, lit "\x7d"]
  | .methodInvocation => seq (rule .expressionName) (rule .arguments)
  | .arguments => inOrder [lit "(", expressions, lit ")"]
  | .expressionName => seq nameSegment (many (seq (lit ".") nameSegment))
  | .doubleLiteral =>
    alt (inOrder [digits, lit ".", digits, opt (alt (lit "d") (lit "D"))])
      (seq digits (alt (lit "d") (lit "D")))
  | .longLiteral => seq digits (alt (lit "L") (lit "l"))
  | .intLiteral => digits
  | .charLiteral => inOrder [text ['\''], rule .charContent, text ['\'']]
  | .charContent => quotedChar '\''
  | .stringLiteral => inOrder [text ['"'], rule .stringContent, text ['"']]
  | .stringContent => many (quotedChar '"')
  | .booleanLiteral => wordOf ["true", "false"]
  | .nullLiteral => word "null"
  | .endOfInput => stop

/-- The node of a rule for a match of its body that began at a place. -/
def Rule.wrap (r : Rule) (c d : Cursor) (ts : List Tree) : Outcome :=
  .matched d [.node r c.offset (c.textTo d) (if r.spacing == .atomic then [] else ts)]

/-- Matches a rule, with room for `room` rules inside one another. -/
def Rule.run : Nat → Spacing → Rule → Cursor → Outcome
  | 0, _, _, _ => .exhausted
  | room + 1, gaps, r, c => (r.body.run (Rule.run room) (gaps.within r.spacing) c).andThen (r.wrap c)

/-- Room enough for a source: no rule calls itself without reading a character, and fewer than 32 rules
are entered in between. -/
def roomFor (source : String) : Nat := 32 * (source.length + 1)

/-- The parse tree of a whole source under a rule, `none` if the grammar rejects it. -/
def parse? (r : Rule) (source : String) : Option Tree :=
  match Rule.run (roomFor source) .free r (Cursor.start source) with
  | .matched _ [t] => some t
  | _ => none

end Grammar
end StashMachine
