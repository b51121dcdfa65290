/-! # Constructs

The kinds of syntax nodes that matter for an outline.  A parser names far more kinds; all others are
`other` and are only looked through.
-/

namespace LoadBearing

/-- What a syntax node is to an outline. -/
inductive Construct where
  | functionDeclaration
  /-- a function without an arrow, used as a value -/
  | functionExpression
  | arrowFunction
  /-- a method of a class or of an object -/
  | method
  | classDefinition
  /-- a name with its first value -/
  | declarator
  | assignment
  /-- a key with its value in an object -/
  | pair
  /-- a field of a class -/
  | field
  | exportStatement
  | importStatement
  | call
  | ifStatement
  | forStatement
  | forInStatement
  | whileStatement
  | doStatement
  | switchCase
  | catchClause
  | ternary
  /-- an operator with two operands -/
  | binary
  | other
  deriving DecidableEq, Repr

namespace Construct

def ofKind (kind : String) : Construct :=
  match kind with
  | "function_declaration" | "generator_function_declaration" => .functionDeclaration
  | "function_expression" | "function" | "generator_function" => .functionExpression
  | "arrow_function" => .arrowFunction
  | "method_definition" => .method
  | "class_declaration" | "abstract_class_declaration" | "class" => .classDefinition
  | "variable_declarator" => .declarator
  | "assignment_expression" => .assignment
  | "pair" => .pair
  | "field_definition" | "public_field_definition" => .field
  | "export_statement" => .exportStatement
  | "import_statement" => .importStatement
  | "call_expression" => .call
  | "if_statement" => .ifStatement
  | "for_statement" => .forStatement
  | "for_in_statement" => .forInStatement
  | "while_statement" => .whileStatement
  | "do_statement" => .doStatement
  | "switch_case" => .switchCase
  | "catch_clause" => .catchClause
  | "ternary_expression" => .ternary
  | "binary_expression" => .binary
  | _ => .other

/-- Whether it is a function that is a value and not a declaration. -/
def isFunctionValue : Construct → Bool
  | .functionExpression | .arrowFunction => true
  | _ => false

def isBranch : Construct → Bool
  | .ifStatement | .forStatement | .forInStatement | .whileStatement | .doStatement | .switchCase
  | .catchClause | .ternary => true
  | _ => false

end Construct

/-- Whether an operator skips its second operand for some values of the first. -/
def isLogicalOperator (operator : String) : Bool :=
  operator = "&&" || operator = "||" || operator = "??"

end LoadBearing
