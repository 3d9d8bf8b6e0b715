/-!
# Operators

The operators of the language and the families that binary operators fall into.

## Main definitions

* `UnaryOperator`, `PostfixOperator`, `BinaryOperator`, `AssignmentOperator`.
* `BinaryOperator.family` — operators of one family have one rule for the type of the result.
-/

namespace ScriptTyping

/-- Operators before their operand. -/
inductive UnaryOperator where
  | delete
  | void
  | typeOf
  | increment
  | decrement
  | plus
  | minus
  | bitwiseNot
  | not
  deriving DecidableEq, Repr

/-- Operators behind their operand. -/
inductive PostfixOperator where
  | increment
  | decrement
  deriving DecidableEq, Repr

/-- Operators between two operands. -/
inductive BinaryOperator where
  | multiply
  | divide
  | modulo
  | add
  | subtract
  | shiftLeft
  | shiftRight
  | unsignedShiftRight
  | less
  | greater
  | lessEqual
  | greaterEqual
  | instanceOf
  | inside
  | equal
  | notEqual
  | strictEqual
  | strictNotEqual
  | bitwiseAnd
  | bitwiseOr
  | bitwiseXor
  | and
  | or
  | coalesce
  deriving DecidableEq, Repr

/-- Family of binary operators. -/
inductive OperatorFamily where
  | multiplicative
  | additive
  | shift
  | relational
  | equality
  | bitwise
  | logical
  | coalesce
  deriving DecidableEq, Repr

/-- The family of a binary operator. -/
def BinaryOperator.family : BinaryOperator → OperatorFamily
  | multiply | divide | modulo => .multiplicative
  | add | subtract => .additive
  | shiftLeft | shiftRight | unsignedShiftRight => .shift
  | less | greater | lessEqual | greaterEqual | instanceOf | inside => .relational
  | equal | notEqual | strictEqual | strictNotEqual => .equality
  | bitwiseAnd | bitwiseOr | bitwiseXor => .bitwise
  | and | or => .logical
  | coalesce => .coalesce

/-- Plain and compound assignment. -/
inductive AssignmentOperator where
  | assign
  | addAssign
  | subtractAssign
  | multiplyAssign
  | divideAssign
  | moduloAssign
  | shiftLeftAssign
  | shiftRightAssign
  | unsignedShiftRightAssign
  | bitwiseAndAssign
  | bitwiseOrAssign
  | bitwiseXorAssign
  deriving DecidableEq, Repr

/-- Kind of a loop. -/
inductive ForKind where
  /-- With initialization, condition and update. -/
  | plain
  /-- Over the property names of an object. -/
  | overNames
  /-- Over the elements of an iterable. -/
  | overElements (isAwait : Bool)
  deriving DecidableEq, Repr

end ScriptTyping
