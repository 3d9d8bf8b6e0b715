import ScriptTyping.Judgment.Basic

/-!
# Operators

Types of unary, binary, conditional and assignment expressions.  Only `+` looks at its operands: two
numeric operands give a number, operands that may be numeric a number or a string, and all others a
string.

## Main definitions

* `Program.isNumeric`, `Program.mayBeNumeric` — classification of operands.
* `Program.additionType` — the type of a sum.
* `Program.unaryType`, `Program.binaryType`, `Program.alternativesType`, `Program.assignmentType`.
-/

namespace ScriptTyping.Program

variable (p : Program)

/-- How many bounds and intersections are followed. -/
def operandDepth : Nat := 17

/-- Whether all values of a type are numbers, through at most `room` bounds and intersections. -/
def isNumericFrom : Nat → TypeId → TypeM Bool
  | 0, _ => pure false
  | room + 1, t => do
    match ← TypeM.lookup t with
    | .primitive _ => return t == .number
    | .literal (.number _) => return true
    | .literal (.enumMember enumDecl _) => return p.world.isEnumOf enumDecl .numberBased
    | .nominal decl _ => return p.world.isEnumOf decl .numberBased
    | .intersection members => members.anyM (isNumericFrom room)
    | .typeVariable decl => isNumericFrom room (p.world.declarations.variableBound decl)
    | .wildcard .. | .thisType (some _) =>
      let upper ← TypeM.upperBound t
      if upper = t then return false
      isNumericFrom room upper
    | _ => return false

/-- `number`, a number, a number-based enum or one of its literals, through bounds and
intersections. -/
def isNumeric (t : TypeId) : TypeM Bool := p.isNumericFrom operandDepth t

/-- A numeric type, `any`, `symbol`, or a union with a numeric member. -/
def mayBeNumeric (t : TypeId) : TypeM Bool := do
  if t.isAny || t == .symbol then return true
  if ← p.isNumeric t then return true
  match (← TypeM.lookup t).unionMembers? with
  | some members => members.anyM p.isNumeric
  | none => return false

/-- The type of a sum. -/
def additionType (env : Environment) (left right : TypeId) : TypeM TypeId := do
  let numberOrString : TypeM TypeId := p.union env [.number, .string]
  if left.isUnknown && right.isUnknown then return ← numberOrString
  let leftNumeric ← p.isNumeric left
  let rightNumeric ← p.isNumeric right
  if leftNumeric && rightNumeric then return .number
  if (left.isUnknown && rightNumeric) || (right.isUnknown && leftNumeric) then
    return ← numberOrString
  if ← p.mayBeNumeric left then
    if ← p.mayBeNumeric right then return ← numberOrString
  return .string

/-- Whether an expression is an array literal without elements, parentheses aside. -/
def isEmptyArray (slot : Slot) : TypeM Bool := do
  match p.contentAt? (← TypeM.ofOption (p.tree.stripParens? slot)) with
  | some (.arrayLiteral elements) =>
    return elements.all fun element =>
      match p.contentAt? element with
      | some .arrayPadding | none => true
      | _ => false
  | _ => return false

/-- Whether a type is an array type. -/
def isArray (t : TypeId) : TypeM Bool :=
  return (p.world.arrayElement? (← TypeM.lookup t)).isSome

variable (judge : Judge) (env : Environment)

/-- The type of a unary expression.  A sign in front of a numeric literal gives a numeric literal.
-/
def unaryType (op : UnaryOperator) (operand : Slot) : InferM TypeId := do
  match op with
  | .delete | .not => return .boolean
  | .void => return .undefined
  | .typeOf => return .string
  | .increment | .decrement | .bitwiseNot => return .number
  | .plus | .minus =>
    let t ← judge.slot env operand
    match ← TypeM.lookup t with
    | .literal (.number value) => if op = .minus then TypeM.numberLiteral value.neg else return t
    | _ => return .number

/-- The type of an expression with two alternatives: their union, but an empty array literal beside
an array leaves the array. -/
def alternativesType (first second : Slot) : InferM TypeId := do
  let firstType ← judge.slot env first
  let secondType ← judge.slot env second
  if ← p.isEmptyArray first then
    if ← p.isArray secondType then return secondType
  if ← p.isEmptyArray second then
    if ← p.isArray firstType then return firstType
  p.union env [firstType, secondType]

/-- The type of a binary expression. -/
def binaryType (op : BinaryOperator) (left right : Slot) : InferM TypeId := do
  match op.family with
  | .additive =>
    if op ≠ .add then return .number
    let leftType ← judge.slot env left
    let rightType ← judge.slot env right
    p.additionType env leftType rightType
  | .multiplicative | .shift | .bitwise => return .number
  | .relational | .equality => return .boolean
  | .logical | .coalesce => p.alternativesType judge env left right

/-- Numeric types, and `boolean`, which counts as a number in a compound sum. -/
def isNumericLike (t : TypeId) : TypeM Bool :=
  if t = .boolean then pure true else p.isNumeric t

/-- The type of a compound sum: a number if both sides are numeric, or one is and the other is
`null` or `undefined`; otherwise a string. -/
def compoundSumType (left right : TypeId) : TypeM TypeId := do
  let leftNumeric ← p.isNumericLike left
  let rightNumeric ← p.isNumericLike right
  if (leftNumeric && rightNumeric) || (left.isNullish && rightNumeric) ||
      (right.isNullish && leftNumeric) then
    return .number
  return .string

/-- The type of an assignment. -/
def assignmentType (op : AssignmentOperator) (left right : Slot) : InferM TypeId := do
  match op with
  | .assign => judge.slot env right
  | .addAssign =>
    let leftType ← judge.slot env left
    let rightType ← judge.slot env right
    p.compoundSumType leftType rightType
  | _ => return .number

end ScriptTyping.Program
