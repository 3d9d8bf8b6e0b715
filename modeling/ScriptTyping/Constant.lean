import ScriptTyping.Declarations.Store
import ScriptTyping.Tree.Basic
import ScriptTyping.Types.Table

/-!
# Constants

The value of an expression that is known without running the program: literals, templates without
expressions, signs, sums, parentheses, and references to constant variables and fields with constant
initializers.  A reference that leads back to itself has no value.

## Main definitions

* `ConstValue`, `ConstValue.propertyName` — values, and the property that each selects.
* `Constant.evaluate` — the value of an expression, if it is constant.
-/

namespace ScriptTyping

/-- Value of a constant expression. -/
inductive ConstValue where
  | number (value : Decimal)
  | string (value : String)
  | boolean (value : Bool)
  deriving DecidableEq, Repr

/-- Name of the property that a value selects: numbers without trailing zeros. -/
def ConstValue.propertyName : ConstValue → String
  | number value => value.normalize.render
  | string value => value
  | boolean value => if value then "true" else "false"

/-- Evaluation: a value, none for an expression that is not constant, or a tree that contains
itself. -/
abbrev ConstM := OptionT (Except Divergence)

namespace Constant

/-- What evaluation reads. -/
structure Context where
  tree : Tree
  declarations : Declarations
  symbols : SymbolTable

/-- The value of a sign in front of a value. -/
def sign (op : UnaryOperator) (value : ConstValue) : Option ConstValue :=
  match op, value with
  | .plus, .number n => some (.number n)
  | .minus, .number n => some (.number n.neg)
  | _, _ => none

/-- The value of a sum: of two numbers, or of two values one of which is a string. -/
def sum (left right : ConstValue) : Option ConstValue :=
  match left, right with
  | .number a, .number b => (a.checkedAdd b).map .number
  | .string _, _ | _, .string _ => some (.string (left.propertyName ++ right.propertyName))
  | _, _ => none

variable (c : Context)

/-- The text of a template's segment. -/
def segment? (slot : Slot) : Option String :=
  match c.tree.contentAt? slot with
  | some (.templateSegment text) => some (c.symbols.resolve text)
  | _ => none

/-- The initializer of a constant variable or field. -/
def initializer? (decl : DeclId) : Option Slot := do
  let info ← c.declarations.get? decl
  if !info.isConst || !(info.kind == .var || info.kind == .field) then none
  match ← c.tree.content? (← info.node) with
  | .variableDecl _ _ initializer _ | .field _ _ initializer _ _ => some initializer
  | _ => none

/-- Evaluation with the given depth, while some declarations are being evaluated. -/
def evalFrom : Nat → List DeclId → Slot → ConstM ConstValue
  | 0, _, _ => throwThe Divergence .outOfFuel
  | fuel + 1, visiting, slot => do
    match c.tree.contentAt? slot with
    | some (.numericLiteral value) => return .number value
    | some (.stringLiteral value) => return .string (c.symbols.resolve value)
    | some (.booleanLiteral value) => return .boolean value
    | some (.template parts) =>
      let texts ← OptionT.mk (pure (parts.mapM (segment? c)))
      return .string (String.join texts)
    | some (.paren expression) => evalFrom fuel visiting expression
    | some (.unary op operand) =>
      if op == .plus || op == .minus then
        let value ← evalFrom fuel visiting operand
        OptionT.mk (pure (sign op value))
      else failure
    | some (.binary .add left right) =>
      let left ← evalFrom fuel visiting left
      let right ← evalFrom fuel visiting right
      OptionT.mk (pure (sum left right))
    | some (.identifier _ (some target)) =>
      let decl := c.declarations.canonical target
      if visiting.contains decl then failure
      let initializer ← OptionT.mk (pure (initializer? c decl))
      evalFrom fuel (decl :: visiting) initializer
    | _ => failure

/-- Enough depth for every tree that does not contain itself: between two references a path meets
each node once at most, and it follows each declaration once at most. -/
def depth : Nat := (c.tree.size + 1) * (c.declarations.size + 1)

/-- The value of an expression, if it is constant. -/
def evaluate (slot : Slot) : Except Divergence (Option ConstValue) :=
  (evalFrom c (depth c) [] slot).run

end Constant

end ScriptTyping
