import ScriptTyping.Declarations.Basic
import ScriptTyping.Environment
import ScriptTyping.Lattice.Narrowing
import ScriptTyping.Notice
import ScriptTyping.Recursion
import ScriptTyping.Tree.Operator

/-!
# Written names

The values of a closed type have written names, by which requests and reports refer to them.

## Main definitions

* `Vocabulary` — a type whose values have names.
* `Vocabulary.ofName?`, `Vocabulary.nameOf` — from a name to its value and back.
-/

namespace ScriptTyping

/-- A type whose values have written names. -/
class Vocabulary (α : Type) where
  /-- The values with their names, each name and each value once. -/
  entries : List (String × α)

namespace Vocabulary

variable {α : Type} [Vocabulary α]

/-- The value with a given name. -/
def ofName? (name : String) : Option α := (entries : List (String × α)).lookup name

/-- The name of a value; the empty text if it has none. -/
def nameOf [DecidableEq α] (a : α) : String :=
  ((entries.find? fun entry => entry.2 = a).map (·.1)).getD ""

end Vocabulary

instance : Vocabulary Category where
  entries := [("Warning", .warning), ("Error", .error), ("Suggestion", .suggestion),
    ("Message", .message)]

instance : Vocabulary RecursionProfile where
  entries := [("SubtypeCheck", .subtypeCheck), ("Substitution", .substitution),
    ("Hierarchy", .hierarchy), ("Join", .join), ("Inference", .inference)]

instance : Vocabulary EntryResult where
  entries := [("Entered", .entered), ("Cycle", .cycle), ("DepthExceeded", .depthExceeded),
    ("IterationExceeded", .iterationExceeded)]

instance : Vocabulary GuardKind where
  entries := [("VariableInitializer", .variableInitializer),
    ("DestructuringPattern", .destructuringPattern), ("ForOfIteration", .forOfIteration),
    ("PropertyAccess", .propertyAccess), ("CallExpression", .callExpression),
    ("FunctionReturn", .functionReturn)]

instance : Vocabulary UnaryOperator where
  entries := [("Delete", .delete), ("Void", .void), ("Typeof", .typeOf),
    ("Increment", .increment), ("Decrement", .decrement), ("Plus", .plus), ("Minus", .minus),
    ("BitwiseNot", .bitwiseNot), ("Not", .not)]

instance : Vocabulary PostfixOperator where
  entries := [("Increment", .increment), ("Decrement", .decrement)]

instance : Vocabulary BinaryOperator where
  entries := [("Multiply", .multiply), ("Divide", .divide), ("Modulo", .modulo), ("Add", .add),
    ("Subtract", .subtract), ("ShiftLeft", .shiftLeft), ("ShiftRight", .shiftRight),
    ("UnsignedShiftRight", .unsignedShiftRight), ("Less", .less), ("Greater", .greater),
    ("LessEqual", .lessEqual), ("GreaterEqual", .greaterEqual), ("Instanceof", .instanceOf),
    ("In", .inside), ("Equal", .equal), ("NotEqual", .notEqual), ("StrictEqual", .strictEqual),
    ("StrictNotEqual", .strictNotEqual), ("BitwiseAnd", .bitwiseAnd), ("BitwiseOr", .bitwiseOr),
    ("BitwiseXor", .bitwiseXor), ("And", .and), ("Or", .or), ("Coalesce", .coalesce)]

instance : Vocabulary OperatorFamily where
  entries := [("Multiplicative", .multiplicative), ("Additive", .additive), ("Shift", .shift),
    ("Relational", .relational), ("Equality", .equality), ("Bitwise", .bitwise),
    ("Logical", .logical), ("Coalesce", .coalesce)]

instance : Vocabulary AssignmentOperator where
  entries := [("Assign", .assign), ("AddAssign", .addAssign), ("SubtractAssign", .subtractAssign),
    ("MultiplyAssign", .multiplyAssign), ("DivideAssign", .divideAssign),
    ("ModuloAssign", .moduloAssign), ("ShiftLeftAssign", .shiftLeftAssign),
    ("ShiftRightAssign", .shiftRightAssign),
    ("UnsignedShiftRightAssign", .unsignedShiftRightAssign),
    ("BitwiseAndAssign", .bitwiseAndAssign), ("BitwiseOrAssign", .bitwiseOrAssign),
    ("BitwiseXorAssign", .bitwiseXorAssign)]

instance : Vocabulary ForKind where
  entries := [("plain", .plain), ("in", .overNames), ("of", .overElements false),
    ("await", .overElements true)]

instance : Vocabulary DeclKind where
  entries := [("Class", .classType), ("Interface", .interfaceType), ("Enum", .enumType .normal),
    ("NumberEnum", .enumType .numberBased), ("StringEnum", .enumType .stringBased),
    ("TypeAlias", .typeAlias), ("EnumLiteral", .enumLiteral), ("Function", .function),
    ("Method", .method), ("Getter", .getter), ("Setter", .setter), ("Field", .field),
    ("Parameter", .parameter), ("Variable", .var), ("TypeVariable", .typeVariable),
    ("Dynamic", .dynamic), ("Namespace", .moduleImport)]

instance : Vocabulary EnumKind where
  entries := [("Normal", .normal), ("NumberBased", .numberBased), ("StringBased", .stringBased)]

instance : Vocabulary Flag where
  entries := [("STATIC", .static), ("ABSTRACT", .abstract), ("CONST", .const),
    ("OPTIONAL", .optional), ("VARIADIC", .variadic), ("PROMISIFIABLE", .promisifiable),
    ("CONSTRUCTOR", .constructor), ("CALL_SIGNATURE", .callSignature),
    ("CONSTRUCT_SIGNATURE", .constructSignature), ("DYNAMIC", .dynamic),
    ("INDEX_SIGNATURE", .indexSignature), ("INFERRED_RETURN", .inferredReturn),
    ("ASYNC", .async), ("GENERATOR", .generator)]

instance : Vocabulary Variance where
  entries := [("Covariant", .covariant), ("Contravariant", .contravariant),
    ("Invariant", .invariant)]

instance : Vocabulary Assertion where
  entries := [("always", .alwaysHolds), ("never", .neverHolds), ("may", .mayHold)]

end ScriptTyping
