import Std.Data.HashMap
import ScriptTyping.Types.Basic

/-!
# The type table

Equal type values have equal handles: the table stores each value once, in order of arrival, behind
sixteen reserved rows.  Ten of these hold the intrinsic types; the others read as unknown and are
never handed out.  The table also owns the symbols that names and string literals use.

## Main definitions

* `TypeTable` — rows, reverse index and symbols.
* `TypeTable.intern` — the handle of a value.
* `TypeTable.lookup?`, `TypeTable.lookup` — the value of a handle.
* `TypeTable.upperBound?` — through the bounds of wildcards and `this`.
* `TypeM` — computations that extend the table.
-/

namespace ScriptTyping

/-- Stored type values with the handle of each, and the stored symbols. -/
structure TypeTable where
  /-- The values, by handle. -/
  rows : Array TypeData
  /-- The handle of each value that may be handed out. -/
  handles : Std.HashMap TypeData TypeId
  /-- Names and string values. -/
  symbols : SymbolTable

/-- The intrinsic types with their reserved handles. -/
def intrinsics : List (TypeId × TypeData) :=
  [(.unknown, .unknown), (.dynamicAny, .dynamicAny), (.any, .primitive .any),
    (.number, .primitive .number), (.string, .primitive .string), (.boolean, .primitive .boolean),
    (.symbol, .primitive .symbol), (.null, .primitive .null),
    (.undefined, .primitive .undefined), (.void, .primitive .void)]

namespace TypeTable

/-- The table of the intrinsic types. -/
def initial : TypeTable where
  rows := (intrinsics.map Prod.snd ++
    List.replicate (TypeId.firstDynamic - intrinsics.length) TypeData.unknown).toArray
  handles := intrinsics.foldl (fun handles row => handles.insert row.2 row.1) ∅
  symbols := .initial

instance : Inhabited TypeTable := ⟨initial⟩

/-- The handle of a value, which is stored at the next free row if it is new. -/
def intern (table : TypeTable) (data : TypeData) : TypeId × TypeTable :=
  match table with
  | ⟨rows, handles, symbols⟩ =>
    match handles[data]? with
    | some id => (id, ⟨rows, handles, symbols⟩)
    | none =>
      let id : TypeId := ⟨rows.size⟩
      (id, ⟨rows.push data, handles.insert data id, symbols⟩)

/-- The value of a handle; nothing for a handle outside the table. -/
def lookup? (table : TypeTable) (t : TypeId) : Option TypeData := table.rows[t.index]?

/-- The value of a handle; a handle outside the table reads as unknown. -/
def lookup (table : TypeTable) (t : TypeId) : TypeData := (table.lookup? t).getD .unknown

/-- Number of values that may be handed out. -/
def size (table : TypeTable) : Nat := table.handles.size

/-- The symbol of a text, which is stored if it is new. -/
def internSymbol (table : TypeTable) (text : String) : Symbol × TypeTable :=
  match table with
  | ⟨rows, handles, symbols⟩ =>
    let (symbol, symbols) := symbols.intern text
    (symbol, ⟨rows, handles, symbols⟩)

/-- The text of a symbol. -/
def text (table : TypeTable) (s : Symbol) : String := table.symbols.resolve s

/-- Follows the bounds of wildcards and of `this`, at most `fuel` of them. -/
def boundFrom? (table : TypeTable) : Nat → TypeId → Option TypeId
  | 0, t =>
    match table.lookup t with
    | .wildcard (some _) .upper | .thisType (some _) => none
    | .wildcard .. => some .any
    | _ => some t
  | fuel + 1, t =>
    match table.lookup t with
    | .wildcard (some bound) .upper | .thisType (some bound) => table.boundFrom? fuel bound
    | .wildcard .. => some .any
    | _ => some t

/-- The upper bound of a type: a wildcard with a bound above stands for that bound, any other
wildcard for `any`, and `this` with a receiver for the receiver.  Type variables stay.  Nothing when
the bounds run in a circle, which a walk longer than the table shows. -/
def upperBound? (table : TypeTable) (t : TypeId) : Option TypeId :=
  table.boundFrom? table.rows.size t

end TypeTable

/-- The failure of a computation over types that does not come to an end. -/
inductive Divergence where
  | outOfFuel
  deriving DecidableEq, Repr

/-- Computations that extend the type table; a failed one keeps what it stored. -/
abbrev TypeM := EStateM Divergence TypeTable

namespace TypeM

/-- Gives up. -/
def diverge {α : Type} : TypeM α := throw .outOfFuel

/-- The value of an optional result whose absence means that the computation does not end. -/
def ofOption {α : Type} : Option α → TypeM α
  | some a => pure a
  | none => diverge

/-- The value of a handle; a handle outside the table reads as unknown. -/
def lookup (t : TypeId) : TypeM TypeData := return (← get).lookup t

/-- The text of a symbol. -/
def text (s : Symbol) : TypeM String := return (← get).text s

/-- The symbol of a text. -/
def internSymbol (text : String) : TypeM Symbol := modifyGet (·.internSymbol text)

/-- The handle of a value. -/
def intern (data : TypeData) : TypeM TypeId := modifyGet (·.intern data)

/-- The upper bound of a type. -/
def upperBound (t : TypeId) : TypeM TypeId := do ofOption ((← get).upperBound? t)

/-- Reference to a declared type with type arguments. -/
def nominal (decl : DeclId) (args : List TypeId) : TypeM TypeId := intern (.nominal decl args)

/-- Reference to a declared type without type arguments. -/
def simple (decl : DeclId) : TypeM TypeId := nominal decl []

/-- Anonymous object shape. -/
def structural (members : List Property) : TypeM TypeId := intern (.structural members)

/-- Union of the members exactly as given. -/
def union (members : List TypeId) : TypeM TypeId := intern (.union members)

/-- Intersection of the members exactly as given. -/
def intersection (members : List TypeId) : TypeM TypeId := intern (.intersection members)

/-- Function type. -/
def function (signature : Signature) : TypeM TypeId := intern (.function signature)

/-- Literal type of a boolean. -/
def booleanLiteral (value : Bool) : TypeM TypeId := intern (.literal (.boolean value))

/-- Literal type of a number; decimals of one value have one literal type. -/
def numberLiteral (value : Decimal) : TypeM TypeId :=
  intern (.literal (.number value.normalize))

/-- Literal type of a string. -/
def stringLiteral (value : Symbol) : TypeM TypeId := intern (.literal (.string value))

/-- Literal type of a text. -/
def textLiteral (value : String) : TypeM TypeId := do stringLiteral (← internSymbol value)

/-- Literal type of an enum member. -/
def enumLiteral (enumDecl member : DeclId) : TypeM TypeId :=
  intern (.literal (.enumMember enumDecl member))

/-- Literal type of any literal value. -/
def literal : LiteralValue → TypeM TypeId
  | .number value => numberLiteral value
  | value => intern (.literal value)

/-- The type of `this`. -/
def thisType (bound : Option TypeId) : TypeM TypeId := intern (.thisType bound)

/-- A type variable. -/
def typeVariable (decl : DeclId) : TypeM TypeId := intern (.typeVariable decl)

/-- A wildcard. -/
def wildcard (bound : Option TypeId) (kind : WildcardKind) : TypeM TypeId :=
  intern (.wildcard bound kind)

/-- The type of a type. -/
def metaType (arg : TypeId) : TypeM TypeId := intern (.metaType arg false)

/-- The type of a class's constructor. -/
def constructorType (arg : TypeId) : TypeM TypeId := intern (.metaType arg true)

end TypeM

end ScriptTyping
