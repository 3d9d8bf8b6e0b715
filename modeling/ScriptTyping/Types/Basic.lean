import ScriptTyping.Decimal
import ScriptTyping.Handle
import ScriptTyping.Text.Symbol

/-!
# Type values

A type value is one layer of a type: its constructor with the handles of its parts.  The values are
closed under no simplification; a union is the list of its members as given.

## Main definitions

* `TypeData` — one layer of a type.
* `Signature`, `Parameter` — function types.
* `Property` — a member of an anonymous object shape.
* `LiteralValue` — the value that a literal type carries.
-/

namespace ScriptTyping

/-- Built-in primitive types and the top type `any`. -/
inductive Primitive where
  | any
  | number
  | string
  | boolean
  | symbol
  | null
  | undefined
  | void
  deriving DecidableEq, Hashable, Repr

namespace Primitive

/-- The reserved handle of a primitive type. -/
def typeId : Primitive → TypeId
  | any => .any
  | number => .number
  | string => .string
  | boolean => .boolean
  | symbol => .symbol
  | null => .null
  | undefined => .undefined
  | void => .void

/-- The name of a primitive type. -/
def name : Primitive → String
  | any => "any"
  | number => "number"
  | string => "string"
  | boolean => "boolean"
  | symbol => "symbol"
  | null => "null"
  | undefined => "undefined"
  | void => "void"

end Primitive

/-- The value of a literal type. -/
inductive LiteralValue where
  | boolean (value : Bool)
  | number (value : Decimal)
  | string (value : Symbol)
  /-- A literal of an enum declaration. -/
  | enumMember (enumDecl member : DeclId)
  deriving DecidableEq, Hashable, Repr

/-- A parameter of a function type. -/
structure Parameter where
  /-- Name of the parameter. -/
  name : Symbol
  /-- Type of the parameter. -/
  type : TypeId
  /-- The argument may be left out. -/
  optional : Bool
  /-- The parameter takes all further arguments. -/
  rest : Bool
  deriving DecidableEq, Hashable, Repr

/-- A parameter that must be given exactly once. -/
def Parameter.required (name : Symbol) (type : TypeId) : Parameter := ⟨name, type, false, false⟩

/-- Signature of a function, method, constructor or call member. -/
structure Signature where
  /-- Open type parameters. -/
  typeParams : List DeclId
  /-- Value parameters. -/
  params : List Parameter
  /-- Type of the result. -/
  returnType : TypeId
  /-- Declared or bound `this` type. -/
  thisType : Option TypeId
  /-- Declaration that the signature was taken from. -/
  decl : Option DeclId
  deriving DecidableEq, Hashable, Repr

/-- A signature with value parameters and a result only. -/
def Signature.plain (params : List Parameter) (returnType : TypeId) : Signature :=
  ⟨[], params, returnType, none, none⟩

/-- A member of an anonymous object shape. -/
structure Property where
  /-- Name of the member. -/
  name : Symbol
  /-- Type of the member. -/
  type : TypeId
  /-- The member may be absent. -/
  optional : Bool
  /-- Declaration behind the member. -/
  decl : Option DeclId
  deriving DecidableEq, Hashable, Repr

/-- The two kinds of wildcards with a bound. -/
inductive WildcardKind where
  /-- The bound stands above. -/
  | upper
  /-- The bound stands below. -/
  | lower
  deriving DecidableEq, Hashable, Repr

/-- One layer of a type. -/
inductive TypeData where
  /-- Inference failed. -/
  | unknown
  /-- Deliberately untyped. -/
  | dynamicAny
  | primitive (kind : Primitive)
  /-- Reference to a declared type with its type arguments. -/
  | nominal (decl : DeclId) (args : List TypeId)
  /-- Anonymous object shape. -/
  | structural (members : List Property)
  | union (members : List TypeId)
  | intersection (members : List TypeId)
  | function (signature : Signature)
  | literal (value : LiteralValue)
  /-- The type of `this`, bound once a receiver is known. -/
  | thisType (bound : Option TypeId)
  | typeVariable (decl : DeclId)
  /-- A type argument known by its bound at most. -/
  | wildcard (bound : Option TypeId) (kind : WildcardKind)
  /-- The type of a type: of its constructor if `isConstructor` is set. -/
  | metaType (arg : TypeId) (isConstructor : Bool)
  deriving DecidableEq, Hashable, Repr, Inhabited

/-- The first member of an object shape with the given name. -/
def findProperty? (members : List Property) (name : Symbol) : Option Property :=
  members.find? (·.name == name)

namespace TypeData

/-- Members of a union. -/
def unionMembers? : TypeData → Option (List TypeId)
  | union members => some members
  | _ => none

/-- Members of an intersection. -/
def intersectionMembers? : TypeData → Option (List TypeId)
  | intersection members => some members
  | _ => none

/-- Declaration and type arguments of a reference to a declared type. -/
def application? : TypeData → Option (DeclId × List TypeId)
  | nominal decl args => some (decl, args)
  | _ => none

/-- Signature of a function type. -/
def signature? : TypeData → Option Signature
  | function signature => some signature
  | _ => none

/-- Value of a literal type. -/
def literal? : TypeData → Option LiteralValue
  | literal value => some value
  | _ => none

/-- Whether the layer is the type of a type. -/
def isMeta : TypeData → Bool
  | metaType .. => true
  | _ => false

/-- Whether the layer is a wildcard. -/
def isWildcard : TypeData → Bool
  | wildcard .. => true
  | _ => false

/-- Whether the layer is a `this` type with a receiver. -/
def isBoundThis : TypeData → Bool
  | thisType (some _) => true
  | _ => false

end TypeData

end ScriptTyping
