import ScriptTyping.Handle
import ScriptTyping.Text.Symbol

/-!
# Declarations

What is known about one declared entity: its kind, its modifiers, and the types, members and nodes
that belong to it.

## Main definitions

* `DeclKind`, `EnumKind`, `Variance`, `Flag` — classification.
* `Declaration` — one declared entity.
-/

namespace ScriptTyping

/-- Classification of an enum by its literal values. -/
inductive EnumKind where
  | normal
  | numberBased
  | stringBased
  deriving DecidableEq, Repr

/-- Declared variance of a type parameter; one without annotation is invariant. -/
inductive Variance where
  | covariant
  | contravariant
  | invariant
  deriving DecidableEq, Repr

/-- Kind of a declaration. -/
inductive DeclKind where
  | classType
  | interfaceType
  | enumType (kind : EnumKind)
  /-- The declared type is the aliased type. -/
  | typeAlias
  | enumLiteral
  | function
  | method
  | getter
  | setter
  | field
  | parameter
  | var
  /-- Type parameter; the declared type is its upper bound. -/
  | typeVariable
  /-- A property made up for a dynamic receiver. -/
  | dynamic
  /-- All exports of a module under one name. -/
  | moduleImport
  deriving DecidableEq, Repr

namespace DeclKind

/-- Declarations that define a nominal type. -/
def isClassifier : DeclKind → Bool
  | classType | interfaceType | enumType _ => true
  | _ => false

/-- Members of a classifier. -/
def isMember : DeclKind → Bool
  | method | getter | setter | field => true
  | _ => false

/-- Elements whose type is declared or taken from an initializer. -/
def isTypedElement : DeclKind → Bool
  | field | parameter | var => true
  | _ => false

/-- Classification of an enum. -/
def enumKind? : DeclKind → Option EnumKind
  | enumType kind => some kind
  | _ => none

end DeclKind

/-- Modifier of a declaration. -/
inductive Flag where
  | static
  | abstract
  /-- Literal types survive. -/
  | const
  | optional
  /-- Rest parameter. -/
  | variadic
  /-- The function has a promise form. -/
  | promisifiable
  /-- Constructor of a class. -/
  | constructor
  /-- Call signature of an interface. -/
  | callSignature
  /-- Construct signature of an interface. -/
  | constructSignature
  /-- Declared in untyped code. -/
  | dynamic
  /-- The classifier accepts any property name. -/
  | indexSignature
  /-- The declared return type is a placeholder; the body decides. -/
  | inferredReturn
  | async
  | generator
  deriving DecidableEq, Repr

/-- One declared entity. -/
structure Declaration where
  /-- What is declared. -/
  kind : DeclKind
  /-- Under which name. -/
  name : Symbol
  /-- Modifiers. -/
  flags : List Flag := []
  /-- Type parameters of a generic classifier, function or method. -/
  typeParams : List DeclId := []
  /-- Annotated type of an element, signature of a function, aliased type, bound of a type
  variable. -/
  declaredType : Option TypeId := none
  /-- Super class, or first super interface of an interface. -/
  superType : Option TypeId := none
  /-- Further super interfaces. -/
  interfaces : List TypeId := []
  /-- Members of a classifier or literals of an enum, in order. -/
  members : List DeclId := []
  /-- Classifier of a member, enum of a literal, function of a parameter. -/
  owner : Option DeclId := none
  /-- Element type of an array-like classifier. -/
  elementType : Option TypeId := none
  /-- Variance of a type parameter. -/
  variance : Variance := .invariant
  /-- Syntax node that declares the entity. -/
  node : Option NodeId := none
  /-- Declaration that this partial one is merged into. -/
  mergedInto : Option DeclId := none
  deriving DecidableEq, Repr

namespace Declaration

/-- Whether the modifier is given. -/
def has (d : Declaration) (flag : Flag) : Bool := d.flags.contains flag

/-- A static member. -/
def isStatic (d : Declaration) : Bool := d.has .static

/-- An element that keeps literal types. -/
def isConst (d : Declaration) : Bool := d.has .const

/-- Classification of an enum. -/
def enumKind? (d : Declaration) : Option EnumKind := d.kind.enumKind?

/-- Whether the entity has type parameters. -/
def isGeneric (d : Declaration) : Bool := !d.typeParams.isEmpty

end Declaration

end ScriptTyping
