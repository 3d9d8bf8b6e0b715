import ScriptTyping.Declarations.Store
import ScriptTyping.Types.Table

/-!
# Built-in declarations

Every program starts with the same declarations: the roots `Object` and `Function`, the iterables,
arrays, generators and promises, regular expressions, errors, and the base classes of enums.

## Main definitions

* `Builtins` — the numbers and types of the built-in declarations.
* `Builtins.install` — their registration, in a fixed order.
-/

namespace ScriptTyping

/-- Numbers and types of the built-in declarations. -/
structure Builtins where
  object : DeclId
  function : DeclId
  array : DeclId
  iterable : DeclId
  asyncIterable : DeclId
  generator : DeclId
  asyncGenerator : DeclId
  promise : DeclId
  regexp : DeclId
  error : DeclId
  /-- Base class of enums. -/
  enumBase : DeclId
  /-- Base class of number-based enums. -/
  numberEnumBase : DeclId
  /-- Base class of string-based enums. -/
  stringEnumBase : DeclId
  /-- Static getter of all literals of a number-based enum. -/
  numberEnumLiterals : DeclId
  /-- Static getter of all literals of a string-based enum. -/
  stringEnumLiterals : DeclId
  objectType : TypeId
  functionType : TypeId
  regexpType : TypeId
  errorType : TypeId
  deriving Inhabited

namespace Builtins

/-- Array of the given element type. -/
def arrayOf (b : Builtins) (element : TypeId) : TypeM TypeId := .nominal b.array [element]

/-- Promise of a value or an error. -/
def promiseOf (b : Builtins) (value error : TypeId) : TypeM TypeId :=
  .nominal b.promise [value, error]

/-- The declaration of iterables, asynchronous or not. -/
def iterableDecl (b : Builtins) (isAsync : Bool) : DeclId :=
  if isAsync then b.asyncIterable else b.iterable

/-- Iterable of the given element type. -/
def iterableOf (b : Builtins) (element : TypeId) (isAsync : Bool) : TypeM TypeId :=
  .nominal (b.iterableDecl isAsync) [element]

/-- The declaration of generators, asynchronous or not. -/
def generatorDecl (b : Builtins) (isAsync : Bool) : DeclId :=
  if isAsync then b.asyncGenerator else b.generator

/-- Whether the declaration is one of the two kinds of generators. -/
def isGenerator (b : Builtins) (d : DeclId) : Bool := d == b.generator || d == b.asyncGenerator

/-- Base class of the enums of a kind. -/
def enumBaseOf (b : Builtins) : EnumKind → DeclId
  | .normal => b.enumBase
  | .numberBased => b.numberEnumBase
  | .stringBased => b.stringEnumBase

/-- Type and declaration tables while they are filled. -/
structure Draft where
  types : TypeTable
  declarations : Declarations

/-- Steps that fill the tables. -/
abbrev DraftM := StateM Draft

namespace DraftM

/-- The handle of a type value. -/
def intern (data : TypeData) : DraftM TypeId :=
  modifyGet fun ⟨types, declarations⟩ =>
    let (t, types) := types.intern data
    (t, ⟨types, declarations⟩)

/-- The symbol of a name. -/
def internSymbol (text : String) : DraftM Symbol :=
  modifyGet fun ⟨types, declarations⟩ =>
    let (s, types) := types.internSymbol text
    (s, ⟨types, declarations⟩)

/-- Registers a declaration. -/
def register (decl : Declaration) : DraftM DeclId :=
  modifyGet fun ⟨types, declarations⟩ =>
    let (d, declarations) := declarations.register decl
    (d, ⟨types, declarations⟩)

/-- Changes a declaration. -/
def update (d : DeclId) (f : Declaration → Declaration) : DraftM Unit :=
  modify fun ⟨types, declarations⟩ => ⟨types, declarations.update d f⟩

/-- Reference to a declared type. -/
def nominal (decl : DeclId) (args : List TypeId) : DraftM TypeId := intern (.nominal decl args)

/-- Registers a type parameter. -/
def typeParam (name : String) (variance : Variance) : DraftM DeclId := do
  let name ← internSymbol name
  register { kind := .typeVariable, name, variance }

/-- Registers a classifier and makes it the owner of its type parameters. -/
def classifier (kind : DeclKind) (name : String) (typeParams : List DeclId) : DraftM DeclId := do
  let name ← internSymbol name
  let d ← register { kind, name, typeParams }
  typeParams.forM fun param => update param fun decl => { decl with owner := some d }
  return d

/-- Registers a member of a classifier. -/
def member (owner : DeclId) (kind : DeclKind) (name : String) (type : TypeId)
    (flags : List Flag) : DraftM DeclId := do
  let name ← internSymbol name
  let d ← register { kind, name, declaredType := some type, flags }
  modify fun ⟨types, declarations⟩ => ⟨types, declarations.addMember owner d⟩
  return d

/-- Sets the super type of a classifier. -/
def setSuper (d : DeclId) (superType : TypeId) : DraftM Unit :=
  update d fun decl => { decl with superType := some superType }

/-- Registers an interface with one covariant parameter that is its element type. -/
def iterableInterface (name : String) : DraftM DeclId := do
  let param ← typeParam "T" .covariant
  let d ← classifier .interfaceType name [param]
  let element ← intern (.typeVariable param)
  update d fun decl => { decl with elementType := some element }
  return d

/-- Registers an interface of generators over the given interface of iterables. -/
def generatorInterface (name : String) (base : DeclId) : DraftM DeclId := do
  let yielded ← typeParam "TYield" .covariant
  let returned ← typeParam "TReturn" .covariant
  let sent ← typeParam "TNext" .contravariant
  let d ← classifier .interfaceType name [yielded, returned, sent]
  let baseType ← nominal base [← intern (.typeVariable yielded)]
  setSuper d baseType
  return d

/-- Registers an abstract base class of enums whose literals have plain values, with the static
getter of these values. -/
def valueEnumBase (name : String) (superType : TypeId) (array : DeclId) (value : TypeId) :
    DraftM (DeclId × DeclId) := do
  let d ← classifier .classType name []
  update d fun decl => { decl with superType := some superType, flags := decl.flags ++ [.abstract] }
  let values ← nominal array [value]
  let getter ← member d .getter "literals" values [.static]
  return (d, getter)

/-- Registers all built-in declarations. -/
def builtins : DraftM Builtins := do
  let object ← classifier .classType "Object" []
  let objectType ← nominal object []
  let function ← classifier .classType "Function" []
  let functionType ← nominal function []
  setSuper function objectType
  let iterable ← iterableInterface "Iterable"
  let asyncIterable ← iterableInterface "AsyncIterable"
  let arrayParam ← typeParam "T" .invariant
  let array ← classifier .classType "Array" [arrayParam]
  let arrayElement ← intern (.typeVariable arrayParam)
  let arrayIterable ← nominal iterable [arrayElement]
  update array fun decl => { decl with
    superType := some objectType
    interfaces := [arrayIterable]
    elementType := some arrayElement
    flags := decl.flags ++ [.indexSignature] }
  let _ ← member array .field "length" .number []
  let generator ← generatorInterface "Generator" iterable
  let asyncGenerator ← generatorInterface "AsyncGenerator" asyncIterable
  let promiseValue ← typeParam "R" .covariant
  let promiseError ← typeParam "E" .covariant
  let promise ← classifier .classType "Promise" [promiseValue, promiseError]
  setSuper promise objectType
  let regexp ← classifier .classType "RegExp" []
  setSuper regexp objectType
  let regexpType ← nominal regexp []
  let error ← classifier .classType "Error" []
  setSuper error objectType
  let errorType ← nominal error []
  let _ ← member error .field "message" .string []
  let enumBase ← classifier .classType "N4Enum" []
  update enumBase fun decl => { decl with
    superType := some objectType
    flags := decl.flags ++ [.abstract] }
  let _ ← member enumBase .getter "name" .string []
  let _ ← member enumBase .getter "value" .string []
  let nameParam := Parameter.required (← internSymbol "name") .string
  let thisType ← intern (.thisType none)
  let findByName ← intern (.function (.plain [nameParam] thisType))
  let _ ← member enumBase .method "findLiteralByName" findByName [.static]
  let enumBaseType ← nominal enumBase []
  let (numberEnumBase, numberEnumLiterals) ←
    valueEnumBase "N4NumberBasedEnum" enumBaseType array .number
  let (stringEnumBase, stringEnumLiterals) ←
    valueEnumBase "N4StringBasedEnum" enumBaseType array .string
  return {
    object, function, array, iterable, asyncIterable, generator, asyncGenerator, promise, regexp,
    error, enumBase, numberEnumBase, stringEnumBase, numberEnumLiterals, stringEnumLiterals,
    objectType, functionType, regexpType, errorType }

end DraftM

/-- The tables that hold the built-in declarations and nothing else. -/
def install : Builtins × Draft := DraftM.builtins.run ⟨.initial, .empty⟩

end Builtins

end ScriptTyping
