import ScriptTyping.Declarations.Builtins

/-!
# The declared world

What every computation over types reads: the declarations and the built-in ones among them.  Some
recursions follow the declarations where nothing bounds them (aliases that mention themselves,
bounds in a circle); `fuel` limits their depth, and running out of it is a failure of its own.

## Main definitions

* `World` — declarations, built-ins and fuel.
* `literalBase` — the type that a literal type belongs to.
-/

namespace ScriptTyping

/-- The declarations, the built-in ones among them, and the depth of unbounded recursions. -/
structure World where
  declarations : Declarations
  builtins : Builtins
  fuel : Nat
  deriving Inhabited

namespace World

/-- The type of all objects. -/
def objectType (w : World) : TypeId := w.builtins.objectType

/-- A declaration. -/
def decl? (w : World) (d : DeclId) : Option Declaration := w.declarations.get? d

/-- Whether a declaration exists and has a modifier. -/
def declHas (w : World) (d : DeclId) (flag : Flag) : Bool := w.declarations.holds d (·.has flag)

/-- Whether a declaration is an enum of the given kind. -/
def isEnumOf (w : World) (d : DeclId) (kind : EnumKind) : Bool :=
  w.declarations.holds d fun decl => decl.enumKind? == some kind

/-- The element type of an array type, `any` for a bare reference to arrays. -/
def arrayElement? (w : World) (data : TypeData) : Option TypeId :=
  match data with
  | .nominal decl args => if decl = w.builtins.array then some (args.head?.getD .any) else none
  | _ => none

end World

/-- The type that the values of a literal type belong to: a primitive type or the enum. -/
def literalBase : LiteralValue → TypeM TypeId
  | .boolean _ => pure .boolean
  | .number _ => pure .number
  | .string _ => pure .string
  | .enumMember enumDecl _ => .simple enumDecl

end ScriptTyping
