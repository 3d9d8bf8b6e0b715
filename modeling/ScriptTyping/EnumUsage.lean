import ScriptTyping.Notice
import ScriptTyping.Tree.Navigation
import ScriptTyping.World

/-!
# Use of value-based enums

Number- and string-based enums have no value of their own when the program runs; only their literals
have.  So a reference to such an enum may only be the receiver of an access to one of its literals
or to the built-in getter of all of them.

## Main definitions

* `EnumUsage.check` — the notice about one identifier, if its use is invalid.
* `EnumUsage.checkAll` — the notices about a whole tree.
-/

namespace ScriptTyping.EnumUsage

variable (w : World) (tree : Tree)

/-- The built-in getter of all literals of a value-based enum. -/
def literalsGetter? : EnumKind → Option DeclId
  | .normal => none
  | .numberBased => some w.builtins.numberEnumLiterals
  | .stringBased => some w.builtins.stringEnumLiterals

/-- Whether a property is a literal of the enum or the getter of all of them. -/
def isLiteralProperty (enumDecl property : DeclId) : Bool :=
  w.declarations.holds enumDecl fun info =>
    info.enumKind?.bind (literalsGetter? w) == some property || info.members.contains property

/-- Whether an identifier is the receiver of an access to a literal, parentheses aside.  An access
that is not resolved is not judged here. -/
def isLiteralAccess (n : NodeId) (enumDecl : DeclId) : Bool :=
  let (parent, child) := tree.skipParensUp n
  match tree.contentAt? parent with
  | some (.propertyAccess target _ property _) =>
    target == some child &&
      match property with
      | none => true
      | some property => isLiteralProperty w enumDecl (w.declarations.canonical property)
  | _ => false

/-- Whether a declaration is an enum without a value of its own. -/
def isValueBased (d : DeclId) : Bool :=
  w.isEnumOf d .numberBased || w.isEnumOf d .stringBased

/-- The notice about an identifier that uses a value-based enum as a value. -/
def check (n : NodeId) : Option Notice :=
  match tree.content? n with
  | some (.identifier _ (some target)) =>
    let decl := w.declarations.canonical target
    if isValueBased w decl && !isLiteralAccess w tree n decl then
      some (.ofMessage (some n) .invalidEnumUse [])
    else none
  | _ => none

/-- The notices about all identifiers of a tree, in order. -/
def checkAll : List Notice := tree.handles.filterMap (check w tree)

end ScriptTyping.EnumUsage
