import ScriptTyping.Declarations.Store
import ScriptTyping.Recursion
import ScriptTyping.Types.Table

/-!
# Rendering of types

The text of a type: `A`, `G<? extends A>`, `union{A,B}`, `{function(number):string}` and so on.
What lies deeper than a fixed depth is written as three dots.

## Main definitions

* `Rendering.type` — the text of a type.
-/

namespace ScriptTyping.Rendering

variable (table : TypeTable) (declarations : Declarations)

/-- The name of a declaration; a number that belongs to none is written in angle brackets. -/
def declName (d : DeclId) : String :=
  match declarations.name? d with
  | some name => table.text name
  | none => "<def " ++ Nat.repr d.index ++ ">"

/-- The text of a literal. -/
def literal : LiteralValue → String
  | .boolean value => if value then "true" else "false"
  | .number value => value.render
  | .string value => "\"" ++ table.text value ++ "\""
  | .enumMember enumDecl member =>
    declName table declarations enumDecl ++ "." ++ declName table declarations member

/-- A text between braces. -/
def braced (text : String) : String := "\x7b" ++ text ++ "\x7d"

/-- The texts of several types, divided by commas. -/
def commaSeparated (render : TypeId → String) (types : List TypeId) : String :=
  ",".intercalate (types.map render)

/-- The text of a signature, given the text of its parts. -/
def signature (render : TypeId → String) (s : Signature) : String :=
  let generics :=
    if s.typeParams.isEmpty then ""
    else "<" ++ ",".intercalate (s.typeParams.map (declName table declarations)) ++ ">"
  let param (p : Parameter) : String :=
    (if p.rest then "..." else "") ++ render p.type ++ (if p.optional then "=" else "")
  braced ("function" ++ generics ++ "(" ++ ",".intercalate (s.params.map param) ++ "):" ++
    render s.returnType)

/-- The text of an object shape, given the text of its parts. -/
def shape (render : TypeId → String) (members : List Property) : String :=
  if members.isEmpty then "~Object"
  else
    let member (p : Property) : String :=
      table.text p.name ++ (if p.optional then "?" else "") ++ ": " ++ render p.type
    "~Object with " ++ braced (" " ++ "; ".intercalate (members.map member) ++ " ")

/-- The text of a type, `room` levels deep. -/
def typeFrom : Nat → TypeId → String
  | 0, _ => "..."
  | room + 1, t =>
    let render := typeFrom room
    match table.lookup t with
    | .unknown => "[unknown]"
    | .dynamicAny => "any+"
    | .primitive kind => kind.name
    | .nominal decl args =>
      declName table declarations decl ++
        if args.isEmpty then "" else "<" ++ commaSeparated render args ++ ">"
    | .union members => "union" ++ braced (commaSeparated render members)
    | .intersection members => "intersection" ++ braced (commaSeparated render members)
    | .function s => signature table declarations render s
    | .structural members => shape table render members
    | .literal value => literal table declarations value
    | .thisType (some bound) => "this[" ++ render bound ++ "]"
    | .thisType none => "this"
    | .typeVariable decl => declName table declarations decl
    | .wildcard none _ => "?"
    | .wildcard (some bound) .upper => "? extends " ++ render bound
    | .wildcard (some bound) .lower => "? super " ++ render bound
    | .metaType arg isConstructor =>
      (if isConstructor then "constructor" else "type") ++ braced (render arg)

/-- The text of a type. -/
def type (t : TypeId) : String :=
  typeFrom table declarations RecursionProfile.hierarchy.maxDepth t

end ScriptTyping.Rendering
