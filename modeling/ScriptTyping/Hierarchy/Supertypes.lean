import ScriptTyping.Hierarchy.Alias

/-!
# Super types

Super types are taken with the type arguments of the reference applied, so those of an array of
strings contain an iterable of strings.

## Main definitions

* `World.directSupertypes` — one step up.
* `World.supertypes` — a type with everything above it, breadth first.
* `World.findInstantiation?` — the reference to a given declaration among the super types.
* `World.classifierChain` — the declarations of the super types.
* `World.addSubstitutions` — the type arguments that a receiver passes to its super types.
-/

namespace ScriptTyping.World

/-- The super types that the clauses of a classifier name, with the type arguments applied.  A
class or interface without super type stands directly below `Object`. -/
def clauseSupertypes (w : World) (decl : DeclId) (info : Declaration) (args : List TypeId) :
    TypeM (List TypeId) := do
  let s := Substitution.ofArgs info.typeParams args
  let above ← info.superType.toList.mapM s.instantiate
  let implemented ← info.interfaces.mapM s.instantiate
  let root :=
    if info.superType.isNone && decl != w.builtins.object then [w.objectType] else []
  return above ++ implemented ++ root

/-- The types directly above a type. -/
def directSupertypes (w : World) (t : TypeId) : TypeM (List TypeId) := do
  match ← TypeM.lookup t with
  | .nominal decl args =>
    match w.decl? decl with
    | none => return []
    | some info =>
      match info.kind with
      | .classType | .interfaceType => w.clauseSupertypes decl info args
      | .enumType kind => return [← TypeM.simple (w.builtins.enumBaseOf kind)]
      | .typeAlias =>
        let resolved ← w.resolveAlias t
        return if resolved = t then [] else [resolved]
      | .moduleImport => return [w.objectType]
      | _ => return []
  | .literal value => return [← literalBase value]
  | .function _ => return [w.builtins.functionType]
  | .structural _ => return [w.objectType]
  | .metaType _ isConstructor =>
    return [if isConstructor then w.builtins.functionType else w.objectType]
  | .typeVariable decl => return ((w.decl? decl).bind (·.declaredType)).toList
  | .thisType (some bound) => return [bound]
  | .wildcard (some bound) .upper => return [bound]
  | .intersection members => return members
  | .thisType none | .wildcard .. | .union _ | .primitive _ | .unknown | .dynamicAny => return []

/-- The walk over super types stops when it has met this many types. -/
def supertypeLimit : Nat := RecursionProfile.hierarchy.maxDepth * 8

/-- Appends a type that is not in the list. -/
def addNew (seen : List TypeId) (t : TypeId) : List TypeId :=
  if seen.contains t then seen else seen ++ [t]

/-- Breadth-first walk for at most `rounds` types: `visited` are the types whose super types were
taken, `queue` those that wait. -/
def supertypesFrom (w : World) : Nat → List TypeId → List TypeId → TypeM (List TypeId)
  | 0, visited, queue => pure (visited ++ queue)
  | _ + 1, visited, [] => pure visited
  | rounds + 1, visited, t :: queue =>
    if visited.length + queue.length + 1 < supertypeLimit then do
      let above ← w.directSupertypes t
      let seen := above.foldl addNew (visited ++ t :: queue)
      w.supertypesFrom rounds (visited ++ [t]) (seen.drop (visited.length + 1))
    else pure (visited ++ t :: queue)

/-- A type followed by all types above it, nearer ones first and without repetition.  Circles end,
and references that grow for ever are cut off at `supertypeLimit`. -/
def supertypes (w : World) (t : TypeId) : TypeM (List TypeId) :=
  w.supertypesFrom supertypeLimit [] [t]

/-- The first super type that refers to the declaration, with its arguments. -/
def findInstantiation? (w : World) (t : TypeId) (decl : DeclId) :
    TypeM (Option (TypeId × List TypeId)) := do
  let above ← w.supertypes t
  let table ← get
  return above.findSome? fun s =>
    match table.lookup s with
    | .nominal d args => if d = decl then some (s, args) else none
    | _ => none

/-- The declaration behind a reference or an enum literal. -/
def classifierOf? : TypeData → Option DeclId
  | .nominal decl _ => some decl
  | .literal (.enumMember enumDecl _) => some enumDecl
  | _ => none

/-- The declarations behind a type and its super types, nearer ones first. -/
def classifierChain (w : World) (t : TypeId) : TypeM (List DeclId) := do
  let above ← w.supertypes t
  let table ← get
  return above.filterMap fun s => classifierOf? (table.lookup s)

/-- Records the argument of a type parameter, unless the parameter was met before or is passed on
as it is. -/
def recordArgument (state : Environment × List DeclId) (pair : DeclId × TypeId) :
    TypeM (Environment × List DeclId) := do
  let (env, seen) := state
  let (param, arg) := pair
  if seen.contains param then return state
  let own ← TypeM.typeVariable param
  return (if arg = own then env else env.addSubstitution param arg, param :: seen)

/-- Records the type arguments of a reference to a declared type. -/
def recordArguments (w : World) (state : Environment × List DeclId) (t : TypeId) :
    TypeM (Environment × List DeclId) := do
  match ← TypeM.lookup t with
  | .nominal decl args =>
    if args.isEmpty then return state
    match w.decl? decl with
    | some info => (info.typeParams.zip args).foldlM recordArgument state
    | none => return state
  | _ => return state

/-- Writes the type arguments of a receiver, and those that it passes to its super types, into the
newest frame of the environment.  The nearest reference decides about a type parameter. -/
def addSubstitutions (w : World) (env : Environment) (receiver : TypeId) : TypeM Environment := do
  let above ← w.supertypes receiver
  return (← above.foldlM w.recordArguments (env, [])).1

end ScriptTyping.World
