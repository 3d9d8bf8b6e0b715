import ScriptTyping.Judgment.Basic

/-!
# Iterated values

The type of the elements that a loop, a spread or a delegation meets.  Strings consist of strings,
`any` of itself, and a union of what its members consist of; everything else has to be or inherit an
iterable. Asynchronous iteration looks for an asynchronous iterable first, and takes promises apart
otherwise.

## Main definitions

* `Program.iterableElement?` — the element type of an iterated value.
-/

namespace ScriptTyping.Program

variable (p : Program)

/-- How many bounds and unions are followed. -/
def iterationDepth : Nat := 17

/-- The first type argument that a type passes to a declaration above it. -/
def argumentOf? (t : TypeId) (decl : DeclId) : TypeM (Option TypeId) := do
  return (← p.world.findInstantiation? t decl).map fun found => found.2.head?.getD .any

/-- The value type of a promise. -/
def promiseValue? (t : TypeId) : TypeM (Option TypeId) := do
  match ← TypeM.lookup t with
  | .nominal decl args =>
    if decl = p.world.builtins.promise then
      return some (← TypeM.upperBound (args.head?.getD .any))
    return none
  | _ => return none

/-- The element type of a type that is or inherits an iterable. -/
def inheritedElement? (t : TypeId) (isAsync : Bool) : TypeM (Option TypeId) := do
  if !isAsync then return ← p.argumentOf? t p.world.builtins.iterable
  match ← p.argumentOf? t p.world.builtins.asyncIterable with
  | some element => return some element
  | none =>
    match ← p.argumentOf? t p.world.builtins.iterable with
    | some element => return some ((← p.promiseValue? element).getD element)
    | none => return none

/-- The element type of an iterated value, through at most `room` bounds and unions. -/
def iterableElementFrom (env : Environment) (isAsync : Bool) :
    Nat → TypeId → TypeM (Option TypeId)
  | 0, _ => pure none
  | room + 1, t => do
    let t ← p.world.resolveAlias t
    match ← TypeM.lookup t with
    | .dynamicAny => return some .dynamicAny
    | .literal (.string _) => return some .string
    | .union members =>
      let elements ← (members.mapM fun member =>
        OptionT.mk (iterableElementFrom env isAsync room member)).run
      match elements with
      | some elements => return some (← p.union env elements)
      | none => return none
    | .typeVariable decl =>
      let bound := p.world.declarations.variableBound decl
      if bound = .any then return none
      iterableElementFrom env isAsync room bound
    | .wildcard .. | .thisType (some _) =>
      let upper ← TypeM.upperBound t
      if upper = t then return none
      iterableElementFrom env isAsync room upper
    | .primitive _ =>
      if t = .any then return some .any
      if t = .string then return some .string
      p.inheritedElement? t isAsync
    | _ => p.inheritedElement? t isAsync

/-- The element type of an iterated value; nothing when it cannot be iterated. -/
def iterableElement? (env : Environment) (t : TypeId) (isAsync : Bool) : TypeM (Option TypeId) :=
  p.iterableElementFrom env isAsync iterationDepth t

end ScriptTyping.Program
