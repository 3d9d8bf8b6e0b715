import ScriptTyping.Substitution
import ScriptTyping.World

/-!
# Aliases and object types

Expanding references to type aliases, and telling objects from primitive values.

## Main definitions

* `World.resolveAlias` — expansion until a type that is no alias.
* `World.isObjectLike` — whether the values of a type are objects.
-/

namespace ScriptTyping.World

/-- Expands a reference to an alias once, if the type is one. -/
def expandAlias? (w : World) (t : TypeId) : TypeM (Option TypeId) := do
  match ← TypeM.lookup t with
  | .nominal decl args =>
    match w.decl? decl with
    | some info =>
      match info.kind, info.declaredType with
      | .typeAlias, some aliased =>
        return some (← (Substitution.ofArgs info.typeParams args).instantiate aliased)
      | _, _ => return none
    | none => return none
  | _ => return none

/-- Expands aliases at most `rounds` times. -/
def resolveAliasFrom (w : World) : Nat → TypeId → TypeM TypeId
  | 0, t => pure t
  | rounds + 1, t => do
    match ← w.expandAlias? t with
    | some aliased => w.resolveAliasFrom rounds aliased
    | none => return t

/-- Expands aliases until a type that is no alias is reached; circles of aliases stop at a fixed
number of rounds. -/
def resolveAlias (w : World) (t : TypeId) : TypeM TypeId :=
  w.resolveAliasFrom RecursionProfile.hierarchy.maxDepth t

/-- Whether the values of a type are objects, decided with the given depth. -/
def isObjectLikeFrom (w : World) : Nat → TypeId → TypeM Bool
  | 0, _ => TypeM.diverge
  | fuel + 1, t => do
    match ← TypeM.lookup t with
    | .nominal decl _ =>
      match w.declarations.kind? decl with
      | some .typeAlias =>
        let resolved ← w.resolveAlias t
        if resolved = t then return false
        w.isObjectLikeFrom fuel resolved
      | some _ => return true
      | none => return false
    | .structural _ | .function _ | .metaType .. | .thisType _ => return true
    | .typeVariable decl =>
      let bound := w.declarations.variableBound decl
      if bound = .any then return false
      w.isObjectLikeFrom fuel bound
    | .intersection members => members.anyM (w.isObjectLikeFrom fuel)
    | .union members => members.allM (w.isObjectLikeFrom fuel)
    | .wildcard .. => w.isObjectLikeFrom fuel (← TypeM.upperBound t)
    | .literal (.enumMember ..) => return true
    | .literal _ | .primitive _ | .unknown | .dynamicAny => return false

/-- Whether the values of a type are objects and not primitive values. -/
def isObjectLike (w : World) (t : TypeId) : TypeM Bool := w.isObjectLikeFrom w.fuel t

end ScriptTyping.World
