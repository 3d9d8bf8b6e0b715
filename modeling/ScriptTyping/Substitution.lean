import ScriptTyping.Environment
import ScriptTyping.Recursion
import ScriptTyping.Types.Table

/-!
# Substitution

Replacing type variables and the unbound `this` inside a type.  An explicit substitution is applied
once; the replacements carried by an environment are followed through chains.  Both stop at a fixed
depth and leave what lies deeper unchanged.

## Main definitions

* `Traversal.apply` — the traversal.
* `Substitution`, `Substitution.instantiate` — applying an explicit substitution.
* `Environment.substitute` — applying what an environment carries.
-/

namespace ScriptTyping

/-- What a traversal replaces. -/
structure Traversal where
  /-- Replacement of a type variable. -/
  resolve : DeclId → Option TypeId
  /-- Receiver for an unbound `this`. -/
  thisType : Option TypeId
  /-- Whether replacements are traversed again. -/
  chained : Bool

namespace Traversal

/-- Binds an unbound `this` to a receiver; a receiver that is itself a bound `this` stands for the
result, so bound `this` types never nest. -/
def bindThis (receiver : TypeId) : TypeM TypeId := do
  if (← TypeM.lookup receiver).isBoundThis then return receiver
  TypeM.thisType (some receiver)

/-- Replaces inside a type, `room` levels deep.  A type without anything to replace is returned as
it is. -/
def apply (r : Traversal) : Nat → TypeId → TypeM TypeId
  | 0, t => pure t
  | room + 1, t =>
    if t.isIntrinsic then pure t
    else do
      match ← TypeM.lookup t with
      | .typeVariable decl =>
        match r.resolve decl with
        | some replacement =>
          if replacement = t then return t
          if r.chained then r.apply room replacement else return replacement
        | none => return t
      | .thisType none =>
        match r.thisType with
        | some receiver => bindThis receiver
        | none => return t
      | .thisType (some bound) =>
        let bound' ← r.apply room bound
        if bound' = bound then return t
        TypeM.thisType (some bound')
      | .nominal decl args =>
        let args' ← args.mapM (r.apply room)
        if args' = args then return t
        TypeM.nominal decl args'
      | .union members =>
        let members' ← members.mapM (r.apply room)
        if members' = members then return t
        TypeM.union members'
      | .intersection members =>
        let members' ← members.mapM (r.apply room)
        if members' = members then return t
        TypeM.intersection members'
      | .function signature =>
        let params ← signature.params.mapM fun param =>
          return { param with type := ← r.apply room param.type }
        let returnType ← r.apply room signature.returnType
        let thisType ← signature.thisType.mapM (r.apply room)
        let signature' := { signature with
          params, returnType, thisType
          typeParams := signature.typeParams.filter fun param => (r.resolve param).isNone }
        if signature' = signature then return t
        TypeM.function signature'
      | .structural members =>
        let members' ← members.mapM fun member =>
          return { member with type := ← r.apply room member.type }
        if members' = members then return t
        TypeM.structural members'
      | .wildcard (some bound) kind =>
        let bound' ← r.apply room bound
        if bound' = bound then return t
        TypeM.wildcard (some bound') kind
      | .metaType arg isConstructor =>
        let arg' ← r.apply room arg
        if arg' = arg then return t
        TypeM.intern (.metaType arg' isConstructor)
      | .wildcard none _ | .literal _ | .primitive _ | .unknown | .dynamicAny => return t

/-- Replaces inside a type as deep as substitution goes. -/
def run (r : Traversal) (t : TypeId) : TypeM TypeId :=
  r.apply RecursionProfile.substitution.maxDepth t

end Traversal

/-- An explicit substitution: replacements of type variables and a receiver for `this`. -/
structure Substitution where
  /-- The replacements, at most one for each type variable. -/
  replacements : List (DeclId × TypeId) := []
  /-- The receiver. -/
  thisType : Option TypeId := none
  deriving DecidableEq, Repr, Inhabited

namespace Substitution

/-- The replacement of a type variable. -/
def get? (s : Substitution) (param : DeclId) : Option TypeId := s.replacements.lookup param

/-- Sets the replacement of a type variable; a later one wins. -/
def insert (s : Substitution) (param : DeclId) (replacement : TypeId) : Substitution :=
  { s with replacements :=
      s.replacements.filter (fun entry => entry.1 != param) ++ [(param, replacement)] }

/-- Pairs type parameters with arguments; what is left over on either side is ignored. -/
def ofArgs (params : List DeclId) (args : List TypeId) : Substitution :=
  (params.zip args).foldl (fun s pair => s.insert pair.1 pair.2) {}

/-- Sets the receiver. -/
def withThis (s : Substitution) (receiver : TypeId) : Substitution :=
  { s with thisType := some receiver }

/-- Whether there is nothing to replace. -/
def isEmpty (s : Substitution) : Bool := s.replacements.isEmpty && s.thisType.isNone

/-- The traversal that applies the substitution once. -/
def traversal (s : Substitution) : Traversal := ⟨s.get?, s.thisType, false⟩

/-- The type with the substitution applied once. -/
def instantiate (s : Substitution) (t : TypeId) : TypeM TypeId :=
  if s.isEmpty then pure t else s.traversal.run t

end Substitution

namespace Environment

/-- The traversal that follows the replacements of the environment. -/
def traversal (env : Environment) : Traversal := ⟨env.substitution?, env.this?, true⟩

/-- The type with the replacements and the `this` of the environment applied. -/
def substitute (env : Environment) (t : TypeId) : TypeM TypeId :=
  if env.this?.isNone && !env.hasSubstitutions then pure t else env.traversal.run t

end Environment

end ScriptTyping
