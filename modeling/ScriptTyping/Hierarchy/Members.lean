import ScriptTyping.Hierarchy.Supertypes

/-!
# Member lookup

Which declaration a name denotes on a receiver of a given type.

## Main definitions

* `World.resolveMember?` — the member of a type with a given name.
-/

namespace ScriptTyping.World

/-- A member lookup: name, whether super types count, whether a static member is asked for. -/
structure MemberQuery where
  name : Symbol
  inherited : Bool
  isStatic : Bool
  deriving DecidableEq, Repr

/-- The member that the classifiers behind a type declare; the nearest one decides, and without
inheritance only the first one is searched. -/
def declaredMember? (w : World) (query : MemberQuery) (receiver : TypeId) :
    TypeM (Option DeclId) := do
  let chain ← w.classifierChain receiver
  let searched := if query.inherited then chain else chain.take 1
  return searched.findSome? fun decl =>
    if (w.declarations.kind? decl).any DeclKind.isClassifier then
      w.declarations.ownedMember? decl query.name query.isStatic
    else none

/-- The one answer that all questions give; nothing when one of them has none or two differ. -/
def agreeing {α β : Type} [DecidableEq β] (ask : α → TypeM (Option β)) :
    Option β → List α → TypeM (Option β)
  | agreed, [] => pure agreed
  | agreed, a :: rest => do
    match ← ask a with
    | none => return none
    | some b =>
      if agreed.any (· != b) then return none
      agreeing ask (some b) rest

/-- Member lookup with the given depth. -/
def resolveMemberFrom (w : World) (query : MemberQuery) : Nat → TypeId → TypeM (Option DeclId)
  | 0, _ => TypeM.diverge
  | fuel + 1, receiver => do
    let receiver ← w.resolveAlias receiver
    match ← TypeM.lookup receiver with
    | .structural members => return (findProperty? members query.name).bind (·.decl)
    | .metaType arg _ => w.resolveMemberFrom query fuel arg
    | .union members => agreeing (w.resolveMemberFrom query fuel) none members
    | .intersection members => members.findSomeM? (w.resolveMemberFrom query fuel)
    | .unknown | .dynamicAny | .primitive _ => return none
    | _ => w.declaredMember? query receiver

/-- The member of a type with a given name.  All alternatives of a union must agree on it, and the
first part of an intersection that has one decides. -/
def resolveMember? (w : World) (query : MemberQuery) (receiver : TypeId) : TypeM (Option DeclId) :=
  w.resolveMemberFrom query w.fuel receiver

end ScriptTyping.World
