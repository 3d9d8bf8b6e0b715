import ScriptTyping.Hierarchy.Subtyping
import ScriptTyping.Notice
import ScriptTyping.Types.Rendering

/-!
# Unions and intersections

The short form of a union or intersection.  Nested composites of the same kind are expanded and
repetitions dropped; then a member of a union goes if another member is strictly above it, and a
member of an intersection if another one is strictly below it.  Unknown neither goes nor makes
another one go.  `null` and `undefined` leave a union in which something else remains.

The subtype relation is a parameter.

## Main definitions

* `Composite` — union or intersection.
* `Composite.leaves?` — the expanded members.
* `Redundancy` — a dropped member with the member that made it go.
* `Composite.build` — the short form of a list of members.
* `simplify` — the short form of a type.
-/

namespace ScriptTyping

/-- The two kinds of composite types. -/
inductive Composite where
  | union
  | intersection
  deriving DecidableEq, Repr

/-- A member that was dropped because of another one. -/
structure Redundancy where
  /-- Kind of the composite. -/
  kind : Composite
  /-- The dropped member. -/
  removed : TypeId
  /-- The member strictly above (in a union) or below (in an intersection) it. -/
  witness : TypeId
  /-- Both as they read when the member was dropped. -/
  names : List String
  deriving DecidableEq, Repr

namespace Composite

/-- Members of a type that is a composite of this kind. -/
def members? (kind : Composite) (data : TypeData) : Option (List TypeId) :=
  match kind with
  | union => data.unionMembers?
  | intersection => data.intersectionMembers?

/-- The composite type of the members exactly as given. -/
def intern (kind : Composite) (members : List TypeId) : TypeM TypeId :=
  match kind with
  | union => .union members
  | intersection => .intersection members

/-- The composite of no members. -/
def neutral : Composite → TypeId
  | union => .undefined
  | intersection => .any

/-- The message about a dropped member. -/
def message : Composite → Message
  | union => .redundantInUnion
  | intersection => .redundantInIntersection

/-- Expands nested composites of the same kind, `fuel` levels deep; nothing when they go deeper. -/
def leavesFrom? (kind : Composite) (table : TypeTable) : Nat → List TypeId → Option (List TypeId)
  | 0, members =>
    if members.any fun member => (kind.members? (table.lookup member)).isSome then none
    else some members
  | fuel + 1, members => do
    let expanded ← members.mapM fun member =>
      match kind.members? (table.lookup member) with
      | some nested => kind.leavesFrom? table fuel nested
      | none => some [member]
    return expanded.flatten

/-- The members with nested composites of the same kind expanded.  Nothing when a composite contains
itself, which a nesting deeper than the table shows. -/
def leaves? (kind : Composite) (table : TypeTable) (members : List TypeId) :
    Option (List TypeId) :=
  kind.leavesFrom? table table.rows.size members

/-- A composite with more members than this is not searched for members to drop. -/
def pairwiseLimit : Nat := 512

/-- Members that take part in the comparison. -/
def isCandidate (t : TypeId) : Bool := !t.isUnknown && !t.isNullish

variable (rel : TypeRelation)

/-- Whether `other` makes `member` go. -/
def absorbs (kind : Composite) (env : Environment) (other member : TypeId) : TypeM Bool :=
  match kind with
  | union => rel.strict env member other
  | intersection => rel.strict env other member

/-- The first candidate that makes a member go. -/
def witness? (kind : Composite) (env : Environment) (candidates : List TypeId) (member : TypeId) :
    TypeM (Option TypeId) :=
  candidates.findM? fun other =>
    if other = member then pure false else kind.absorbs rel env other member

/-- The dropped member with its witness, both rendered now. -/
def redundancy (kind : Composite) (w : World) (removed witness : TypeId) : TypeM Redundancy := do
  let table ← get
  return ⟨kind, removed, witness,
    [Rendering.type table w.declarations removed, Rendering.type table w.declarations witness]⟩

/-- The members that go, in order.  A witness may go itself. -/
def redundancies (kind : Composite) (w : World) (env : Environment) (candidates : List TypeId) :
    TypeM (List Redundancy) := do
  if pairwiseLimit < candidates.length then return []
  let found ← candidates.mapM fun member => do
    match ← kind.witness? rel env candidates member with
    | some witness => return some (← kind.redundancy w member witness)
    | none => return none
  return found.filterMap id

/-- The members that stay: those not dropped, without `null` and `undefined` if the composite is a
union in which something else stays. -/
def survivors (kind : Composite) (flat removed : List TypeId) : List TypeId :=
  let kept := flat.filter fun t => !removed.contains t
  let hasValue := kept.any fun t => !t.isNullish
  kept.filter fun t => !(kind == .union && t.isNullish && hasValue)

/-- The composite of members that stay: a single one stands for itself. -/
def assemble (kind : Composite) : List TypeId → TypeM TypeId
  | [] => pure .undefined
  | [single] => pure single
  | members => kind.intern members

/-- The short form of the composite of a list of members, with the members that were dropped. -/
def build (kind : Composite) (w : World) (env : Environment) (members : List TypeId) :
    TypeM (TypeId × List Redundancy) := do
  let leaves ← TypeM.ofOption (kind.leaves? (← get) members)
  match leaves.eraseDups with
  | [] => return (kind.neutral, [])
  | [single] => return (single, [])
  | flat =>
    let dropped ← kind.redundancies rel w env (flat.filter isCandidate)
    let result ← kind.assemble (kind.survivors flat (dropped.map (·.removed)))
    return (result, dropped)

/-- The short form of a composite, without the dropped members. -/
def create (kind : Composite) (w : World) (env : Environment) (members : List TypeId) :
    TypeM TypeId :=
  return (← kind.build rel w env members).1

end Composite

/-- The notice about a dropped member, at a node. -/
def Redundancy.notice (r : Redundancy) (node : Option NodeId) : Notice :=
  .ofMessage node r.kind.message r.names

/-- The short form of a type: of a union or an intersection; other types stay. -/
def simplify (rel : TypeRelation) (w : World) (env : Environment) (t : TypeId) :
    TypeM (TypeId × List Redundancy) := do
  match ← TypeM.lookup t with
  | .union members => Composite.build rel .union w env members
  | .intersection members => Composite.build rel .intersection w env members
  | _ => return (t, [])

/-- The short form of a union. -/
def createUnion (rel : TypeRelation) (w : World) (env : Environment) (members : List TypeId) :
    TypeM TypeId :=
  Composite.create rel .union w env members

/-- The short form of an intersection. -/
def createIntersection (rel : TypeRelation) (w : World) (env : Environment)
    (members : List TypeId) : TypeM TypeId :=
  Composite.create rel .intersection w env members

end ScriptTyping
