import ScriptTyping.Lattice.Composite

/-!
# Narrowing

The type of a reference at a place where tests of its type are known to have succeeded or failed.
Types that are known to hold are intersected with the declared type.  If some types are known not to
hold, what lies below one of them is taken out first: single members of a union, or the whole of any
other type.  When nothing is left the declared type stays.

## Main definitions

* `Assertion`, `TypeFact` — outcomes of tests.
* `narrow` — the refined type.
-/

namespace ScriptTyping

/-- Outcome of a type test at a place. -/
inductive Assertion where
  | alwaysHolds
  | neverHolds
  | mayHold
  deriving DecidableEq, Repr

/-- The outcome of a test against a type. -/
structure TypeFact where
  assertion : Assertion
  type : TypeId
  deriving DecidableEq, Repr

variable (rel : TypeRelation) (w : World) (env : Environment)

/-- Whether a type lies below an excluded one. -/
def isExcluded (excluded : List TypeId) (t : TypeId) : TypeM Bool :=
  excluded.anyM fun ex => rel env t ex

/-- What is left of a type when the excluded types are taken out. -/
def exclude (excluded : List TypeId) (t : TypeId) : TypeM (Option TypeId) := do
  match ← TypeM.lookup t with
  | .union members =>
    let kept ← members.filterM fun member => return !(← isExcluded rel env excluded member)
    if kept.isEmpty then return none
    if kept.length = members.length then return some t
    return some (← createUnion rel w env kept)
  | _ => return if ← isExcluded rel env excluded t then none else some t

/-- The types that are known to hold, the declared one first, less what is excluded. -/
def remaining (holding excluded : List TypeId) : TypeM (List TypeId) := do
  if excluded.isEmpty then return holding
  return (← holding.mapM (exclude rel w env excluded)).filterMap id

/-- Refines a declared type, if there is one, by facts. -/
def narrow (base : Option TypeId) (facts : List TypeFact) : TypeM (Option TypeId) := do
  let ofOutcome (outcome : Assertion) : List TypeId :=
    (facts.filter (·.assertion == outcome)).map (·.type)
  let holding := base.toList ++ ofOutcome .alwaysHolds
  if holding.isEmpty then return base
  match ← remaining rel w env holding (ofOutcome .neverHolds) with
  | [] => return base
  | [single] => return some single
  | types => return some (← createIntersection rel w env types)

end ScriptTyping
