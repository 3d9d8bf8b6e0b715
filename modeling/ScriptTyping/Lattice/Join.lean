import ScriptTyping.Lattice.Composite

/-!
# Join

The least upper bound of several types.  After shortening the arguments, unknown and `any` absorb
the others, `null` and `undefined` are dropped beside other types, and a union among the arguments
makes the result a union.  Otherwise the result is an argument above all others, or is built from
the super types that all arguments share: references to one generic declaration are merged argument
by argument, as the variance of each type parameter allows, and the lowest shared types are
intersected.  Arguments that share nothing are objects together or a union.

The order of the arguments is erased by sorting before it could show.

## Main definitions

* `ReportM` — computations that also collect dropped members.
* `Join.common`, `Join.merge`, `Join.minimal` — the shared super types and the lowest ones of them.
* `Join.joinFrom` — the join with a given depth for nested joins of type arguments.
* `join` — the join.
-/

namespace ScriptTyping

/-- Computations over types that collect the members dropped on the way. -/
abbrev ReportM := StateT (List Redundancy) TypeM

/-- Collects what a computation dropped. -/
def ReportM.collect {α : Type} (x : TypeM (α × List Redundancy)) : ReportM α := do
  let (a, dropped) ← x
  modify (· ++ dropped)
  return a

namespace Join

/-- Sorting key of a type: references by the number of their declaration, everything else behind
them, and by handle within. -/
def sortKey (table : TypeTable) (t : TypeId) : Nat × Nat :=
  match table.lookup t with
  | .nominal decl _ => (decl.index, t.index)
  | _ => (counterLimit, t.index)

/-- Order of sorting keys. -/
def keyLe (a b : Nat × Nat) : Bool := a.1 < b.1 || (a.1 == b.1 && a.2 ≤ b.2)

/-- Sorts types by key. -/
def sort (table : TypeTable) (types : List TypeId) : List TypeId :=
  types.mergeSort fun a b => keyLe (sortKey table a) (sortKey table b)

/-- The references to a declaration, one for each list, namely its first; nothing when a list has
none. -/
def firstReferences? (table : TypeTable) (decl : DeclId) (closures : List (List TypeId)) :
    Option (List TypeId) :=
  closures.mapM fun closure => closure.find? fun t =>
    match table.lookup t with
    | .nominal d _ => d == decl
    | _ => false

/-- The declarations that a list refers to, in order of first appearance. -/
def declarationsOf (table : TypeTable) (closure : List TypeId) : List DeclId :=
  (closure.filterMap fun t => (table.lookup t).application?.map (·.1)).eraseDups

/-- The types of the first list that are no references and stand in all lists. -/
def sharedOthers (table : TypeTable) (closures : List (List TypeId)) : List TypeId :=
  (closures.head?.getD []).filter fun t =>
    (table.lookup t).application?.isNone && closures.all (·.contains t)

variable (rel : TypeRelation) (w : World) (env : Environment)

/-- The lowest of a list of types: those with no other type of the list strictly below them. -/
def minimal (candidates : List TypeId) : TypeM (List TypeId) := do
  let lowest ← candidates.filterM fun c => do
    return !(← candidates.anyM fun d => if d = c then pure false else rel.strict env d c)
  return (sort (← get) lowest).eraseReps

/-- Merges the arguments that several references pass for one type parameter, given the join of
types.  A covariant parameter takes their join, an invariant one a wildcard below it, and a
contravariant one the lowest argument, if there is one. -/
def mergeColumn (join : List TypeId → ReportM TypeId) (variance : Variance)
    (column : List TypeId) : ReportM (Option TypeId) := do
  match column with
  | [] => return none
  | first :: rest =>
    if rest.all (· == first) then return some first
    let upper ← column.mapM fun t => (TypeM.upperBound t : ReportM TypeId)
    match variance with
    | .covariant => return some (← join upper)
    | .invariant =>
      let bound ← join upper
      return some (← TypeM.wildcard (some bound) .upper)
    | .contravariant => column.findM? fun c => column.allM fun o => (rel env c o : TypeM Bool)

/-- Merges the columns of arguments from the first type parameter to the last. -/
def mergeColumns (join : List TypeId → ReportM TypeId) :
    List DeclId → List (List TypeId) → ReportM (Option (List TypeId))
  | param :: params, rows => do
    let column := rows.filterMap List.head?
    match ← mergeColumn rel env join (w.declarations.variance param) column with
    | none => return none
    | some arg =>
      return (← mergeColumns join params (rows.map List.tail)).map (arg :: ·)
  | [], _ => return some []

/-- Merges several references to one declaration into one.  A reference without all of its arguments
makes the result one without arguments. -/
def merge (join : List TypeId → ReportM TypeId) (decl : DeclId) (references : List TypeId) :
    ReportM (Option TypeId) := do
  match w.decl? decl with
  | none => return none
  | some info =>
    let table ← (get : TypeM TypeTable)
    let rows := references.filterMap fun t => (table.lookup t).application?.map (·.2)
    if rows.any fun args => args.length != info.typeParams.length then
      return some (← TypeM.simple decl)
    match ← mergeColumns rel w env join info.typeParams rows with
    | some args => return some (← TypeM.nominal decl args)
    | none => return none

/-- The super types that all arguments share, without `Object`. -/
def common (join : List TypeId → ReportM TypeId) (args : List TypeId) :
    ReportM (List TypeId) := do
  let closures ← args.mapM fun t => (w.supertypes t : ReportM (List TypeId))
  let table ← (get : TypeM TypeTable)
  let shared := (declarationsOf table (closures.head?.getD [])).filterMap fun decl =>
    (firstReferences? table decl closures).map fun references => (decl, references)
  let merged ← shared.mapM fun (decl, references) => do
    match references with
    | [] => return none
    | first :: rest =>
      if rest.all (· == first) then return some first
      merge rel w env join decl references
  let all := merged.filterMap id ++ sharedOthers table closures
  return all.filter (· != w.objectType)

/-- The join of at least two different sorted arguments, none of which is a union. -/
def joinDistinct (join : List TypeId → ReportM TypeId) (args : List TypeId) :
    ReportM TypeId := do
  let tops ← args.filterM fun candidate => args.allM fun other =>
    if other = candidate then pure true else (rel env other candidate : TypeM Bool)
  match tops with
  | top :: _ => return top
  | [] =>
    let shared ← common rel w env join args
    match ← minimal rel env shared with
    | [] =>
      if ← args.allM (fun t => (w.isObjectLike t : TypeM Bool)) then return w.objectType
      createUnion rel w env args
    | [single] => return single
    | lowest => createIntersection rel w env lowest

/-- The join of shortened arguments. -/
def joinShort (join : List TypeId → ReportM TypeId) (args : List TypeId) : ReportM TypeId := do
  match args with
  | [] => return .unknown
  | [single] => return single
  | _ =>
    if args.any TypeId.isUnknown then return .unknown
    if args.contains .dynamicAny then return .dynamicAny
    if args.contains .any then return .any
    let distinct := args.eraseDups
    let values := distinct.filter fun t => !t.isNullish
    match if values.isEmpty then distinct else values with
    | [single] => return single
    | rest =>
      let table ← (get : TypeM TypeTable)
      let sorted := sort table rest
      if sorted.any fun t => (table.lookup t).unionMembers?.isSome then
        createUnion rel w env sorted
      else joinDistinct rel w env join sorted

/-- The join with `room` levels for joins of type arguments; beyond them it is unknown. -/
def joinFrom : Nat → List TypeId → ReportM TypeId
  | 0, _ => pure .unknown
  | room + 1, types => do
    let args ← types.mapM fun t => ReportM.collect (simplify rel w env t)
    joinShort rel w env (joinFrom room) args

end Join

/-- The least upper bound of several types, with the members dropped from the arguments. -/
def join (rel : TypeRelation) (w : World) (env : Environment) (types : List TypeId) :
    TypeM (TypeId × List Redundancy) :=
  (Join.joinFrom rel w env RecursionProfile.join.maxDepth types).run []

/-- The least upper bound of several types. -/
def joinTypes (rel : TypeRelation) (w : World) (env : Environment) (types : List TypeId) :
    TypeM TypeId :=
  return (← join rel w env types).1

end ScriptTyping
