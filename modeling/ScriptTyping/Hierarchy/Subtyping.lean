import ScriptTyping.Hierarchy.Supertypes

/-!
# Subtyping

The subtype relation of the declared hierarchy.  `Subtyping.rules` decides one pair by asking for
other pairs; `Subtyping.check` answers those questions by the same rules under a recursion guard.  A
pair that is met again while it is being decided holds, so recursive types are compared
coinductively, and a pair beyond the limits does not hold.

The rules, in this order:

* unknown is below and above everything; `any` is above and dynamic `any` below everything;
  `undefined` is below everything and `null` below everything but `undefined`;
* a union is below what all its members are below; something is below a union if it is below a
  member, and below an intersection if it is below all members; an intersection is below what a
  member is below;
* wildcards, `this` and type variables stand for their bounds, literals for their base type;
* references are compared through the super types of the left one, arguments by declared variance;
  functions by parameters against and results along the order; shapes by width and depth.

## Main definitions

* `Subtyping.rules` — one step, given the answers to other questions.
* `Subtyping.check` — the guarded recursion.
* `World.isSubtype` — the relation under an environment.
* `TypeRelation` — any such relation, and its strict part.
-/

namespace ScriptTyping

/-- A subtype query under an environment. -/
abbrev TypeRelation := Environment → TypeId → TypeId → TypeM Bool

/-- Below, and not above. -/
def TypeRelation.strict (rel : TypeRelation) (env : Environment) (source target : TypeId) :
    TypeM Bool := do
  if source = target then return false
  if ← rel env source target then return !(← rel env target source)
  return false

/-- Guard of the pairs that are being decided. -/
abbrev PairGuard := RecursionGuard (TypeId × TypeId)

/-- Computations that also move the guard of pairs. -/
abbrev CheckM := StateT PairGuard TypeM

namespace Subtyping

/-- A subtype question whose answer the rules may use. -/
abbrev Query := TypeId → TypeId → CheckM Bool

variable (w : World) (ask : Query)

/-- Compares two type arguments of one type parameter.  An argument on the right that is a wildcard
accepts what lies within its bound. -/
def argumentRule (source target : TypeId) (variance : Variance) : CheckM Bool := do
  if source = target then return true
  match ← TypeM.lookup target with
  | .wildcard none _ => return true
  | .wildcard (some bound) .upper => ask (← TypeM.upperBound source) bound
  | .wildcard (some bound) .lower =>
    match ← TypeM.lookup source with
    | .wildcard (some lower) .lower => ask bound lower
    | .wildcard .. => return false
    | _ => ask bound source
  | _ =>
    match variance with
    | .covariant => ask source target
    | .contravariant => ask target source
    | .invariant => if ← ask source target then ask target source else return false

/-- Compares type arguments from the first to the last, as far as both sides have them; missing type
parameters are invariant. -/
def argumentsRule : List DeclId → List TypeId → List TypeId → CheckM Bool
  | params, source :: sources, target :: targets => do
    let variance := (params.head?.map w.declarations.variance).getD .invariant
    if ← argumentRule ask source target variance then
      argumentsRule params.tail sources targets
    else return false
  | _, _, _ => return true

/-- Compares a type with a reference to a declared type.  `Object` is above all objects; otherwise
the reference to the same declaration among the super types decides, and a reference without
arguments on either side is compared by declaration only. -/
def nominalRule (source : TypeId) (decl : DeclId) (args : List TypeId) : CheckM Bool := do
  if decl = w.builtins.object ∧ args = [] then return ← w.isObjectLike source
  match ← w.findInstantiation? source decl with
  | none => return false
  | some (_, sourceArgs) =>
    if sourceArgs.isEmpty || args.isEmpty then return true
    let params := ((w.decl? decl).map (·.typeParams)).getD []
    argumentsRule w ask params sourceArgs args

/-- Compares signatures: the left one asks for no more arguments than the right one passes, the
parameters are compared against the order, and the results along it, where `void` on the right
accepts everything. -/
def functionRule (source target : Signature) : CheckM Bool := do
  let required := source.params.countP fun param => !param.optional && !param.rest
  if target.params.length < required && !target.params.any (·.rest) then return false
  if ← (source.params.zip target.params).allM fun pair => ask pair.2.type pair.1.type then
    if target.returnType = .void then return true
    ask source.returnType target.returnType
  else return false

/-- Compares object shapes: every member on the right is present on the left with a subtype, or is
optional. -/
def structuralRule (source target : List Property) : CheckM Bool :=
  target.allM fun member =>
    match findProperty? source member.name with
    | some found => ask found.type member.type
    | none => pure member.optional

/-- Compares two types that are neither aliases nor unions nor intersections. -/
def layerRule (source target : TypeId) (sourceData targetData : TypeData) : CheckM Bool := do
  match sourceData, targetData with
  | .wildcard .., _ =>
    let upper ← TypeM.upperBound source
    if upper = source then return false
    ask upper target
  | _, .wildcard none _ => return true
  | _, .wildcard (some bound) .upper => ask source bound
  | _, .wildcard (some bound) .lower => ask bound source
  | .thisType (some left), .thisType (some right) => ask left right
  | .thisType (some bound), _ => ask bound target
  | .thisType none, _ => ask w.objectType target
  | _, .thisType _ => return false
  | .typeVariable decl, _ =>
    let bound := w.declarations.variableBound decl
    if bound = .any then return false
    ask bound target
  | _, .typeVariable _ => return false
  | .literal value, _ => ask (← literalBase value) target
  | _, .literal _ => return false
  | .primitive _, _ => return false
  | .metaType left leftConstructor, .metaType right rightConstructor =>
    if leftConstructor || !rightConstructor then ask left right else return false
  | .function left, .function right => functionRule ask left right
  | .structural left, .structural right => structuralRule ask left right
  | .nominal .., .nominal decl args | .function _, .nominal decl args
  | .structural _, .nominal decl args | .metaType .., .nominal decl args =>
    nominalRule w ask source decl args
  | _, _ => return false

/-- Decides one pair of different types, asking for other pairs. -/
def rules (source target : TypeId) : CheckM Bool := do
  if source.isUnknown || target.isUnknown then return true
  if target.isAny || source == .dynamicAny then return true
  if source = .undefined then return true
  if source = .null then return target != .undefined
  if source = .any then return false
  let source ← w.resolveAlias source
  let target ← w.resolveAlias target
  let sourceData ← TypeM.lookup source
  let targetData ← TypeM.lookup target
  match sourceData, targetData with
  | .union members, _ => members.allM fun member => ask member target
  | _, .union members => members.anyM fun member => ask source member
  | _, .intersection members => members.allM fun member => ask source member
  | .intersection members, _ => members.anyM fun member => ask member target
  | _, _ => layerRule w ask source target sourceData targetData

/-- Enters a pair and reports how that went. -/
def enter (pair : TypeId × TypeId) : CheckM EntryResult := modifyGet (·.enter pair)

/-- Leaves a pair that was entered. -/
def leave (pair : TypeId × TypeId) : CheckM Unit :=
  modify fun guard => (guard.leave pair).toOption.getD guard

/-- Decides a pair under the guard.  `room` is at least the depth that the guard still grants, so
the first case never decides anything. -/
def check : Nat → Query
  | 0, source, target => pure (source = target)
  | room + 1, source, target => do
    if source = target then return true
    match ← enter (source, target) with
    | .entered =>
      let result ← rules w (check room) source target
      leave (source, target)
      return result
    | .cycle => return true
    | .depthExceeded | .iterationExceeded => return false

/-- Decides a pair under a new guard, and returns the guard as it is left. -/
def run (source target : TypeId) : TypeM (Bool × PairGuard) :=
  (check w (RecursionProfile.subtypeCheck.maxDepth + 1) source target).run
    (.ofProfile .subtypeCheck)

end Subtyping

namespace World

/-- The subtype relation of the declared hierarchy, with the replacements of the environment applied
to both sides. -/
def isSubtype (w : World) : TypeRelation := fun env source target => do
  let source ← env.substitute source
  let target ← env.substitute target
  return (← Subtyping.run w source target).1

end World

end ScriptTyping
