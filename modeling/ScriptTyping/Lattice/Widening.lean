import ScriptTyping.Lattice.Composite

/-!
# Widening

The type that a declaration takes from its initializer.  Literal types widen to the type they belong
to unless the element is immutable, wildcards stand for their upper bound, types without a usable
value become dynamic `any`, and unknown becomes `any`.

## Main definitions

* `widenLiterals` — widening, also inside unions.
* `sanitizeDeclared` — the type of a declaration with an initializer of a given type.
-/

namespace ScriptTyping

variable (rel : TypeRelation) (w : World) (env : Environment)

/-- Widening with the given depth of nested unions. -/
def widenLiteralsFrom : Nat → TypeId → TypeM TypeId
  | 0, _ => TypeM.diverge
  | fuel + 1, t => do
    match ← TypeM.lookup t with
    | .literal value => literalBase value
    | .union members =>
      let widened ← members.mapM (widenLiteralsFrom fuel)
      if widened = members then return t
      createUnion rel w env widened
    | _ => return t

/-- Literal types become the type they belong to, also as members of unions; the union is shortened
if a member changed.  Unions nest no deeper than the table is long. -/
def widenLiterals (t : TypeId) : TypeM TypeId := do
  widenLiteralsFrom rel w env ((← get).rows.size + 1) t

/-- The type that a declaration receives from an initializer. -/
def sanitizeDeclared (t : TypeId) (widen : Bool) : TypeM TypeId := do
  if t = .unknown then return .any
  if t = .null ∨ t = .undefined ∨ t = .void then return .dynamicAny
  let upper ← if (← TypeM.lookup t).isWildcard then TypeM.upperBound t else pure t
  if widen then widenLiterals rel w env upper else return upper

end ScriptTyping
