import ScriptTyping.Judgment.Basic

/-!
# References

The type of an identifier: that of its declaration, refined by the type tests that are known to have
succeeded or failed at the reference.

## Main definitions

* `Program.narrowByFlow` — refinement by type tests.
* `Program.identifierType` — the type of an identifier.
-/

namespace ScriptTyping.Program

variable (p : Program) (judge : Judge) (env : Environment)

/-- The type of the instances that a type test asks for. -/
def testedType (typeRef : NodeId) : InferM TypeId := do
  let t ← judge.node env typeRef
  match ← TypeM.lookup t with
  | .metaType arg _ => return arg
  | _ => return ((← p.world.resolveConstructible? env t).map (·.instanceType)).getD t

/-- The fact that a type test states; several tested types form a union. -/
def factOf (guard : InstanceofGuard) : InferM TypeFact := do
  let tested ← guard.typeRefs.mapM (p.testedType judge env)
  match tested with
  | [single] => return ⟨guard.assertion, single⟩
  | _ => return ⟨guard.assertion, ← TypeM.union tested⟩

/-- Refines the type of a declaration by the type tests of it that are known at a reference. -/
def narrowByFlow (reference : NodeId) (target : DeclId) (declared : TypeId) : InferM TypeId := do
  let canonical := p.world.declarations.canonical
  let guards := (p.flow.guardsAt reference).filter fun guard =>
    canonical guard.subject == canonical target && !guard.typeRefs.isEmpty
  let facts ← guards.mapM (p.factOf judge env)
  if facts.isEmpty then return declared
  return (← narrow p.relation p.world env (some declared) facts).getD declared

/-- The type of an identifier. -/
def identifierType (n : NodeId) (target : Option DeclId) : InferM TypeId := do
  match target with
  | none => return .unknown
  | some target =>
    let declared ← judge.decl env target
    let narrowed ← p.narrowByFlow judge env n target declared
    let t ← env.substitute narrowed
    if p.tree.isWriteAccess n then return t else capture t

end ScriptTyping.Program
