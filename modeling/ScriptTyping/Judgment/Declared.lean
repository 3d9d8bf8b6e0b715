import ScriptTyping.Judgment.Iteration

/-!
# Declarations

Types of declarations.  An element without annotation is inferred through its node, and a signature
whose return type is left open through the returns and yields of its body.  Such a type is written
to the memo cell of the declaration if it depends on nothing but the program: no guard or limit cut
the inference short, and the environment replaces nothing.

## Main definitions

* `Program.returnType` — the return type of a body.
* `Program.elementType`, `Program.signatureType` — the two kinds of memoized declarations.
* `Program.declarationType` — the type of a declaration.
-/

namespace ScriptTyping.Program

variable (p : Program) (judge : Judge)

/-- Writes the type of a declaration to its memo cell, if it was inferred in an environment that
replaces nothing and without a fallback since the count `before`. -/
def memoize (env : Environment) (before : Nat) (d : DeclId) (t : TypeId) : InferM Unit := do
  if (← InferM.fallbackCount) = before && !env.hasSubstitutions && env.this?.isNone then
    InferM.memoize d t

/-- The type of a field, parameter or variable: as annotated, as written in its memo cell, or
inferred through its node. -/
def elementType (env : Environment) (d : DeclId) (info : Declaration) : InferM TypeId := do
  match info.declaredType with
  | some t =>
    if info.kind = .parameter && info.has .variadic then p.world.builtins.arrayOf t else return t
  | none =>
    match ← InferM.memoized? d with
    | some t => return t
    | none =>
      match info.node with
      | none => return .any
      | some n =>
        let before ← InferM.fallbackCount
        let t ← judge.node env n
        memoize env before d t
        return t

/-- What a `yield` contributes to the values of its generator: the elements of a delegate, or the
yielded value. -/
def yieldedType (env : Environment) (n : NodeId) : InferM TypeId := do
  match p.content? n with
  | some (.yieldExpr expression true) =>
    let iterated ← judge.slot env expression
    return (← p.iterableElement? env iterated false).getD .any
  | some (.yieldExpr (some expression) false) => judge.node env expression
  | _ => return .undefined

/-- The join of widened types, or a type for their absence. -/
def joinOr (env : Environment) (absent : TypeId) (types : List TypeId) : TypeM TypeId :=
  if types.isEmpty then pure absent else p.join env types

/-- The return type of a body: the join of what it returns, wrapped for asynchronous functions and
generators. -/
def returnType (env : Environment) (owner : NodeId) (info : Declaration) : InferM TypeId := do
  let exits ← TypeM.ofOption (p.tree.exits? owner)
  let returned ← exits.returns.mapM fun n => do p.widen env (← judge.node env n)
  let result ← p.joinOr env .void returned
  if info.has .generator then
    let yielded ← exits.yields.mapM fun n => do p.widen env (← p.yieldedType judge env n)
    let value ← p.joinOr env .undefined yielded
    TypeM.nominal (p.world.builtins.generatorDecl (info.has .async)) [value, result, .any]
  else if info.has .async then
    let error ← TypeM.wildcard none .upper
    p.world.builtins.promiseOf result error
  else return result

/-- The type of a function or method: its signature, with the return type of its body if that is
left open. -/
def signatureType (env : Environment) (d : DeclId) (info : Declaration) : InferM TypeId := do
  match info.declaredType with
  | none => return .unknown
  | some declared =>
    if !info.has .inferredReturn then return declared
    match ← InferM.memoized? d with
    | some t => return t
    | none =>
      match ← signature? declared, info.node with
      | some signature, some n =>
        let key : GuardKey := ⟨.functionReturn, n⟩
        if env.isGuarded key then
          InferM.noteFallback
          return declared
        let before ← InferM.fallbackCount
        let returnType ← p.returnType judge (env.withGuard key) n info
        let t ← TypeM.function { signature with returnType }
        memoize env before d t
        return t
      | _, _ => return declared

/-- The type of a declaration, partial ones standing for what they are merged into. -/
def declarationType (env : Environment) (d : DeclId) : InferM TypeId := do
  let d := p.world.declarations.canonical d
  match p.decl? d with
  | none => return .unknown
  | some info =>
    match info.kind with
    | .classType => TypeM.constructorType (← TypeM.simple d)
    | .interfaceType | .enumType _ => TypeM.metaType (← TypeM.simple d)
    | .typeAlias =>
      match info.declaredType with
      | some aliased => TypeM.metaType aliased
      | none => return .unknown
    | .enumLiteral =>
      match info.owner with
      | some owner => TypeM.enumLiteral owner d
      | none => return .unknown
    | .field | .parameter | .var => p.elementType judge env d info
    | .getter | .setter => return info.declaredType.getD .any
    | .function | .method => p.signatureType judge env d info
    | .typeVariable => TypeM.typeVariable d
    | .dynamic => return .dynamicAny
    | .moduleImport => TypeM.simple d

end ScriptTyping.Program
