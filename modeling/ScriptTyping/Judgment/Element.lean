import ScriptTyping.Judgment.Iteration
import ScriptTyping.Judgment.Member

/-!
# Typed elements

Types of fields, variables and parameters from their syntax: as annotated, or taken from an
initializer, from the pattern that a variable is bound in, or from the loop that declares it.  An
element that refers to itself on the way is `any` there.

## Main definitions

* `Program.initializerType` — the type that an initializer gives.
* `Program.destructuredType` — the type of a variable inside a pattern.
* `Program.variableType`, `Program.parameterType` — variables and parameters.

## Main results

* `Program.bindingSource_cases` — the value that a pattern takes apart.
-/

namespace ScriptTyping.Program

variable (p : Program) (judge : Judge) (env : Environment)

/-- Runs an inference under a guard; if the guard is set already, the answer is `any` and the
fallback is noted. -/
def guarded (key : GuardKey) (infer : Environment → InferM TypeId) : InferM TypeId := do
  if env.isGuarded key then
    InferM.noteFallback
    return .any
  infer (env.withGuard key)

/-- The type that an initializer gives to its element; `any` without initializer. -/
def initializerType (initializer : Slot) (widen : Bool) : InferM TypeId := do
  match initializer with
  | none => return .any
  | some n =>
    guarded env ⟨.variableInitializer, n⟩ fun inner => do
      let t ← judge.node inner n
      p.sanitize env t widen

/-- The value that a pattern takes apart: its initializer, or the element of the loop around it. -/
def bindingSource (path : PatternPath) : InferM TypeId := do
  match path.initializer with
  | some n => judge.node env n
  | none =>
    match p.contentAt? (p.tree.parent? path.binding) with
    | some (.forLoop (.overElements isAwait) _ expression _) =>
      let iterated ← judge.slot env expression
      return (← p.iterableElement? env iterated isAwait).getD .unknown
    | _ => return .unknown

/-- What a pattern takes apart is settled by the path alone: the type of the initializer; without
one, the element of the loop over elements that declares the pattern; `[unknown]` elsewhere. -/
theorem bindingSource_cases (path : PatternPath) :
    (∃ n, path.initializer = some n ∧
      ∀ judge env, p.bindingSource judge env path = judge.node env n) ∨
    path.initializer = none ∧
      ((∃ isAwait declarations expression body,
          p.contentAt? (p.tree.parent? path.binding) =
            some (.forLoop (.overElements isAwait) declarations expression body) ∧
          ∀ judge env, p.bindingSource judge env path = do
            let iterated ← judge.slot env expression
            return (← p.iterableElement? env iterated isAwait).getD .unknown) ∨
        (∀ isAwait declarations expression body,
          p.contentAt? (p.tree.parent? path.binding) ≠
            some (.forLoop (.overElements isAwait) declarations expression body)) ∧
          ∀ judge env, p.bindingSource judge env path = pure .unknown) := by
  unfold bindingSource
  cases path.initializer with
  | some n => exact .inl ⟨n, rfl, fun _ _ => rfl⟩
  | none =>
    refine .inr ⟨rfl, ?_⟩
    dsimp only
    split
    next isAwait declarations expression body hloop =>
      exact .inl ⟨isAwait, declarations, expression, body, hloop, fun _ _ => rfl⟩
    next hother =>
      exact .inr ⟨hother, fun _ _ => rfl⟩

/-- Takes a value apart by one step of a pattern; `any` stays what it is. -/
def destructureStep (value : TypeId) (step : PatternStep) : InferM TypeId := do
  if value.isAny then return value
  match step with
  | .element isRest =>
    let element ← match p.world.arrayElement? (← TypeM.lookup value) with
      | some element => pure (some element)
      | none => p.iterableElement? env value false
    match element with
    | some element => if isRest then p.world.builtins.arrayOf element else return element
    | none => return .unknown
  | .property name =>
    return (← p.memberValue? judge env (← TypeM.upperBound value) name).getD .unknown

/-- Takes a value apart by the steps of a path, as long as it is known. -/
def destructure (value : TypeId) : List PatternStep → InferM TypeId
  | [] => pure value
  | step :: steps => do
    let value ← p.destructureStep judge env value step
    if value.isUnknown then return value
    destructure value steps

/-- The default of a variable inside a pattern. -/
def defaultOf? (n : NodeId) : Slot :=
  match p.content? n with
  | some (.variableDecl _ _ initializer _) => initializer
  | _ => none

/-- The type of a variable inside a pattern: the part of the value that the path to it selects, or
its default if that part is unknown or `undefined`. -/
def destructuredType (n : NodeId) : InferM TypeId := do
  match p.tree.patternPath? n with
  | none => return .unknown
  | some path =>
    let source ← p.bindingSource judge env path
    let value ← p.destructure judge env source path.steps
    match p.defaultOf? n with
    | some fallback =>
      if value.isUnknown || value == .undefined then judge.node env fallback else return value
    | none => return value

/-- Whether a type is a bound `this`, or the type of one. -/
def isBoundThis (t : TypeId) : TypeM Bool := do
  match ← TypeM.lookup t with
  | .thisType (some _) => return true
  | .metaType arg _ => return (← TypeM.lookup arg).isBoundThis
  | _ => return false

/-- The type of a variable that is declared by a loop over elements. -/
def loopElementType (loop : NodeId) (expression : Slot) (isAwait widen : Bool) :
    InferM TypeId :=
  guarded env ⟨.forOfIteration, loop⟩ fun inner => do
    let iterated ← judge.slot inner expression
    match ← p.iterableElement? env iterated isAwait with
    | some element => p.sanitize env element widen
    | none => return .unknown

/-- The type of a variable inside a pattern, as the variable takes it over. -/
def patternVariableType (n : NodeId) (widen : Bool) : InferM TypeId :=
  guarded env ⟨.destructuringPattern, n⟩ fun inner => do
    let t ← p.destructuredType judge inner n
    if t.isUnknown then return t
    p.sanitize env t widen

/-- The type of a variable with its own initializer: an unknown type and a bound `this` are taken
over as they are. -/
def initializedVariableType (initializer : Slot) (widen : Bool) : InferM TypeId := do
  match initializer with
  | none => return .any
  | some n =>
    guarded env ⟨.variableInitializer, n⟩ fun inner => do
      let t ← judge.node inner n
      if t.isUnknown then return t
      if ← isBoundThis t then return t
      p.sanitize env t widen

/-- The type of a variable. -/
def variableType (n : NodeId) (declared : Option TypeId) (initializer : Slot)
    (isImmutable : Bool) : InferM TypeId := do
  match declared with
  | some t => return t
  | none =>
    if p.options.isDynamic then return .dynamicAny
    match p.tree.parent? n with
    | none => p.initializedVariableType judge env initializer !isImmutable
    | some parent =>
      match p.content? parent with
      | some (.bindingElement ..) => p.patternVariableType judge env n !isImmutable
      | some (.forLoop (.overElements isAwait) _ expression _) =>
        p.loopElementType judge env parent expression isAwait !isImmutable
      | some (.forLoop .overNames ..) => return .string
      | _ => p.initializedVariableType judge env initializer !isImmutable

/-- The type of a field or of a property of an object literal. -/
def fieldType (declared : Option TypeId) (initializer : Slot) (isImmutable : Bool) :
    InferM TypeId :=
  match declared with
  | some t => pure t
  | none => p.initializerType judge env initializer !isImmutable

/-- The type of a parameter; one that takes all further arguments is an array. -/
def parameterType (declared : Option TypeId) (initializer : Slot) (isVariadic : Bool) :
    InferM TypeId := do
  let base ← match declared with
    | some t => pure t
    | none =>
      if initializer.isSome then p.initializerType judge env initializer true
      else pure p.untypedElement
  if isVariadic then p.world.builtins.arrayOf base else return base

end ScriptTyping.Program
