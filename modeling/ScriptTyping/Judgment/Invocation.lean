import ScriptTyping.Judgment.Iteration

/-!
# Calls, promises and generators

Types of calls, of `new`, of `await` and of `yield`.  A function that takes a callback as its last
parameter can be read as one that returns a promise; the parameters of the callback decide the
promise: an error first, if there is one, and then the results.

## Main definitions

* `Program.callType`, `Program.newType` — calls and constructions.
* `Program.promiseOfCallback?`, `Program.promisifiedType` — the promise form of a call.
* `Program.awaitType`, `Program.yieldType` — suspended functions.
-/

namespace ScriptTyping.Program

variable (p : Program) (judge : Judge)

/-- An environment with the type arguments of a call: as written, or inferred from the arguments. -/
def addCallArguments (env : Environment) (signature : Signature) (typeArgs : List TypeId)
    (args : List Slot) : InferM Environment := do
  if signature.typeParams.isEmpty then return env
  let argTypes ← if typeArgs.isEmpty then args.mapM (judge.slot env) else pure []
  let s ← TypeArguments.infer p.world p.relation env signature typeArgs argTypes
  return s.replacements.foldl (fun env entry => env.addSubstitution entry.1 entry.2) env

/-- Whether a type is an error for sure. -/
def isErrorType (env : Environment) (t : TypeId) : TypeM Bool := do
  if t.isUnknown || t.isAny || t.isNullish then return false
  p.relation env t p.world.builtins.errorType

/-- The value type of a promise with the given results: a single one, or an array of their union. -/
def promisedValue (env : Environment) : List TypeId → TypeM TypeId
  | [] => pure .undefined
  | [single] => pure single
  | results => do p.world.builtins.arrayOf (← p.union env results)

/-- The promise that the last parameter of a signature describes, if it is a callback. -/
def promiseOfCallback? (env : Environment) (signature : Signature) : TypeM (Option TypeId) := do
  match signature.params.getLast? with
  | none => return none
  | some callback =>
    match ← signature? (← TypeM.upperBound callback.type) with
    | none => return none
    | some callback =>
      let types := callback.params.map (·.type)
      let hasError ← match types with
        | first :: _ => p.isErrorType env first
        | [] => pure false
      let error := if hasError then types.head?.getD .undefined else .undefined
      let value ← p.promisedValue env (if hasError then types.tail else types)
      return some (← p.world.builtins.promiseOf value error)

/-- Whether the declaration of a signature has a promise form. -/
def isPromisifiable (signature : Signature) : Bool :=
  signature.decl.any (p.world.declHas · .promisifiable)

/-- The signature that a callee is called with. -/
def calleeSignature? (env : Environment) (callee : Slot) : InferM (Option Signature) := do
  let t ← judge.slot env callee
  match (← p.world.resolveCallable? env t).bind (·.signature) with
  | some signature => signature? signature
  | none => return none

/-- The promise form of a call; unknown for anything but a call of a function with a callback. -/
def promisifiedType (env : Environment) (expression : Slot) : InferM TypeId := do
  match p.contentAt? expression with
  | some (.call target typeArgs args) =>
    match ← p.calleeSignature? judge env target with
    | none => return .unknown
    | some signature =>
      let env ← p.addCallArguments judge env.wrap signature typeArgs args
      match ← p.promiseOfCallback? env signature with
      | some promise => env.substitute promise
      | none => return .unknown
  | _ => return .unknown

/-- Whether an expression is a call of a function with a promise form. -/
def isPromisifiableCall (env : Environment) (expression : Slot) : InferM Bool := do
  match p.contentAt? expression with
  | some (.call target _ _) =>
    return (← p.calleeSignature? judge env target).any p.isPromisifiable
  | _ => return false

/-- Whether a callee is a member of `this` or `super`, parentheses around it aside. -/
def hasThisReceiver (callee : Slot) : TypeM Bool := do
  match p.contentAt? (← TypeM.ofOption (p.tree.stripParens? callee)) with
  | some (.propertyAccess target _ _ _) =>
    return (p.contentAt? target).any Content.isThisOrSuper
  | _ => return false

/-- Whether a node is the operand of an `await`. -/
def isAwaited (n : NodeId) : Bool :=
  match p.contentAt? (p.tree.parent? n) with
  | some (.awaitExpr expression) => expression == some n
  | _ => false

/-- The type of a call with a known signature.  While its arguments are inferred, the call itself
has the declared return type.  A bound `this` leaves the call only if the receiver is `this` or
`super`. -/
def signatureCallType (env : Environment) (n : NodeId) (target : Slot) (signature : Signature)
    (typeArgs : List TypeId) (args : List Slot) : InferM TypeId := do
  let key : GuardKey := ⟨.callExpression, n⟩
  match env.guardState key with
  | .provisional preliminary =>
    InferM.noteFallback
    env.substitute preliminary
  | _ =>
    let env := env.withProvisional key signature.returnType
    let env ← p.addCallArguments judge env signature typeArgs args
    let returnType ←
      if p.isAwaited n && p.isPromisifiable signature then
        pure ((← p.promiseOfCallback? env signature).getD .unknown)
      else pure signature.returnType
    let t ← env.substitute returnType
    if (← TypeM.lookup t).isBoundThis then
      if ← p.hasThisReceiver target then return t
      TypeM.upperBound t
    else return t

/-- The type of a call. -/
def callType (env : Environment) (n : NodeId) (target : Slot) (typeArgs : List TypeId)
    (args : List Slot) : InferM TypeId := do
  let targetType ← judge.slot env target
  match ← p.world.resolveCallable? env targetType with
  | none => return if targetType = .dynamicAny then .dynamicAny else .unknown
  | some ⟨none, dynamic⟩ => return if dynamic then .dynamicAny else .any
  | some ⟨some callee, _⟩ =>
    match ← signature? callee with
    | none => return .unknown
    | some signature => p.signatureCallType judge env n target signature typeArgs args

/-- The type of a construction. -/
def newType (env : Environment) (callee : Slot) (typeArgs : List TypeId) (args : List Slot) :
    InferM TypeId := do
  let calleeType ← judge.slot env callee
  match ← p.world.resolveConstructible? env calleeType with
  | none => return .unknown
  | some newable =>
    let signature ← match newable.signature with
      | some t => signature? t
      | none => pure none
    match signature with
    | none => return newable.instanceType
    | some signature =>
      let env ← p.addCallArguments judge env.wrap signature typeArgs args
      env.substitute newable.instanceType

/-- A type argument of a reference to a generator, `any` if there is none. -/
def generatorArgument (data : TypeData) (i : Nat) : TypeId :=
  match data with
  | .nominal decl args =>
    if p.world.builtins.isGenerator decl then args[i]?.getD .any else .any
  | _ => .any

/-- The declared return type of the function around a node, arrow functions skipped. -/
def declaredReturn? (n : NodeId) : TypeM (Option TypeId) := do
  let info := ((p.tree.enclosingFunction? n true).bind p.content?).bind
    fun content => content.declared?.bind p.decl?
  match (info.filter fun info => !info.has .inferredReturn).bind (·.declaredType) with
  | some t => return (← signature? t).map (·.returnType)
  | none => return none

/-- The type of a `yield`: what the generator around it is sent, or what a delegate returns. -/
def yieldType (env : Environment) (n : NodeId) (expression : Slot) (isDelegate : Bool) :
    InferM TypeId := do
  if isDelegate then
    let delegate ← TypeM.upperBound (← judge.slot env expression)
    return p.generatorArgument (← TypeM.lookup delegate) 1
  match ← p.declaredReturn? n with
  | some declared => return p.generatorArgument (← TypeM.lookup declared) 2
  | none => return .any

/-- The type of an `await`: the value of a promise, of the promise form of a call, or anything else
as it is. -/
def awaitType (env : Environment) (expression : Slot) : InferM TypeId := do
  let awaited ← judge.slot env expression
  match ← p.promiseValue? awaited with
  | some value => return value
  | none =>
    if ← p.isPromisifiableCall judge env expression then
      let promisified ← p.promisifiedType judge env expression
      return (← p.promiseValue? promisified).getD promisified
    return awaited

end ScriptTyping.Program
