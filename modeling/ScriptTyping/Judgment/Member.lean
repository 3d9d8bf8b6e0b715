import ScriptTyping.Constant
import ScriptTyping.Judgment.Receiver

/-!
# Member access

Types of property and index access.  A member is read with the type arguments of the receiver
applied and with `this` bound to it; an index that is a known constant reads like a property.

## Main definitions

* `Program.propertyAccessType` — the type of a property access.
* `Program.memberValue?` — the type of a member read from a receiver.
* `Program.indexedAccessType` — the type of an index access.
-/

namespace ScriptTyping.Program

variable (p : Program)

/-- The type of a member of an object shape. -/
def shapeMember? (receiver : TypeId) (name : Symbol) : TypeM (Option TypeId) := do
  match ← TypeM.lookup receiver with
  | .structural members => return (findProperty? members name).map (·.type)
  | _ => return none

/-- The declaration of a member read from a receiver; the type of a type has static members. -/
def memberOf? (receiver : TypeId) (name : Symbol) : TypeM (Option DeclId) := do
  let isStatic := (← TypeM.lookup receiver).isMeta
  p.world.resolveMember? ⟨name, true, isStatic⟩ receiver

/-- The classifier behind a receiver. -/
def classifierBehind? (t : TypeId) : TypeM (Option DeclId) := do
  match World.classifierOf? (← TypeM.lookup t) with
  | some decl => return some decl
  | none =>
    return (← p.world.classifierChain t).find? fun decl =>
      (p.world.declarations.kind? decl).any DeclKind.isClassifier

/-- The type of the built-in property `constructor`. -/
def constructorPropertyType (receiver : TypeId) : TypeM TypeId := do
  if (← TypeM.lookup receiver).isMeta then
    return ← TypeM.constructorType p.world.builtins.functionType
  match ← p.classifierBehind? receiver with
  | some decl =>
    let bound ← TypeM.simple decl
    TypeM.constructorType (← TypeM.wildcard (some bound) .upper)
  | none => return .unknown

/-- The type parameters that written type arguments of a member belong to. -/
def memberTypeParams (member : DeclId) (memberType : TypeId) : TypeM (List DeclId) := do
  match p.decl? member with
  | some info =>
    if info.isGeneric then return info.typeParams
    return ((← signature? memberType).map (·.typeParams)).getD []
  | none => return ((← signature? memberType).map (·.typeParams)).getD []

/-- An environment with written type arguments of a member. -/
def bindTypeArguments (env : Environment) (member : DeclId) (memberType : TypeId)
    (typeArgs : List TypeId) : TypeM Environment := do
  let params ← p.memberTypeParams member memberType
  return (params.zip typeArgs).foldl (fun env pair => env.addSubstitution pair.1 pair.2) env

/-- A method reached through `super` that returns `this` returns the `this` of the calling class. -/
def rebindThisReturn (n : NodeId) (t : TypeId) : TypeM TypeId := do
  match ← signature? t with
  | none => return t
  | some signature =>
    if !(← TypeM.lookup signature.returnType).isBoundThis then return t
    let returnType := (← p.thisTypeAt? n).getD .unknown
    TypeM.function { signature with returnType }

/-- Whether a property access names the built-in property `constructor`. -/
def isConstructorProperty (name : Symbol) (property : Option DeclId) : TypeM Bool := do
  match property with
  | some member => return p.world.declHas member .constructor
  | none => return (← TypeM.text name) == "constructor"

/-- The environment in which a member is read: with the type arguments of the receiver, `this` bound
to it, and for `this` and `super` the type arguments that the class around passes on. -/
def accessScope (env : Environment) (n : NodeId) (target : Option Content) (receiver : TypeId) :
    TypeM Environment := do
  let env ← p.world.addSubstitutions env receiver
  let env := env.setThis receiver
  if receiver.isUnknown || !target.any Content.isThisOrSuper then return env
  match ((p.enclosingClassifier? n).bind fun found => p.decl? found.2).bind (·.superType) with
  | some above => p.world.addSubstitutions env above
  | none => return env

variable (judge : Judge)

/-- The type of a member before the environment is applied, with the environment to apply. -/
def accessedType (env : Environment) (receiver : TypeId) (name : Symbol)
    (property : Option DeclId) (typeArgs : List TypeId) : InferM (TypeId × Environment) := do
  if ← p.isConstructorProperty name property then
    return (← p.constructorPropertyType receiver, env)
  if property.isNone && receiver == .dynamicAny then return (.dynamicAny, env)
  let resolved ← match property with
    | some member => pure (some member)
    | none => p.memberOf? receiver name
  match resolved with
  | some member =>
    let memberType ← judge.decl env member
    if typeArgs.isEmpty then return (memberType, env)
    return (memberType, ← p.bindTypeArguments env member memberType typeArgs)
  | none => return ((← shapeMember? receiver name).getD .unknown, env)

/-- The type of a property access.  While its receiver is inferred, the access itself is `any`. -/
def propertyAccessType (env : Environment) (n : NodeId) (target : Slot) (name : Symbol)
    (property : Option DeclId) (typeArgs : List TypeId) : InferM TypeId := do
  let key : GuardKey := ⟨.propertyAccess, n⟩
  match env.guardState key with
  | .provisional preliminary =>
    InferM.noteFallback
    return preliminary
  | _ =>
    let env := env.withProvisional key .any
    let receiver ← judge.slot env target
    let targetContent := p.contentAt? target
    let env ← p.accessScope env n targetContent receiver
    let bound ← TypeM.upperBound receiver
    let (t, env) ← p.accessedType judge env bound name property typeArgs
    let t ← env.substitute t
    let t ← if p.tree.isWriteAccess n then pure t else capture t
    if targetContent = some .superExpr then p.rebindThisReturn n t else return t

/-- The type of a member read from a receiver; nothing when there is no such member. -/
def memberValue? (env : Environment) (receiver : TypeId) (name : Symbol) :
    InferM (Option TypeId) := do
  match ← shapeMember? receiver name with
  | some t => return some t
  | none =>
    match ← p.memberOf? receiver name with
    | none => return none
    | some member =>
      let scope ← p.world.receiverScope env receiver
      let t ← judge.decl scope member
      return some (← capture (← scope.substitute t))

/-- The element type that a numeric index reads: strings consist of strings, and array-like classes
declare their element type. -/
def indexedElement? (receiver : TypeId) : TypeM (Option TypeId) := do
  let data ← TypeM.lookup receiver
  let isText : Bool :=
    match data with
    | .primitive _ => receiver == .string
    | .literal (.string _) => true
    | .literal (.enumMember decl _) | .nominal decl _ => p.world.isEnumOf decl .stringBased
    | _ => false
  if isText then return some .string
  return (← p.world.classifierChain receiver).findSome? fun decl =>
    (p.decl? decl).bind fun info => if info.kind = .classType then info.elementType else none

/-- Whether a type refers to a generic declaration without type arguments. -/
def isRawGeneric (t : TypeId) : TypeM Bool := do
  match ← TypeM.lookup t with
  | .nominal decl args => return args.isEmpty && p.world.declarations.holds decl (·.isGeneric)
  | _ => return false

/-- Whether a classifier behind a type accepts any property name. -/
def hasIndexSignature (t : TypeId) : TypeM Bool :=
  return (← p.world.classifierChain t).any (p.world.declHas · .indexSignature)

/-- The value of an expression, if it is constant. -/
def constant? (slot : Slot) : TypeM (Option ConstValue) := do
  let symbols := (← get).symbols
  match Constant.evaluate ⟨p.tree, p.world.declarations, symbols⟩ slot with
  | .ok value => return value
  | .error _ => TypeM.diverge

/-- Whether a type is a number for sure. -/
def isNumberIndex (env : Environment) (t : TypeId) : TypeM Bool := do
  if t.isUnknown || t.isAny then return false
  p.relation env t .number

/-- The element that a numeric index reads from a receiver with elements. -/
def numericElement? (env : Environment) (receiver index : TypeId) : TypeM (Option TypeId) := do
  if !(← p.isNumberIndex env index) then return none
  match ← p.indexedElement? receiver with
  | none => return none
  | some element =>
    if ← p.isRawGeneric receiver then return some .any
    return some (← p.world.instantiateFor env receiver element)

/-- The type of an index access: by element, by constant key, or by the receiver alone. -/
def indexedAccessType (env : Environment) (target index : Slot) : InferM TypeId := do
  if target.isNone || index.isNone || p.contentAt? target = some .superExpr then return .unknown
  let receiver ← judge.slot env target
  let receiver ← p.world.resolveAlias (← TypeM.upperBound receiver)
  let indexType ← judge.slot env index
  match ← p.numericElement? env receiver indexType with
  | some element => return element
  | none =>
    match ← p.constant? index with
    | some value =>
      let name ← TypeM.internSymbol value.propertyName
      match ← p.memberValue? judge env receiver name with
      | some t => return t
      | none =>
        if receiver = .dynamicAny then return .dynamicAny
        if ← p.hasIndexSignature receiver then return .dynamicAny
        return if receiver = p.world.objectType then .dynamicAny else .unknown
    | none =>
      if receiver = .dynamicAny then return .dynamicAny
      return if ← p.hasIndexSignature receiver then .dynamicAny else .any

end ScriptTyping.Program
