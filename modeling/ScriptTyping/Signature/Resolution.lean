import ScriptTyping.Hierarchy.Members

/-!
# Call and construct signatures

The signature that a call or a `new` expression uses, for a callee of any type.  A function type is
its own signature; a reference to a classifier uses the member that declares a call or construct
signature; the type of a class's constructor uses the nearest declared constructor or an implicit
one without parameters.  Signatures of members are taken with the type arguments of the receiver
applied and with `this` bound to it.

## Main definitions

* `Callable`, `Newable` — what is known about a callee.
* `World.resolveCallable?`, `World.resolveConstructible?` — the two resolutions.
-/

namespace ScriptTyping

/-- A callee. -/
structure Callable where
  /-- Function type to call; none when anything is accepted. -/
  signature : Option TypeId
  /-- The callee is dynamic `any`. -/
  dynamic : Bool
  deriving DecidableEq, Repr

/-- A callee of `new`. -/
structure Newable where
  /-- Signature of the constructor; none when anything is accepted. -/
  signature : Option TypeId
  /-- Type of the constructed value. -/
  instanceType : TypeId
  /-- The callee is dynamic `any`. -/
  dynamic : Bool
  deriving DecidableEq, Repr

namespace World

/-- A child environment in which members of a receiver are read: with its type arguments and with
`this` bound to it. -/
def receiverScope (w : World) (env : Environment) (receiver : TypeId) : TypeM Environment :=
  return (← w.addSubstitutions env.wrap receiver).setThis receiver

/-- A type as members of a receiver see it. -/
def instantiateFor (w : World) (env : Environment) (receiver t : TypeId) : TypeM TypeId := do
  (← w.receiverScope env receiver).substitute t

/-- The first member with a modifier among the members of some declarations. -/
def flaggedMember? (w : World) (decls : List DeclId) (flag : Flag) : Option DeclId :=
  (decls.flatMap fun d => ((w.decl? d).map (·.members)).getD []).find? (w.declHas · flag)

/-- Signature of the nearest member with a modifier, taken for the receiver. -/
def signatureMember? (w : World) (env : Environment) (receiver : TypeId) (flag : Flag) :
    TypeM (Option TypeId) := do
  let chain ← w.classifierChain receiver
  match ((w.flaggedMember? chain flag).bind w.decl?).bind (·.declaredType) with
  | some signature => return some (← w.instantiateFor env receiver signature)
  | none => return none

/-- Call signature of a callee, resolved with the given depth. -/
def resolveCallableFrom (w : World) (env : Environment) : Nat → TypeId → TypeM (Option Callable)
  | 0, _ => TypeM.diverge
  | fuel + 1, t => do
    let t ← w.resolveAlias (← env.substitute t)
    match ← TypeM.lookup t with
    | .dynamicAny => return some ⟨none, true⟩
    | .function _ => return some ⟨some t, false⟩
    | .nominal decl _ =>
      if decl = w.builtins.function then return some ⟨none, false⟩
      let member ← w.signatureMember? env t .callSignature
      return member.map fun signature => ⟨some signature, false⟩
    | .typeVariable decl =>
      let bound := w.declarations.variableBound decl
      if bound = .any then return none
      w.resolveCallableFrom env fuel bound
    | .thisType (some _) | .wildcard .. =>
      let upper ← TypeM.upperBound t
      if upper = t then return none
      w.resolveCallableFrom env fuel upper
    | .intersection members => members.findSomeM? (w.resolveCallableFrom env fuel)
    | .union members => agreeing (w.resolveCallableFrom env fuel) none members
    | .structural _ | .metaType .. | .literal _ | .thisType none | .primitive _ | .unknown =>
      return none

/-- What calling a value of a type means; nothing when it cannot be called. -/
def resolveCallable? (w : World) (env : Environment) (t : TypeId) : TypeM (Option Callable) :=
  w.resolveCallableFrom env w.fuel t

/-- The instance type of a class with the type parameters that it leaves open: a generic class
without arguments stands for itself with its own parameters. -/
def openInstance (instanceType : TypeId) (decl : DeclId) (info : Declaration)
    (args : List TypeId) : TypeM (TypeId × List DeclId) := do
  if args.isEmpty && info.isGeneric then
    let own ← info.typeParams.mapM TypeM.typeVariable
    return (← TypeM.nominal decl own, info.typeParams)
  return (instanceType, [])

/-- The signature declared by the nearest constructor, taken for the receiver. -/
def constructorSignature? (w : World) (env : Environment) (receiver : TypeId) :
    TypeM (Option Signature) := do
  let chain ← w.classifierChain receiver
  let classes := chain.filter fun d => w.declarations.holds d (·.kind == .classType)
  match ((w.flaggedMember? classes .constructor).bind w.decl?).bind (·.declaredType) with
  | some declared =>
    let signature ← w.instantiateFor env receiver declared
    return (← TypeM.lookup signature).signature?
  | none => return none

/-- The constructor of a class: the nearest declared one or an implicit one without parameters,
returning an instance. -/
def classConstructor? (w : World) (env : Environment) (instanceType : TypeId) :
    TypeM (Option Newable) := do
  match ← TypeM.lookup instanceType with
  | .nominal decl args =>
    match w.decl? decl with
    | some info =>
      if info.kind ≠ .classType then return none
      let (instanceType, openParams) ← openInstance instanceType decl info args
      let declared ← w.constructorSignature? env instanceType
      let signature := declared.getD (.plain [] instanceType)
      let signature ← TypeM.function { signature with
        returnType := instanceType
        typeParams := openParams ++ signature.typeParams }
      return some ⟨some signature, instanceType, false⟩
    | none => return none
  | _ => return none

/-- Construct signature of a callee, resolved with the given depth. -/
def resolveConstructibleFrom (w : World) (env : Environment) :
    Nat → TypeId → TypeM (Option Newable)
  | 0, _ => TypeM.diverge
  | fuel + 1, t => do
    let t ← w.resolveAlias (← env.substitute t)
    match ← TypeM.lookup t with
    | .dynamicAny => return some ⟨none, .dynamicAny, true⟩
    | .metaType arg true => w.classConstructor? env (← TypeM.upperBound arg)
    | .nominal .. =>
      match ← w.signatureMember? env t .constructSignature with
      | some signature =>
        let instanceType := ((← TypeM.lookup signature).signature?.map (·.returnType)).getD .unknown
        return some ⟨some signature, instanceType, false⟩
      | none => return none
    | .typeVariable decl =>
      let bound := w.declarations.variableBound decl
      if bound = .any then return none
      w.resolveConstructibleFrom env fuel bound
    | .thisType (some _) | .wildcard .. =>
      let upper ← TypeM.upperBound t
      if upper = t then return none
      w.resolveConstructibleFrom env fuel upper
    | .intersection members => members.findSomeM? (w.resolveConstructibleFrom env fuel)
    | .metaType .. | .union _ | .function _ | .structural _ | .literal _ | .thisType none
    | .primitive _ | .unknown => return none

/-- What `new` on a value of a type means; nothing when it constructs nothing. -/
def resolveConstructible? (w : World) (env : Environment) (t : TypeId) : TypeM (Option Newable) :=
  w.resolveConstructibleFrom env w.fuel t

end World

end ScriptTyping
