import ScriptTyping.Judgment.Basic

/-!
# The receivers `this` and `super`

What `this` and `super` stand for at a node depends on the class around it and on whether the member
around it is static.

## Main definitions

* `Program.enclosingClassifier?` — the member and the classifier around a node.
* `Program.thisTypeAt?` — the type of `this`.
* `Program.superType` — the type of `super`.
-/

namespace ScriptTyping.Program

variable (p : Program)

/-- The innermost member around a node with the classifier that owns it. -/
def enclosingClassifier? (n : NodeId) : Option (NodeId × DeclId) := do
  let member ← p.tree.enclosingMember? n
  match ← p.content? (← p.tree.parent? member) with
  | .classDecl decl _ _ | .interfaceDecl decl _ => return (member, ← decl)
  | _ => none

/-- Whether a node is a static member. -/
def isStaticMember (n : NodeId) : Bool := (p.content? n).any Content.isStaticMember

/-- A classifier with its own type variables as arguments. -/
def ownType (decl : DeclId) : TypeM TypeId := do
  let params := ((p.decl? decl).map (·.typeParams)).getD []
  let args ← params.mapM TypeM.typeVariable
  TypeM.nominal decl args

/-- The type of `this` at a node: bound to the classifier around it, and the type of that type
inside static members.  Nothing outside of classifiers. -/
def thisTypeAt? (n : NodeId) : TypeM (Option TypeId) := do
  match p.enclosingClassifier? n with
  | none => return none
  | some (member, classifier) =>
    let own ← p.ownType classifier
    let thisType ← TypeM.thisType (some own)
    if p.isStaticMember member then return some (← TypeM.metaType thisType)
    return some thisType

/-- The super class of a class. -/
def superClass (decl : DeclId) : TypeId :=
  ((p.decl? decl).bind (·.superType)).getD p.world.objectType

/-- The class around a node with the member around it. -/
def enclosingClass? (n : NodeId) : Option (NodeId × DeclId) := do
  let member ← p.tree.enclosingMember? n
  match ← p.content? (← p.tree.parent? member) with
  | .classDecl decl _ _ => return (member, ← decl)
  | _ => none

/-- Whether a node is the constructor of a class. -/
def isConstructor (n : NodeId) : Bool :=
  match p.content? n with
  | some (.method _ _ isConstructor _ _) => isConstructor
  | _ => false

/-- How `super` is used. -/
inductive SuperUse where
  /-- As the receiver of a member access. -/
  | receiver
  /-- As the callee of a call. -/
  | callee
  /-- In any other way. -/
  | invalid
  deriving DecidableEq, Repr

/-- How the `super` at a node is used. -/
def superUse (n : NodeId) : SuperUse :=
  match p.contentAt? (p.tree.parent? n) with
  | some (.propertyAccess target _ _ _) | some (.indexedAccess target _) =>
    if target = some n then .receiver else .invalid
  | some (.call target _ _) => if target = some n then .callee else .invalid
  | _ => .invalid

/-- The type of `super`: as a receiver, the super class, or its constructor inside static members;
as a callee in a constructor, the signature of the super constructor.  Otherwise unknown. -/
def superType (env : Environment) (n : NodeId) : TypeM TypeId := do
  match p.enclosingClass? n with
  | none => return .unknown
  | some (member, decl) =>
    let above := p.superClass decl
    match p.superUse n with
    | .receiver =>
      if p.isStaticMember member then TypeM.constructorType above else return above
    | .callee =>
      if !p.isConstructor member then return .unknown
      let newable ← p.world.resolveConstructible? env (← TypeM.constructorType above)
      return (newable.bind (·.signature)).getD .unknown
    | .invalid => return .unknown

end ScriptTyping.Program
