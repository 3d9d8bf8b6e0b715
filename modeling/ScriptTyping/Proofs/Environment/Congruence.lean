import ScriptTyping.Judgment.Declared
import ScriptTyping.Judgment.Invocation
import ScriptTyping.Judgment.Member
import ScriptTyping.Judgment.Operator
import ScriptTyping.Proofs.Environment.Relaxation

/-!
# What computations over types read of an environment

Of an environment, computations over types see the replacements and the bound `this` only, so they
are the same computation under an environment with fewer guards.  Those that write into an
environment write replacements which do not depend on it.

## Main definitions

* `World.receiverBindings` — the type arguments that a receiver passes to its super types.

## Main results

* `Environment.Relaxes.isSubtype` — the subtype relation.
* `World.addSubstitutions_eq` — the type arguments of a receiver are written in one go.
* `Environment.Relaxes.union` and its companions — the computations of the judgment.
-/

namespace ScriptTyping

/-! ### Type arguments of a receiver -/

namespace World

/-- Records the argument of a type parameter, unless the parameter was met before or is passed on
as it is. -/
def recordBinding (state : List (DeclId × TypeId) × List DeclId) (pair : DeclId × TypeId) :
    TypeM (List (DeclId × TypeId) × List DeclId) := do
  if state.2.contains pair.1 then return state
  let own ← TypeM.typeVariable pair.1
  return (if pair.2 = own then state.1 else state.1 ++ [pair], pair.1 :: state.2)

/-- Records the type arguments of a reference to a declared type. -/
def recordBindings (w : World) (state : List (DeclId × TypeId) × List DeclId) (t : TypeId) :
    TypeM (List (DeclId × TypeId) × List DeclId) := do
  match ← TypeM.lookup t with
  | .nominal decl args =>
    if args.isEmpty then return state
    match w.decl? decl with
    | some info => (info.typeParams.zip args).foldlM recordBinding state
    | none => return state
  | _ => return state

/-- The type arguments of a receiver, and those that it passes to its super types. -/
def receiverBindings (w : World) (receiver : TypeId) : TypeM (List (DeclId × TypeId)) := do
  let above ← w.supertypes receiver
  return (← above.foldlM w.recordBindings ([], [])).1

/-- A loop whose states are images of the states of another loop. -/
private theorem foldlM_image {σ τ α : Type} {f : σ → α → TypeM σ} {g : τ → α → TypeM τ}
    {image : τ → σ} (h : ∀ s a, f (image s) a = image <$> g s a) (l : List α) :
    ∀ s, l.foldlM f (image s) = image <$> l.foldlM g s := by
  induction l with
  | nil =>
    intro s
    rw [List.foldlM_nil, List.foldlM_nil, map_pure]
  | cons a l ih =>
    intro s
    rw [List.foldlM_cons, List.foldlM_cons, h, map_bind, bind_map_left]
    exact bind_congr fun s' => ih s'

variable (w : World) (env : Environment)

/-- The state of `recordArguments` that belongs to recorded replacements. -/
private def written (state : List (DeclId × TypeId) × List DeclId) : Environment × List DeclId :=
  (env.extend state.1, state.2)

private theorem recordArgument_eq (state : List (DeclId × TypeId) × List DeclId)
    (pair : DeclId × TypeId) :
    recordArgument (written env state) pair = written env <$> recordBinding state pair := by
  obtain ⟨bindings, seen⟩ := state
  obtain ⟨param, arg⟩ := pair
  change recordArgument (env.extend bindings, seen) (param, arg) = _
  rw [recordArgument, recordBinding]
  dsimp only
  by_cases hseen : seen.contains param = true
  · rw [if_pos hseen, if_pos hseen, map_pure, written]
  · rw [if_neg hseen, if_neg hseen, map_bind]
    refine bind_congr fun own => ?_
    rw [map_pure]
    split
    · rfl
    · simp [written, Environment.extend]

private theorem recordArguments_eq (state : List (DeclId × TypeId) × List DeclId) (t : TypeId) :
    w.recordArguments (written env state) t = written env <$> w.recordBindings state t := by
  rw [recordArguments, recordBindings, map_bind]
  refine bind_congr fun data => ?_
  cases data with
  | nominal decl args =>
    dsimp only
    split
    · rw [map_pure]
    · cases w.decl? decl with
      | none => rw [map_pure]
      | some info => exact foldlM_image (recordArgument_eq env) _ state
  | _ => rw [map_pure]

/-- The type arguments of a receiver are found without the environment that they are written to. -/
theorem addSubstitutions_eq (receiver : TypeId) :
    w.addSubstitutions env receiver = env.extend <$> w.receiverBindings receiver := by
  rw [addSubstitutions, receiverBindings, map_bind]
  refine bind_congr fun above => ?_
  have h := foldlM_image (recordArguments_eq w env) above ([], [])
  rw [show (env, ([] : List DeclId)) = written env ([], []) from rfl, h, bind_map_left, map_bind]
  exact bind_congr fun state => by rw [map_pure, written]

theorem receiverScope_eq (receiver : TypeId) :
    w.receiverScope env receiver =
      (fun bindings => (env.wrap.extend bindings).setThis receiver) <$>
        w.receiverBindings receiver := by
  rw [receiverScope, addSubstitutions_eq, bind_map_left, map_eq_pure_bind]

end World

namespace Program

variable (p : Program) (env : Environment)

/-- The replacements with which a member is read: the type arguments of the receiver, and for
`this` and `super` the type arguments that the class around passes on. -/
def accessBindings (n : NodeId) (target : Option Content) (receiver : TypeId) :
    TypeM (List (DeclId × TypeId) × List (DeclId × TypeId)) := do
  let own ← p.world.receiverBindings receiver
  if receiver.isUnknown || !target.any Content.isThisOrSuper then return (own, [])
  match ((p.enclosingClassifier? n).bind fun found => p.decl? found.2).bind (·.superType) with
  | some above => return (own, ← p.world.receiverBindings above)
  | none => return (own, [])

/-- The environment in which a member is read, given the replacements. -/
def accessEnvironment (receiver : TypeId)
    (bindings : List (DeclId × TypeId) × List (DeclId × TypeId)) : Environment :=
  ((env.extend bindings.1).setThis receiver).extend bindings.2

theorem accessScope_eq (n : NodeId) (target : Option Content) (receiver : TypeId) :
    p.accessScope env n target receiver =
      accessEnvironment env receiver <$> p.accessBindings n target receiver := by
  rw [accessScope, accessBindings, World.addSubstitutions_eq, bind_map_left, map_bind]
  refine bind_congr fun own => ?_
  dsimp only
  split
  · rw [map_pure]
    rfl
  · cases ((p.enclosingClassifier? n).bind fun found => p.decl? found.2).bind (·.superType) with
    | none =>
      rw [map_pure]
      rfl
    | some above =>
      dsimp only
      rw [World.addSubstitutions_eq, map_bind, map_eq_pure_bind]
      refine bind_congr fun passed => ?_
      rw [map_pure]
      rfl

theorem bindTypeArguments_eq (member : DeclId) (memberType : TypeId) (typeArgs : List TypeId) :
    p.bindTypeArguments env member memberType typeArgs =
      (fun params => env.extend (params.zip typeArgs)) <$>
        p.memberTypeParams member memberType := by
  rw [bindTypeArguments, map_eq_pure_bind]
  rfl

end Program

namespace Environment.Relaxes

variable {env env' : Environment} (h : env.Relaxes env') (w : World)
include h

/-! ### Subtyping and the short form of types -/

theorem isSubtype : w.isSubtype env' = w.isSubtype env := by
  funext source target
  rw [World.isSubtype, h.substitute]
  rfl

-- The computations below read the environment through the relation only, so they can be run with
-- a relation that has it built in.
theorem createUnion (members : List TypeId) :
    createUnion w.isSubtype w env' members = createUnion w.isSubtype w env members := by
  change ScriptTyping.createUnion (fun _ => w.isSubtype env') w .empty members =
    ScriptTyping.createUnion (fun _ => w.isSubtype env) w .empty members
  rw [h.isSubtype]

theorem narrow (base : Option TypeId) (facts : List TypeFact) :
    narrow w.isSubtype w env' base facts = narrow w.isSubtype w env base facts := by
  change ScriptTyping.narrow (fun _ => w.isSubtype env') w .empty base facts =
    ScriptTyping.narrow (fun _ => w.isSubtype env) w .empty base facts
  rw [h.isSubtype]

private theorem simplify (t : TypeId) :
    simplify w.isSubtype w env' t = simplify w.isSubtype w env t := by
  change ScriptTyping.simplify (fun _ => w.isSubtype env') w .empty t =
    ScriptTyping.simplify (fun _ => w.isSubtype env) w .empty t
  rw [h.isSubtype]

private theorem createIntersection (members : List TypeId) :
    createIntersection w.isSubtype w env' members =
      createIntersection w.isSubtype w env members := by
  change ScriptTyping.createIntersection (fun _ => w.isSubtype env') w .empty members =
    ScriptTyping.createIntersection (fun _ => w.isSubtype env) w .empty members
  rw [h.isSubtype]

private theorem minimal (candidates : List TypeId) :
    Join.minimal w.isSubtype env' candidates = Join.minimal w.isSubtype env candidates := by
  simp only [Join.minimal, TypeRelation.strict, h.isSubtype]

private theorem mergeColumns (join : List TypeId → ReportM TypeId) (params : List DeclId) :
    ∀ rows, Join.mergeColumns w.isSubtype w env' join params rows =
      Join.mergeColumns w.isSubtype w env join params rows := by
  induction params with
  | nil => exact fun _ => rfl
  | cons param params ih =>
    intro rows
    simp only [Join.mergeColumns, Join.mergeColumn, h.isSubtype, ih]

private theorem joinShort (join : List TypeId → ReportM TypeId) (args : List TypeId) :
    Join.joinShort w.isSubtype w env' join args = Join.joinShort w.isSubtype w env join args := by
  have hcommon (args : List TypeId) : Join.common w.isSubtype w env' join args =
      Join.common w.isSubtype w env join args := by
    simp only [Join.common, Join.merge, h.mergeColumns]
  simp only [Join.joinShort, Join.joinDistinct, h.isSubtype, hcommon, h.minimal, h.createUnion,
    h.createIntersection]

private theorem joinFrom (room : Nat) :
    Join.joinFrom w.isSubtype w env' room = Join.joinFrom w.isSubtype w env room := by
  induction room with
  | zero => rfl
  | succ room ih =>
    funext types
    simp only [Join.joinFrom, h.simplify, h.joinShort, ih]

theorem joinTypes (types : List TypeId) :
    joinTypes w.isSubtype w env' types = joinTypes w.isSubtype w env types := by
  rw [ScriptTyping.joinTypes, join, h.joinFrom, ScriptTyping.joinTypes, join]

private theorem widenLiteralsFrom (fuel : Nat) :
    widenLiteralsFrom w.isSubtype w env' fuel = widenLiteralsFrom w.isSubtype w env fuel := by
  induction fuel with
  | zero => rfl
  | succ fuel ih =>
    funext t
    simp only [ScriptTyping.widenLiteralsFrom, ih, h.createUnion]

theorem widenLiterals (t : TypeId) :
    widenLiterals w.isSubtype w env' t = widenLiterals w.isSubtype w env t := by
  simp only [ScriptTyping.widenLiterals, h.widenLiteralsFrom]

theorem sanitizeDeclared (t : TypeId) (widen : Bool) :
    sanitizeDeclared w.isSubtype w env' t widen = sanitizeDeclared w.isSubtype w env t widen := by
  simp only [ScriptTyping.sanitizeDeclared, h.widenLiterals]

theorem inferTypeArguments (signature : Signature) (written argTypes : List TypeId) :
    TypeArguments.infer w w.isSubtype env' signature written argTypes =
      TypeArguments.infer w w.isSubtype env signature written argTypes := by
  have hchoose (param : DeclId) (candidates : List TypeId) :
      TypeArguments.choose w w.isSubtype env' param candidates =
        TypeArguments.choose w w.isSubtype env param candidates := by
    simp only [TypeArguments.choose, funext (h.widenLiterals w), h.joinTypes]
  simp only [TypeArguments.infer, hchoose]

/-! ### Members and signatures -/

theorem instantiateFor (receiver t : TypeId) :
    w.instantiateFor env' receiver t = w.instantiateFor env receiver t := by
  rw [World.instantiateFor, World.instantiateFor, World.receiverScope_eq, World.receiverScope_eq,
    bind_map_left, bind_map_left]
  refine bind_congr fun bindings => ?_
  rw [((h.wrap.extend bindings).setThis receiver).substitute]

theorem signatureMember? (receiver : TypeId) (flag : Flag) :
    w.signatureMember? env' receiver flag = w.signatureMember? env receiver flag := by
  simp only [World.signatureMember?, h.instantiateFor]

private theorem resolveCallableFrom (fuel : Nat) :
    w.resolveCallableFrom env' fuel = w.resolveCallableFrom env fuel := by
  induction fuel with
  | zero => rfl
  | succ fuel ih =>
    funext t
    simp only [World.resolveCallableFrom, h.substitute, h.signatureMember?, ih]

theorem resolveCallable? (t : TypeId) : w.resolveCallable? env' t = w.resolveCallable? env t := by
  rw [World.resolveCallable?, h.resolveCallableFrom, World.resolveCallable?]

private theorem classConstructor? (instanceType : TypeId) :
    w.classConstructor? env' instanceType = w.classConstructor? env instanceType := by
  simp only [World.classConstructor?, World.constructorSignature?, h.instantiateFor]

private theorem resolveConstructibleFrom (fuel : Nat) :
    w.resolveConstructibleFrom env' fuel = w.resolveConstructibleFrom env fuel := by
  induction fuel with
  | zero => rfl
  | succ fuel ih =>
    funext t
    simp only [World.resolveConstructibleFrom, h.substitute, h.signatureMember?,
      h.classConstructor?, ih]

theorem resolveConstructible? (t : TypeId) :
    w.resolveConstructible? env' t = w.resolveConstructible? env t := by
  rw [World.resolveConstructible?, h.resolveConstructibleFrom, World.resolveConstructible?]

/-! ### Computations of the judgment -/

variable (p : Program)

theorem union (members : List TypeId) : p.union env' members = p.union env members :=
  h.createUnion p.world members

theorem join (types : List TypeId) : p.join env' types = p.join env types :=
  h.joinTypes p.world types

theorem widen (t : TypeId) : p.widen env' t = p.widen env t :=
  h.widenLiterals p.world t

theorem sanitize (t : TypeId) (widen : Bool) : p.sanitize env' t widen = p.sanitize env t widen :=
  h.sanitizeDeclared p.world t widen

theorem additionType (left right : TypeId) :
    p.additionType env' left right = p.additionType env left right := by
  simp only [Program.additionType, h.union]

private theorem iterableElementFrom (isAsync : Bool) (room : Nat) :
    p.iterableElementFrom env' isAsync room = p.iterableElementFrom env isAsync room := by
  induction room with
  | zero => rfl
  | succ room ih =>
    funext t
    simp only [Program.iterableElementFrom, h.union, ih]

theorem iterableElement? (t : TypeId) (isAsync : Bool) :
    p.iterableElement? env' t isAsync = p.iterableElement? env t isAsync := by
  rw [Program.iterableElement?, h.iterableElementFrom, Program.iterableElement?]

theorem numericElement? (receiver index : TypeId) :
    p.numericElement? env' receiver index = p.numericElement? env receiver index := by
  simp only [Program.numericElement?, Program.isNumberIndex, Program.relation, h.isSubtype,
    h.instantiateFor]

theorem promiseOfCallback? (signature : Signature) :
    p.promiseOfCallback? env' signature = p.promiseOfCallback? env signature := by
  have hvalue (results : List TypeId) :
      p.promisedValue env' results = p.promisedValue env results := by
    unfold Program.promisedValue
    split
    · rfl
    · rfl
    · rw [h.union]
  simp only [Program.promiseOfCallback?, Program.isErrorType, Program.relation, h.isSubtype, hvalue]

theorem superType (n : NodeId) : p.superType env' n = p.superType env n := by
  simp only [Program.superType, h.resolveConstructible?]

theorem joinOr (absent : TypeId) (types : List TypeId) :
    p.joinOr env' absent types = p.joinOr env absent types := by
  rw [Program.joinOr, h.join, Program.joinOr]

end Environment.Relaxes

end ScriptTyping
