import ScriptTyping.Proofs.Agreement.Judgment
import ScriptTyping.Proofs.Judgment.MemoCells
import ScriptTyping.Proofs.Tree.Reading

/-!
# Corresponding runs of two programs

Inference on one program is compared with inference on another one, rule by rule.  A
`Correspondence` is a relation between inferences that sequencing, computations over types, and
reading and writing memo cells respect.  A `Mirror` says what two programs have to share: the worlds
are alike but for hidden elements, and the trees read the same for the rules, except that the
children of a node may stand at other places.  Comparing a program with itself gives properties of
single runs.

## Main definitions

* `Correspondence` — a relation between inferences.
* `Interchangeable` — two types that are the same once their aliases are resolved.
* `Mirror` — two programs whose rules read the same.
* `Correspondence.Asks` — two judges give corresponding answers.
-/

namespace ScriptTyping

/-- A relation between inferences that the steps of the rules respect. -/
structure Correspondence (v : Veil) extends RunLogic InferM where
  lift : ∀ {α β : Type} {V : α → β → Prop} {z : TypeM α} {z' : TypeM β},
    TypeM.Agrees v z z' V → rel (liftM z) (liftM z') V
  noteFallback : rel InferM.noteFallback InferM.noteFallback Eq
  fallbackCount : rel InferM.fallbackCount InferM.fallbackCount Eq
  memoized? : ∀ d, rel (InferM.memoized? d) (InferM.memoized? d) Eq
  /-- The declarations whose memo cells may be written. -/
  writable : DeclId → Prop
  memoize : ∀ d t, writable d → rel (InferM.memoize d t) (InferM.memoize d t) Eq

/-- Two types that every rule which resolves aliases takes for the same. -/
structure Interchangeable (v : Veil) (p p' : Program) (t t' : TypeId) : Prop where
  callable : ∀ env, TypeM.Agrees v (p.world.resolveCallable? env t)
    (p'.world.resolveCallable? env t') fun callable callable' =>
      callable = callable' ∧ (callable = none → (t = .dynamicAny ↔ t' = .dynamicAny))
  constructible : ∀ env, TypeM.Agrees v (p.world.resolveConstructible? env t)
    (p'.world.resolveConstructible? env t') Eq
  indexed : TypeM.Agrees v (TypeM.upperBound t >>= p.world.resolveAlias)
    (TypeM.upperBound t' >>= p'.world.resolveAlias) Eq
  iterable : ∀ env isAsync, TypeM.Agrees v (p.iterableElement? env t isAsync)
    (p'.iterableElement? env t' isAsync) Eq

theorem Interchangeable.refl {v : Veil} {p p' : Program} (h : p.world.AlikeBut v p'.world)
    (t : TypeId) : Interchangeable v p p' t t where
  callable env := (World.agrees_resolveCallable? h env t).mono fun _ _ hcallable =>
    ⟨hcallable, fun _ => .rfl⟩
  constructible env := World.agrees_resolveConstructible? h env t
  indexed := (TypeM.agrees_upperBound t).bindEq fun upper => World.agrees_resolveAlias h upper
  iterable env isAsync := Program.agrees_iterableElement? h env t isAsync

/-- A child of a node in two trees: it is the same in both, or has a shape that does not matter to
the node. -/
def Content.Shows (f : NodeId → NodeId) (c : Content) (child child' : Option Content) : Prop :=
  child' = child.map (relocate f) ∨
    ∃ d d', child = some d ∧ child' = some d' ∧ c.inspects d = false ∧ c.inspects d' = false

/-- The shapes that matter to a node are the same in both trees. -/
theorem Content.Shows.cases {f : NodeId → NodeId} {c : Content} {child child' : Option Content}
    (h : c.Shows f child child') :
    child = none ∧ child' = none ∨
    (∃ d, child = some d ∧ child' = some (d.relocate f) ∧ c.inspects d = true) ∨
    ∃ d d', child = some d ∧ child' = some d' ∧ c.inspects d = false ∧ c.inspects d' = false := by
  rcases h with rfl | h
  · cases child with
    | none => exact .inl ⟨rfl, rfl⟩
    | some d =>
      cases hd : c.inspects d with
      | true => exact .inr (.inl ⟨d, rfl, rfl, hd⟩)
      | false => exact .inr (.inr ⟨d, _, rfl, rfl, hd, (inspects_relocate f c d).trans hd⟩)
  · exact .inr (.inr h)

/-- Whether a node declares variables in a way of its own: as a pattern or a loop. -/
def Content.bindsVariables : Content → Bool
  | bindingElement .. | forLoop .. => true
  | _ => false

/-- The node around a variable in two trees: it is the same in both, or declares no variables in a
way of its own. -/
def Content.Surrounds (f : NodeId → NodeId) (around around' : Option Content) : Prop :=
  around' = around.map (relocate f) ∨
    ∃ c c', around = some c ∧ around' = some c' ∧ c.bindsVariables = false ∧
      c'.bindsVariables = false

/-- A predicate of the node in a slot. -/
def Slot.Satisfies (P : NodeId → Prop) (slot : Slot) : Prop := ∀ n, slot = some n → P n

/-- The exits of a body in two trees. -/
structure Exits.Matches (p : Program) (f : NodeId → NodeId) (judged asked : NodeId → Prop)
    (exits exits' : Exits) : Prop where
  returns : exits'.returns = exits.returns.map f
  yields : exits'.yields = exits.yields
  askedReturns : ∀ n ∈ exits.returns, asked n
  judgedYields : ∀ n ∈ exits.yields, judged n ∧
    ∃ expression isDelegate, p.content? n = some (.yieldExpr expression isDelegate)

/-- Two programs read the same for the rules, with the children of nodes moved by `f`.  The nodes
that are `judged` have the same rule in both programs.  Those that are `asked` for have the same
type; those that are `resolved` may have interchangeable ones. -/
structure Mirror {v : Veil} (C : Correspondence v) (p p' : Program) (f : NodeId → NodeId)
    (judged asked resolved : NodeId → Prop) : Prop where
  world : p.world.AlikeBut v p'.world
  flow : p'.flow = p.flow
  options : p'.options = p.options
  -- The children of a node.
  content : ∀ {n c}, judged n → p.content? n = some c → p'.content? n = some (c.relocate f)
  inspected : ∀ {n c slot}, judged n → p.content? n = some c → slot ∈ c.inspected →
    c.Shows f (p.contentAt? slot) (p'.contentAt? (slot.map f))
  operands : ∀ {n c slot}, judged n → p.content? n = some c → slot ∈ c.operands →
    slot.Satisfies asked
  receiver? : ∀ {n c}, p.content? n = some c → c.receiver?.Satisfies resolved
  initializer? : ∀ {n c}, judged n → p.content? n = some c →
    c.initializer?.Satisfies fun m => asked m ∧ f m = m
  elements : ∀ {n elements slot m c}, judged n → p.content? n = some (.arrayLiteral elements) →
    slot ∈ elements → slot = some m → p.content? m = some c →
    Content.inspects (.arrayLiteral elements) c = false → asked m
  properties : ∀ {n properties m c}, judged n → p.content? n = some (.objectLiteral properties) →
    some m ∈ properties → p.content? m = some c →
    Content.inspects (.objectLiteral properties) c = true →
    asked m ∧ f m = m ∧ ∀ d ∈ c.referents, ¬v.hidden d
  calls : ∀ {n c slot}, judged n → p.content? n = some c → slot ∈ c.inspected →
    slot.Satisfies fun m => ∀ {target typeArgs args},
      p.content? m = some (.call target typeArgs args) → judged m
  -- What stands around a node.
  isWriteAccess : ∀ {n c}, judged n → p.content? n = some c →
    p'.tree.isWriteAccess n = p.tree.isWriteAccess n
  enclosingClassifier? : ∀ {n c}, judged n → p.content? n = some c →
    p'.enclosingClassifier? n = p.enclosingClassifier? n
  enclosingClass? : ∀ {n c}, judged n → p.content? n = some c →
    p'.enclosingClass? n = p.enclosingClass? n
  isStaticMember : ∀ n, p'.isStaticMember n = p.isStaticMember n
  isConstructor : ∀ n, p'.isConstructor n = p.isConstructor n
  superUse : ∀ {n}, judged n → p.content? n = some .superExpr → p'.superUse n = p.superUse n
  isAwaited : ∀ {n target typeArgs args}, judged n →
    p.content? n = some (.call target typeArgs args) → p'.isAwaited n = p.isAwaited n
  enclosingFunction? : ∀ {n c}, judged n → p.content? n = some c →
    ((p'.tree.enclosingFunction? n true).bind p'.content?).bind Content.declared? =
      ((p.tree.enclosingFunction? n true).bind p.content?).bind Content.declared? ∧
    ∀ d, ((p.tree.enclosingFunction? n true).bind p.content?).bind Content.declared? = some d →
      ¬v.hidden d
  -- Patterns and loops that declare variables.
  parent? : ∀ {n decl declared initializer isImmutable}, judged n →
    p.content? n = some (.variableDecl decl declared initializer isImmutable) →
    p'.tree.parent? n = p.tree.parent? n ∧
      ∀ q, p.tree.parent? n = some q → Content.Surrounds f (p.content? q) (p'.content? q)
  patternPath? : ∀ {n decl declared initializer isImmutable}, judged n →
    p.content? n = some (.variableDecl decl declared initializer isImmutable) →
    p'.tree.patternPath? n = (p.tree.patternPath? n).map (fun path =>
      { path with initializer := path.initializer.map f }) ∧
      ∀ path, p.tree.patternPath? n = some path → path.initializer.Satisfies asked ∧
        Content.Surrounds f (p.contentAt? (p.tree.parent? path.binding))
          (p'.contentAt? (p'.tree.parent? path.binding))
  -- Walks through the tree that may not end.
  isEmptyArray : ∀ {n c slot}, judged n → p.content? n = some c → slot ∈ c.slots →
    C.rel (liftM (p.isEmptyArray slot)) (liftM (p'.isEmptyArray (slot.map f))) Eq
  hasThisReceiver : ∀ {n c slot}, judged n → p.content? n = some c → slot ∈ c.slots →
    C.rel (liftM (p.hasThisReceiver slot)) (liftM (p'.hasThisReceiver (slot.map f))) Eq
  constant? : ∀ {n c slot}, judged n → p.content? n = some c → slot ∈ c.slots →
    C.rel (liftM (p.constant? slot)) (liftM (p'.constant? (slot.map f))) Eq
  exits? : ∀ {d info owner}, p.decl? d = some info → info.node = some owner →
    C.rel (liftM (TypeM.ofOption (p.tree.exits? owner)))
      (liftM (TypeM.ofOption (p'.tree.exits? owner))) (Exits.Matches p f judged asked)
  -- What is asked from outside of the tree.
  tested : ∀ {reference guard}, guard ∈ p.flow.guardsAt reference →
    ∀ n ∈ guard.typeRefs, asked n
  declared : ∀ {d info n}, p.decl? d = some info → info.kind.isTypedElement = true →
    info.node = some n → asked n
  writable : ∀ {d info}, p.decl? (p.world.declarations.canonical d) = some info →
    info.isInferred = true → C.writable (p.world.declarations.canonical d)

namespace Correspondence

variable {v : Veil} {C : Correspondence v} {p p' : Program} {f : NodeId → NodeId}
  {judged asked resolved : NodeId → Prop} {judge judge' : Judge} {α β γ δ : Type}

/-- Two judges give corresponding answers, for nodes that are moved and for nodes that are not. -/
structure Asks (C : Correspondence v) (p p' : Program) (f : NodeId → NodeId)
    (asked resolved : NodeId → Prop) (judge judge' : Judge) : Prop where
  node : ∀ env n, asked n → C.rel (judge.node env n) (judge'.node env (f n)) Eq
  direct : ∀ env n, asked n → C.rel (judge.node env n) (judge'.node env n) Eq
  receiver : ∀ env n, resolved n →
    C.rel (judge.node env n) (judge'.node env (f n)) (Interchangeable v p p')
  decl : ∀ env d, ¬v.hidden d → C.rel (judge.decl env d) (judge'.decl env d) Eq

theorem bindLift {V : α → β → Prop} {W : γ → δ → Prop} {z : TypeM α} {z' : TypeM β}
    {g : α → InferM γ} {g' : β → InferM δ} (hz : TypeM.Agrees v z z' V)
    (hg : ∀ a b, V a b → C.rel (g a) (g' b) W) : C.rel (liftM z >>= g) (liftM z' >>= g') W :=
  C.bind (C.lift hz) hg

theorem bindLiftEq {W : γ → δ → Prop} {z z' : TypeM α} {g : α → InferM γ} {g' : α → InferM δ}
    (hz : TypeM.Agrees v z z' Eq) (hg : ∀ a, C.rel (g a) (g' a) W) :
    C.rel (liftM z >>= g) (liftM z' >>= g') W :=
  C.bindEq (C.lift hz) hg

/-- Reading a row. -/
theorem bindLookup {W : γ → δ → Prop} {t : TypeId} {g : TypeData → InferM γ}
    {g' : TypeData → InferM δ} (hg : ∀ data, data.Hides v → C.rel (g data) (g' data) W) :
    C.rel (liftM (TypeM.lookup t) >>= g) (liftM (TypeM.lookup t) >>= g') W := by
  have hlookup : TypeM.Agrees v (TypeM.lookup t) (TypeM.lookup t)
      fun a b => a = b ∧ a.Hides v := by
    rw [← bind_pure (TypeM.lookup t)]
    exact .lookup fun data hdata => .pure ⟨rfl, hdata⟩
  refine C.bindLift hlookup ?_
  rintro data _ ⟨rfl, hdata⟩
  exact hg data hdata

theorem slot (J : C.Asks p p' f asked resolved judge judge') (env : Environment) {slot : Slot}
    (h : slot.Satisfies asked) : C.rel (judge.slot env slot) (judge'.slot env (slot.map f)) Eq := by
  cases slot with
  | none => exact C.same _
  | some n => exact J.node env n (h n rfl)

theorem receiverSlot (M : Mirror C p p' f judged asked resolved)
    (J : C.Asks p p' f asked resolved judge judge') (env : Environment) {slot : Slot}
    (h : slot.Satisfies resolved) :
    C.rel (judge.slot env slot) (judge'.slot env (slot.map f)) (Interchangeable v p p') := by
  cases slot with
  | none => exact C.return' (.refl M.world _)
  | some n => exact J.receiver env n (h n rfl)

theorem slots (J : C.Asks p p' f asked resolved judge judge') (env : Environment)
    {slots : List Slot} (h : ∀ slot ∈ slots, slot.Satisfies asked) :
    C.rel (slots.mapM (judge.slot env)) ((slots.map (·.map f)).mapM (judge'.slot env)) Eq := by
  rw [List.mapM_map]
  exact C.mapMEq slots fun s hs => C.slot J env (h s hs)

/-- A guard is set for both inferences or for none. -/
theorem guarded (env : Environment) (key : GuardKey) {g g' : Environment → InferM TypeId}
    (h : C.rel (g (env.withGuard key)) (g' (env.withGuard key)) Eq) :
    C.rel (Program.guarded env key g) (Program.guarded env key g') Eq := by
  unfold Program.guarded
  split
  · exact C.bindEq C.noteFallback fun _ => C.same _
  · exact h

end Correspondence

end ScriptTyping
