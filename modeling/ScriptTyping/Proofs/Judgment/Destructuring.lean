import ScriptTyping.Proofs.Judgment.Frame
import ScriptTyping.Proofs.Termination.Resolution
import ScriptTyping.Proofs.Tree.PatternPath

/-!
# Destructuring replays the path of a pattern

The type of a variable inside a pattern is that of the value which the pattern takes apart, taken
apart by the steps that lead from the pattern down to the variable.  A value that is unknown stays
unknown under every step, so it does not matter when the walk notices it.  The default of the
variable has its turn at the end only.

## Main definitions

* `Program.replayStep` — one step, where unknown stays unknown.
* `Program.orDefault` — the default of a variable, for a part that is missing.

## Main results

* `Program.destructure_eq_foldlM` — taking a value apart is a fold over the steps.
* `Program.destructuredType_replays` — the type of a variable by the way down to it, unknown if
  there is none.
-/

namespace ScriptTyping

/-- Two ways to go on that agree on what the first part returns. -/
theorem InferM.bind_congr_run {α β : Type} {x : InferM α} {f g : α → InferM β} {s : Memory}
    (h : ∀ a s₁, x s = .ok a s₁ → f a s₁ = g a s₁) : (x >>= f) s = (x >>= g) s := by
  change EStateM.bind x f s = EStateM.bind x g s
  rw [EStateM.bind, EStateM.bind]
  cases hx : x s with
  | ok a s₁ => exact h a s₁ hx
  | error e s₁ => rfl

/-- The same way to go on after two first parts that do the same. -/
theorem InferM.bind_run_congr {α β : Type} {x y : InferM α} {f : α → InferM β} {s : Memory}
    (h : x s = y s) : (x >>= f) s = (y >>= f) s := by
  change EStateM.bind x f s = EStateM.bind y f s
  rw [EStateM.bind, EStateM.bind, h]

namespace Program

variable (p : Program) (judge : Judge) (env : Environment)

/-- Takes a value apart by one step, where unknown stays unknown. -/
def replayStep (value : TypeId) (step : PatternStep) : InferM TypeId :=
  if value.isUnknown then pure value else p.destructureStep judge env value step

/-- The default of a variable in place of a part that is unknown or `undefined`. -/
def orDefault (n : NodeId) (value : TypeId) : InferM TypeId :=
  match p.defaultOf? n with
  | some fallback =>
    if value.isUnknown || value == .undefined then judge.node env fallback else pure value
  | none => pure value

variable {p judge env} {s : Memory} {T : TypeTable}

/-! ### What is unknown -/

theorem findInstantiation?_unknown {w : World} (hinit : .initial ≤ T) (decl : DeclId) :
    w.findInstantiation? .unknown decl T = .ok none T := by
  have hlookup : T.lookup .unknown = .unknown := TypeTable.lookup_of_le hinit (by decide)
  have habove : w.supertypes .unknown T = .ok [.unknown] T := by
    have hdirect : w.directSupertypes .unknown T = .ok [] T := by
      rw [World.directSupertypes, TypeM.bind_of_ok (TypeM.lookup_run _ T), hlookup]
      rfl
    have hround : w.supertypes .unknown = w.supertypesFrom (510 + 1 + 1) [] [.unknown] := rfl
    rw [hround, World.supertypesFrom, if_pos (by decide), TypeM.bind_of_ok hdirect]
    rfl
  rw [World.findInstantiation?, TypeM.bind_of_ok habove]
  change EStateM.Result.ok _ _ = _
  simp [hlookup]

/-- What is unknown has no elements. -/
theorem iterableElement?_unknown (hinit : .initial ≤ T) :
    p.iterableElement? env .unknown false T = .ok none T := by
  have hlookup : T.lookup .unknown = .unknown := TypeTable.lookup_of_le hinit (by decide)
  have hargument : p.argumentOf? .unknown p.world.builtins.iterable T = .ok none T := by
    rw [argumentOf?, TypeM.bind_of_ok (findInstantiation?_unknown hinit _)]
    rfl
  have hinherited : p.inheritedElement? .unknown false T = .ok none T := by
    rw [inheritedElement?, if_pos (by decide)]
    exact hargument
  rw [iterableElement?, iterationDepth, iterableElementFrom,
    TypeM.bind_of_ok (Subtyping.resolveAlias_of_reserved hinit (by decide)),
    TypeM.bind_of_ok (TypeM.lookup_run _ T), hlookup]
  exact hinherited

/-- What is unknown has no members. -/
theorem memberValue?_unknown (hinit : .initial ≤ s.types) (hfuel : 0 < p.world.fuel)
    (name : Symbol) : p.memberValue? judge env .unknown name s = .ok none s := by
  have hlookup : s.types.lookup .unknown = .unknown := TypeTable.lookup_of_le hinit (by decide)
  have hshape : shapeMember? .unknown name s.types = .ok none s.types := by
    rw [shapeMember?, TypeM.bind_of_ok (TypeM.lookup_run _ _), hlookup]
    rfl
  have hmember : p.memberOf? .unknown name s.types = .ok none s.types := by
    rw [memberOf?, TypeM.bind_of_ok (TypeM.lookup_run _ _)]
    exact World.resolveMember?_of_memberless hfuel hinit (.inl rfl) _
  rw [memberValue?, InferM.bind_of_ok (InferM.liftM_of_ok hshape)]
  exact InferM.bind_of_ok (InferM.liftM_of_ok hmember)

/-- What is unknown stays unknown. -/
theorem destructureStep_unknown (hinit : .initial ≤ s.types) (hfuel : 0 < p.world.fuel)
    (step : PatternStep) : p.destructureStep judge env .unknown step s = .ok .unknown s := by
  have hlookup : s.types.lookup .unknown = .unknown := TypeTable.lookup_of_le hinit (by decide)
  cases step with
  | element isRest =>
    have hread : (liftM (TypeM.lookup .unknown) : InferM TypeData) s = .ok .unknown s :=
      InferM.liftM_of_ok (hlookup ▸ TypeM.lookup_run _ _)
    have hnone : (liftM (p.iterableElement? env .unknown false) : InferM _) s = .ok none s :=
      InferM.liftM_of_ok (iterableElement?_unknown hinit)
    rw [destructureStep, if_neg (by decide)]
    dsimp only
    rw [InferM.bind_of_ok hread]
    exact InferM.bind_of_ok hnone
  | property name =>
    have hupper : (liftM (TypeM.upperBound .unknown) : InferM TypeId) s = .ok .unknown s :=
      InferM.liftM_of_ok (TypeM.upperBound_of_unbounded (hlookup ▸ rfl) (hlookup ▸ rfl))
    rw [destructureStep, if_neg (by decide), InferM.bind_of_ok hupper,
      InferM.bind_of_ok (memberValue?_unknown hinit hfuel name)]
    rfl

/-! ### The fold -/

theorem foldlM_replayStep_unknown (steps : List PatternStep) :
    steps.foldlM (p.replayStep judge env) .unknown = pure .unknown := by
  induction steps with
  | nil => rfl
  | cons step steps ih =>
    rw [List.foldlM_cons, replayStep, if_pos (by decide), pure_bind, ih]

/-- A value that is known is taken apart step by step, until it is unknown. -/
theorem destructure_of_known {value : TypeId} (h : value.isUnknown = false)
    (steps : List PatternStep) :
    p.destructure judge env value steps = steps.foldlM (p.replayStep judge env) value := by
  induction steps generalizing value with
  | nil => rfl
  | cons step steps ih =>
    rw [destructure, List.foldlM_cons, replayStep, h]
    refine bind_congr fun part => ?_
    cases hpart : part.isUnknown with
    | true =>
      obtain rfl : part = .unknown := by simpa [TypeId.isUnknown] using hpart
      rw [foldlM_replayStep_unknown]
      rfl
    | false => exact ih hpart

/-- Taking a value apart is a fold over the steps. -/
theorem destructure_eq_foldlM (hinit : .initial ≤ s.types) (hfuel : 0 < p.world.fuel)
    (value : TypeId) (steps : List PatternStep) :
    p.destructure judge env value steps s = steps.foldlM (p.replayStep judge env) value s := by
  cases hvalue : value.isUnknown with
  | false => rw [destructure_of_known hvalue]
  | true =>
    obtain rfl : value = .unknown := by simpa [TypeId.isUnknown] using hvalue
    cases steps with
    | nil => rfl
    | cons step steps =>
      rw [foldlM_replayStep_unknown, destructure,
        InferM.bind_of_ok (destructureStep_unknown hinit hfuel step)]
      rfl

/-! ### Variables -/

/-- Inferring the value that a pattern takes apart changes the memory like every inference. -/
theorem bindingSource_framed {room : Nat} {path : PatternPath} {t : TypeId} {s' : Memory}
    (h : p.bindingSource (p.judge room) env path s = .ok t s') : s.Framed p s' := by
  refine ((Correspondence.framed p).bindingSource p.mirror_framed (p.asks_framed room) env
    (fun _ _ => trivial) (.inl ?_) s t s' h).1
  rw [Content.map_relocate_id]

theorem destructuredType_of_path {n : NodeId} {path : PatternPath}
    (h : p.tree.patternPath? n = some path) : p.destructuredType judge env n = (do
      let source ← p.bindingSource judge env path
      let value ← p.destructure judge env source path.steps
      p.orDefault judge env n value) := by
  rw [destructuredType, h]
  rfl

/-- A variable that a binding's pattern leads to takes the value of the binding, taken apart by the
steps that lead there, or its default in place of an unknown or `undefined` part.  A variable whose
elements and patterns do not lead up to a binding is unknown. -/
theorem destructuredType_replays (p : Program) (hfuel : 0 < p.world.fuel) (hbuilt : p.tree.Built)
    (hup : p.tree.BottomUp) (room : Nat) (env : Environment) :
    (∀ {binding pattern initializer steps n}, p.content? binding =
        some (.variableBinding (some pattern) initializer) → p.tree.Adopts binding pattern →
      p.tree.Leads pattern steps n → ∀ s : Memory, .initial ≤ s.types →
        p.destructuredType (p.judge room) env n s = (do
          let source ← p.bindingSource (p.judge room) env ⟨binding, initializer, steps⟩
          let value ← steps.foldlM (p.replayStep (p.judge room) env) source
          p.orDefault (p.judge room) env n value) s) ∧
    ∀ n, (∀ element, p.tree.parent? n = some element → ¬ p.tree.InBinding element) →
      p.destructuredType (p.judge room) env n = pure .unknown := by
  constructor
  · intro binding pattern initializer steps n hbinding hadopts hleads s hinit
    have hpath := Tree.patternPath?_of_leads hbuilt hup hbinding hadopts hleads
    rw [destructuredType_of_path hpath]
    refine InferM.bind_congr_run fun source s₁ hsource => ?_
    have hlater := le_trans hinit (bindingSource_framed hsource).types
    exact InferM.bind_run_congr (destructure_eq_foldlM hlater hfuel source steps)
  · intro n hchain
    have hpath : p.tree.patternPath? n = none := by
      cases hparent : p.tree.parent? n with
      | none => rw [Tree.patternPath?, hparent]; rfl
      | some element =>
        rw [Tree.patternPath?, hparent]
        refine Option.eq_none_iff_forall_ne_some.mpr fun path h => ?_
        exact hchain element hparent (Tree.inBinding_of_patternPathFrom h)
    rw [destructuredType, hpath]

/-- A table with the shape of the objects whose property `k` is a string. -/
def shapeTable : TypeTable :=
  TypeTable.initial.store (.structural [⟨⟨1⟩, .string, false, none⟩])

theorem initial_le_shapeTable : .initial ≤ shapeTable :=
  TypeTable.le_store (TypeTable.handles_initial_of_ne (by decide))

/-- The pattern `{k: [y = null]}` for an object of that shape. -/
def nestedPattern : Program where
  world.declarations := ⟨#[{ kind := .var, name := .none, declaredType := some ⟨16⟩ }]⟩
  world.builtins := default
  world.fuel := 1
  tree := .ofContents [.identifier .none (some ⟨1⟩), .nullLiteral,
    .variableDecl none none (some ⟨1⟩) false, .bindingElement (some ⟨2⟩) false,
    .arrayPattern [some ⟨3⟩], .bindingElement (some ⟨4⟩) false,
    .bindingProperty ⟨1⟩ (some ⟨5⟩), .objectPattern [some ⟨6⟩],
    .variableBinding (some ⟨7⟩) (some ⟨0⟩)]
  flow := .empty
  options := {}

/-- The property `k` is a string, whose elements are strings, so that the default has no turn; the
binding itself is no variable of a pattern. -/
theorem destructuredType_replays_nestedPattern :
    nestedPattern.destructuredType (nestedPattern.judge 2) .empty ⟨2⟩ ⟨shapeTable, .empty, 0⟩ =
      .ok .string ⟨shapeTable, .empty, 0⟩ ∧
    nestedPattern.destructuredType (nestedPattern.judge 2) .empty ⟨8⟩ = pure .unknown := by
  obtain ⟨hreplays, hunknown⟩ := nestedPattern.destructuredType_replays (by decide)
    (Tree.built_ofContents _) (by decide) 2 .empty
  -- From the variable up to the binding, every node is held by the next one only.
  have hadopts : ∀ i < 8, 2 ≤ i → nestedPattern.tree.Adopts ⟨i + 1⟩ ⟨i⟩ := by decide
  have hinner : nestedPattern.tree.Leads ⟨4⟩ [.element false] ⟨2⟩ :=
    .last (.element rfl (hadopts 3 (by decide) (by decide)) rfl
      (hadopts 2 (by decide) (by decide)))
  have hleads : nestedPattern.tree.Leads ⟨7⟩ [.property ⟨1⟩, .element false] ⟨2⟩ :=
    .inner (.property rfl (hadopts 6 (by decide) (by decide)) rfl
      (hadopts 5 (by decide) (by decide)) rfl
      (hadopts 4 (by decide) (by decide))) hinner
  have hreplayed := hreplays rfl (hadopts 7 (by decide) (by decide)) hleads
    ⟨shapeTable, .empty, 0⟩ initial_le_shapeTable
  refine ⟨hreplayed.trans rfl, ?_⟩
  exact hunknown ⟨8⟩ fun element helement => by cases helement

end Program

end ScriptTyping
