import ScriptTyping.Proofs.Judgment.Traversal.Members

/-!
# Typed elements on two programs

Fields, variables and parameters read the nodes around them, which look the same in both programs as
far as patterns and loops are concerned.

## Main results

* `Program.bindingSource_of_plain`, `Program.variableType_of_plain` — below a node that declares no
  variables in a way of its own.
* `Correspondence.destructuredType` — variables inside a pattern.
* `Correspondence.variableType`, `Correspondence.fieldType`, `Correspondence.parameterType`
-/

namespace ScriptTyping

/-! ### Nodes that declare no variables in a way of their own -/

namespace Program

variable {p : Program} {judge : Judge} {env : Environment} {c : Content}

/-- Below such a node there is nothing to take apart but an initializer. -/
theorem bindingSource_of_plain {path : PatternPath} (hinitializer : path.initializer = none)
    (hc : p.contentAt? (p.tree.parent? path.binding) = some c) (hplain : c.bindsVariables = false) :
    p.bindingSource judge env path = pure .unknown := by
  rcases p.bindingSource_cases path with ⟨n, hn, -⟩ |
    ⟨-, ⟨isAwait, declarations, expression, body, hloop, -⟩ | ⟨-, hsource⟩⟩
  · cases hinitializer.symm.trans hn
  · cases hc.symm.trans hloop
    cases hplain
  · exact hsource judge env

/-- Below such a node a variable takes the type of its own initializer. -/
theorem variableType_of_plain {n q : NodeId} {initializer : Slot} {isImmutable : Bool}
    (hdynamic : p.options.isDynamic = false) (hq : p.tree.parent? n = some q)
    (hc : p.content? q = some c) (hplain : c.bindsVariables = false) :
    p.variableType judge env n none initializer isImmutable =
      p.initializedVariableType judge env initializer !isImmutable := by
  simp only [variableType, hdynamic, hq, hc, Bool.false_eq_true, if_false]
  cases c with
  | bindingElement | forLoop => cases hplain
  | _ => rfl

end Program

namespace Correspondence

variable {v : Veil} {C : Correspondence v} {p p' : Program} {f : NodeId → NodeId}
  {judged asked resolved : NodeId → Prop} {judge judge' : Judge}

/-! ### Initializers and patterns -/

theorem initializerType (M : Mirror C p p' f judged asked resolved)
    (J : C.Asks p p' f asked resolved judge judge') (env : Environment) {initializer : Slot}
    (h : initializer.Satisfies fun m => asked m ∧ f m = m) (widen : Bool) :
    C.rel (p.initializerType judge env initializer widen)
      (p'.initializerType judge' env (initializer.map f) widen) Eq := by
  cases initializer with
  | none => exact C.same _
  | some m =>
    obtain ⟨hm, hfixed⟩ := h m rfl
    simp only [Program.initializerType, Option.map_some, hfixed]
    refine C.guarded env _ (C.bindEq (J.direct _ m hm) fun t => ?_)
    exact C.lift (Program.agrees_sanitize M.world env t widen)

theorem bindingSource (M : Mirror C p p' f judged asked resolved)
    (J : C.Asks p p' f asked resolved judge judge') (env : Environment) {path : PatternPath}
    (hinitializer : path.initializer.Satisfies asked)
    (haround : Content.Surrounds f (p.contentAt? (p.tree.parent? path.binding))
      (p'.contentAt? (p'.tree.parent? path.binding))) :
    C.rel (p.bindingSource judge env path)
      (p'.bindingSource judge' env { path with initializer := path.initializer.map f }) Eq := by
  obtain ⟨binding, initializer, steps⟩ := path
  cases initializer with
  | some m => exact J.node env m (hinitializer m rfl)
  | none =>
    dsimp only [Option.map_none] at haround ⊢
    rcases haround with haround | ⟨c, c', hc, hc', hplain, hplain'⟩
    · unfold Program.bindingSource
      dsimp only
      rw [haround]
      cases hc : p.contentAt? (p.tree.parent? binding) with
      | none => exact C.same _
      | some c =>
        cases c with
        | forLoop kind declarations expression body =>
          cases kind with
          | overElements isAwait =>
            obtain ⟨m, -, hm⟩ := Option.bind_eq_some_iff.mp hc
            refine C.bind (C.receiverSlot M J env (M.receiver? hm)) fun t t' ht => ?_
            exact C.bindLiftEq (ht.iterable env isAwait) fun _ => C.same _
          | _ => exact C.same _
        | _ => exact C.same _
    · rw [Program.bindingSource_of_plain rfl hc hplain,
        Program.bindingSource_of_plain rfl hc' hplain']
      exact C.same _

/-- A type, or the array of all that is left. -/
theorem arrayIf (M : Mirror C p p' f judged asked resolved) (isRest : Bool) (t : TypeId) :
    C.rel (if isRest then liftM (p.world.builtins.arrayOf t) else pure t)
      (if isRest then liftM (p'.world.builtins.arrayOf t) else pure t) Eq := by
  rw [M.world.builtins]
  split
  · exact C.lift (Program.agrees_arrayOf _ t)
  · exact C.same t

/-- An element of a value, or an array of all further elements. -/
private theorem patternElement (M : Mirror C p p' f judged asked resolved) (isRest : Bool)
    (element : Option TypeId) :
    C.rel
      (match element with
        | some element =>
          if isRest then liftM (p.world.builtins.arrayOf element) else pure element
        | none => pure .unknown)
      (match element with
        | some element =>
          if isRest then liftM (p'.world.builtins.arrayOf element) else pure element
        | none => pure .unknown) Eq := by
  cases element with
  | none => exact C.same _
  | some element => exact C.arrayIf M isRest element

theorem destructureStep (M : Mirror C p p' f judged asked resolved)
    (J : C.Asks p p' f asked resolved judge judge') (env : Environment) (value : TypeId)
    (step : PatternStep) :
    C.rel (p.destructureStep judge env value step) (p'.destructureStep judge' env value step)
      Eq := by
  unfold Program.destructureStep
  split
  · exact C.same _
  cases step with
  | property name =>
    refine C.bindLiftEq (TypeM.agrees_upperBound value) fun upper => ?_
    exact C.bindEq (C.memberValue? M J env upper name) fun _ => C.same _
  | element isRest =>
    dsimp only
    refine C.bindLookup fun data _ => ?_
    rw [M.world.arrayElement?]
    split
    · exact C.bindEq (C.same _) (C.patternElement M isRest)
    · exact C.bindLiftEq (Program.agrees_iterableElement? M.world env value false)
        (C.patternElement M isRest)

theorem destructure (M : Mirror C p p' f judged asked resolved)
    (J : C.Asks p p' f asked resolved judge judge') (env : Environment) (steps : List PatternStep) :
    ∀ value, C.rel (p.destructure judge env value steps) (p'.destructure judge' env value steps)
      Eq := by
  induction steps with
  | nil => exact fun value => C.same value
  | cons step steps ih =>
    intro value
    refine C.bindEq (C.destructureStep M J env value step) fun value => ?_
    split
    · exact C.same value
    · exact ih value

private theorem defaultOf?_eq {n : NodeId} {decl : Option DeclId} {declared : Option TypeId}
    {initializer : Slot} {isImmutable : Bool}
    (hc : p.content? n = some (.variableDecl decl declared initializer isImmutable)) :
    p.defaultOf? n = initializer := by
  rw [Program.defaultOf?, hc]

theorem destructuredType (M : Mirror C p p' f judged asked resolved)
    (J : C.Asks p p' f asked resolved judge judge') (env : Environment) {n : NodeId}
    {decl : Option DeclId} {declared : Option TypeId} {initializer : Slot} {isImmutable : Bool}
    (hn : judged n)
    (hc : p.content? n = some (.variableDecl decl declared initializer isImmutable)) :
    C.rel (p.destructuredType judge env n) (p'.destructuredType judge' env n) Eq := by
  obtain ⟨hpath, hreads⟩ := M.patternPath? hn hc
  have hdefault : p'.defaultOf? n = initializer.map f := defaultOf?_eq (M.content hn hc)
  unfold Program.destructuredType
  rw [hpath, hdefault, defaultOf?_eq hc]
  cases hfound : p.tree.patternPath? n with
  | none => exact C.same _
  | some path =>
    obtain ⟨hinitializer, haround⟩ := hreads path hfound
    refine C.bindEq (C.bindingSource M J env hinitializer haround) fun source => ?_
    refine C.bindEq (C.destructure M J env path.steps source) fun value => ?_
    cases initializer with
    | none => exact C.same _
    | some fallback =>
      dsimp only [Option.map_some]
      split
      · exact J.node env fallback (M.initializer? hn hc fallback rfl).1
      · exact C.same _

/-! ### Variables, fields and parameters -/

theorem loopElementType (M : Mirror C p p' f judged asked resolved)
    (J : C.Asks p p' f asked resolved judge judge') (env : Environment) (loop : NodeId)
    {expression : Slot} (h : expression.Satisfies resolved) (isAwait widen : Bool) :
    C.rel (p.loopElementType judge env loop expression isAwait widen)
      (p'.loopElementType judge' env loop (expression.map f) isAwait widen) Eq := by
  refine C.guarded env _ ?_
  refine C.bind (C.receiverSlot M J _ h) fun t t' ht => ?_
  refine C.bindLiftEq (ht.iterable env isAwait) fun element => ?_
  cases element with
  | none => exact C.same _
  | some element => exact C.lift (Program.agrees_sanitize M.world env element widen)

theorem initializedVariableType (M : Mirror C p p' f judged asked resolved)
    (J : C.Asks p p' f asked resolved judge judge') (env : Environment) {initializer : Slot}
    (h : initializer.Satisfies fun m => asked m ∧ f m = m) (widen : Bool) :
    C.rel (p.initializedVariableType judge env initializer widen)
      (p'.initializedVariableType judge' env (initializer.map f) widen) Eq := by
  cases initializer with
  | none => exact C.same _
  | some m =>
    obtain ⟨hm, hfixed⟩ := h m rfl
    simp only [Program.initializedVariableType, Option.map_some, hfixed]
    refine C.guarded env _ (C.bindEq (J.direct _ m hm) fun t => ?_)
    split
    · exact C.same t
    · refine C.bindLiftEq (Program.agrees_isBoundThis t) fun isBound => ?_
      split
      · exact C.same t
      · exact C.lift (Program.agrees_sanitize M.world env t widen)

theorem patternVariableType (M : Mirror C p p' f judged asked resolved)
    (J : C.Asks p p' f asked resolved judge judge') (env : Environment) {n : NodeId}
    {decl : Option DeclId} {declared : Option TypeId} {initializer : Slot} {isImmutable : Bool}
    (hn : judged n) (hc : p.content? n = some (.variableDecl decl declared initializer isImmutable))
    (widen : Bool) :
    C.rel (p.patternVariableType judge env n widen) (p'.patternVariableType judge' env n widen)
      Eq := by
  refine C.guarded env _ (C.bindEq (C.destructuredType M J _ hn hc) fun t => ?_)
  split
  · exact C.same t
  · exact C.lift (Program.agrees_sanitize M.world env t widen)

theorem variableType (M : Mirror C p p' f judged asked resolved)
    (J : C.Asks p p' f asked resolved judge judge') (env : Environment) {n : NodeId}
    {decl : Option DeclId} {declared : Option TypeId} {initializer : Slot} {isImmutable : Bool}
    (hn : judged n)
    (hc : p.content? n = some (.variableDecl decl declared initializer isImmutable)) :
    C.rel (p.variableType judge env n declared initializer isImmutable)
      (p'.variableType judge' env n declared (initializer.map f) isImmutable) Eq := by
  obtain ⟨hparent, hsurrounds⟩ := M.parent? hn hc
  have hown := C.initializedVariableType M J env (M.initializer? hn hc) !isImmutable
  cases declared with
  | some t => exact C.same t
  | none =>
    cases hdynamic : p.options.isDynamic with
    | true =>
      simp only [Program.variableType, M.options, hdynamic, if_true]
      exact C.same _
    | false =>
      have hdynamic' : p'.options.isDynamic = false := M.options ▸ hdynamic
      cases hq : p.tree.parent? n with
      | none =>
        simp only [Program.variableType, hparent, hq, hdynamic, hdynamic', Bool.false_eq_true,
          if_false]
        exact hown
      | some q =>
        rcases hsurrounds q hq with haround | ⟨c, c', hcontent, hcontent', hplain, hplain'⟩
        · simp only [Program.variableType, hparent, hq, haround, hdynamic, hdynamic',
            Bool.false_eq_true, if_false]
          cases hcontent : p.content? q with
          | none => exact hown
          | some c =>
            cases c with
            | bindingElement => exact C.patternVariableType M J env hn hc _
            | forLoop kind declarations expression body =>
              cases kind with
              | overElements isAwait =>
                exact C.loopElementType M J env q (M.receiver? hcontent) isAwait _
              | overNames => exact C.same _
              | _ => exact hown
            | _ => exact hown
        · rw [Program.variableType_of_plain hdynamic hq hcontent hplain,
            Program.variableType_of_plain hdynamic' (hparent.trans hq) hcontent' hplain']
          exact hown

theorem fieldType (M : Mirror C p p' f judged asked resolved)
    (J : C.Asks p p' f asked resolved judge judge') (env : Environment) (declared : Option TypeId)
    {initializer : Slot} (h : initializer.Satisfies fun m => asked m ∧ f m = m)
    (isImmutable : Bool) :
    C.rel (p.fieldType judge env declared initializer isImmutable)
      (p'.fieldType judge' env declared (initializer.map f) isImmutable) Eq := by
  cases declared with
  | some t => exact C.same t
  | none => exact C.initializerType M J env h _

theorem untypedElement_eq (M : Mirror C p p' f judged asked resolved) :
    p'.untypedElement = p.untypedElement := by
  rw [Program.untypedElement, M.options, Program.untypedElement]

theorem parameterType (M : Mirror C p p' f judged asked resolved)
    (J : C.Asks p p' f asked resolved judge judge') (env : Environment) (declared : Option TypeId)
    {initializer : Slot} (h : initializer.Satisfies fun m => asked m ∧ f m = m)
    (isVariadic : Bool) :
    C.rel (p.parameterType judge env declared initializer isVariadic)
      (p'.parameterType judge' env declared (initializer.map f) isVariadic) Eq := by
  have hend := C.arrayIf M isVariadic
  have hsome : (initializer.map f).isSome = initializer.isSome := Option.isSome_map
  unfold Program.parameterType
  cases declared with
  | some t => exact C.bindEq (C.same t) hend
  | none =>
    dsimp only
    rw [hsome]
    split
    · exact C.bindEq (C.initializerType M J env h true) hend
    · rw [untypedElement_eq M]
      exact C.bindEq (C.same _) hend

end Correspondence

end ScriptTyping
