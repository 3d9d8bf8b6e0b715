import ScriptTyping.Proofs.Judgment.Rules.Members

/-!
# Comparing the rules of typed elements

Fields, variables and parameters take their types from an annotation, an initializer, a pattern or a
loop.

## Main results

* `Comparison.destructuredType` — variables inside a pattern.
* `Comparison.variableType`, `Comparison.fieldType`, `Comparison.parameterType`
-/

namespace ScriptTyping.Comparison

variable {c : Comparison} {judge : Judge} {judge' : Nat → Judge} {env env' : Environment}
  {T : TypeTable} (p : Program)

/-! ### Initializers and patterns -/

theorem sanitize {T' : TypeTable} (h : c.Scope p T env env') (hg : c.Grows T T') {t : TypeId}
    (ht : c.Has T' t) (widen : Bool) :
    c.rel T' (liftM (p.sanitize env t widen)) (fun _ => liftM (p.sanitize env t widen))
      (c.Same TypeTable.Has) :=
  c.lift fun tr => stable_sanitizeDeclared ((h.grow hg).inWorld tr) (ht tr) widen

theorem initializerType (hJ : c.Asks p judge judge') (h : c.Scope p T env env')
    (initializer : Slot) (widen : Bool) :
    c.rel T (p.initializerType judge env initializer widen)
      (fun i => p.initializerType (judge' i) env' initializer widen) (c.Same TypeTable.Has) := by
  unfold Program.initializerType
  cases initializer with
  | none => exact c.reserved (by decide) h.table
  | some n =>
    refine c.guarded h _ fun hinner => ?_
    simp only [h.relaxes.sanitize]
    exact c.bindSame (hJ.node hinner n) fun t T₁ hg₁ ht => c.sanitize p h hg₁ ht widen

theorem bindingSource (hJ : c.Asks p judge judge') (h : c.Scope p T env env')
    (path : PatternPath) :
    c.rel T (p.bindingSource judge env path) (fun i => p.bindingSource (judge' i) env' path)
      (c.Same TypeTable.Has) := by
  rcases p.bindingSource_cases path with ⟨n, -, hsource⟩ |
    ⟨-, ⟨isAwait, declarations, expression, body, -, hsource⟩ | ⟨-, hsource⟩⟩ <;>
      simp only [hsource]
  · exact hJ.node h n
  · simp only [h.relaxes.iterableElement?]
    refine c.bindSame (c.slot hJ h expression) fun iterated T₁ hg₁ hi => ?_
    have h := h.grow hg₁
    refine c.bindLift (fun tr => Program.stable_iterableElement? (h.setting tr) (hi tr) isAwait)
      fun element T₂ hg₂ he => ?_
    have h := h.grow hg₂
    exact c.orReserved he (by decide) h.table
  · exact c.reserved (by decide) h.table

/-- A type, or the array of all that is left. -/
theorem arrayIf (isRest : Bool) {t : TypeId} (hT : c.tracked → T.WellFormed) (ht : c.Has T t) :
    c.rel T (if isRest then liftM (p.world.builtins.arrayOf t) else pure t)
      (fun _ => if isRest then liftM (p.world.builtins.arrayOf t) else pure t)
      (c.Same TypeTable.Has) := by
  split
  · exact c.lift fun tr => Program.stable_arrayOf (hT tr) (ht tr)
  · exact c.same t hT ht

/-- An element of a value, or an array of all further elements. -/
theorem patternElement (h : c.Scope p T env env') (isRest : Bool) {element : Option TypeId}
    (he : c.tracked → ∀ s, element = some s → T.Has s) :
    c.rel T
      (match element with
        | some element =>
          if isRest then liftM (p.world.builtins.arrayOf element) else pure element
        | none => pure .unknown)
      (fun _ => match element with
        | some element =>
          if isRest then liftM (p.world.builtins.arrayOf element) else pure element
        | none => pure .unknown) (c.Same TypeTable.Has) := by
  cases element with
  | none => exact c.reserved (by decide) h.table
  | some element => exact c.arrayIf p isRest h.table fun tr => he tr element rfl

theorem destructureStep (hJ : c.Asks p judge judge') (h : c.Scope p T env env') {value : TypeId}
    (hv : c.Has T value) (step : PatternStep) :
    c.rel T (p.destructureStep judge env value step)
      (fun i => p.destructureStep (judge' i) env' value step) (c.Same TypeTable.Has) := by
  unfold Program.destructureStep
  split
  · exact c.same _ h.table hv
  cases step with
  | property name =>
    refine c.bindLift (fun tr => TypeM.stable_upperBound (h.table tr) (hv tr))
      fun bound T₁ hg₁ hb => ?_
    have h := h.grow hg₁
    refine c.bindSame (c.memberValue? p hJ h hb name) fun t T₂ hg₂ ht => ?_
    have h := h.grow hg₂
    exact c.orReserved ht (by decide) h.table
  | element isRest =>
    simp only [h.relaxes.iterableElement?]
    refine c.bindLift (fun tr => TypeM.stable_lookup (h.table tr) (hv tr)) fun data T₁ hg₁ hd => ?_
    have h := h.grow hg₁
    cases helement : p.world.arrayElement? data with
    | some element =>
      refine c.bindSame (c.same (P := fun T' (o : Option TypeId) => ∀ s, o = some s → T'.Has s) _
        h.table fun tr s hs => ?_) fun o T₂ hg₂ ho => c.patternElement p (h.grow hg₂) isRest ho
      rw [(hd tr).1, hs] at helement
      exact (h.table tr).has_arrayElement helement
    | none =>
      exact c.bindLift (fun tr => Program.stable_iterableElement? (h.setting tr)
        (hv.grow hg₁ tr) false) fun o T₂ hg₂ ho => c.patternElement p (h.grow hg₂) isRest ho

theorem destructure (hJ : c.Asks p judge judge') (steps : List PatternStep) :
    ∀ {T : TypeTable} {value : TypeId}, c.Scope p T env env' → c.Has T value →
      c.rel T (p.destructure judge env value steps)
        (fun i => p.destructure (judge' i) env' value steps) (c.Same TypeTable.Has) := by
  induction steps with
  | nil => exact fun h hv => c.same _ h.table hv
  | cons step steps ih =>
    intro T value h hv
    refine c.bindSame (c.destructureStep p hJ h hv step) fun part T₁ hg₁ hpart => ?_
    split
    · exact c.same _ (h.grow hg₁).table hpart
    · exact ih (h.grow hg₁) hpart

theorem destructuredType (hJ : c.Asks p judge judge') (h : c.Scope p T env env') (n : NodeId) :
    c.rel T (p.destructuredType judge env n) (fun i => p.destructuredType (judge' i) env' n)
      (c.Same TypeTable.Has) := by
  unfold Program.destructuredType
  cases p.tree.patternPath? n with
  | none => exact c.reserved (by decide) h.table
  | some path =>
    refine c.bindSame (c.bindingSource p hJ h path) fun source T₁ hg₁ hs => ?_
    have h := h.grow hg₁
    refine c.bindSame (c.destructure p hJ path.steps h hs) fun value T₂ hg₂ hv => ?_
    have h := h.grow hg₂
    cases p.defaultOf? n with
    | none => exact c.same _ h.table hv
    | some fallback =>
      dsimp only
      split
      · exact hJ.node h fallback
      · exact c.same _ h.table hv

/-! ### Variables, fields and parameters -/

theorem initializedVariableType (hJ : c.Asks p judge judge') (h : c.Scope p T env env')
    (initializer : Slot) (widen : Bool) :
    c.rel T (p.initializedVariableType judge env initializer widen)
      (fun i => p.initializedVariableType (judge' i) env' initializer widen)
      (c.Same TypeTable.Has) := by
  unfold Program.initializedVariableType
  cases initializer with
  | none => exact c.reserved (by decide) h.table
  | some m =>
    refine c.guarded h _ fun hinner => ?_
    simp only [h.relaxes.sanitize]
    refine c.bindSame (hJ.node hinner m) fun t T₁ hg₁ ht => ?_
    have hT := (h.grow hg₁).table
    split
    · exact c.same _ hT ht
    · refine c.bindLift (fun tr => Program.stable_isBoundThis (hT tr) (ht tr))
        fun isThis T₂ hg₂ _ => ?_
      have hg := hg₁.trans hg₂
      split
      · exact c.same _ (h.grow hg).table (Has.grow ht hg₂)
      · exact c.sanitize p h hg (Has.grow ht hg₂) widen

theorem patternVariableType (hJ : c.Asks p judge judge') (h : c.Scope p T env env') (n : NodeId)
    (widen : Bool) :
    c.rel T (p.patternVariableType judge env n widen)
      (fun i => p.patternVariableType (judge' i) env' n widen) (c.Same TypeTable.Has) := by
  refine c.guarded h _ fun hinner => ?_
  simp only [h.relaxes.sanitize]
  refine c.bindSame (c.destructuredType p hJ hinner n) fun t T₁ hg₁ ht => ?_
  split
  · exact c.same _ (h.grow hg₁).table ht
  · exact c.sanitize p h hg₁ ht widen

theorem loopElementType (hJ : c.Asks p judge judge') (h : c.Scope p T env env') (loop : NodeId)
    (expression : Slot) (isAwait widen : Bool) :
    c.rel T (p.loopElementType judge env loop expression isAwait widen)
      (fun i => p.loopElementType (judge' i) env' loop expression isAwait widen)
      (c.Same TypeTable.Has) := by
  refine c.guarded h _ fun hinner => ?_
  simp only [h.relaxes.sanitize, h.relaxes.iterableElement?]
  refine c.bindSame (c.slot hJ hinner expression) fun iterated T₁ hg₁ hi => ?_
  refine c.bindLift (fun tr => Program.stable_iterableElement? ((h.grow hg₁).setting tr) (hi tr) _)
    fun element T₂ hg₂ he => ?_
  have hg := hg₁.trans hg₂
  cases element with
  | some element => exact c.sanitize p h hg (fun tr => he tr element rfl) widen
  | none => exact c.reserved (by decide) (h.grow hg).table

theorem variableType (hJ : c.Asks p judge judge') (h : c.Scope p T env env') (n : NodeId)
    {declared : Option TypeId} (hd : c.HasAll T declared.toList) (initializer : Slot)
    (isImmutable : Bool) :
    c.rel T (p.variableType judge env n declared initializer isImmutable)
      (fun i => p.variableType (judge' i) env' n declared initializer isImmutable)
      (c.Same TypeTable.Has) := by
  unfold Program.variableType
  cases declared with
  | some t => exact c.same _ h.table fun tr => hd tr t (List.mem_singleton_self _)
  | none =>
    dsimp only
    split
    · exact c.reserved (by decide) h.table
    · cases p.tree.parent? n with
      | none => exact c.initializedVariableType p hJ h initializer _
      | some parent =>
        dsimp only
        split
        · exact c.patternVariableType p hJ h n _
        · exact c.loopElementType p hJ h _ _ _ _
        · exact c.reserved (by decide) h.table
        · exact c.initializedVariableType p hJ h initializer _

theorem fieldType (hJ : c.Asks p judge judge') (h : c.Scope p T env env')
    {declared : Option TypeId} (hd : c.HasAll T declared.toList) (initializer : Slot)
    (isImmutable : Bool) :
    c.rel T (p.fieldType judge env declared initializer isImmutable)
      (fun i => p.fieldType (judge' i) env' declared initializer isImmutable)
      (c.Same TypeTable.Has) := by
  cases declared with
  | some t => exact c.same _ h.table fun tr => hd tr t (List.mem_singleton_self _)
  | none => exact c.initializerType p hJ h initializer _

theorem has_untypedElement (hT : c.tracked → T.WellFormed) : c.Has T p.untypedElement := by
  rw [Program.untypedElement]
  split
  · exact c.has_reserved (by decide) hT
  · exact c.has_reserved (by decide) hT

theorem parameterType (hJ : c.Asks p judge judge') (h : c.Scope p T env env')
    {declared : Option TypeId} (hd : c.HasAll T declared.toList) (initializer : Slot)
    (isVariadic : Bool) :
    c.rel T (p.parameterType judge env declared initializer isVariadic)
      (fun i => p.parameterType (judge' i) env' declared initializer isVariadic)
      (c.Same TypeTable.Has) := by
  have hrest (base : TypeId) (T₁ : TypeTable) (hg : c.Grows T T₁) (hb : c.Has T₁ base) :=
    c.arrayIf p isVariadic (h.grow hg).table hb
  unfold Program.parameterType
  cases declared with
  | some t =>
    exact c.bindSame (c.same _ h.table fun tr => hd tr t (List.mem_singleton_self _)) hrest
  | none =>
    dsimp only
    split
    · exact c.bindSame (c.initializerType p hJ h initializer true) hrest
    · exact c.bindSame (c.same _ h.table (c.has_untypedElement p h.table)) hrest

end ScriptTyping.Comparison
