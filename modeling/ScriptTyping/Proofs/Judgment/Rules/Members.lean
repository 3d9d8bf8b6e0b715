import ScriptTyping.Proofs.Judgment.Comparison

/-!
# Comparing the rules of member access

A property access is inferred under its own guard, which either cuts it short or stays out of the
way.  An indexed access with a constant key looks for a member first.

## Main results

* `Comparison.propertyAccessType` — access by name.
* `Comparison.memberValue?`, `Comparison.indexedAccessType` — access by key.
-/

namespace ScriptTyping

/-! ### Property access under its guard -/

namespace Program

variable (p : Program)

/-- The type of a property access that its own guard does not cut short. -/
def readProperty (judge : Judge) (env : Environment) (n : NodeId) (target : Slot) (name : Symbol)
    (property : Option DeclId) (typeArgs : List TypeId) : InferM TypeId := do
  let receiver ← judge.slot env target
  let targetContent := p.contentAt? target
  let env ← p.accessScope env n targetContent receiver
  let bound ← TypeM.upperBound receiver
  let (t, env) ← p.accessedType judge env bound name property typeArgs
  let t ← env.substitute t
  let t ← if p.tree.isWriteAccess n then pure t else capture t
  if targetContent = some .superExpr then p.rebindThisReturn n t else return t

theorem propertyAccessType_eq (judge : Judge) (env : Environment) (n : NodeId) (target : Slot)
    (name : Symbol) (property : Option DeclId) (typeArgs : List TypeId) :
    p.propertyAccessType judge env n target name property typeArgs =
      match env.guardState ⟨.propertyAccess, n⟩ with
      | .provisional preliminary => InferM.noteFallback >>= fun _ => pure preliminary
      | _ => p.readProperty judge (env.withProvisional ⟨.propertyAccess, n⟩ .any) n target name
          property typeArgs := rfl

end Program

namespace Comparison

variable {c : Comparison} {judge : Judge} {judge' : Nat → Judge} {env env' : Environment}
  {T : TypeTable} (p : Program)

/-! ### Access by name -/

/-- What is read of a member: its type and the environment to apply. -/
def SameAccess (c : Comparison) (T : TypeTable) (access access' : TypeId × Environment) : Prop :=
  access.1 = access'.1 ∧ c.Has T access.1 ∧ c.Scope p T access.2 access'.2

theorem accessScope (h : c.Scope p T env env') (n : NodeId) (target : Option Content)
    {receiver : TypeId} (hr : c.Has T receiver) :
    c.rel T (liftM (p.accessScope env n target receiver))
      (fun _ => liftM (p.accessScope env' n target receiver)) fun T' => c.Scope p T' := by
  simp only [Program.accessScope_eq]
  refine c.liftMap (fun tr => Program.stable_accessBindings (h.table tr) (h.world tr) n target
    (hr tr)) fun bindings T₁ hg hb => ?_
  exact (((h.grow hg).extend fun tr => (hb tr).1).setThis (hr.grow hg)).extend fun tr => (hb tr).2

theorem memberAccess (hJ : c.Asks p judge judge') (h : c.Scope p T env env') {receiver : TypeId}
    (hr : c.Has T receiver) (name : Symbol) {typeArgs : List TypeId} (hargs : c.HasAll T typeArgs)
    (resolved : Option DeclId) :
    c.rel T
      (match resolved with
      | some member => do
        let memberType ← judge.decl env member
        if typeArgs.isEmpty = true then pure (memberType, env)
        else do
          let result ← liftM (p.bindTypeArguments env member memberType typeArgs)
          pure (memberType, result)
      | none => do
        let result ← liftM (Program.shapeMember? receiver name)
        pure (result.getD TypeId.unknown, env))
      (fun i =>
        match resolved with
        | some member => do
          let memberType ← (judge' i).decl env' member
          if typeArgs.isEmpty = true then pure (memberType, env')
          else do
            let result ← liftM (p.bindTypeArguments env' member memberType typeArgs)
            pure (memberType, result)
        | none => do
          let result ← liftM (Program.shapeMember? receiver name)
          pure (result.getD TypeId.unknown, env'))
      (c.SameAccess p) := by
  cases resolved with
  | none =>
    refine c.bindLift (fun tr => Program.stable_shapeMember? (h.table tr) (hr tr) name)
      fun found T₁ hg₁ hf => ?_
    have h := h.grow hg₁
    exact c.return' h.table ⟨rfl, c.has_getD hf (c.has_reserved (by decide) h.table), h⟩
  | some member =>
    refine c.bindSame (hJ.decl h member) fun memberType T₁ hg₁ hm => ?_
    have h := h.grow hg₁
    split
    · exact c.return' h.table ⟨rfl, hm, h⟩
    · simp only [Program.bindTypeArguments_eq]
      refine c.bind (c.liftMap (V := fun T' => c.Scope p T')
        (fun tr => Program.stable_memberTypeParams (h.table tr) member (hm tr))
        fun params T₂ hg₂ _ => (h.grow hg₂).extend fun tr =>
          TypeTable.Binds.zip params (hargs.grow (hg₁.trans hg₂) tr)) ?_
      exact fun _ _ T₂ hg₂ h => c.return' h.table ⟨rfl, Has.grow hm hg₂, h⟩

theorem accessedType (hJ : c.Asks p judge judge') (h : c.Scope p T env env') {receiver : TypeId}
    (hr : c.Has T receiver) {name : Symbol} (hname : c.tracked → T.Names name)
    (property : Option DeclId) {typeArgs : List TypeId} (hargs : c.HasAll T typeArgs) :
    c.rel T (p.accessedType judge env receiver name property typeArgs)
      (fun i => p.accessedType (judge' i) env' receiver name property typeArgs)
      (c.SameAccess p) := by
  unfold Program.accessedType
  refine c.bindLift
    (fun tr => Program.stable_isConstructorProperty (h.table tr) (hname tr) property)
    fun isConstructor T₁ hg₁ _ => ?_
  have h := h.grow hg₁
  have hr := hr.grow hg₁
  split
  · exact c.bindLift (fun tr => Program.stable_constructorPropertyType (h.table tr) (h.world tr)
      (hr tr)) fun t T₂ hg₂ ht => c.return' (h.grow hg₂).table ⟨rfl, ht, h.grow hg₂⟩
  split
  · exact c.return' h.table ⟨rfl, c.has_reserved (t := .dynamicAny) (by decide) h.table, h⟩
  cases property with
  | none =>
    refine c.bindLift (fun tr => Program.stable_memberOf? (h.table tr) (h.world tr) (hr tr) name)
      fun resolved T₂ hg₂ _ => ?_
    exact c.memberAccess p hJ (h.grow hg₂) (hr.grow hg₂) name (hargs.grow (hg₁.trans hg₂)) resolved
  | some member =>
    refine c.bindSame (c.same (P := fun _ _ => True) _ h.table fun _ => trivial)
      fun resolved T₂ hg₂ _ => ?_
    exact c.memberAccess p hJ (h.grow hg₂) (hr.grow hg₂) name (hargs.grow (hg₁.trans hg₂)) resolved

theorem readProperty (hJ : c.Asks p judge judge') (h : c.Scope p T env env') (n : NodeId)
    (target : Slot) {name : Symbol} (hname : c.tracked → T.Names name) (property : Option DeclId)
    {typeArgs : List TypeId} (hargs : c.HasAll T typeArgs) :
    c.rel T (p.readProperty judge env n target name property typeArgs)
      (fun i => p.readProperty (judge' i) env' n target name property typeArgs)
      (c.Same TypeTable.Has) := by
  unfold Program.readProperty
  refine c.bindSame (c.slot hJ h target) fun receiver T₁ hg₁ hr => ?_
  refine c.bind (c.accessScope p (h.grow hg₁) n _ hr) fun scope scope' T₂ hg₂ h => ?_
  refine c.bindLift (fun tr => TypeM.stable_upperBound (h.table tr) (Has.grow hr hg₂ tr))
    fun bound T₃ hg₃ hb => ?_
  have hg := (hg₁.trans hg₂).trans hg₃
  refine c.bind (c.accessedType p hJ (h.grow hg₃) hb
    (fun tr => (hname tr).of_le (hg tr).le) property (hargs.grow hg))
    fun access access' T₄ hg₄ hac => ?_
  obtain ⟨t, scope⟩ := access
  obtain ⟨t', scope'⟩ := access'
  obtain ⟨rfl, ht, h⟩ : t = t' ∧ c.Has T₄ t ∧ c.Scope p T₄ scope scope' := hac
  simp only [h.relaxes.substitute]
  refine c.bindLift (fun tr => Environment.stable_substitute (h.table tr)
    (h.setting tr).environment (ht tr)) fun t T₅ hg₅ ht => ?_
  have h := h.grow hg₅
  have hrest (t : TypeId) (T₆ : TypeTable) (hg₆ : c.Grows T₅ T₆) (ht : c.Has T₆ t) : c.rel T₆
      (if p.contentAt? target = some .superExpr then liftM (p.rebindThisReturn n t) else pure t)
      (fun _ => if p.contentAt? target = some .superExpr then liftM (p.rebindThisReturn n t)
        else pure t) (c.Same TypeTable.Has) := by
    split
    · exact c.lift fun tr => Program.stable_rebindThisReturn ((h.grow hg₆).table tr) n (ht tr)
    · exact c.same _ (h.grow hg₆).table ht
  split
  · exact c.bindSame (c.same _ h.table ht) hrest
  · exact c.bindLift (fun tr => Program.stable_capture (h.table tr) (ht tr)) hrest

theorem propertyAccessType (hJ : c.Asks p judge judge') (h : c.Scope p T env env') (n : NodeId)
    (target : Slot) {name : Symbol} (hname : c.tracked → T.Names name) (property : Option DeclId)
    {typeArgs : List TypeId} (hargs : c.HasAll T typeArgs) :
    c.rel T (p.propertyAccessType judge env n target name property typeArgs)
      (fun i => p.propertyAccessType (judge' i) env' n target name property typeArgs)
      (c.Same TypeTable.Has) := by
  simp only [Program.propertyAccessType_eq]
  refine c.unlessProvisional h ⟨.propertyAccess, n⟩ (fun t ht => ⟨_, c.same t h.table ht⟩) ?_
  have h := h.withProvisional ⟨.propertyAccess, n⟩ (t := .any)
    (c.has_reserved (by decide) h.table)
  exact c.readProperty p hJ h n target hname property hargs

/-! ### Access by key -/

theorem memberValue? (hJ : c.Asks p judge judge') (h : c.Scope p T env env') {receiver : TypeId}
    (hr : c.Has T receiver) (name : Symbol) :
    c.rel T (p.memberValue? judge env receiver name)
      (fun i => p.memberValue? (judge' i) env' receiver name)
      (c.Same fun T' o => ∀ s, o = some s → T'.Has s) := by
  unfold Program.memberValue?
  refine c.bindLift (fun tr => Program.stable_shapeMember? (h.table tr) (hr tr) name)
    fun found T₁ hg₁ hf => ?_
  have h := h.grow hg₁
  have hr := hr.grow hg₁
  cases found with
  | some t => exact c.same _ h.table hf
  | none =>
    refine c.bindLift (fun tr => Program.stable_memberOf? (h.table tr) (h.world tr) (hr tr) name)
      fun member T₂ hg₂ _ => ?_
    have h := h.grow hg₂
    have hr := hr.grow hg₂
    cases member with
    | none => exact c.same _ h.table fun _ _ hs => by cases hs
    | some member =>
      simp only [World.receiverScope_eq]
      refine c.bind (c.liftMap (V := fun T' => c.Scope p T')
        (fun tr => World.stable_receiverBindings (h.table tr) (h.world tr) (hr tr))
        fun bindings T₃ hg₃ hb => ((h.grow hg₃).wrap.extend hb).setThis (hr.grow hg₃))
        fun scope scope' T₃ hg₃ h => ?_
      refine c.bindSame (hJ.decl h member) fun t T₄ hg₄ ht => ?_
      have h := h.grow hg₄
      simp only [h.relaxes.substitute]
      refine c.bindLift (fun tr => Environment.stable_substitute (h.table tr)
        (h.setting tr).environment (ht tr)) fun t T₅ hg₅ ht => ?_
      have h := h.grow hg₅
      refine c.bindLift (fun tr => Program.stable_capture (h.table tr) (ht tr))
        fun t T₆ hg₆ ht => ?_
      exact c.same _ (h.grow hg₆).table fun tr _ hs => Option.some.inj hs ▸ ht tr

theorem indexedAccessType (hJ : c.Asks p judge judge') (h : c.Scope p T env env')
    (target index : Slot) :
    c.rel T (p.indexedAccessType judge env target index)
      (fun i => p.indexedAccessType (judge' i) env' target index) (c.Same TypeTable.Has) := by
  unfold Program.indexedAccessType
  split
  · exact c.reserved (by decide) h.table
  refine c.bindSame (c.slot hJ h target) fun receiver T₁ hg₁ hr => ?_
  have h := h.grow hg₁
  refine c.bindLift (fun tr => TypeM.stable_upperBound (h.table tr) (hr tr))
    fun receiver T₂ hg₂ hr => ?_
  have h := h.grow hg₂
  refine c.bindLift (fun tr => World.stable_resolveAlias (h.table tr) (h.world tr) (hr tr))
    fun receiver T₃ hg₃ hr => ?_
  have h := h.grow hg₃
  refine c.bindSame (c.slot hJ h index) fun indexType T₄ hg₄ hi => ?_
  have h := h.grow hg₄
  have hr : c.Has T₄ receiver := Has.grow hr hg₄
  simp only [h.relaxes.numericElement?]
  refine c.bindLift (fun tr => Program.stable_numericElement? (h.setting tr) (hr tr) (hi tr))
    fun element T₅ hg₅ he => ?_
  have h := h.grow hg₅
  have hr := hr.grow hg₅
  cases element with
  | some element => exact c.same _ h.table fun tr => he tr element rfl
  | none =>
    refine c.bindLift (fun tr => Program.stable_constant? (h.table tr) (h.setting tr).program index)
      fun value T₆ hg₆ _ => ?_
    have h := h.grow hg₆
    have hr := hr.grow hg₆
    cases value with
    | some value =>
      refine c.bindLift (fun tr => TypeM.stable_internSymbol (h.table tr) _)
        fun name T₇ hg₇ _ => ?_
      have h := h.grow hg₇
      refine c.bindSame (c.memberValue? p hJ h (hr.grow hg₇) name) fun found T₈ hg₈ hf => ?_
      have h := h.grow hg₈
      have hr := hr.grow (hg₇.trans hg₈)
      cases found with
      | some t => exact c.same _ h.table fun tr => hf tr t rfl
      | none =>
        dsimp only
        split
        · exact c.reserved (by decide) h.table
        · refine c.bindLift (fun tr => Program.stable_hasIndexSignature (h.table tr) (h.world tr)
            (hr tr)) fun hasSignature T₉ hg₉ _ => ?_
          split
          · exact c.reserved (by decide) (h.grow hg₉).table
          · exact c.reservedIf (h.grow hg₉).table _ (by decide) (by decide)
    | none =>
      dsimp only
      split
      · exact c.reserved (by decide) h.table
      · exact c.bindLift (fun tr => Program.stable_hasIndexSignature (h.table tr) (h.world tr)
          (hr tr)) fun hasSignature T₇ hg₇ _ =>
            c.reservedIf (h.grow hg₇).table _ (by decide) (by decide)

end Comparison

end ScriptTyping
