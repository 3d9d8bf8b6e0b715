import ScriptTyping.Proofs.Judgment.Comparison

/-!
# Comparing the rules of references, literals and operators

References are narrowed by the facts that flow into them.  Literals and operators ask for the types
of their parts and compute with the answers.

## Main results

* `Comparison.identifierType` — references by name.
* `Comparison.objectLiteralType`, `Comparison.arrayLiteralType`, `Comparison.taggedTemplateType`
* `Comparison.unaryType`, `Comparison.binaryType`, `Comparison.assignmentType`
-/

namespace ScriptTyping.Comparison

variable {c : Comparison} {judge : Judge} {judge' : Nat → Judge} {env env' : Environment}
  {T : TypeTable} (p : Program)

/-! ### References and iteration -/

theorem testedType (hJ : c.Asks p judge judge') (h : c.Scope p T env env') (typeRef : NodeId) :
    c.rel T (p.testedType judge env typeRef) (fun i => p.testedType (judge' i) env' typeRef)
      (c.Same TypeTable.Has) := by
  unfold Program.testedType
  refine c.bindSame (hJ.node h typeRef) fun t T₁ hg₁ ht => ?_
  have h := h.grow hg₁
  refine c.bindLift (fun tr => TypeM.stable_lookup (h.table tr) (ht tr)) fun data T₂ hg₂ hd => ?_
  have h := h.grow hg₂
  have ht : c.Has T₂ t := Has.grow ht hg₂
  cases data with
  | metaType arg isConstructor =>
    exact c.same arg h.table fun tr => (hd tr).2 arg (List.mem_singleton_self _)
  | _ =>
    simp only [h.relaxes.resolveConstructible?]
    refine c.bindLift (fun tr => World.stable_resolveConstructible? (h.inWorld tr) (ht tr))
      fun newable T₃ hg₃ hn => ?_
    refine c.same _ (h.grow hg₃).table (c.has_getD (fun tr s hs => ?_) (ht.grow hg₃))
    obtain ⟨found, rfl, rfl⟩ := Option.map_eq_some_iff.mp hs
    exact hn tr found rfl _ (List.mem_cons_self ..)

theorem factOf (hJ : c.Asks p judge judge') (h : c.Scope p T env env') (guard : InstanceofGuard) :
    c.rel T (p.factOf judge env guard) (fun i => p.factOf (judge' i) env' guard)
      (c.Same fun T' fact => T'.Has fact.type) := by
  unfold Program.factOf
  refine c.bindSame (c.mapM (P := TypeTable.Has) (fun _ _ _ => TypeTable.Has.of_le) _ h.table
    fun typeRef _ hg => c.testedType p hJ (h.grow hg) typeRef) fun tested T₁ hg₁ htested => ?_
  have h := h.grow hg₁
  split
  · exact c.same _ h.table fun tr => htested tr _ (List.mem_singleton_self _)
  · exact c.bindLift (fun tr => TypeM.stable_intern_has (h.table tr) (htested tr))
      fun t T₂ hg₂ ht => c.same _ (h.grow hg₂).table ht

theorem narrowByFlow (hJ : c.Asks p judge judge') (h : c.Scope p T env env') (reference : NodeId)
    (target : DeclId) {declared : TypeId} (hd : c.Has T declared) :
    c.rel T (p.narrowByFlow judge env reference target declared)
      (fun i => p.narrowByFlow (judge' i) env' reference target declared)
      (c.Same TypeTable.Has) := by
  unfold Program.narrowByFlow
  refine c.bindSame (c.mapM (P := fun T (fact : TypeFact) => T.Has fact.type)
    (fun _ _ _ => TypeTable.Has.of_le) _ h.table
    fun guard _ hg => c.factOf p hJ (h.grow hg) guard) fun facts T₁ hg₁ hfacts => ?_
  have h := h.grow hg₁
  have hd := hd.grow hg₁
  split
  · exact c.same _ h.table hd
  · simp only [Program.relation, h.relaxes.narrow]
    refine c.bindLift (fun tr => stable_narrow (h.inWorld tr) (hd tr).hasAll (hfacts tr))
      fun narrowed T₂ hg₂ hn => ?_
    refine c.same _ (h.grow hg₂).table (c.has_getD (fun tr s hs => ?_) (hd.grow hg₂))
    exact hn tr s (Option.mem_toList.mpr hs)

theorem identifierType (hJ : c.Asks p judge judge') (h : c.Scope p T env env') (n : NodeId)
    (target : Option DeclId) :
    c.rel T (p.identifierType judge env n target)
      (fun i => p.identifierType (judge' i) env' n target) (c.Same TypeTable.Has) := by
  unfold Program.identifierType
  cases target with
  | none => exact c.reserved (by decide) h.table
  | some target =>
    refine c.bindSame (hJ.decl h target) fun declared T₁ hg₁ hd => ?_
    have h := h.grow hg₁
    refine c.bindSame (c.narrowByFlow p hJ h n target hd) fun narrowed T₂ hg₂ hn => ?_
    have h := h.grow hg₂
    simp only [h.relaxes.substitute]
    refine c.bindLift (fun tr => Environment.stable_substitute (h.table tr)
      (h.setting tr).environment (hn tr)) fun t T₃ hg₃ ht => ?_
    have h := h.grow hg₃
    split
    · exact c.same _ h.table ht
    · exact c.lift fun tr => Program.stable_capture (h.table tr) (ht tr)

/-! ### Literals with parts -/

theorem objectLiteralMembers (hJ : c.Asks p judge judge') (slots : List Slot) :
    ∀ {T : TypeTable}, c.Scope p T env env' →
      c.rel T (p.objectLiteralMembers judge env slots)
        (fun i => p.objectLiteralMembers (judge' i) env' slots)
        (c.Same fun T' members => T'.HasAll (members.map (·.type))) := by
  induction slots with
  | nil => exact fun h => c.same [] h.table fun _ => TypeTable.hasAll_nil
  | cons slot slots ih =>
    intro T h
    cases slot with
    | none => exact ih h
    | some n =>
      unfold Program.objectLiteralMembers
      split
      · refine c.bindSame (hJ.node h n) fun t T₁ hg₁ ht => ?_
        refine c.bindSame (ih (h.grow hg₁)) fun members T₂ hg₂ hm => ?_
        refine c.same _ ((h.grow hg₁).grow hg₂).table fun tr => ?_
        exact ((ht tr).of_le (hg₂ tr).le).hasAll.append (hm tr)
      · exact ih h

theorem objectLiteralType (hJ : c.Asks p judge judge') (h : c.Scope p T env env')
    (properties : List Slot) :
    c.rel T (p.objectLiteralType judge env properties)
      (fun i => p.objectLiteralType (judge' i) env' properties) (c.Same TypeTable.Has) :=
  c.bindSame (c.objectLiteralMembers p hJ properties h) fun _ _ hg hm =>
    c.lift fun tr => TypeM.stable_intern_has (hg tr).wellFormed (hm tr)

theorem arrayItemType? (hJ : c.Asks p judge judge') (h : c.Scope p T env env') (slot : Slot) :
    c.rel T (p.arrayItemType? judge env slot) (fun i => p.arrayItemType? (judge' i) env' slot)
      (c.Same fun T' o => T'.HasAll o.toList) := by
  have hwiden {t : TypeId} {T₁ : TypeTable} (h : c.Scope p T₁ env env') (ht : c.Has T₁ t) :
      c.rel T₁ (do return some (← p.widen env t)) (fun _ => do return some (← p.widen env t))
        (c.Same fun T' o => T'.HasAll o.toList) :=
    c.bindLift (fun tr => stable_widenLiterals (h.inWorld tr) (ht tr))
      fun t T₂ hg₂ ht => c.same _ (h.grow hg₂).table fun tr => (ht tr).hasAll
  unfold Program.arrayItemType?
  simp only [h.relaxes.iterableElement?, h.relaxes.widen]
  split
  · exact c.same _ h.table fun _ => TypeTable.hasAll_nil
  · exact c.same _ h.table fun _ => TypeTable.hasAll_nil
  · refine c.bindSame (c.slot hJ h _) fun spread T₁ hg₁ hs => ?_
    have h := h.grow hg₁
    refine c.bindLift (fun tr => Program.stable_iterableElement? (h.setting tr) (hs tr) false)
      fun element T₂ hg₂ he => ?_
    have h := h.grow hg₂
    exact hwiden h (c.has_getD he (c.has_reserved (by decide) h.table))
  · exact c.bindSame (c.slot hJ h slot) fun t T₁ hg₁ ht => hwiden (h.grow hg₁) ht

theorem arrayLiteralType (hJ : c.Asks p judge judge') (h : c.Scope p T env env')
    (elements : List Slot) :
    c.rel T (p.arrayLiteralType judge env elements)
      (fun i => p.arrayLiteralType (judge' i) env' elements) (c.Same TypeTable.Has) := by
  have hrest (element : TypeId) (T₁ : TypeTable) (hg : c.Grows T T₁) (he : c.Has T₁ element) :
      c.rel T₁ (liftM (p.world.builtins.arrayOf element))
        (fun _ => liftM (p.world.builtins.arrayOf element)) (c.Same TypeTable.Has) :=
    c.lift fun tr => Program.stable_arrayOf (hg tr).wellFormed (he tr)
  unfold Program.arrayLiteralType
  simp only [h.relaxes.join]
  refine c.bindSame (c.mapM (P := fun T (o : Option TypeId) => T.HasAll o.toList)
    (fun _ _ _ => TypeTable.HasAll.of_le) _ h.table
    fun slot _ hg => c.arrayItemType? p hJ (h.grow hg) slot) fun types T₁ hg₁ htypes => ?_
  have h := h.grow hg₁
  split
  · exact c.bindSame (c.reserved (by decide) h.table) fun element T₂ hg₂ he =>
      hrest element T₂ (hg₁.trans hg₂) he
  · refine c.bindLift (fun tr => stable_joinTypes (h.inWorld tr) fun t ht => ?_)
      fun element T₂ hg₂ he => hrest element T₂ (hg₁.trans hg₂) he
    obtain ⟨o, ho, hsome⟩ := List.mem_filterMap.mp ht
    exact htypes tr o ho t (Option.mem_toList.mpr hsome)

theorem taggedTemplateType (hJ : c.Asks p judge judge') (h : c.Scope p T env env') (tag : Slot) :
    c.rel T (Program.taggedTemplateType judge env tag)
      (fun i => Program.taggedTemplateType (judge' i) env' tag) (c.Same TypeTable.Has) := by
  refine c.bindSame (c.slot hJ h tag) fun t T₁ hg₁ ht => ?_
  have h := h.grow hg₁
  refine c.bindLift (fun tr => Program.stable_signature? (h.table tr) (ht tr))
    fun o T₂ hg₂ ho => ?_
  have h := h.grow hg₂
  refine c.orReserved (fun tr s hs => ?_) (by decide) h.table
  obtain ⟨signature, rfl, rfl⟩ := Option.map_eq_some_iff.mp hs
  exact (ho tr signature rfl).returnType

/-! ### Operators -/

theorem unaryType (hJ : c.Asks p judge judge') (h : c.Scope p T env env') (op : UnaryOperator)
    (operand : Slot) :
    c.rel T (Program.unaryType judge env op operand)
      (fun i => Program.unaryType (judge' i) env' op operand) (c.Same TypeTable.Has) := by
  cases op with
  | plus | minus =>
    refine c.bindSame (c.slot hJ h operand) fun t T₁ hg₁ ht => ?_
    have h := h.grow hg₁
    refine c.bindLift (fun tr => TypeM.stable_lookup (h.table tr) (ht tr)) fun data T₂ hg₂ _ => ?_
    have h := h.grow hg₂
    split
    · split
      · exact c.lift fun tr => TypeM.stable_literal (h.table tr) _
      · exact c.same _ h.table (Has.grow ht hg₂)
    · exact c.reserved (by decide) h.table
  | _ => exact c.reserved (by decide) h.table

theorem alternativesType (hJ : c.Asks p judge judge') (h : c.Scope p T env env')
    (first second : Slot) :
    c.rel T (p.alternativesType judge env first second)
      (fun i => p.alternativesType (judge' i) env' first second) (c.Same TypeTable.Has) := by
  unfold Program.alternativesType
  simp only [h.relaxes.union]
  refine c.bindSame (c.slot hJ h first) fun firstType T₁ hg₁ hfirst => ?_
  refine c.bindSame (c.slot hJ (h.grow hg₁) second) fun secondType T₂ hg₂ hsecond => ?_
  have h := (h.grow hg₁).grow hg₂
  have hfirst : c.Has T₂ firstType := Has.grow hfirst hg₂
  have hunion {T₃ : TypeTable} (hg : c.Grows T₂ T₃) :
      c.rel T₃ (liftM (p.union env [firstType, secondType]))
        (fun _ => liftM (p.union env [firstType, secondType])) (c.Same TypeTable.Has) :=
    c.lift fun tr => stable_createUnion ((h.grow hg).inWorld tr)
      (TypeTable.HasAll.append (hfirst.grow hg tr).hasAll (Has.grow hsecond hg tr).hasAll)
  have hrest {T₃ : TypeTable} (hg : c.Grows T₂ T₃) : c.rel T₃
      (liftM (p.isEmptyArray second) >>= fun isEmpty =>
        if isEmpty = true then
          liftM (p.isArray firstType) >>= fun isArray =>
            if isArray = true then pure firstType else liftM (p.union env [firstType, secondType])
        else liftM (p.union env [firstType, secondType]))
      (fun _ => liftM (p.isEmptyArray second) >>= fun isEmpty =>
        if isEmpty = true then
          liftM (p.isArray firstType) >>= fun isArray =>
            if isArray = true then pure firstType else liftM (p.union env [firstType, secondType])
        else liftM (p.union env [firstType, secondType])) (c.Same TypeTable.Has) := by
    refine c.bindLift (fun tr => Program.stable_isEmptyArray ((h.grow hg).table tr) second)
      fun isEmpty T₄ hg₄ _ => ?_
    have hg := hg.trans hg₄
    split
    · refine c.bindLift (fun tr => Program.stable_isArray ((h.grow hg).table tr)
        (hfirst.grow hg tr)) fun isArray T₅ hg₅ _ => ?_
      have hg := hg.trans hg₅
      split
      · exact c.same _ (h.grow hg).table (hfirst.grow hg)
      · exact hunion hg
    · exact hunion hg
  refine c.bindLift (fun tr => Program.stable_isEmptyArray (h.table tr) first)
    fun isEmpty T₃ hg₃ _ => ?_
  split
  · refine c.bindLift (fun tr => Program.stable_isArray ((h.grow hg₃).table tr)
      (Has.grow hsecond hg₃ tr)) fun isArray T₄ hg₄ _ => ?_
    have hg := hg₃.trans hg₄
    split
    · exact c.same _ (h.grow hg).table (Has.grow hsecond hg)
    · exact hrest hg
  · exact hrest hg₃

theorem binaryType (hJ : c.Asks p judge judge') (h : c.Scope p T env env') (op : BinaryOperator)
    (left right : Slot) :
    c.rel T (p.binaryType judge env op left right)
      (fun i => p.binaryType (judge' i) env' op left right) (c.Same TypeTable.Has) := by
  unfold Program.binaryType
  cases op.family with
  | additive =>
    dsimp only
    split
    · exact c.reserved (by decide) h.table
    · refine c.bindSame (c.slot hJ h left) fun leftType T₁ hg₁ hl => ?_
      refine c.bindSame (c.slot hJ (h.grow hg₁) right) fun rightType T₂ hg₂ hr => ?_
      have h := (h.grow hg₁).grow hg₂
      simp only [h.relaxes.additionType]
      exact c.lift fun tr =>
        Program.stable_additionType (h.setting tr) (Has.grow hl hg₂ tr) (hr tr)
  | logical => exact c.alternativesType p hJ h left right
  | coalesce => exact c.alternativesType p hJ h left right
  | _ => exact c.reserved (by decide) h.table

theorem assignmentType (hJ : c.Asks p judge judge') (h : c.Scope p T env env')
    (op : AssignmentOperator) (left right : Slot) :
    c.rel T (p.assignmentType judge env op left right)
      (fun i => p.assignmentType (judge' i) env' op left right) (c.Same TypeTable.Has) := by
  cases op with
  | assign => exact c.slot hJ h right
  | addAssign =>
    refine c.bindSame (c.slot hJ h left) fun leftType T₁ hg₁ hl => ?_
    refine c.bindSame (c.slot hJ (h.grow hg₁) right) fun rightType T₂ hg₂ hr => ?_
    have h := (h.grow hg₁).grow hg₂
    exact c.lift fun tr =>
      Program.stable_compoundSumType (h.table tr) (h.world tr) (Has.grow hl hg₂ tr) (hr tr)
  | _ => exact c.reserved (by decide) h.table

end ScriptTyping.Comparison
