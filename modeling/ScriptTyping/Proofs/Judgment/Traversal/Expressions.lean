import ScriptTyping.Judgment.Infer
import ScriptTyping.Proofs.Judgment.Correspondence

/-!
# References, literals and operators on two programs

The parts of a literal may stand at other places in the mirrored program, and the operands of an
operator as well.

## Main results

* `Correspondence.identifierType` — references by name.
* `Correspondence.objectLiteralType`, `Correspondence.arrayLiteralType`,
  `Correspondence.templateType`
* `Correspondence.unaryType`, `Correspondence.binaryType`, `Correspondence.assignmentType`
-/

namespace ScriptTyping.Correspondence

variable {v : Veil} {C : Correspondence v} {p p' : Program} {f : NodeId → NodeId}
  {judged asked resolved : NodeId → Prop} {judge judge' : Judge}

/-! ### References -/

theorem testedType (M : Mirror C p p' f judged asked resolved)
    (J : C.Asks p p' f asked resolved judge judge') (env : Environment) {typeRef : NodeId}
    (hasked : asked typeRef) :
    C.rel (p.testedType judge env typeRef) (p'.testedType judge' env typeRef) Eq := by
  unfold Program.testedType
  refine C.bindEq (J.direct env typeRef hasked) fun t => C.bindLookup fun data _ => ?_
  split
  · exact C.same _
  · exact C.bindLiftEq (World.agrees_resolveConstructible? M.world env t) fun _ => C.same _

theorem factOf (M : Mirror C p p' f judged asked resolved)
    (J : C.Asks p p' f asked resolved judge judge') (env : Environment) {guard : InstanceofGuard}
    (hasked : ∀ n ∈ guard.typeRefs, asked n) :
    C.rel (p.factOf judge env guard) (p'.factOf judge' env guard) Eq := by
  unfold Program.factOf
  refine C.bindEq (C.mapMEq _ fun n hn => C.testedType M J env (hasked n hn)) fun tested => ?_
  split
  · exact C.same _
  · exact C.bindLiftEq (TypeM.agrees_intern trivial) fun _ => C.same _

theorem narrowByFlow (M : Mirror C p p' f judged asked resolved)
    (J : C.Asks p p' f asked resolved judge judge') (env : Environment) (reference : NodeId)
    (target : DeclId) (declared : TypeId) :
    C.rel (p.narrowByFlow judge env reference target declared)
      (p'.narrowByFlow judge' env reference target declared) Eq := by
  unfold Program.narrowByFlow
  simp only [M.world.canonical, M.flow]
  refine C.bindEq (C.mapMEq _ fun guard hguard => C.factOf M J env
    (M.tested (List.mem_of_mem_filter hguard))) fun facts => ?_
  split
  · exact C.same _
  · exact C.bindLiftEq (agrees_narrow M.world (Program.agrees_relation M.world) env _ facts)
      fun _ => C.same _

theorem identifierType (M : Mirror C p p' f judged asked resolved)
    (J : C.Asks p p' f asked resolved judge judge') (env : Environment) {n : NodeId}
    {target : Option DeclId} (hvisible : ∀ d ∈ target.toList, ¬v.hidden d)
    (hwrite : p'.tree.isWriteAccess n = p.tree.isWriteAccess n) :
    C.rel (p.identifierType judge env n target) (p'.identifierType judge' env n target) Eq := by
  unfold Program.identifierType
  cases target with
  | none => exact C.same _
  | some target =>
    refine C.bindEq (J.decl env target (hvisible target (List.mem_singleton_self _)))
      fun declared => ?_
    refine C.bindEq (C.narrowByFlow M J env n target declared) fun narrowed => ?_
    refine C.bindLiftEq (env.agrees_substitute narrowed) fun t => ?_
    rw [hwrite]
    split
    · exact C.same t
    · exact C.lift (Program.agrees_capture t)

/-! ### Literals with parts -/

/-- A child that is no property contributes no member. -/
private theorem objectLiteralMembers_skip {p : Program} {judge : Judge} {env : Environment}
    {m : NodeId} {properties slots : List Slot}
    (h : ∀ c, p.content? m = some c → Content.inspects (.objectLiteral properties) c = false) :
    p.objectLiteralMembers judge env (some m :: slots) =
      p.objectLiteralMembers judge env slots := by
  rw [Program.objectLiteralMembers]
  split
  · cases h _ ‹_›
  · rfl

theorem objectLiteralMembers (M : Mirror C p p' f judged asked resolved)
    (J : C.Asks p p' f asked resolved judge judge') (env : Environment) {n : NodeId}
    {properties : List Slot} (hn : judged n)
    (hc : p.content? n = some (.objectLiteral properties)) (slots : List Slot)
    (hslots : ∀ slot ∈ slots, slot ∈ properties) :
    C.rel (p.objectLiteralMembers judge env slots)
      (p'.objectLiteralMembers judge' env (slots.map (·.map f)))
      fun members members' => members = members' ∧ (TypeData.structural members).Hides v := by
  induction slots with
  | nil => exact C.return' ⟨rfl, fun _ h => by cases h⟩
  | cons slot slots ih =>
    have hrest := ih fun s hs => hslots s (List.mem_cons_of_mem _ hs)
    cases slot with
    | none => exact hrest
    | some m =>
      have hm : some m ∈ properties := hslots _ (List.mem_cons_self ..)
      have hskip
          (hno : ∀ c, p.content? m = some c →
            Content.inspects (.objectLiteral properties) c = false)
          (hno' : ∀ c, p'.content? (f m) = some c →
            Content.inspects (.objectLiteral properties) c = false) :
          C.rel (p.objectLiteralMembers judge env (some m :: slots))
            (p'.objectLiteralMembers judge' env (some (f m) :: slots.map (·.map f)))
            fun members members' => members = members' ∧
              (TypeData.structural members).Hides v := by
        rw [objectLiteralMembers_skip hno, objectLiteralMembers_skip hno']
        exact hrest
      rw [List.map_cons, Option.map_some]
      have hshows : Content.Shows f _ (p.content? m) (p'.content? (f m)) := M.inspected hn hc hm
      rcases hshows.cases with
        ⟨hnone, hnone'⟩ | ⟨c, hchild, hchild', hinspects⟩ | ⟨c, c', hchild, hchild', hno, hno'⟩
      · refine hskip (fun c h => ?_) fun c h => ?_
        · cases h.symm.trans hnone
        · cases h.symm.trans hnone'
      · obtain ⟨hasked, -, hdecl⟩ := M.properties hn hc hm hchild hinspects
        cases c with
        | propertyAssignment decl name declared value =>
          have hchild : p.content? m = _ := hchild
          have hchild' : p'.content? (f m) = _ := hchild'
          simp only [Program.objectLiteralMembers, hchild, hchild', Content.relocate]
          refine C.bindEq (J.node env m hasked) fun t => C.bind hrest ?_
          rintro members _ ⟨rfl, hmembers⟩
          refine C.return' ⟨rfl, List.forall_mem_cons.mpr ⟨fun d hd => ?_, hmembers⟩⟩
          exact hdecl d (Option.mem_toList.mpr hd)
        | _ => cases hinspects
      · refine hskip (fun c h => ?_) fun c h => ?_
        · cases h.symm.trans hchild
          exact hno
        · cases h.symm.trans hchild'
          exact hno'

theorem objectLiteralType (M : Mirror C p p' f judged asked resolved)
    (J : C.Asks p p' f asked resolved judge judge') (env : Environment) {n : NodeId}
    {properties : List Slot} (hn : judged n)
    (hc : p.content? n = some (.objectLiteral properties)) :
    C.rel (p.objectLiteralType judge env properties)
      (p'.objectLiteralType judge' env (properties.map (·.map f))) Eq := by
  refine C.bind (C.objectLiteralMembers M J env hn hc properties fun _ hs => hs) ?_
  rintro members _ ⟨rfl, hmembers⟩
  exact C.lift (TypeM.agrees_intern hmembers)

/-- What an element contributes to an array literal, by its shape. -/
private theorem arrayItemType?_of_other {p : Program} {judge : Judge} {env : Environment}
    {slot : Slot} {elements : List Slot} {c : Content} (hslot : p.contentAt? slot = some c)
    (hc : Content.inspects (.arrayLiteral elements) c = false) :
    p.arrayItemType? judge env slot =
      (do return some (← p.widen env (← judge.slot env slot)) : InferM (Option TypeId)) := by
  unfold Program.arrayItemType?
  rw [hslot]
  split
  · cases ‹some c = none›
  · cases ‹some c = some _›
    cases hc
  · cases ‹some c = some _›
    cases hc
  · rfl

theorem arrayItemType? (M : Mirror C p p' f judged asked resolved)
    (J : C.Asks p p' f asked resolved judge judge') (env : Environment) {n : NodeId}
    {elements : List Slot} (hn : judged n) (hc : p.content? n = some (.arrayLiteral elements))
    {slot : Slot} (hslot : slot ∈ elements) :
    C.rel (p.arrayItemType? judge env slot) (p'.arrayItemType? judge' env (slot.map f)) Eq := by
  have hplain {c c' : Content} (hchild : p.contentAt? slot = some c)
      (hchild' : p'.contentAt? (slot.map f) = some c')
      (hinspects : Content.inspects (.arrayLiteral elements) c = false)
      (hinspects' : Content.inspects (.arrayLiteral elements) c' = false) :
      C.rel (p.arrayItemType? judge env slot) (p'.arrayItemType? judge' env (slot.map f)) Eq := by
    rw [arrayItemType?_of_other hchild hinspects, arrayItemType?_of_other hchild' hinspects']
    refine C.bindEq (C.slot J env fun m hm => ?_) fun t =>
      C.bindLiftEq (Program.agrees_widen M.world env t) fun _ => C.same _
    subst hm
    exact M.elements hn hc hslot rfl hchild hinspects
  rcases (M.inspected hn hc hslot).cases with
    ⟨hnone, hnone'⟩ | ⟨c, hchild, hchild', hinspects⟩ | ⟨c, c', hchild, hchild', hno, hno'⟩
  · simp only [Program.arrayItemType?, hnone, hnone']
    exact C.same none
  · cases c with
    | arrayPadding =>
      simp only [Program.arrayItemType?, hchild, hchild', Content.relocate]
      exact C.same none
    | arrayElement expression isSpread =>
      cases isSpread with
      | false => cases hinspects
      | true =>
        simp only [Program.arrayItemType?, hchild, hchild', Content.relocate]
        obtain ⟨m, rfl, hm⟩ := Option.bind_eq_some_iff.mp hchild
        refine C.bind (C.receiverSlot M J env (M.receiver? hm)) fun t t' ht => ?_
        refine C.bindLiftEq (ht.iterable env false) fun element => ?_
        exact C.bindLiftEq (Program.agrees_widen M.world env _) fun _ => C.same _
    | _ => cases hinspects
  · exact hplain hchild hchild' hno hno'

theorem arrayLiteralType (M : Mirror C p p' f judged asked resolved)
    (J : C.Asks p p' f asked resolved judge judge') (env : Environment) {n : NodeId}
    {elements : List Slot} (hn : judged n) (hc : p.content? n = some (.arrayLiteral elements)) :
    C.rel (p.arrayLiteralType judge env elements)
      (p'.arrayLiteralType judge' env (elements.map (·.map f))) Eq := by
  unfold Program.arrayLiteralType
  rw [List.mapM_map, M.world.builtins]
  refine C.bindEq (C.mapMEq _ fun slot hslot => C.arrayItemType? M J env hn hc hslot)
    fun types => ?_
  dsimp only
  split
  · exact C.bindEq (C.same _) fun t => C.lift (Program.agrees_arrayOf _ t)
  · exact C.bindLiftEq (Program.agrees_join M.world env _) fun t =>
      C.lift (Program.agrees_arrayOf _ t)

theorem templateType (M : Mirror C p p' f judged asked resolved) {n : NodeId} {parts : List Slot}
    (hn : judged n) (hc : p.content? n = some (.template parts)) :
    C.rel (liftM (p.templateType parts)) (liftM (p'.templateType (parts.map (·.map f)))) Eq := by
  refine C.lift ?_
  match parts with
  | [] | _ :: _ :: _ => exact TypeM.agrees_same _
  | [only] =>
    simp only [Program.templateType, List.map_cons, List.map_nil]
    rcases (M.inspected hn hc (List.mem_singleton_self _)).cases with
      ⟨hnone, hnone'⟩ | ⟨c, hchild, hchild', hinspects⟩ | ⟨c, c', hchild, hchild', hno, hno'⟩
    · rw [hnone, hnone']
      exact TypeM.agrees_same _
    · rw [hchild, hchild']
      cases c with
      | templateSegment text => exact TypeM.agrees_intern trivial
      | _ => cases hinspects
    · rw [hchild, hchild']
      split
      · cases ‹some c = _›
        cases hno
      · split
        · cases ‹some c' = _›
          cases hno'
        · exact TypeM.agrees_same _

theorem taggedTemplateType (J : C.Asks p p' f asked resolved judge judge') (env : Environment)
    {tag : Slot} (htag : tag.Satisfies asked) :
    C.rel (Program.taggedTemplateType judge env tag)
      (Program.taggedTemplateType judge' env (tag.map f)) Eq :=
  C.bindEq (C.slot J env htag) fun t =>
    C.bindLiftEq (Program.agrees_signatureEq? t) fun _ => C.same _

/-! ### Operators -/

/-- A sign in front of an operand. -/
private theorem signedType (J : C.Asks p p' f asked resolved judge judge') (env : Environment)
    (op : UnaryOperator) {operand : Slot} (hoperand : operand.Satisfies asked) :
    C.rel
      (do
        let t ← judge.slot env operand
        match ← TypeM.lookup t with
        | .literal (.number value) =>
          if op = .minus then TypeM.numberLiteral value.neg else return t
        | _ => return .number : InferM TypeId)
      (do
        let t ← judge'.slot env (operand.map f)
        match ← TypeM.lookup t with
        | .literal (.number value) =>
          if op = .minus then TypeM.numberLiteral value.neg else return t
        | _ => return .number : InferM TypeId) Eq := by
  refine C.bindEq (C.slot J env hoperand) fun t => C.bindLookup fun data _ => ?_
  split
  · split
    · exact C.lift (TypeM.agrees_intern trivial)
    · exact C.same _
  · exact C.same _

theorem unaryType (J : C.Asks p p' f asked resolved judge judge') (env : Environment)
    {op : UnaryOperator} {operand : Slot}
    (hoperand : op = .plus ∨ op = .minus → operand.Satisfies asked) :
    C.rel (Program.unaryType judge env op operand)
      (Program.unaryType judge' env op (operand.map f)) Eq := by
  cases op with
  | plus => exact C.signedType J env .plus (hoperand (.inl rfl))
  | minus => exact C.signedType J env .minus (hoperand (.inr rfl))
  | _ => exact C.same _

theorem alternativesType (M : Mirror C p p' f judged asked resolved)
    (J : C.Asks p p' f asked resolved judge judge') (env : Environment) {n : NodeId} {c : Content}
    (hn : judged n) (hc : p.content? n = some c) {first second : Slot} (hfirst : first ∈ c.slots)
    (hsecond : second ∈ c.slots) (haskedFirst : first.Satisfies asked)
    (haskedSecond : second.Satisfies asked) :
    C.rel (p.alternativesType judge env first second)
      (p'.alternativesType judge' env (first.map f) (second.map f)) Eq := by
  unfold Program.alternativesType
  refine C.bindEq (C.slot J env haskedFirst) fun firstType => ?_
  refine C.bindEq (C.slot J env haskedSecond) fun secondType => ?_
  have hunion := C.lift (Program.agrees_union M.world env [firstType, secondType])
  have hrest : C.rel
      (do
        if ← p.isEmptyArray second then
          if ← p.isArray firstType then return firstType
        p.union env [firstType, secondType] : InferM TypeId)
      (do
        if ← p'.isEmptyArray (second.map f) then
          if ← p'.isArray firstType then return firstType
        p'.union env [firstType, secondType] : InferM TypeId) Eq := by
    refine C.bindEq (M.isEmptyArray hn hc hsecond) fun isEmpty => ?_
    split
    · refine C.bindLiftEq (Program.agrees_isArray M.world firstType) fun isArray => ?_
      split
      · exact C.same _
      · exact hunion
    · exact hunion
  refine C.bindEq (M.isEmptyArray hn hc hfirst) fun isEmpty => ?_
  split
  · refine C.bindLiftEq (Program.agrees_isArray M.world secondType) fun isArray => ?_
    split
    · exact C.same _
    · exact hrest
  · exact hrest

theorem binaryType (M : Mirror C p p' f judged asked resolved)
    (J : C.Asks p p' f asked resolved judge judge') (env : Environment) {n : NodeId}
    {op : BinaryOperator} {left right : Slot} (hn : judged n)
    (hc : p.content? n = some (.binary op left right)) :
    C.rel (p.binaryType judge env op left right)
      (p'.binaryType judge' env op (left.map f) (right.map f)) Eq := by
  have hasked (hop : op = .add ∨ op.family = .logical ∨ op.family = .coalesce) :
      left.Satisfies asked ∧ right.Satisfies asked := by
    have hoperands : Content.operands (.binary op left right) = [left, right] := if_pos hop
    refine ⟨M.operands hn hc ?_, M.operands hn hc ?_⟩
    all_goals simp [hoperands]
  have halternatives (hop : op.family = .logical ∨ op.family = .coalesce) :=
    C.alternativesType M J env hn hc (List.mem_cons_self ..)
      (List.mem_cons_of_mem _ (List.mem_singleton_self _)) (hasked (.inr hop)).1
      (hasked (.inr hop)).2
  unfold Program.binaryType
  cases hfamily : op.family with
  | additive =>
    dsimp only
    split
    · exact C.same _
    · obtain ⟨hleft, hright⟩ := hasked (.inl (not_not.mp ‹¬op ≠ .add›))
      refine C.bindEq (C.slot J env hleft) fun leftType => ?_
      refine C.bindEq (C.slot J env hright) fun rightType => ?_
      exact C.lift (Program.agrees_additionType M.world env leftType rightType)
  | logical => exact halternatives (.inl hfamily)
  | coalesce => exact halternatives (.inr hfamily)
  | _ => exact C.same _

theorem assignmentType (M : Mirror C p p' f judged asked resolved)
    (J : C.Asks p p' f asked resolved judge judge') (env : Environment) {n : NodeId}
    {op : AssignmentOperator} {left right : Slot} (hn : judged n)
    (hc : p.content? n = some (.assignment op left right)) :
    C.rel (p.assignmentType judge env op left right)
      (p'.assignmentType judge' env op (left.map f) (right.map f)) Eq := by
  cases op with
  | assign => exact C.slot J env (M.operands hn hc (List.mem_singleton_self _))
  | addAssign =>
    refine C.bindEq (C.slot J env (M.operands hn hc (List.mem_cons_self ..))) fun leftType => ?_
    refine C.bindEq (C.slot J env (M.operands hn hc
      (List.mem_cons_of_mem _ (List.mem_singleton_self _)))) fun rightType => ?_
    exact C.lift (Program.agrees_compoundSumType M.world leftType rightType)
  | _ => exact C.same _

end ScriptTyping.Correspondence
