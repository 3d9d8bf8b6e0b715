import ScriptTyping.Judgment.Infer
import ScriptTyping.Proofs.Judgment.Correspondence

/-!
# Member access on two programs

The receiver of an access may have interchangeable types in the two programs where the access
resolves aliases.  What `this` and `super` mean depends on the nodes around the access.

## Main results

* `Correspondence.propertyAccessType` — access by name.
* `Correspondence.memberValue?`, `Correspondence.indexedAccessType` — access by key.
-/

namespace ScriptTyping.Correspondence

variable {v : Veil} {C : Correspondence v} {p p' : Program} {f : NodeId → NodeId}
  {judged asked resolved : NodeId → Prop} {judge judge' : Judge}

/-! ### Receivers -/

theorem agrees_thisTypeAt? (M : Mirror C p p' f judged asked resolved) {n : NodeId} {c : Content}
    (hn : judged n) (hc : p.content? n = some c) :
    TypeM.Agrees v (p.thisTypeAt? n) (p'.thisTypeAt? n) Eq := by
  unfold Program.thisTypeAt?
  rw [M.enclosingClassifier? hn hc]
  split
  · exact TypeM.agrees_same none
  refine (Program.agrees_ownType M.world _).bindEq fun own => ?_
  refine TypeM.Agrees.bindEq (TypeM.agrees_intern trivial) fun thisType => ?_
  rw [M.isStaticMember]
  split
  · exact TypeM.Agrees.bindEq (TypeM.agrees_intern trivial) fun _ => TypeM.agrees_same _
  · exact TypeM.agrees_same _

theorem agrees_superType (M : Mirror C p p' f judged asked resolved) (env : Environment)
    {n : NodeId} (hn : judged n) (hc : p.content? n = some .superExpr) :
    TypeM.Agrees v (p.superType env n) (p'.superType env n) Eq := by
  have habove (decl : DeclId) : p'.superClass decl = p.superClass decl := by
    have hread : (p'.decl? decl).bind (·.superType) = (p.decl? decl).bind (·.superType) :=
      M.world.read (Option.bind · (·.superType)) (fun _ _ => rfl) decl
    rw [Program.superClass, hread, M.world.objectType, Program.superClass]
  unfold Program.superType
  rw [M.enclosingClass? hn hc]
  split
  · exact TypeM.agrees_same _
  simp only [habove, M.superUse hn hc, M.isStaticMember, M.isConstructor]
  split
  · split
    · exact TypeM.agrees_intern trivial
    · exact TypeM.agrees_same _
  · split
    · exact TypeM.agrees_same _
    refine TypeM.Agrees.bindEq (TypeM.agrees_intern trivial) fun above => ?_
    exact (World.agrees_resolveConstructible? M.world env above).bindEq fun _ =>
      TypeM.agrees_same _
  · exact TypeM.agrees_same _

theorem agrees_rebindThisReturn (M : Mirror C p p' f judged asked resolved) {n : NodeId}
    {c : Content} (hn : judged n) (hc : p.content? n = some c) (t : TypeId) :
    TypeM.Agrees v (p.rebindThisReturn n t) (p'.rebindThisReturn n t) Eq := by
  unfold Program.rebindThisReturn
  refine (Program.agrees_signature? t).bind ?_
  rintro found _ ⟨rfl, hfound⟩
  cases found with
  | none => exact TypeM.agrees_same t
  | some signature =>
    refine .lookup fun data _ => ?_
    split
    · exact TypeM.agrees_same t
    · exact (agrees_thisTypeAt? M hn hc).bindEq fun _ =>
        TypeM.agrees_intern (hfound signature rfl)

theorem agrees_accessScope (M : Mirror C p p' f judged asked resolved) (env : Environment)
    {n : NodeId} {c : Content} (hn : judged n) (hc : p.content? n = some c)
    {target target' : Option Content}
    (htarget : target'.any Content.isThisOrSuper = target.any Content.isThisOrSuper)
    (receiver : TypeId) :
    TypeM.Agrees v (p.accessScope env n target receiver) (p'.accessScope env n target' receiver)
      Eq := by
  have hread (found : Option (NodeId × DeclId)) :
      (found.bind fun found => p'.decl? found.2).bind (·.superType) =
        (found.bind fun found => p.decl? found.2).bind (·.superType) := by
    cases found with
    | none => rfl
    | some found =>
      exact M.world.read (Option.bind · (·.superType)) (fun _ _ => rfl) found.2
  unfold Program.accessScope
  rw [htarget, M.enclosingClassifier? hn hc, hread]
  refine (World.agrees_addSubstitutions M.world env receiver).bindEq fun env => ?_
  dsimp only
  split
  · exact TypeM.agrees_same _
  split
  · exact World.agrees_addSubstitutions M.world _ _
  · exact TypeM.agrees_same _

/-! ### Access by name -/

/-- The type of a member that was found, or of a property of the receiver's shape. -/
private theorem memberAccess (M : Mirror C p p' f judged asked resolved)
    (J : C.Asks p p' f asked resolved judge judge') (env : Environment) (receiver : TypeId)
    (name : Symbol) (typeArgs : List TypeId) {o o' : Option DeclId} (ho : World.Found v o o') :
    C.rel
      (match o with
        | some member => do
          let memberType ← judge.decl env member
          if typeArgs.isEmpty then return (memberType, env)
          return (memberType, ← p.bindTypeArguments env member memberType typeArgs)
        | none => do return ((← Program.shapeMember? receiver name).getD .unknown, env))
      (match o' with
        | some member => do
          let memberType ← judge'.decl env member
          if typeArgs.isEmpty then return (memberType, env)
          return (memberType, ← p'.bindTypeArguments env member memberType typeArgs)
        | none => do return ((← Program.shapeMember? receiver name).getD .unknown, env)) Eq := by
  obtain ⟨rfl, hvisible⟩ := ho
  cases o with
  | none => exact C.bindLiftEq (Program.agrees_shapeMember? receiver name) fun _ => C.same _
  | some member =>
    refine C.bindEq (J.decl env member (hvisible member rfl)) fun memberType => ?_
    split
    · exact C.same _
    · exact C.bindLiftEq (Program.agrees_bindTypeArguments M.world env member memberType _)
        fun _ => C.same _

theorem accessedType (M : Mirror C p p' f judged asked resolved)
    (J : C.Asks p p' f asked resolved judge judge') (env : Environment) (receiver : TypeId)
    (name : Symbol) {property : Option DeclId} (typeArgs : List TypeId)
    (hproperty : ∀ d ∈ property.toList, ¬v.hidden d) :
    C.rel (p.accessedType judge env receiver name property typeArgs)
      (p'.accessedType judge' env receiver name property typeArgs) Eq := by
  unfold Program.accessedType
  refine C.bindLiftEq (Program.agrees_isConstructorProperty M.world name property)
    fun isConstructor => ?_
  split
  · exact C.bindLiftEq (Program.agrees_constructorPropertyType M.world receiver) fun _ => C.same _
  dsimp only
  split
  · exact C.same _
  cases property with
  | some member =>
    refine C.bind (C.return' (V := World.Found v) ⟨rfl, fun d hd => ?_⟩) fun _ _ ho =>
      C.memberAccess M J env receiver name typeArgs ho
    exact hproperty d (Option.mem_toList.mpr hd)
  | none =>
    exact C.bindLift (Program.agrees_memberOf? M.world receiver name) fun _ _ ho =>
      C.memberAccess M J env receiver name typeArgs ho

theorem propertyAccessType (M : Mirror C p p' f judged asked resolved)
    (J : C.Asks p p' f asked resolved judge judge') (env : Environment) {n : NodeId}
    {target : Slot} {name : Symbol} {property : Option DeclId} {typeArgs : List TypeId}
    (hn : judged n) (hc : p.content? n = some (.propertyAccess target name property typeArgs))
    (hproperty : ∀ d ∈ property.toList, ¬v.hidden d) :
    C.rel (p.propertyAccessType judge env n target name property typeArgs)
      (p'.propertyAccessType judge' env n (target.map f) name property typeArgs) Eq := by
  obtain ⟨hthis, hsuper⟩ : (p'.contentAt? (target.map f)).any Content.isThisOrSuper =
      (p.contentAt? target).any Content.isThisOrSuper ∧
      (p'.contentAt? (target.map f) = some .superExpr ↔ p.contentAt? target = some .superExpr) := by
    rcases (M.inspected hn hc (List.mem_singleton_self _)).cases with
      ⟨hnone, hnone'⟩ | ⟨c, hchild, hchild', hinspects⟩ | ⟨c, c', hchild, hchild', hno, hno'⟩
    · rw [hnone, hnone']
      exact ⟨rfl, .rfl⟩
    · rw [hchild, hchild']
      cases c with
      | thisExpr | superExpr => exact ⟨rfl, .rfl⟩
      | _ => cases hinspects
    · have hplain {c : Content}
          (h : Content.inspects (.propertyAccess target name property typeArgs) c = false) :
          c.isThisOrSuper = false ∧ c ≠ .superExpr := by
        cases c with
        | thisExpr | superExpr => cases h
        | _ => exact ⟨rfl, Content.noConfusion⟩
      rw [hchild, hchild', Option.any_some, Option.any_some, (hplain hno).1, (hplain hno').1]
      simp [(hplain hno).2, (hplain hno').2]
  unfold Program.propertyAccessType
  dsimp only
  split
  · exact C.bindEq C.noteFallback fun _ => C.same _
  have htarget := M.operands hn hc (List.mem_singleton_self _)
  refine C.bindEq (C.slot J _ htarget) fun receiver => ?_
  refine C.bindLiftEq (agrees_accessScope M _ hn hc hthis receiver) fun scope => ?_
  refine C.bindLiftEq (TypeM.agrees_upperBound receiver) fun bound => ?_
  refine C.bindEq (C.accessedType M J scope bound name typeArgs hproperty) fun accessed => ?_
  refine C.bindLiftEq (accessed.2.agrees_substitute accessed.1) fun t => ?_
  have hend (t : TypeId) : C.rel
      (if p.contentAt? target = some .superExpr then liftM (p.rebindThisReturn n t) else pure t)
      (if p'.contentAt? (target.map f) = some .superExpr then liftM (p'.rebindThisReturn n t)
        else pure t) Eq := by
    simp only [hsuper]
    split
    · exact C.lift (agrees_rebindThisReturn M hn hc t)
    · exact C.same t
  rw [M.isWriteAccess hn hc]
  split
  · exact C.bindEq (C.same t) hend
  · exact C.bindLiftEq (Program.agrees_capture t) hend

/-! ### Access by key -/

theorem memberValue? (M : Mirror C p p' f judged asked resolved)
    (J : C.Asks p p' f asked resolved judge judge') (env : Environment) (receiver : TypeId)
    (name : Symbol) :
    C.rel (p.memberValue? judge env receiver name) (p'.memberValue? judge' env receiver name)
      Eq := by
  unfold Program.memberValue?
  refine C.bindLiftEq (Program.agrees_shapeMember? receiver name) fun found => ?_
  cases found with
  | some t => exact C.same _
  | none =>
    refine C.bindLift (Program.agrees_memberOf? M.world receiver name) ?_
    rintro member _ ⟨rfl, hvisible⟩
    cases member with
    | none => exact C.same none
    | some member =>
      refine C.bindLiftEq (World.agrees_receiverScope M.world env receiver) fun scope => ?_
      refine C.bindEq (J.decl scope member (hvisible member rfl)) fun t => ?_
      refine C.bindLiftEq (scope.agrees_substitute t) fun t => ?_
      exact C.bindLiftEq (Program.agrees_capture t) fun _ => C.same _

theorem indexedAccessType (M : Mirror C p p' f judged asked resolved)
    (J : C.Asks p p' f asked resolved judge judge') (env : Environment) {n : NodeId}
    {target index : Slot} (hn : judged n) (hc : p.content? n = some (.indexedAccess target index)) :
    C.rel (p.indexedAccessType judge env target index)
      (p'.indexedAccessType judge' env (target.map f) (index.map f)) Eq := by
  have hsuper : (p'.contentAt? (target.map f) = some .superExpr ↔
      p.contentAt? target = some .superExpr) := by
    rcases (M.inspected hn hc (List.mem_singleton_self _)).cases with
      ⟨hnone, hnone'⟩ | ⟨c, hchild, hchild', hinspects⟩ | ⟨c, c', hchild, hchild', hno, hno'⟩
    · rw [hnone, hnone']
    · rw [hchild, hchild']
      cases c with
      | superExpr => exact .rfl
      | _ => cases hinspects
    · rw [hchild, hchild']
      have hplain {c : Content} (h : Content.inspects (.indexedAccess target index) c = false) :
          c ≠ .superExpr := by
        rintro rfl
        cases h
      simp [hplain hno, hplain hno']
  have hmissing (slot : Slot) : (slot.map f).isNone = slot.isNone := by cases slot <;> rfl
  unfold Program.indexedAccessType
  simp only [hmissing, hsuper, M.world.objectType]
  split
  · exact C.same _
  have hfold (q : Program) (t : TypeId) (k : TypeId → InferM TypeId) :
      (liftM (TypeM.upperBound t) >>= fun upper => liftM (q.world.resolveAlias upper) >>= k) =
        (liftM (TypeM.upperBound t >>= q.world.resolveAlias) : InferM TypeId) >>= k := by
    rw [InferM.liftM_bind, bind_assoc]
  refine C.bind (C.receiverSlot M J env (M.receiver? hc)) fun receiver receiver' hreceiver => ?_
  rw [hfold, hfold]
  refine C.bindLiftEq hreceiver.indexed fun receiver => ?_
  refine C.bindEq (C.slot J env (M.operands hn hc (List.mem_singleton_self _))) fun indexType => ?_
  refine C.bindLiftEq (Program.agrees_numericElement? M.world env receiver indexType)
    fun element => ?_
  cases element with
  | some element => exact C.same _
  | none =>
    have hindex : index ∈ Content.slots (.indexedAccess target index) := by simp [Content.slots]
    refine C.bindEq (M.constant? hn hc hindex) fun value => ?_
    have hsignature := Program.agrees_hasIndexSignature M.world receiver
    cases value with
    | none =>
      dsimp only
      split
      · exact C.same _
      · exact C.bindLiftEq hsignature fun _ => C.same _
    | some value =>
      refine C.bindLiftEq (TypeM.agrees_internSymbol _) fun name => ?_
      refine C.bindEq (C.memberValue? M J env receiver name) fun found => ?_
      cases found with
      | some t => exact C.same _
      | none =>
        dsimp only
        split
        · exact C.same _
        refine C.bindLiftEq hsignature fun isIndexed => ?_
        split
        · exact C.same _
        · exact C.same _

end ScriptTyping.Correspondence
