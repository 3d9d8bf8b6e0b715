import ScriptTyping.Lattice.Join
import ScriptTyping.Lattice.Narrowing
import ScriptTyping.Proofs.Agreement.Hierarchy
import ScriptTyping.Signature.Arguments
import ScriptTyping.Signature.Resolution

/-!
# Agreement over composites, joins and signatures

Unions and intersections, joins, widening and narrowing agree over worlds that are alike but for
hidden elements, given subtype relations that agree; so do the resolution of callees and the type
arguments of calls.

## Main results

* `Composite.agrees_build`, `agrees_joinTypes` — short forms and joins.
* `agrees_sanitizeDeclared`, `agrees_narrow` — widening and narrowing.
* `World.agrees_resolveCallable?`, `World.agrees_resolveConstructible?` — callees.
* `TypeArguments.agrees_infer` — type arguments.
-/

namespace ScriptTyping

open TypeM

variable {v : Veil} {w w' : World} {rel rel' : TypeRelation}

theorem TypeRelation.Agrees.strict (hrel : rel.Agrees v rel') (env : Environment)
    (source target : TypeId) :
    TypeM.Agrees v (rel.strict env source target) (rel'.strict env source target) Eq := by
  unfold TypeRelation.strict
  split
  · exact agrees_same false
  refine (hrel env source target).bindEq fun below => ?_
  split
  · exact (hrel env target source).bindEq fun above => agrees_same _
  · exact agrees_same false

/-! ### Composites -/

/-- Texts of types do not depend on declared types. -/
theorem Rendering.type_eq (h : w.AlikeBut v w') (table : TypeTable) (t : TypeId) :
    Rendering.type table w'.declarations t = Rendering.type table w.declarations t := by
  have hname : Rendering.declName table w'.declarations =
      Rendering.declName table w.declarations := by
    funext d
    simp only [Rendering.declName, h.name?]
  have hliteral : Rendering.literal table w'.declarations =
      Rendering.literal table w.declarations := by
    funext value
    cases value <;> simp only [Rendering.literal, hname]
  have hsignature : Rendering.signature table w'.declarations =
      Rendering.signature table w.declarations := by
    funext render s
    simp only [Rendering.signature, hname]
  have hroom : ∀ room, Rendering.typeFrom table w'.declarations room =
      Rendering.typeFrom table w.declarations room := by
    intro room
    induction room with
    | zero => rfl
    | succ room ih =>
      funext t
      simp only [Rendering.typeFrom, ih, hname, hliteral, hsignature]
  rw [Rendering.type, hroom, Rendering.type]

namespace Composite

theorem agrees_intern (kind : Composite) (members : List TypeId) :
    Agrees v (kind.intern members) (kind.intern members) Eq := by
  cases kind with
  | union => exact TypeM.agrees_intern trivial
  | intersection => exact TypeM.agrees_intern trivial

theorem agrees_redundancies (h : w.AlikeBut v w') (hrel : rel.Agrees v rel')
    (kind : Composite) (env : Environment) (candidates : List TypeId) :
    Agrees v (kind.redundancies rel w env candidates)
      (kind.redundancies rel' w' env candidates) Eq := by
  unfold redundancies
  split
  · exact agrees_same []
  refine Agrees.bindEq ((agreement v).mapMEq candidates fun member _ => ?_)
    fun found => agrees_same _
  refine Agrees.bindEq ((agreement v).findM? candidates fun other _ => ?_) fun witness => ?_
  · split
    · exact agrees_same false
    · cases kind with
      | union => exact hrel.strict env member other
      | intersection => exact hrel.strict env other member
  · cases witness with
    | none => exact agrees_same none
    | some witness =>
      refine Agrees.bindEq (.get fun T _ => ?_) fun _ => agrees_same _
      simp only [Rendering.type_eq h]
      exact agrees_same _

theorem agrees_build (h : w.AlikeBut v w') (hrel : rel.Agrees v rel')
    (kind : Composite) (env : Environment) (members : List TypeId) :
    Agrees v (kind.build rel w env members) (kind.build rel' w' env members) Eq := by
  refine .get fun T _ => (agrees_ofOption _).bindEq fun leaves => ?_
  split
  · exact agrees_same _
  · exact agrees_same _
  · refine (agrees_redundancies h hrel kind env _).bindEq fun dropped => ?_
    refine Agrees.bindEq ?_ fun result => agrees_same _
    unfold assemble
    split
    · exact agrees_same _
    · exact agrees_same _
    · exact agrees_intern kind _

theorem agrees_create (h : w.AlikeBut v w') (hrel : rel.Agrees v rel')
    (kind : Composite) (env : Environment) (members : List TypeId) :
    Agrees v (kind.create rel w env members) (kind.create rel' w' env members) Eq :=
  (agrees_build h hrel kind env members).bindEq fun built => agrees_same built.1

end Composite

theorem agrees_simplify (h : w.AlikeBut v w') (hrel : rel.Agrees v rel')
    (env : Environment) (t : TypeId) :
    Agrees v (simplify rel w env t) (simplify rel' w' env t) Eq := by
  refine .lookup fun data _ => ?_
  split
  · exact Composite.agrees_build h hrel .union env _
  · exact Composite.agrees_build h hrel .intersection env _
  · exact agrees_same _

theorem agrees_createUnion (h : w.AlikeBut v w') (hrel : rel.Agrees v rel')
    (env : Environment) (members : List TypeId) :
    Agrees v (createUnion rel w env members) (createUnion rel' w' env members) Eq :=
  Composite.agrees_create h hrel .union env members

theorem agrees_createIntersection (h : w.AlikeBut v w') (hrel : rel.Agrees v rel')
    (env : Environment) (members : List TypeId) :
    Agrees v (createIntersection rel w env members)
      (createIntersection rel' w' env members) Eq :=
  Composite.agrees_create h hrel .intersection env members

/-! ### Joins -/

namespace Join

/-- Agreement of computations that collect dropped members. -/
def reportAgreement (v : Veil) : RunLogic ReportM :=
  (agreement v).stateT (List Redundancy)

private theorem lifted {α : Type} {x y : TypeM α} (h : Agrees v x y Eq) :
    (reportAgreement v).rel (liftM x) (liftM y) Eq :=
  (agreement v).stateT_lift h

private theorem get_bind {α β : Type} {V : α → β → Prop} {f : TypeTable → ReportM α}
    {g : TypeTable → ReportM β} (h : ∀ T, (reportAgreement v).rel (f T) (g T) V) :
    (reportAgreement v).rel (liftM (MonadState.get : TypeM TypeTable) >>= f)
      (liftM (MonadState.get : TypeM TypeTable) >>= g) V :=
  fun reports T hT => h T reports T hT

variable {join join' : List TypeId → ReportM TypeId}

/-- Nested joins agree. -/
def Nested (v : Veil) (join join' : List TypeId → ReportM TypeId) : Prop :=
  ∀ types, (reportAgreement v).rel (join types) (join' types) Eq

theorem agrees_minimal (hrel : rel.Agrees v rel') (env : Environment)
    (candidates : List TypeId) :
    Agrees v (minimal rel env candidates) (minimal rel' env candidates) Eq := by
  refine Agrees.bindEq ((agreement v).filterM candidates fun c _ => ?_) fun lowest =>
    .get fun T _ => agrees_same _
  refine Agrees.bindEq ((agreement v).anyM candidates fun d _ => ?_) fun _ => agrees_same _
  split
  · exact agrees_same false
  · exact hrel.strict env d c

private theorem agrees_mergeColumn (hrel : rel.Agrees v rel')
    (hjoin : Nested v join join') (env : Environment) (variance : Variance)
    (column : List TypeId) :
    (reportAgreement v).rel (mergeColumn rel env join variance column)
      (mergeColumn rel' env join' variance column) Eq := by
  unfold mergeColumn
  cases column with
  | nil => exact (reportAgreement v).same none
  | cons first rest =>
    dsimp only
    split
    · exact (reportAgreement v).same (some first)
    refine (reportAgreement v).bindEq ((reportAgreement v).mapMEq _ fun t _ =>
      lifted (agrees_upperBound t)) fun upper => ?_
    cases variance with
    | covariant => exact (reportAgreement v).bindEq (hjoin upper) fun _ =>
        (reportAgreement v).same _
    | invariant =>
      refine (reportAgreement v).bindEq (hjoin upper) fun bound => ?_
      exact (reportAgreement v).bindEq (lifted (TypeM.agrees_intern trivial)) fun _ =>
        (reportAgreement v).same _
    | contravariant =>
      exact (reportAgreement v).findM? _ fun c _ => (reportAgreement v).allM _ fun o _ =>
        lifted (hrel env c o)

theorem agrees_mergeColumns (h : w.AlikeBut v w') (hrel : rel.Agrees v rel')
    (hjoin : Nested v join join') (env : Environment) (params : List DeclId) :
    ∀ rows, (reportAgreement v).rel (mergeColumns rel w env join params rows)
      (mergeColumns rel' w' env join' params rows) Eq := by
  induction params with
  | nil => exact fun rows => (reportAgreement v).same (some [])
  | cons param params ih =>
    intro rows
    simp only [mergeColumns, h.variance]
    refine (reportAgreement v).bindEq (agrees_mergeColumn hrel hjoin env _ _) fun arg => ?_
    cases arg with
    | none => exact (reportAgreement v).same none
    | some arg => exact (reportAgreement v).bindEq (ih _) fun _ =>
        (reportAgreement v).same _

private theorem agrees_merge (h : w.AlikeBut v w') (hrel : rel.Agrees v rel')
    (hjoin : Nested v join join') (env : Environment) (decl : DeclId)
    (references : List TypeId) :
    (reportAgreement v).rel (merge rel w env join decl references)
      (merge rel' w' env join' decl references) Eq := by
  unfold merge
  have hparams := h.paramsOf decl
  cases hinfo : w.decl? decl with
  | none =>
    rw [hinfo, Option.map_none, Option.map_eq_none_iff] at hparams
    rw [hparams]
    exact (reportAgreement v).same none
  | some info =>
    rw [hinfo, Option.map_some, Option.map_eq_some_iff] at hparams
    obtain ⟨info', hinfo', hparams⟩ := hparams
    rw [hinfo']
    dsimp only
    rw [hparams]
    refine get_bind fun T => ?_
    split
    · exact (reportAgreement v).bindEq (lifted (World.agrees_simple decl)) fun _ =>
        (reportAgreement v).same _
    refine (reportAgreement v).bindEq (agrees_mergeColumns h hrel hjoin env _ _)
      fun args => ?_
    cases args with
    | none => exact (reportAgreement v).same none
    | some args =>
      exact (reportAgreement v).bindEq
        (lifted (@TypeM.agrees_intern v (.nominal decl args) trivial)) fun _ =>
        (reportAgreement v).same _

private theorem agrees_common (h : w.AlikeBut v w') (hrel : rel.Agrees v rel')
    (hjoin : Nested v join join') (env : Environment) (args : List TypeId) :
    (reportAgreement v).rel (common rel w env join args) (common rel' w' env join' args)
      Eq := by
  unfold common
  simp only [h.objectType]
  refine (reportAgreement v).bindEq ((reportAgreement v).mapMEq _ fun t _ =>
    lifted (World.agrees_supertypes h t)) fun closures => get_bind fun T => ?_
  refine (reportAgreement v).bindEq ((reportAgreement v).mapMEq _ fun shared _ => ?_)
    fun merged => (reportAgreement v).same _
  obtain ⟨decl, references⟩ := shared
  cases references with
  | nil => exact (reportAgreement v).same none
  | cons first rest =>
    dsimp only
    split
    · exact (reportAgreement v).same _
    · exact agrees_merge h hrel hjoin env decl _

private theorem agrees_joinDistinct (h : w.AlikeBut v w') (hrel : rel.Agrees v rel')
    (hjoin : Nested v join join') (env : Environment) (args : List TypeId) :
    (reportAgreement v).rel (joinDistinct rel w env join args)
      (joinDistinct rel' w' env join' args) Eq := by
  unfold joinDistinct
  simp only [h.objectType]
  refine (reportAgreement v).bindEq ((reportAgreement v).filterM _ fun candidate _ =>
    (reportAgreement v).allM _ fun other _ => ?_) fun tops => ?_
  · split
    · exact (reportAgreement v).same true
    · exact lifted (hrel env other candidate)
  cases tops with
  | cons top tops => exact (reportAgreement v).same top
  | nil =>
    refine (reportAgreement v).bindEq (agrees_common h hrel hjoin env args) fun shared => ?_
    refine (reportAgreement v).bindEq (lifted (agrees_minimal hrel env shared))
      fun lowest => ?_
    split
    · refine (reportAgreement v).bindEq ((reportAgreement v).allM args fun t _ =>
        lifted (World.agrees_isObjectLike h t)) fun isObject => ?_
      split
      · exact (reportAgreement v).same _
      · exact lifted (agrees_createUnion h hrel env args)
    · exact (reportAgreement v).same _
    · exact lifted (agrees_createIntersection h hrel env _)

private theorem agrees_joinShort (h : w.AlikeBut v w') (hrel : rel.Agrees v rel')
    (hjoin : Nested v join join') (env : Environment) (args : List TypeId) :
    (reportAgreement v).rel (joinShort rel w env join args)
      (joinShort rel' w' env join' args) Eq := by
  unfold joinShort
  split
  · exact (reportAgreement v).same _
  · exact (reportAgreement v).same _
  split
  · exact (reportAgreement v).same _
  split
  · exact (reportAgreement v).same _
  split
  · exact (reportAgreement v).same _
  dsimp only
  generalize (if (args.eraseDups.filter fun t => !t.isNullish).isEmpty = true then args.eraseDups
    else args.eraseDups.filter fun t => !t.isNullish) = rest
  split
  · exact (reportAgreement v).same _
  refine get_bind fun T => ?_
  split
  · exact lifted (agrees_createUnion h hrel env _)
  · exact agrees_joinDistinct h hrel hjoin env _

theorem agrees_joinFrom (h : w.AlikeBut v w') (hrel : rel.Agrees v rel')
    (env : Environment) :
    ∀ room, Nested v (joinFrom rel w env room) (joinFrom rel' w' env room) := by
  intro room
  induction room with
  | zero => exact fun types => (reportAgreement v).same _
  | succ room ih =>
    intro types
    refine (reportAgreement v).bindEq ((reportAgreement v).mapMEq types fun t _ => ?_)
      fun args => agrees_joinShort h hrel ih env args
    refine (reportAgreement v).bindEq (lifted (agrees_simplify h hrel env t)) fun short => ?_
    exact (reportAgreement v).bindEq ((agreement v).stateT_modifyGet _) fun _ =>
      (reportAgreement v).same short.1

end Join

theorem agrees_joinTypes (h : w.AlikeBut v w') (hrel : rel.Agrees v rel')
    (env : Environment) (types : List TypeId) :
    Agrees v (joinTypes rel w env types) (joinTypes rel' w' env types) Eq :=
  Agrees.bind (Join.agrees_joinFrom h hrel env _ types []) fun _ _ hab => .pure hab.1

/-! ### Widening and narrowing -/

theorem agrees_widenLiterals (h : w.AlikeBut v w') (hrel : rel.Agrees v rel')
    (env : Environment) (t : TypeId) :
    Agrees v (widenLiterals rel w env t) (widenLiterals rel' w' env t) Eq := by
  have hfuel : ∀ fuel t, Agrees v (widenLiteralsFrom rel w env fuel t)
      (widenLiteralsFrom rel' w' env fuel t) Eq := by
    intro fuel
    induction fuel with
    | zero => exact fun _ => agrees_diverge
    | succ fuel ih =>
      intro t
      unfold widenLiteralsFrom
      refine .lookup fun data _ => ?_
      split
      · exact World.agrees_literalBase _
      · refine Agrees.bindEq ((agreement v).mapMEq _ fun member _ => ih member)
          fun widened => ?_
        split
        · exact agrees_same t
        · exact agrees_createUnion h hrel env widened
      · exact agrees_same t
  exact .get fun T _ => hfuel _ t

theorem agrees_sanitizeDeclared (h : w.AlikeBut v w') (hrel : rel.Agrees v rel')
    (env : Environment) (t : TypeId) (widen : Bool) :
    Agrees v (sanitizeDeclared rel w env t widen) (sanitizeDeclared rel' w' env t widen)
      Eq := by
  unfold sanitizeDeclared
  split
  · exact agrees_same _
  split
  · exact agrees_same _
  have hwiden (upper : TypeId) : Agrees v
      (if widen = true then widenLiterals rel w env upper else pure upper)
      (if widen = true then widenLiterals rel' w' env upper else pure upper) Eq := by
    split
    · exact agrees_widenLiterals h hrel env upper
    · exact agrees_same upper
  refine .lookup fun data _ => ?_
  dsimp only
  split
  · exact (agrees_upperBound t).bindEq hwiden
  · exact (agrees_same t).bindEq hwiden

theorem agrees_exclude (h : w.AlikeBut v w') (hrel : rel.Agrees v rel')
    (env : Environment) (excluded : List TypeId) (t : TypeId) :
    Agrees v (exclude rel w env excluded t) (exclude rel' w' env excluded t) Eq := by
  have hexcluded (t : TypeId) : Agrees v (isExcluded rel env excluded t)
      (isExcluded rel' env excluded t) Eq :=
    (agreement v).anyM excluded fun ex _ => hrel env t ex
  unfold exclude
  refine .lookup fun data _ => ?_
  split
  · refine Agrees.bindEq ((agreement v).filterM _ fun member _ =>
      (hexcluded member).bindEq fun _ => agrees_same _) fun kept => ?_
    split
    · exact agrees_same none
    split
    · exact agrees_same _
    · exact (agrees_createUnion h hrel env kept).bindEq fun _ => agrees_same _
  · exact (hexcluded t).bindEq fun _ => agrees_same _

theorem agrees_narrow (h : w.AlikeBut v w') (hrel : rel.Agrees v rel')
    (env : Environment) (base : Option TypeId) (facts : List TypeFact) :
    Agrees v (narrow rel w env base facts) (narrow rel' w' env base facts) Eq := by
  unfold narrow
  dsimp only
  split
  · exact agrees_same base
  refine Agrees.bindEq ?_ fun left => ?_
  · unfold remaining
    split
    · exact agrees_same _
    · exact Agrees.bindEq ((agreement v).mapMEq _ fun t _ => agrees_exclude h hrel env _ t)
        fun _ => agrees_same _
  · split
    · exact agrees_same base
    · exact agrees_same _
    · exact (agrees_createIntersection h hrel env _).bindEq fun _ => agrees_same _

/-! ### Callees -/

namespace World

theorem agrees_receiverScope (h : w.AlikeBut v w') (env : Environment) (receiver : TypeId) :
    Agrees v (w.receiverScope env receiver) (w'.receiverScope env receiver) Eq :=
  (agrees_addSubstitutions h env.wrap receiver).bindEq fun _ => agrees_same _

theorem agrees_instantiateFor (h : w.AlikeBut v w') (env : Environment)
    (receiver t : TypeId) :
    Agrees v (w.instantiateFor env receiver t) (w'.instantiateFor env receiver t) Eq :=
  (agrees_receiverScope h env receiver).bindEq fun scope => scope.agrees_substitute t

/-- The signature of a member with one of the modifiers that elements without signature lack. -/
theorem AlikeBut.flaggedSignature (h : w.AlikeBut v w') (decls : List DeclId) {flag : Flag}
    (hflag : ∀ info : Declaration, info.isPlainElement = true → info.has flag = false) :
    ((w'.flaggedMember? decls flag).bind w'.decl?).bind (·.declaredType) =
      ((w.flaggedMember? decls flag).bind w.decl?).bind (·.declaredType) := by
  have hmembers : (fun d => ((w'.decl? d).map (·.members)).getD []) =
      fun d => ((w.decl? d).map (·.members)).getD [] := by
    funext d
    exact h.read (fun o => (o.map Declaration.members).getD []) (fun _ _ => rfl) d
  have hmember : w'.flaggedMember? decls flag = w.flaggedMember? decls flag := by
    rw [flaggedMember?, flaggedMember?, hmembers]
    exact congrArg (List.find? · _) (funext fun d => h.declHas d flag)
  rw [hmember]
  cases hfound : w.flaggedMember? decls flag with
  | none => rfl
  | some member =>
    have hhas : w.declHas member flag = true := List.find?_some (p := (w.declHas · flag)) hfound
    rcases h.decl?_cases member with he | ⟨info, t, he, -, hplain⟩
    · rw [Option.bind_some, Option.bind_some, he]
    · have hinfo : w.declarations.get? member = some info := he
      simp [World.declHas, Declarations.holds, hinfo, hflag info hplain] at hhas

private theorem not_callSignature {info : Declaration} (h : info.isPlainElement = true) :
    info.has .callSignature = false ∧ info.has .constructSignature = false ∧
      info.has .constructor = false := by
  simpa [Declaration.isPlainElement, and_assoc] using (Bool.and_eq_true_iff.mp h).2

theorem agrees_signatureMember? (h : w.AlikeBut v w') (env : Environment)
    (receiver : TypeId) {flag : Flag}
    (hflag : ∀ info : Declaration, info.isPlainElement = true → info.has flag = false) :
    Agrees v (w.signatureMember? env receiver flag) (w'.signatureMember? env receiver flag)
      Eq := by
  refine (agrees_classifierChain h receiver).bindEq fun chain => ?_
  rw [h.flaggedSignature chain hflag]
  split
  · exact (agrees_instantiateFor h env receiver _).bindEq fun _ => agrees_same _
  · exact agrees_same none

theorem agrees_resolveCallableFrom (h : w.AlikeBut v w') (env : Environment) :
    ∀ fuel t, Agrees v (w.resolveCallableFrom env fuel t)
      (w'.resolveCallableFrom env fuel t) Eq := by
  intro fuel
  induction fuel with
  | zero => exact fun _ => agrees_diverge
  | succ fuel ih =>
    intro t
    refine (env.agrees_substitute t).bindEq fun t => (agrees_resolveAlias h t).bindEq fun t => ?_
    refine .lookup fun data hdata => ?_
    cases data with
    | nominal decl args =>
      simp only [h.builtins]
      split
      · exact agrees_same _
      · exact (agrees_signatureMember? h env t fun _ hi => (not_callSignature hi).1).bindEq
          fun _ => agrees_same _
    | typeVariable decl =>
      simp only [h.variableBound hdata]
      split
      · exact agrees_same none
      · exact ih _
    | thisType bound =>
      cases bound with
      | none => exact agrees_same none
      | some bound =>
        refine (agrees_upperBound t).bindEq fun upper => ?_
        split
        · exact agrees_same none
        · exact ih upper
    | wildcard bound kind =>
      refine (agrees_upperBound t).bindEq fun upper => ?_
      split
      · exact agrees_same none
      · exact ih upper
    | intersection members =>
      exact (agreement v).findSomeMEq? members fun member _ => ih member
    | union members =>
      refine (agrees_agreeing (V := fun _ => True) trivial members (fun member _ =>
        (ih member).mono fun _ _ he => ⟨he, trivial⟩) none trivial).mono fun _ _ he => he.1
    | _ => exact agrees_same _

theorem agrees_resolveCallable? (h : w.AlikeBut v w') (env : Environment) (t : TypeId) :
    Agrees v (w.resolveCallable? env t) (w'.resolveCallable? env t) Eq := by
  rw [resolveCallable?, resolveCallable?, h.fuel]
  exact agrees_resolveCallableFrom h env _ t

theorem agrees_constructorSignature? (h : w.AlikeBut v w') (env : Environment)
    (receiver : TypeId) :
    Agrees v (w.constructorSignature? env receiver) (w'.constructorSignature? env receiver)
      fun o o' => o = o' ∧ ∀ s, o = some s → s.Hides v := by
  have hclass (d : DeclId) : (w'.declarations.holds d (·.kind == .classType)) =
      w.declarations.holds d (·.kind == .classType) := h.holds (fun _ _ => rfl) d
  unfold constructorSignature?
  refine (agrees_classifierChain h receiver).bindEq fun chain => ?_
  simp only [hclass, h.flaggedSignature _ fun _ hi => (not_callSignature hi).2.2]
  split
  · exact (agrees_instantiateFor h env receiver _).bindEq fun _ => .lookup fun data hdata =>
      .pure ⟨rfl, fun s hs => hdata.signature hs⟩
  · exact .pure ⟨rfl, fun _ hs => by cases hs⟩

/-- The type parameters that a class leaves open are its own. -/
theorem agrees_openInstance {decl : DeclId} {info : Declaration}
    (hparams : ∀ param ∈ info.typeParams, ¬v.hidden param) (instanceType : TypeId)
    (args : List TypeId) :
    Agrees v (openInstance instanceType decl info args)
      (openInstance instanceType decl info args)
      fun a b => a = b ∧ ∀ param ∈ a.2, ¬v.hidden param := by
  unfold openInstance
  split
  · refine Agrees.bindEq ((agreement v).mapMEq _ fun param hparam =>
      agrees_typeVariable (hparams param hparam)) fun own => ?_
    refine Agrees.bindEq (@TypeM.agrees_intern v (.nominal decl own) trivial) fun t => ?_
    exact .pure ⟨rfl, hparams⟩
  · exact .pure ⟨rfl, fun _ hparam => by cases hparam⟩

theorem agrees_classConstructor? (h : w.AlikeBut v w') (env : Environment)
    (instanceType : TypeId) :
    Agrees v (w.classConstructor? env instanceType) (w'.classConstructor? env instanceType)
      Eq := by
  unfold classConstructor?
  refine .lookup fun data _ => ?_
  cases data with
  | nominal decl args =>
    dsimp only
    rcases h.decl?_cases decl with he | ⟨info, t, he, he', hplain⟩
    · rw [he]
      split
      · rename_i info hinfo
        split
        · exact agrees_same none
        refine (agrees_openInstance (h.typeParams decl info hinfo) instanceType args).bind ?_
        rintro ⟨instanceType, openParams⟩ _ ⟨rfl, hopen⟩
        refine (agrees_constructorSignature? h env instanceType).bind ?_
        rintro declared _ ⟨rfl, hdeclared⟩
        refine Agrees.bindEq (TypeM.agrees_intern fun param hparam => ?_) fun _ => agrees_same _
        rcases List.mem_append.mp hparam with hparam | hparam
        · exact hopen param hparam
        · cases hs : declared with
          | none => simp [hs, Signature.plain] at hparam
          | some s => exact hdeclared s hs param (by simpa [hs] using hparam)
      · exact agrees_same none
    · rw [he, he']
      have hkind : info.kind ≠ .classType := by
        rcases kind_of_plain hplain with hkind | hkind <;> simp [hkind]
      simp only [hkind, ne_eq, not_false_eq_true, if_true]
      exact agrees_same none
  | _ => exact agrees_same none

theorem agrees_resolveConstructibleFrom (h : w.AlikeBut v w') (env : Environment) :
    ∀ fuel t, Agrees v (w.resolveConstructibleFrom env fuel t)
      (w'.resolveConstructibleFrom env fuel t) Eq := by
  intro fuel
  induction fuel with
  | zero => exact fun _ => agrees_diverge
  | succ fuel ih =>
    intro t
    refine (env.agrees_substitute t).bindEq fun t => (agrees_resolveAlias h t).bindEq fun t => ?_
    refine .lookup fun data hdata => ?_
    cases data with
    | metaType arg isConstructor =>
      cases isConstructor with
      | false => exact agrees_same none
      | true =>
        exact (agrees_upperBound arg).bindEq fun upper => agrees_classConstructor? h env upper
    | nominal decl args =>
      refine (agrees_signatureMember? h env t fun _ hi => (not_callSignature hi).2.1).bindEq
        fun signature => ?_
      cases signature with
      | none => exact agrees_same none
      | some signature => exact .lookup fun _ _ => agrees_same _
    | typeVariable decl =>
      simp only [h.variableBound hdata]
      split
      · exact agrees_same none
      · exact ih _
    | thisType bound =>
      cases bound with
      | none => exact agrees_same none
      | some bound =>
        refine (agrees_upperBound t).bindEq fun upper => ?_
        split
        · exact agrees_same none
        · exact ih upper
    | wildcard bound kind =>
      refine (agrees_upperBound t).bindEq fun upper => ?_
      split
      · exact agrees_same none
      · exact ih upper
    | intersection members =>
      exact (agreement v).findSomeMEq? members fun member _ => ih member
    | _ => exact agrees_same _

theorem agrees_resolveConstructible? (h : w.AlikeBut v w') (env : Environment) (t : TypeId) :
    Agrees v (w.resolveConstructible? env t) (w'.resolveConstructible? env t) Eq := by
  rw [resolveConstructible?, resolveConstructible?, h.fuel]
  exact agrees_resolveConstructibleFrom h env _ t

end World

/-! ### Type arguments -/

namespace TypeArguments

theorem agrees_collect (h : w.AlikeBut v w') :
    ∀ room param arg, Agrees v (collect w room param arg) (collect w' room param arg) Eq := by
  intro room
  induction room with
  | zero => exact fun _ _ => agrees_same []
  | succ room ih =>
    intro param arg
    unfold collect
    split
    · exact agrees_same []
    refine .lookup fun data _ => ?_
    split
    · exact agrees_same _
    · split
      · exact agrees_same []
      refine (World.agrees_findInstantiation? h arg _).bindEq fun found => ?_
      split
      · exact agrees_same []
      · refine Agrees.bindEq ((agreement v).mapMEq _ fun pair _ => ?_) fun _ => agrees_same _
        exact (agrees_upperBound pair.2).bindEq fun upper => ih pair.1 upper
    · exact Agrees.bindEq ((agreement v).mapMEq _ fun member _ => ih member arg)
        fun _ => agrees_same _
    · refine .lookup fun argData _ => ?_
      split
      · exact agrees_same []
      · refine Agrees.bindEq ((agreement v).mapMEq _ fun pair _ => ih pair.1.type pair.2.type)
          fun found => ?_
        exact (ih _ _).bindEq fun _ => agrees_same _
    · refine .lookup fun argData _ => ?_
      split
      · refine Agrees.bindEq ((agreement v).mapMEq _ fun member _ => ?_) fun _ => agrees_same _
        split
        · exact ih _ _
        · exact agrees_same []
      · exact agrees_same []
    · refine .lookup fun argData _ => ?_
      split
      · exact ih _ _
      · exact agrees_same []
    · exact ih _ _
    · exact agrees_same []

theorem parameterTypes_eq (h : w.AlikeBut v w') (table : TypeTable) (args : List TypeId) :
    ∀ params, parameterTypes w' table params args = parameterTypes w table params args := by
  induction args with
  | nil =>
    intro params
    rw [parameterTypes, parameterTypes]
  | cons arg args ih =>
    intro params
    cases params with
    | nil => rw [parameterTypes, parameterTypes]
    | cons param params => simp only [parameterTypes, h.arrayElement?, ih]

theorem agrees_infer (h : w.AlikeBut v w') (hrel : rel.Agrees v rel')
    (env : Environment) {signature : Signature} (hsignature : signature.Hides v)
    (written argTypes : List TypeId) :
    Agrees v (infer w rel env signature written argTypes)
      (infer w' rel' env signature written argTypes) Eq := by
  unfold infer
  split
  · exact agrees_same _
  split
  · exact agrees_same _
  refine .get fun T _ => ?_
  rw [parameterTypes_eq h]
  refine Agrees.bindEq ((agreement v).mapMEq _ fun pair _ =>
    agrees_collect h _ pair.1 pair.2) fun found => ?_
  refine (agreement v).foldlM _ (fun s param hparam => ?_) _
  have hbound := h.variableBound (hsignature param (List.mem_eraseDups.mp hparam))
  refine Agrees.bindEq ?_ fun chosen => agrees_same _
  unfold choose
  simp only [hbound]
  refine Agrees.bindEq ((agreement v).mapMEq _ fun t _ => agrees_widenLiterals h hrel env t)
    fun widened => ?_
  split
  · exact agrees_same _
  · exact agrees_joinTypes h hrel env widened

end TypeArguments

end ScriptTyping
