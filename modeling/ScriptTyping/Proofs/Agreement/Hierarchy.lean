import ScriptTyping.Hierarchy.Members
import ScriptTyping.Hierarchy.Subtyping
import ScriptTyping.Proofs.Substitution.Rebuild

/-!
# Agreement over the declared hierarchy

Two worlds are alike but for hidden elements if they differ in the declared types of variables and
parameters that are neither type parameters nor members.  Substitution, aliases, super types, member
lookup and subtyping do not see such a difference.

## Main definitions

* `World.AlikeBut` — the two worlds differ in the declared types of hidden elements only.

## Main results

* `Environment.agrees_substitute`, `World.agrees_resolveAlias`, `World.agrees_supertypes`.
* `World.agrees_resolveMember?` — member lookup, which never finds a hidden element.
* `World.agrees_isSubtype` — the subtype relation.
-/

namespace ScriptTyping

/-- A variable or parameter that declares no signature. -/
def Declaration.isPlainElement (info : Declaration) : Bool :=
  (info.kind == .var || info.kind == .parameter) &&
    !(info.has .callSignature || info.has .constructSignature || info.has .constructor)

namespace World

/-- The two worlds differ in the declared types of hidden elements only. -/
structure AlikeBut (v : Veil) (w w' : World) : Prop where
  builtins : w'.builtins = w.builtins
  fuel : w'.fuel = w.fuel
  size : w'.declarations.size = w.declarations.size
  visible : ∀ d, ¬v.hidden d → w'.decl? d = w.decl? d
  masked : ∀ d, v.hidden d → ∃ info t, w.decl? d = some info ∧
    w'.decl? d = some { info with declaredType := t } ∧ info.isPlainElement = true
  typeParams : ∀ d info, w.decl? d = some info → ∀ param ∈ info.typeParams, ¬v.hidden param
  members : ∀ d info, w.decl? d = some info → ∀ member ∈ info.members, ¬v.hidden member
  merged : ∀ d, ¬v.hidden d → ¬v.hidden (w.declarations.canonical d)

/-- Every world is like itself, with nothing hidden. -/
theorem AlikeBut.refl (w : World) : AlikeBut .transparent w w where
  builtins := rfl
  fuel := rfl
  size := rfl
  visible _ _ := rfl
  masked _ h := h.elim
  typeParams _ _ _ _ _ := id
  members _ _ _ _ _ := id
  merged _ := id

variable {v : Veil} {w w' : World}

namespace AlikeBut

theorem objectType (h : w.AlikeBut v w') : w'.objectType = w.objectType := by
  rw [World.objectType, h.builtins, World.objectType]

theorem decl?_cases (h : w.AlikeBut v w') (d : DeclId) :
    w'.decl? d = w.decl? d ∨ ∃ info t, w.decl? d = some info ∧
      w'.decl? d = some { info with declaredType := t } ∧ info.isPlainElement = true := by
  by_cases hd : v.hidden d
  · exact .inr (h.masked d hd)
  · exact .inl (h.visible d hd)

/-- All but the declared type reads the same. -/
theorem read {α : Type} (h : w.AlikeBut v w') (f : Option Declaration → α)
    (hf : ∀ info t, f (some { info with declaredType := t }) = f (some info)) (d : DeclId) :
    f (w'.decl? d) = f (w.decl? d) := by
  rcases h.decl?_cases d with he | ⟨info, t, he, he', -⟩
  · rw [he]
  · rw [he, he', hf]

theorem kind? (h : w.AlikeBut v w') (d : DeclId) :
    w'.declarations.kind? d = w.declarations.kind? d :=
  h.read (Option.map (·.kind)) (fun _ _ => rfl) d

theorem name? (h : w.AlikeBut v w') (d : DeclId) :
    w'.declarations.name? d = w.declarations.name? d :=
  h.read (Option.map (·.name)) (fun _ _ => rfl) d

theorem variance (h : w.AlikeBut v w') (d : DeclId) :
    w'.declarations.variance d = w.declarations.variance d :=
  h.read (fun o => (o.map Declaration.variance).getD Variance.invariant) (fun _ _ => rfl) d

theorem paramsOf (h : w.AlikeBut v w') (d : DeclId) :
    (w'.decl? d).map (·.typeParams) = (w.decl? d).map (·.typeParams) :=
  h.read (Option.map (·.typeParams)) (fun _ _ => rfl) d

theorem holds (h : w.AlikeBut v w') {p : Declaration → Bool}
    (hp : ∀ info t, p { info with declaredType := t } = p info) (d : DeclId) :
    w'.declarations.holds d p = w.declarations.holds d p :=
  h.read (Option.any p) hp d

theorem declHas (h : w.AlikeBut v w') (d : DeclId) (flag : Flag) :
    w'.declHas d flag = w.declHas d flag :=
  h.holds (fun _ _ => rfl) d

theorem isEnumOf (h : w.AlikeBut v w') (d : DeclId) (kind : EnumKind) :
    w'.isEnumOf d kind = w.isEnumOf d kind :=
  h.holds (fun _ _ => rfl) d

theorem arrayElement? (h : w.AlikeBut v w') (data : TypeData) :
    w'.arrayElement? data = w.arrayElement? data := by
  simp only [World.arrayElement?, h.builtins]

theorem canonical (h : w.AlikeBut v w') (d : DeclId) :
    w'.declarations.canonical d = w.declarations.canonical d := by
  have hlinks : ∀ links d, w'.declarations.canonicalFrom links d =
      w.declarations.canonicalFrom links d := by
    intro links
    induction links with
    | zero => exact fun _ => rfl
    | succ links ih =>
      intro d
      have hmerged : (w'.declarations.get? d).bind (·.mergedInto) =
          (w.declarations.get? d).bind (·.mergedInto) :=
        h.read (Option.bind · (·.mergedInto)) (fun _ _ => rfl) d
      simp only [Declarations.canonicalFrom, hmerged, ih]
  exact hlinks _ d

theorem ownedMember? (h : w.AlikeBut v w') (owner : DeclId) (name : Symbol)
    (isStatic : Bool) :
    w'.declarations.ownedMember? owner name isStatic =
      w.declarations.ownedMember? owner name isStatic := by
  have hholds (member : DeclId) :
      (w'.declarations.holds member fun m => m.name == name && m.isStatic == isStatic) =
        w.declarations.holds member fun m => m.name == name && m.isStatic == isStatic :=
    h.holds (fun _ _ => rfl) member
  simp only [Declarations.ownedMember?, hholds]
  exact h.read (fun o => o >>= fun decl => decl.members.find? fun member =>
    w.declarations.holds member fun m => m.name == name && m.isStatic == isStatic)
    (fun _ _ => rfl) owner

/-- A member is never hidden. -/
theorem not_hidden_of_ownedMember? (h : w.AlikeBut v w') {owner member : DeclId}
    {name : Symbol} {isStatic : Bool}
    (hm : w.declarations.ownedMember? owner name isStatic = some member) : ¬v.hidden member := by
  obtain ⟨info, hinfo, hfind⟩ := Option.bind_eq_some_iff.mp hm
  exact h.members owner info hinfo member (List.mem_of_find?_eq_some hfind)

/-- The bound of a type variable that is not hidden. -/
theorem variableBound (h : w.AlikeBut v w') {d : DeclId} (hd : ¬v.hidden d) :
    w'.declarations.variableBound d = w.declarations.variableBound d := by
  have hvisible := h.visible d hd
  simp only [World.decl?] at hvisible
  rw [Declarations.variableBound, hvisible, Declarations.variableBound]

end AlikeBut

end World

/-! ### Substitution -/

section Substitution

variable {v : Veil}

open TypeM

theorem Traversal.agrees_bindThis (receiver : TypeId) :
    Agrees v (Traversal.bindThis receiver) (Traversal.bindThis receiver) Eq := by
  refine .lookup fun data _ => ?_
  split
  · exact agrees_same receiver
  · exact agrees_intern trivial

theorem Traversal.agrees_apply (r : Traversal) :
    ∀ room t, Agrees v (r.apply room t) (r.apply room t) Eq := by
  intro room
  induction room with
  | zero => exact agrees_same
  | succ room ih =>
    intro t
    rw [Traversal.apply_succ]
    split
    · exact agrees_same t
    refine .lookup fun data hdata => ?_
    obtain ⟨d, rfl⟩ | rfl | hvisit := Traversal.visit_cases data
    · rw [Traversal.visit]
      cases r.resolve d with
      | none => exact agrees_same t
      | some replacement =>
        dsimp only
        split
        · exact agrees_same t
        split
        · exact ih replacement
        · exact agrees_same replacement
    · rw [Traversal.visit]
      cases r.thisType with
      | none => exact agrees_same t
      | some receiver => exact Traversal.agrees_bindThis receiver
    · rw [hvisit]
      refine (TypeData.agrees_rebuild hdata ih).bind ?_
      rintro data' _ ⟨rfl, hdata'⟩
      split
      · exact agrees_same t
      · exact agrees_intern hdata'

theorem Substitution.agrees_instantiate (s : Substitution) (t : TypeId) :
    Agrees v (s.instantiate t) (s.instantiate t) Eq := by
  unfold Substitution.instantiate
  split
  · exact agrees_same t
  · exact s.traversal.agrees_apply _ t

theorem Environment.agrees_substitute (env : Environment) (t : TypeId) :
    Agrees v (env.substitute t) (env.substitute t) Eq := by
  unfold Environment.substitute
  split
  · exact agrees_same t
  · exact env.traversal.agrees_apply _ t

end Substitution

/-! ### Aliases and super types -/

namespace World

variable {v : Veil} {w w' : World}

open TypeM

/-- An element that declares no signature is a variable or a parameter. -/
theorem kind_of_plain {info : Declaration} (h : info.isPlainElement = true) :
    info.kind = .var ∨ info.kind = .parameter := by
  simpa using (Bool.and_eq_true_iff.mp h).1

theorem agrees_expandAlias? (h : w.AlikeBut v w') (t : TypeId) :
    Agrees v (w.expandAlias? t) (w'.expandAlias? t) Eq := by
  refine .lookup fun data _ => ?_
  cases data with
  | nominal decl args =>
    dsimp only
    rcases h.decl?_cases decl with he | ⟨info, aliased, he, he', hplain⟩
    · rw [he]
      split
      · split
        · exact (Substitution.agrees_instantiate _ _).bindEq fun _ => agrees_same _
        · exact agrees_same none
      · exact agrees_same none
    · rw [he, he']
      rcases kind_of_plain hplain with hkind | hkind
      · simp only [hkind]
        exact agrees_same none
      · simp only [hkind]
        exact agrees_same none
  | _ => exact agrees_same none

theorem agrees_resolveAlias (h : w.AlikeBut v w') (t : TypeId) :
    Agrees v (w.resolveAlias t) (w'.resolveAlias t) Eq := by
  have hrounds : ∀ rounds t, Agrees v (w.resolveAliasFrom rounds t)
      (w'.resolveAliasFrom rounds t) Eq := by
    intro rounds
    induction rounds with
    | zero => exact agrees_same
    | succ rounds ih =>
      intro t
      refine (agrees_expandAlias? h t).bindEq fun aliased => ?_
      cases aliased with
      | some aliased => exact ih aliased
      | none => exact agrees_same t
  exact hrounds _ t

theorem agrees_isObjectLikeFrom (h : w.AlikeBut v w') :
    ∀ fuel t, Agrees v (w.isObjectLikeFrom fuel t) (w'.isObjectLikeFrom fuel t) Eq := by
  intro fuel
  induction fuel with
  | zero => exact fun _ => agrees_diverge
  | succ fuel ih =>
    intro t
    unfold isObjectLikeFrom
    refine .lookup fun data hdata => ?_
    cases data with
    | nominal decl args =>
      simp only [h.kind?]
      split
      · refine (agrees_resolveAlias h t).bindEq fun resolved => ?_
        split
        · exact agrees_same false
        · exact ih resolved
      · exact agrees_same true
      · exact agrees_same false
    | typeVariable decl =>
      simp only [h.variableBound hdata]
      split
      · exact agrees_same false
      · exact ih _
    | intersection members => exact (agreement v).anyM members fun member _ => ih member
    | union members => exact (agreement v).allM members fun member _ => ih member
    | wildcard bound kind => exact (agrees_upperBound t).bindEq ih
    | literal value => cases value <;> exact agrees_same _
    | structural | function | metaType | thisType => exact agrees_same true
    | primitive | unknown | dynamicAny => exact agrees_same false

theorem agrees_isObjectLike (h : w.AlikeBut v w') (t : TypeId) :
    Agrees v (w.isObjectLike t) (w'.isObjectLike t) Eq := by
  rw [isObjectLike, isObjectLike, h.fuel]
  exact agrees_isObjectLikeFrom h _ t

theorem agrees_simple (decl : DeclId) : Agrees v (simple decl) (simple decl) Eq :=
  agrees_intern trivial

theorem agrees_literalBase (value : LiteralValue) :
    Agrees v (literalBase value) (literalBase value) Eq := by
  cases value with
  | enumMember enumDecl member => exact agrees_simple enumDecl
  | _ => exact agrees_same _

theorem agrees_clauseSupertypes (h : w.AlikeBut v w') (decl : DeclId) (info : Declaration)
    (args : List TypeId) :
    Agrees v (w.clauseSupertypes decl info args) (w'.clauseSupertypes decl info args) Eq := by
  have hinstantiate (ts : List TypeId) := (agreement v).mapMEq ts fun t _ =>
    Substitution.agrees_instantiate (.ofArgs info.typeParams args) t
  unfold clauseSupertypes
  simp only [h.builtins, h.objectType]
  exact Agrees.bindEq (hinstantiate _) fun above =>
    Agrees.bindEq (hinstantiate _) fun implemented => agrees_same _

theorem agrees_directSupertypes (h : w.AlikeBut v w') (t : TypeId) :
    Agrees v (w.directSupertypes t) (w'.directSupertypes t) Eq := by
  unfold directSupertypes
  refine .lookup fun data hdata => ?_
  cases data with
  | nominal decl args =>
    dsimp only
    rcases h.decl?_cases decl with he | ⟨info, aliased, he, he', hplain⟩
    · rw [he]
      split
      · exact agrees_same []
      · simp only [h.builtins, h.objectType]
        split
        · exact agrees_clauseSupertypes h _ _ _
        · exact agrees_clauseSupertypes h _ _ _
        · exact (agrees_simple _).bindEq fun _ => agrees_same _
        · exact (agrees_resolveAlias h t).bindEq fun _ => agrees_same _
        · exact agrees_same _
        · exact agrees_same []
    · rw [he, he']
      rcases kind_of_plain hplain with hkind | hkind
      · simp only [hkind]
        exact agrees_same []
      · simp only [hkind]
        exact agrees_same []
  | literal value => exact (agrees_literalBase value).bindEq fun _ => agrees_same _
  | typeVariable decl =>
    simp only [h.visible decl hdata]
    exact agrees_same _
  | thisType bound => cases bound <;> exact agrees_same _
  | wildcard bound kind => cases bound <;> cases kind <;> exact agrees_same _
  | function | structural | metaType =>
    simp only [h.builtins, h.objectType]
    exact agrees_same _
  | intersection | union | primitive | unknown | dynamicAny => exact agrees_same _

theorem agrees_supertypesFrom (h : w.AlikeBut v w') (rounds : Nat) (visited queue : List TypeId) :
    Agrees v (w.supertypesFrom rounds visited queue) (w'.supertypesFrom rounds visited queue)
      Eq := by
  induction rounds generalizing visited queue with
  | zero => exact agrees_same _
  | succ rounds ih =>
    cases queue with
    | nil => exact agrees_same visited
    | cons t queue =>
      unfold supertypesFrom
      split
      · exact (agrees_directSupertypes h t).bindEq fun above => ih _ _
      · exact agrees_same _

theorem agrees_supertypes (h : w.AlikeBut v w') (t : TypeId) :
    Agrees v (w.supertypes t) (w'.supertypes t) Eq :=
  agrees_supertypesFrom h _ _ _

theorem agrees_findInstantiation? (h : w.AlikeBut v w') (t : TypeId) (decl : DeclId) :
    Agrees v (w.findInstantiation? t decl) (w'.findInstantiation? t decl) Eq :=
  (agrees_supertypes h t).bindEq fun _ => .get fun _ _ => agrees_same _

theorem agrees_classifierChain (h : w.AlikeBut v w') (t : TypeId) :
    Agrees v (w.classifierChain t) (w'.classifierChain t) Eq :=
  (agrees_supertypes h t).bindEq fun _ => .get fun _ _ => agrees_same _

theorem agrees_recordArguments (h : w.AlikeBut v w') (state : Environment × List DeclId)
    (t : TypeId) :
    Agrees v (w.recordArguments state t) (w'.recordArguments state t) Eq := by
  unfold recordArguments
  refine .lookup fun data _ => ?_
  cases data with
  | nominal decl args =>
    dsimp only
    split
    · exact agrees_same state
    have hloop {info : Declaration} (hinfo : w.decl? decl = some info) :
        Agrees v ((info.typeParams.zip args).foldlM recordArgument state)
          ((info.typeParams.zip args).foldlM recordArgument state) Eq := by
      refine (agreement v).foldlM _ (fun state pair hpair => ?_) state
      unfold recordArgument
      dsimp only
      split
      · exact agrees_same state
      · have hparam := h.typeParams decl info hinfo pair.1 (List.of_mem_zip hpair).1
        exact (agrees_typeVariable hparam).bindEq fun own => agrees_same _
    rcases h.decl?_cases decl with he | ⟨info, t, he, he', -⟩
    · rw [he]
      split
      · exact hloop ‹_›
      · exact agrees_same state
    · rw [he, he']
      exact hloop he
  | _ => exact agrees_same state

theorem agrees_addSubstitutions (h : w.AlikeBut v w') (env : Environment)
    (receiver : TypeId) :
    Agrees v (w.addSubstitutions env receiver) (w'.addSubstitutions env receiver) Eq :=
  (agrees_supertypes h receiver).bindEq fun above =>
    Agrees.bindEq ((agreement v).foldlM above
      (fun state t _ => agrees_recordArguments h state t) _) fun state => agrees_same state.1

/-! ### Member lookup -/

/-- The declaration that was found is not hidden. -/
def Found (v : Veil) (found found' : Option DeclId) : Prop :=
  found = found' ∧ ∀ member, found = some member → ¬v.hidden member

theorem found_none : Found v none none := ⟨rfl, fun _ h => by cases h⟩

theorem agrees_declaredMember? (h : w.AlikeBut v w') (query : MemberQuery)
    (receiver : TypeId) :
    Agrees v (w.declaredMember? query receiver) (w'.declaredMember? query receiver)
      (Found v) := by
  unfold declaredMember?
  simp only [h.kind?, h.ownedMember?]
  refine (agrees_classifierChain h receiver).bindEq fun chain => .pure ⟨rfl, fun member hm => ?_⟩
  obtain ⟨decl, -, hdecl⟩ := List.exists_of_findSome?_eq_some hm
  split at hdecl
  · exact h.not_hidden_of_ownedMember? hdecl
  · cases hdecl

theorem agrees_agreeing {α β : Type} [DecidableEq β] {ask ask' : α → TypeM (Option β)}
    {V : Option β → Prop} (hnone : V none) (l : List α)
    (hask : ∀ a ∈ l, Agrees v (ask a) (ask' a) fun o o' => o = o' ∧ V o) :
    ∀ agreed, V agreed → Agrees v (agreeing ask agreed l) (agreeing ask' agreed l)
      fun o o' => o = o' ∧ V o := by
  induction l with
  | nil => exact fun agreed hagreed => .pure ⟨rfl, hagreed⟩
  | cons a l ih =>
    intro agreed hagreed
    unfold agreeing
    refine (hask a (List.mem_cons_self ..)).bind ?_
    rintro o _ ⟨rfl, ho⟩
    cases o with
    | none => exact .pure ⟨rfl, hnone⟩
    | some b =>
      dsimp only
      split
      · exact .pure ⟨rfl, hnone⟩
      · exact ih (fun a' ha' => hask a' (List.mem_cons_of_mem _ ha')) (some b) ho

theorem agrees_resolveMemberFrom (h : w.AlikeBut v w') (query : MemberQuery) :
    ∀ fuel t, Agrees v (w.resolveMemberFrom query fuel t)
      (w'.resolveMemberFrom query fuel t) (Found v) := by
  intro fuel
  induction fuel with
  | zero => exact fun _ => agrees_diverge
  | succ fuel ih =>
    intro receiver
    refine (agrees_resolveAlias h receiver).bindEq fun receiver => ?_
    refine .lookup fun data hdata => ?_
    cases data with
    | structural members =>
      refine .pure ⟨rfl, fun member hm => ?_⟩
      obtain ⟨property, hproperty, hdecl⟩ := Option.bind_eq_some_iff.mp hm
      exact hdata property (List.mem_of_find?_eq_some hproperty) member hdecl
    | metaType arg isConstructor => exact ih arg
    | union members =>
      exact agrees_agreeing (fun _ h => by cases h) members (fun member _ => ih member) none
        fun _ h => by cases h
    | intersection members =>
      exact (agreement v).findSomeM? (V := fun o _ => ∀ member, o = some member →
        ¬v.hidden member) (fun _ h => by cases h) members fun member _ => ih member
    | unknown | dynamicAny | primitive => exact .pure found_none
    | _ => exact agrees_declaredMember? h query receiver

theorem agrees_resolveMember? (h : w.AlikeBut v w') (query : MemberQuery)
    (receiver : TypeId) :
    Agrees v (w.resolveMember? query receiver) (w'.resolveMember? query receiver)
      (Found v) := by
  rw [resolveMember?, resolveMember?, h.fuel]
  exact agrees_resolveMemberFrom h query _ receiver

end World

/-! ### Subtyping -/

namespace Subtyping

variable {v : Veil} {w w' : World} {ask ask' : Query}

open TypeM World

/-- Agreement of computations that also move the guard of pairs. -/
def checkAgreement (v : Veil) : RunLogic CheckM :=
  (agreement v).stateT PairGuard

/-- The answers to other questions agree. -/
def AnswerAlike (v : Veil) (ask ask' : Query) : Prop :=
  ∀ source target, (checkAgreement v).rel (ask source target) (ask' source target) Eq

private theorem lifted {α : Type} {x y : TypeM α} (h : Agrees v x y Eq) :
    (checkAgreement v).rel (liftM x) (liftM y) Eq :=
  (agreement v).stateT_lift h

private theorem lookup_bind {α β : Type} {V : α → β → Prop} {t : TypeId} {f : TypeData → CheckM α}
    {g : TypeData → CheckM β}
    (h : ∀ data, data.Hides v → (checkAgreement v).rel (f data) (g data) V) :
    (checkAgreement v).rel (liftM (TypeM.lookup t) >>= f) (liftM (TypeM.lookup t) >>= g) V :=
  fun guard => Agrees.lookup fun data hdata => h data hdata guard

private theorem agrees_argumentRule (hask : AnswerAlike v ask ask') (source target : TypeId)
    (variance : Variance) :
    (checkAgreement v).rel (argumentRule ask source target variance)
      (argumentRule ask' source target variance) Eq := by
  unfold argumentRule
  split
  · exact (checkAgreement v).same true
  refine lookup_bind fun data _ => ?_
  split
  · exact (checkAgreement v).same true
  · exact (checkAgreement v).bindEq (lifted (agrees_upperBound source)) fun _ => hask _ _
  · refine lookup_bind fun data _ => ?_
    split
    · exact hask _ _
    · exact (checkAgreement v).same false
    · exact hask _ _
  · cases variance with
    | covariant => exact hask source target
    | contravariant => exact hask target source
    | invariant =>
      refine (checkAgreement v).bindEq (hask source target) fun b => ?_
      split
      · exact hask target source
      · exact (checkAgreement v).same false

private theorem agrees_argumentsRule (h : w.AlikeBut v w') (hask : AnswerAlike v ask ask') :
    ∀ params sources targets, (checkAgreement v).rel
      (argumentsRule w ask params sources targets) (argumentsRule w' ask' params sources targets)
      Eq := by
  intro params sources
  induction sources generalizing params with
  | nil =>
    intro targets
    unfold argumentsRule
    exact (checkAgreement v).same true
  | cons source sources ih =>
    intro targets
    cases targets with
    | nil =>
      unfold argumentsRule
      exact (checkAgreement v).same true
    | cons target targets =>
      have hvariance : w'.declarations.variance = w.declarations.variance := funext h.variance
      unfold argumentsRule
      rw [hvariance]
      refine (checkAgreement v).bindEq (agrees_argumentRule hask _ _ _) fun b => ?_
      split
      · exact ih _ targets
      · exact (checkAgreement v).same false

private theorem agrees_nominalRule (h : w.AlikeBut v w') (hask : AnswerAlike v ask ask')
    (source : TypeId) (decl : DeclId) (args : List TypeId) :
    (checkAgreement v).rel (nominalRule w ask source decl args)
      (nominalRule w' ask' source decl args) Eq := by
  unfold nominalRule
  simp only [h.builtins, h.paramsOf]
  split
  · exact lifted (agrees_isObjectLike h source)
  refine (checkAgreement v).bindEq (lifted (agrees_findInstantiation? h source decl))
    fun found => ?_
  cases found with
  | none => exact (checkAgreement v).same false
  | some found =>
    dsimp only
    split
    · exact (checkAgreement v).same true
    · exact agrees_argumentsRule h hask _ _ _

private theorem agrees_functionRule (hask : AnswerAlike v ask ask') (source target : Signature) :
    (checkAgreement v).rel (functionRule ask source target)
      (functionRule ask' source target) Eq := by
  unfold functionRule
  dsimp only
  split
  · exact (checkAgreement v).same false
  refine (checkAgreement v).bindEq ((checkAgreement v).allM _ fun pair _ =>
    hask pair.2.type pair.1.type) fun b => ?_
  split
  · split
    · exact (checkAgreement v).same true
    · exact hask _ _
  · exact (checkAgreement v).same false

private theorem agrees_structuralRule (hask : AnswerAlike v ask ask')
    (source target : List Property) :
    (checkAgreement v).rel (structuralRule ask source target)
      (structuralRule ask' source target) Eq := by
  refine (checkAgreement v).allM target fun member _ => ?_
  split
  · exact hask _ _
  · exact (checkAgreement v).same _

private theorem agrees_layerRule (h : w.AlikeBut v w') (hask : AnswerAlike v ask ask')
    (source target : TypeId) {sourceData targetData : TypeData}
    (hsource : sourceData.Hides v) :
    (checkAgreement v).rel (layerRule w ask source target sourceData targetData)
      (layerRule w' ask' source target sourceData targetData) Eq := by
  have hfalse := (checkAgreement v).same false
  have htrue := (checkAgreement v).same true
  unfold layerRule
  simp only [h.objectType]
  split
  · refine (checkAgreement v).bindEq (lifted (agrees_upperBound source)) fun upper => ?_
    split
    · exact hfalse
    · exact hask _ _
  · exact htrue
  · exact hask _ _
  · exact hask _ _
  · exact hask _ _
  · exact hask _ _
  · exact hask _ _
  · exact hfalse
  · simp only [h.variableBound hsource]
    split
    · exact hfalse
    · exact hask _ _
  · exact hfalse
  · exact (checkAgreement v).bindEq (lifted (agrees_literalBase _)) fun _ => hask _ _
  · exact hfalse
  · exact hfalse
  · split
    · exact hask _ _
    · exact hfalse
  · exact agrees_functionRule hask _ _
  · exact agrees_structuralRule hask _ _
  · exact agrees_nominalRule h hask source _ _
  · exact agrees_nominalRule h hask source _ _
  · exact agrees_nominalRule h hask source _ _
  · exact agrees_nominalRule h hask source _ _
  · exact hfalse

private theorem agrees_rules (h : w.AlikeBut v w') (hask : AnswerAlike v ask ask')
    (source target : TypeId) :
    (checkAgreement v).rel (rules w ask source target) (rules w' ask' source target) Eq := by
  unfold rules
  split
  · exact (checkAgreement v).same true
  split
  · exact (checkAgreement v).same true
  split
  · exact (checkAgreement v).same true
  split
  · exact (checkAgreement v).same _
  split
  · exact (checkAgreement v).same false
  refine (checkAgreement v).bindEq (lifted (agrees_resolveAlias h source)) fun source => ?_
  refine (checkAgreement v).bindEq (lifted (agrees_resolveAlias h target)) fun target => ?_
  refine lookup_bind fun sourceData hsource => lookup_bind fun targetData _ => ?_
  split
  · exact (checkAgreement v).allM _ fun member _ => hask member target
  · exact (checkAgreement v).anyM _ fun member _ => hask source member
  · exact (checkAgreement v).allM _ fun member _ => hask source member
  · exact (checkAgreement v).anyM _ fun member _ => hask member target
  · exact agrees_layerRule h hask source target hsource

theorem agrees_check (h : w.AlikeBut v w') :
    ∀ room, AnswerAlike v (check w room) (check w' room) := by
  intro room
  induction room with
  | zero => exact fun source target => (checkAgreement v).same _
  | succ room ih =>
    intro source target
    unfold check
    split
    · exact (checkAgreement v).same true
    refine (checkAgreement v).bindEq
      ((agreement v).stateT_modifyGet _) fun entry => ?_
    cases entry with
    | entered =>
      refine (checkAgreement v).bindEq (agrees_rules h ih source target)
        fun result => ?_
      exact (checkAgreement v).bindEq
        ((agreement v).stateT_modifyGet _) fun _ => (checkAgreement v).same _
    | cycle => exact (checkAgreement v).same true
    | depthExceeded | iterationExceeded => exact (checkAgreement v).same false

end Subtyping

/-- Two subtype relations agree. -/
def TypeRelation.Agrees (v : Veil) (rel rel' : TypeRelation) : Prop :=
  ∀ env source target, TypeM.Agrees v (rel env source target) (rel' env source target) Eq

theorem World.agrees_isSubtype {v : Veil} {w w' : World}
    (h : w.AlikeBut v w') : TypeRelation.Agrees v w.isSubtype w'.isSubtype := by
  intro env source target
  refine (Environment.agrees_substitute env source).bindEq fun source => ?_
  refine (Environment.agrees_substitute env target).bindEq fun target => ?_
  refine TypeM.Agrees.bind (Subtyping.agrees_check h _ source target _) fun a b hab => ?_
  exact .pure hab.1

end ScriptTyping
