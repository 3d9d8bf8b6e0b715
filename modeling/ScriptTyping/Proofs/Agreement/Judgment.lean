import ScriptTyping.Judgment.Aggregate
import ScriptTyping.Judgment.Declared
import ScriptTyping.Judgment.Element
import ScriptTyping.Judgment.Invocation
import ScriptTyping.Judgment.Member
import ScriptTyping.Judgment.Operator
import ScriptTyping.Proofs.Agreement.Lattice

/-!
# Agreement of the computations that the judgment uses

The rules of the judgment compute with types in the world of their program.  For programs whose
worlds are alike but for hidden elements these computations agree.  Those that read the syntax tree
are left to the comparison of the rules.

## Main results

* `Program.agrees_iterableElement?`, `Program.agrees_memberOf?`, `Program.agrees_numericElement?`
  and their companions.
-/

namespace ScriptTyping.Program

open TypeM

variable {v : Veil} {p p' : Program}

/-- The programs' relations agree. -/
theorem agrees_relation (h : p.world.AlikeBut v p'.world) :
    p.relation.Agrees v p'.relation :=
  World.agrees_isSubtype h

theorem agrees_union (h : p.world.AlikeBut v p'.world) (env : Environment)
    (members : List TypeId) : Agrees v (p.union env members) (p'.union env members) Eq :=
  agrees_createUnion h (agrees_relation h) env members

theorem agrees_join (h : p.world.AlikeBut v p'.world) (env : Environment)
    (types : List TypeId) : Agrees v (p.join env types) (p'.join env types) Eq :=
  agrees_joinTypes h (agrees_relation h) env types

theorem agrees_widen (h : p.world.AlikeBut v p'.world) (env : Environment) (t : TypeId) :
    Agrees v (p.widen env t) (p'.widen env t) Eq :=
  agrees_widenLiterals h (agrees_relation h) env t

theorem agrees_sanitize (h : p.world.AlikeBut v p'.world) (env : Environment) (t : TypeId)
    (widen : Bool) : Agrees v (p.sanitize env t widen) (p'.sanitize env t widen) Eq :=
  agrees_sanitizeDeclared h (agrees_relation h) env t widen

theorem agrees_capture (t : TypeId) : Agrees v (capture t) (capture t) Eq := by
  refine .lookup fun data _ => ?_
  split
  · exact agrees_upperBound t
  · exact agrees_same t

/-- The signature of a function type, whose open type parameters are not hidden. -/
theorem agrees_signature? (t : TypeId) :
    Agrees v (signature? t) (signature? t)
      fun o o' => o = o' ∧ ∀ s, o = some s → s.Hides v :=
  .lookup fun _ hdata => .pure ⟨rfl, fun _ hs => hdata.signature hs⟩

theorem agrees_signatureEq? (t : TypeId) : Agrees v (signature? t) (signature? t) Eq :=
  (agrees_signature? t).mono fun _ _ h => h.1

theorem agrees_arrayOf (b : Builtins) (t : TypeId) :
    Agrees v (b.arrayOf t) (b.arrayOf t) Eq :=
  agrees_intern trivial

theorem agrees_promiseOf (b : Builtins) (value error : TypeId) :
    Agrees v (b.promiseOf value error) (b.promiseOf value error) Eq :=
  agrees_intern trivial

theorem agrees_joinOr (h : p.world.AlikeBut v p'.world) (env : Environment) (absent : TypeId)
    (types : List TypeId) :
    Agrees v (p.joinOr env absent types) (p'.joinOr env absent types) Eq := by
  unfold joinOr
  split
  · exact agrees_same absent
  · exact agrees_join h env types

/-! ### Members -/

theorem agrees_shapeMember? (receiver : TypeId) (name : Symbol) :
    Agrees v (shapeMember? receiver name) (shapeMember? receiver name) Eq := by
  refine .lookup fun data _ => ?_
  split
  · exact agrees_same _
  · exact agrees_same none

/-- A member is never hidden. -/
theorem agrees_memberOf? (h : p.world.AlikeBut v p'.world) (receiver : TypeId)
    (name : Symbol) :
    Agrees v (p.memberOf? receiver name) (p'.memberOf? receiver name) (World.Found v) :=
  .lookup fun _ _ => World.agrees_resolveMember? h _ receiver

theorem agrees_classifierBehind? (h : p.world.AlikeBut v p'.world) (t : TypeId) :
    Agrees v (p.classifierBehind? t) (p'.classifierBehind? t) Eq := by
  unfold classifierBehind?
  simp only [h.kind?]
  refine .lookup fun data _ => ?_
  split
  · exact agrees_same _
  · exact (World.agrees_classifierChain h t).bindEq fun _ => agrees_same _

theorem agrees_constructorPropertyType (h : p.world.AlikeBut v p'.world)
    (receiver : TypeId) :
    Agrees v (p.constructorPropertyType receiver) (p'.constructorPropertyType receiver)
      Eq := by
  unfold constructorPropertyType
  rw [h.builtins]
  refine .lookup fun data _ => ?_
  split
  · exact agrees_intern trivial
  refine (agrees_classifierBehind? h receiver).bindEq fun found => ?_
  cases found with
  | none => exact agrees_same _
  | some decl =>
    refine (World.agrees_simple decl).bindEq fun bound => ?_
    refine Agrees.bindEq (@agrees_intern v (.wildcard (some bound) .upper) trivial)
      fun upper => ?_
    exact @agrees_intern v (.metaType upper true) trivial

theorem agrees_bindTypeArguments (h : p.world.AlikeBut v p'.world) (env : Environment)
    (member : DeclId) (memberType : TypeId) (typeArgs : List TypeId) :
    Agrees v (p.bindTypeArguments env member memberType typeArgs)
      (p'.bindTypeArguments env member memberType typeArgs) Eq := by
  refine Agrees.bindEq ?_ fun params => agrees_same _
  have hsignature : Agrees v
      (do return ((← signature? memberType).map (·.typeParams)).getD [])
      (do return ((← signature? memberType).map (·.typeParams)).getD []) Eq :=
    (agrees_signatureEq? memberType).bindEq fun _ => agrees_same _
  have hinfo (info : Declaration) : Agrees v
      (if info.isGeneric = true then pure info.typeParams
        else do return ((← signature? memberType).map (·.typeParams)).getD [])
      (if info.isGeneric = true then pure info.typeParams
        else do return ((← signature? memberType).map (·.typeParams)).getD []) Eq := by
    split
    · exact agrees_same _
    · exact hsignature
  unfold memberTypeParams
  simp only [Program.decl?]
  rcases h.decl?_cases member with he | ⟨info, t, he, he', -⟩
  · rw [he]
    split
    · exact hinfo _
    · exact hsignature
  · rw [he, he']
    exact hinfo info

theorem agrees_isConstructorProperty (h : p.world.AlikeBut v p'.world) (name : Symbol)
    (property : Option DeclId) :
    Agrees v (p.isConstructorProperty name property) (p'.isConstructorProperty name property)
      Eq := by
  unfold isConstructorProperty
  simp only [h.declHas]
  cases property with
  | none => exact (agrees_text name).bindEq fun _ => agrees_same _
  | some member => exact agrees_same _

theorem agrees_hasIndexSignature (h : p.world.AlikeBut v p'.world) (t : TypeId) :
    Agrees v (p.hasIndexSignature t) (p'.hasIndexSignature t) Eq := by
  unfold hasIndexSignature
  simp only [h.declHas]
  exact (World.agrees_classifierChain h t).bindEq fun _ => agrees_same _

theorem agrees_indexedElement? (h : p.world.AlikeBut v p'.world) (receiver : TypeId) :
    Agrees v (p.indexedElement? receiver) (p'.indexedElement? receiver) Eq := by
  have hread (decl : DeclId) :
      ((p'.decl? decl).bind fun info => if info.kind = .classType then info.elementType else none) =
        (p.decl? decl).bind fun info => if info.kind = .classType then info.elementType else none :=
    h.read (Option.bind · fun info => if info.kind = .classType then info.elementType else none)
      (fun _ _ => rfl) decl
  have hchain (isText : Bool) {f : List DeclId → Option TypeId} : Agrees v
      (if isText = true then pure (some .string) else do
        return f (← p.world.classifierChain receiver))
      (if isText = true then pure (some .string) else do
        return f (← p'.world.classifierChain receiver)) Eq := by
    split
    · exact agrees_same _
    · exact (World.agrees_classifierChain h receiver).bindEq fun _ => agrees_same _
  unfold indexedElement?
  simp only [h.isEnumOf, hread]
  exact .lookup fun data _ => hchain _

theorem agrees_numericElement? (h : p.world.AlikeBut v p'.world) (env : Environment)
    (receiver index : TypeId) :
    Agrees v (p.numericElement? env receiver index) (p'.numericElement? env receiver index)
      Eq := by
  have hgeneric (decl : DeclId) : p'.world.declarations.holds decl (·.isGeneric) =
      p.world.declarations.holds decl (·.isGeneric) := h.holds (fun _ _ => rfl) decl
  unfold numericElement?
  refine Agrees.bindEq ?_ fun isNumber => ?_
  · unfold isNumberIndex
    split
    · exact agrees_same false
    · exact agrees_relation h env index .number
  split
  · exact agrees_same none
  refine (agrees_indexedElement? h receiver).bindEq fun element => ?_
  cases element with
  | none => exact agrees_same none
  | some element =>
    refine Agrees.bindEq ?_ fun isRaw => ?_
    · unfold isRawGeneric
      simp only [hgeneric]
      refine .lookup fun data _ => ?_
      split
      · exact agrees_same _
      · exact agrees_same false
    split
    · exact agrees_same _
    · exact (World.agrees_instantiateFor h env receiver element).bindEq fun _ => agrees_same _

/-! ### Iteration -/

theorem agrees_argumentOf? (h : p.world.AlikeBut v p'.world) (t : TypeId) (decl : DeclId) :
    Agrees v (p.argumentOf? t decl) (p'.argumentOf? t decl) Eq :=
  (World.agrees_findInstantiation? h t decl).bindEq fun _ => agrees_same _

theorem agrees_promiseValue? (h : p.world.AlikeBut v p'.world) (t : TypeId) :
    Agrees v (p.promiseValue? t) (p'.promiseValue? t) Eq := by
  unfold promiseValue?
  rw [h.builtins]
  refine .lookup fun data _ => ?_
  split
  · split
    · exact (agrees_upperBound _).bindEq fun _ => agrees_same _
    · exact agrees_same none
  · exact agrees_same none

theorem agrees_inheritedElement? (h : p.world.AlikeBut v p'.world) (t : TypeId)
    (isAsync : Bool) :
    Agrees v (p.inheritedElement? t isAsync) (p'.inheritedElement? t isAsync) Eq := by
  unfold inheritedElement?
  rw [h.builtins]
  split
  · exact agrees_argumentOf? h t _
  refine (agrees_argumentOf? h t _).bindEq fun element => ?_
  cases element with
  | some element => exact agrees_same _
  | none =>
    refine (agrees_argumentOf? h t _).bindEq fun element => ?_
    cases element with
    | some element => exact (agrees_promiseValue? h element).bindEq fun _ => agrees_same _
    | none => exact agrees_same none

theorem agrees_iterableElement? (h : p.world.AlikeBut v p'.world) (env : Environment)
    (t : TypeId) (isAsync : Bool) :
    Agrees v (p.iterableElement? env t isAsync) (p'.iterableElement? env t isAsync) Eq := by
  have hroom : ∀ room t, Agrees v (p.iterableElementFrom env isAsync room t)
      (p'.iterableElementFrom env isAsync room t) Eq := by
    intro room
    induction room with
    | zero => exact fun _ => agrees_same none
    | succ room ih =>
      intro t
      refine (World.agrees_resolveAlias h t).bindEq fun t => .lookup fun data hdata => ?_
      have hinherited := agrees_inheritedElement? h t isAsync
      have hupper : Agrees v
          (do
            let upper ← upperBound t
            if upper = t then return none
            p.iterableElementFrom env isAsync room upper)
          (do
            let upper ← upperBound t
            if upper = t then return none
            p'.iterableElementFrom env isAsync room upper) Eq := by
        refine (agrees_upperBound t).bindEq fun upper => ?_
        split
        · exact agrees_same none
        · exact ih upper
      cases data with
      | union members =>
        refine Agrees.bind ((agreement v).optionT.mapMEq members fun member _ => ?_)
          fun elements elements' helements => ?_
        · exact (ih member).mono fun o o' ho => by subst ho; cases o <;> constructor; rfl
        · cases helements with
          | none => exact agrees_same none
          | some heq => exact heq ▸ (agrees_union h env _).bindEq fun _ => agrees_same _
      | typeVariable decl =>
        simp only [h.variableBound hdata]
        split
        · exact agrees_same none
        · exact ih _
      | wildcard bound kind => exact hupper
      | thisType bound =>
        cases bound with
        | none => exact hinherited
        | some bound => exact hupper
      | primitive kind =>
        dsimp only
        split
        · exact agrees_same _
        split
        · exact agrees_same _
        · exact hinherited
      | literal value =>
        cases value with
        | string text => exact agrees_same _
        | _ => exact hinherited
      | dynamicAny => exact agrees_same _
      | _ => exact hinherited
  exact hroom _ t

/-! ### Promises -/

theorem agrees_promiseOfCallback? (h : p.world.AlikeBut v p'.world) (env : Environment)
    (signature : Signature) :
    Agrees v (p.promiseOfCallback? env signature) (p'.promiseOfCallback? env signature)
      Eq := by
  have herror (t : TypeId) : Agrees v (p.isErrorType env t) (p'.isErrorType env t) Eq := by
    unfold isErrorType
    rw [h.builtins]
    split
    · exact agrees_same false
    · exact agrees_relation h env t _
  have hvalue (results : List TypeId) :
      Agrees v (p.promisedValue env results) (p'.promisedValue env results) Eq := by
    unfold promisedValue
    rw [h.builtins]
    split
    · exact agrees_same _
    · exact agrees_same _
    · exact (agrees_union h env _).bindEq fun t => agrees_arrayOf _ t
  unfold promiseOfCallback?
  rw [h.builtins]
  split
  · exact agrees_same none
  refine (agrees_upperBound _).bindEq fun upper => ?_
  refine (agrees_signatureEq? upper).bindEq fun found => ?_
  cases found with
  | none => exact agrees_same none
  | some callback =>
    dsimp only
    have hpromise (results : List TypeId) (error : TypeId) : Agrees v
        (do
          let value ← p.promisedValue env results
          return some (← p.world.builtins.promiseOf value error))
        (do
          let value ← p'.promisedValue env results
          return some (← p.world.builtins.promiseOf value error)) Eq :=
      (hvalue results).bindEq fun value => (agrees_promiseOf _ _ _).bindEq fun _ => agrees_same _
    split
    · exact (herror _).bindEq fun _ => hpromise _ _
    · exact (agrees_same false).bindEq fun _ => hpromise _ _

theorem AlikeBut.isPromisifiable (h : p.world.AlikeBut v p'.world) (signature : Signature) :
    p'.isPromisifiable signature = p.isPromisifiable signature := by
  simp only [Program.isPromisifiable, h.declHas]

/-! ### Operators -/

theorem agrees_isNumeric (h : p.world.AlikeBut v p'.world) (t : TypeId) :
    Agrees v (p.isNumeric t) (p'.isNumeric t) Eq := by
  have hroom : ∀ room t, Agrees v (p.isNumericFrom room t) (p'.isNumericFrom room t) Eq := by
    intro room
    induction room with
    | zero => exact fun _ => agrees_same false
    | succ room ih =>
      intro t
      unfold isNumericFrom
      simp only [h.isEnumOf]
      refine .lookup fun data hdata => ?_
      have hupper : Agrees v
          (do
            let upper ← upperBound t
            if upper = t then return false
            p.isNumericFrom room upper)
          (do
            let upper ← upperBound t
            if upper = t then return false
            p'.isNumericFrom room upper) Eq := by
        refine (agrees_upperBound t).bindEq fun upper => ?_
        split
        · exact agrees_same false
        · exact ih upper
      cases data with
      | intersection members => exact (agreement v).anyM members fun member _ => ih member
      | typeVariable decl =>
        simp only [h.variableBound hdata]
        exact ih _
      | wildcard bound kind => exact hupper
      | thisType bound =>
        cases bound with
        | none => exact agrees_same false
        | some bound => exact hupper
      | literal value => cases value <;> exact agrees_same _
      | _ => exact agrees_same _
  exact hroom _ t

theorem agrees_mayBeNumeric (h : p.world.AlikeBut v p'.world) (t : TypeId) :
    Agrees v (p.mayBeNumeric t) (p'.mayBeNumeric t) Eq := by
  unfold mayBeNumeric
  split
  · exact agrees_same true
  refine (agrees_isNumeric h t).bindEq fun isNumeric => ?_
  split
  · exact agrees_same true
  refine .lookup fun data _ => ?_
  split
  · exact (agreement v).anyM _ fun member _ => agrees_isNumeric h member
  · exact agrees_same false

theorem agrees_additionType (h : p.world.AlikeBut v p'.world) (env : Environment)
    (left right : TypeId) :
    Agrees v (p.additionType env left right) (p'.additionType env left right) Eq := by
  have hunion := agrees_union h env [.number, .string]
  unfold additionType
  dsimp only
  split
  · exact hunion
  refine (agrees_isNumeric h left).bindEq fun leftNumeric => ?_
  refine (agrees_isNumeric h right).bindEq fun rightNumeric => ?_
  split
  · exact agrees_same _
  split
  · exact hunion
  refine (agrees_mayBeNumeric h left).bindEq fun mayLeft => ?_
  split
  · refine (agrees_mayBeNumeric h right).bindEq fun mayRight => ?_
    split
    · exact hunion
    · exact agrees_same _
  · exact agrees_same _

theorem agrees_compoundSumType (h : p.world.AlikeBut v p'.world) (left right : TypeId) :
    Agrees v (p.compoundSumType left right) (p'.compoundSumType left right) Eq := by
  have hlike (t : TypeId) : Agrees v (p.isNumericLike t) (p'.isNumericLike t) Eq := by
    unfold isNumericLike
    split
    · exact agrees_same true
    · exact agrees_isNumeric h t
  unfold compoundSumType
  refine (hlike left).bindEq fun leftNumeric => (hlike right).bindEq fun rightNumeric => ?_
  split
  · exact agrees_same _
  · exact agrees_same _

theorem agrees_isArray (h : p.world.AlikeBut v p'.world) (t : TypeId) :
    Agrees v (p.isArray t) (p'.isArray t) Eq := by
  unfold isArray
  simp only [h.arrayElement?]
  exact .lookup fun _ _ => agrees_same _

theorem agrees_isBoundThis (t : TypeId) : Agrees v (isBoundThis t) (isBoundThis t) Eq := by
  refine .lookup fun data _ => ?_
  split
  · exact agrees_same true
  · exact .lookup fun _ _ => agrees_same _
  · exact agrees_same false

theorem agrees_elementClassType (h : p.world.AlikeBut v p'.world)
    (elementClass : Option DeclId) (props : Option TypeId) :
    Agrees v (p.elementClassType elementClass props) (p'.elementClassType elementClass props)
      Eq := by
  have hgeneric (decl : DeclId) : p'.world.declarations.holds decl (·.isGeneric) =
      p.world.declarations.holds decl (·.isGeneric) := h.holds (fun _ _ => rfl) decl
  unfold elementClassType
  simp only [hgeneric]
  cases elementClass with
  | none => exact agrees_same _
  | some decl => exact agrees_intern trivial

theorem generatorArgument_eq (h : p.world.AlikeBut v p'.world) (data : TypeData) (i : Nat) :
    p'.generatorArgument data i = p.generatorArgument data i := by
  simp only [generatorArgument, h.builtins]

/-- A classifier with its own type variables as arguments. -/
theorem agrees_ownType (h : p.world.AlikeBut v p'.world) (decl : DeclId) :
    Agrees v (p.ownType decl) (p'.ownType decl) Eq := by
  have hparams : ((p'.decl? decl).map (·.typeParams)).getD [] =
      ((p.decl? decl).map (·.typeParams)).getD [] := by
    rw [Program.decl?, h.paramsOf, Program.decl?]
  unfold ownType
  rw [hparams]
  refine Agrees.bindEq ((agreement v).mapMEq _ fun param hparam => ?_)
    fun args => agrees_intern trivial
  cases hinfo : p.decl? decl with
  | none => simp [hinfo] at hparam
  | some info =>
    exact agrees_typeVariable (h.typeParams decl info hinfo param (by simpa [hinfo] using hparam))

end ScriptTyping.Program
