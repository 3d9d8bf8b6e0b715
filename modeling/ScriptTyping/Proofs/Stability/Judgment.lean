import ScriptTyping.Judgment.Infer
import ScriptTyping.Proofs.Stability.Members

/-!
# Stability of what the judgment computes

The computations over types that the rules of the judgment are made of are stable, as long as the
program mentions types and names of the table only.

## Main definitions

* `Content.types`, `Content.texts` — what a node mentions.
* `Program.Within` — the types and names that a program mentions belong to the table.
* `Program.Setting` — a well-formed table with all that a program and an environment mention.

## Main results

* `Program.stable_iterableElement?` — iterated values.
* `Program.stable_accessBindings`, `Program.stable_constant?` — member access.
* `Program.stable_promiseOfCallback?`, `Program.stable_thisTypeAt?`, `Program.stable_superType` —
  calls and receivers.
-/

namespace ScriptTyping

/-- The types that a node mentions. -/
def Content.types : Content → List TypeId
  | getter _ declared _ _ | setter _ declared _ _ _ | field _ declared _ _ _
  | variableDecl _ declared _ _ | parameter _ declared _ _ | propertyAssignment _ _ declared _ =>
    declared.toList
  | propertyAccess _ _ _ typeArgs | call _ typeArgs _ | newExpr _ typeArgs _ => typeArgs
  | cast _ target => target.toList
  | jsxElement _ props _ => props.toList
  | _ => []

/-- The symbols of a node whose texts are read. -/
def Content.texts : Content → List Symbol
  | stringLiteral text | templateSegment text | propertyAccess _ text _ _ => [text]
  | _ => []

/-- All preliminary results that the guards of the environment hold belong to the table. -/
def Environment.GuardsWithin (env : Environment) (T : TypeTable) : Prop :=
  ∀ key t, env.guardState key = .provisional t → T.Has t

namespace Environment.GuardsWithin

variable {env : Environment} {T : TypeTable}

theorem put (h : env.GuardsWithin T) {key : EnvKey} {value : EnvValue}
    (hvalue : (∀ guard, key ≠ .guard guard) ∨ ∀ t, value.type? = some t → T.Has t) :
    (env.put key value).GuardsWithin T := by
  intro k t ht
  by_cases hk : .guard k = key
  · rw [guardState, get?_put, if_pos hk] at ht
    rcases hvalue with hkey | hvalue
    · exact absurd hk.symm (hkey k)
    · cases value with
      | marker => cases ht
      | type s =>
        cases ht
        exact hvalue t rfl
  · rw [guardState, get?_put, if_neg hk] at ht
    exact h k t ht

theorem extend (bindings : List (DeclId × TypeId)) : ∀ {env : Environment},
    env.GuardsWithin T → (env.extend bindings).GuardsWithin T := by
  induction bindings with
  | nil => exact fun h => h
  | cons binding bindings ih => exact fun h => ih (h.put (.inl fun _ hk => by cases hk))

end Environment.GuardsWithin

namespace Program

/-- All types and texts that the program mentions belong to the table. -/
structure Within (p : Program) (T : TypeTable) : Prop where
  world : p.world.Within T
  types : ∀ n content, p.content? n = some content → T.HasAll content.types
  texts : ∀ n content, p.content? n = some content → ∀ s ∈ content.texts, T.Names s

/-- The table is well-formed, and what the program and the environment mention belongs to it. -/
structure Setting (p : Program) (env : Environment) (T : TypeTable) : Prop where
  table : T.WellFormed
  program : p.Within T
  environment : env.Within T
  guards : env.GuardsWithin T

variable {p : Program} {env : Environment} {T T' : TypeTable}

theorem Within.of_le (hle : T ≤ T') (h : p.Within T) : p.Within T' where
  world := h.world.of_le hle
  types n content hn := (h.types n content hn).of_le hle
  texts n content hn s hs := (h.texts n content hn s hs).of_le hle

theorem setting_empty (hT : T.WellFormed) (hp : p.Within T) : p.Setting .empty T :=
  ⟨hT, hp, Environment.within_empty, fun _ _ h => by cases h⟩

namespace Setting

theorem grow (h : p.Setting env T) (hg : T.GrowsTo T') : p.Setting env T' where
  table := hg.wellFormed
  program := h.program.of_le hg.le
  environment := h.environment.of_le hg.le
  guards key t ht := (h.guards key t ht).of_le hg.le

theorem inWorld (h : p.Setting env T) : p.world.Setting env T :=
  ⟨h.table, h.program.world, h.environment⟩

theorem world (h : p.Setting env T) : p.world.Within T := h.program.world

theorem wrap (h : p.Setting env T) : p.Setting env.wrap T :=
  ⟨h.table, h.program, h.environment.wrap, h.guards⟩

theorem withGuard (h : p.Setting env T) (key : GuardKey) : p.Setting (env.withGuard key) T :=
  ⟨h.table, h.program, h.environment.withGuard key,
    h.wrap.guards.put (.inr fun _ ht => by cases ht)⟩

theorem withProvisional (h : p.Setting env T) (key : GuardKey) {t : TypeId} (ht : T.Has t) :
    p.Setting (env.withProvisional key t) T :=
  ⟨h.table, h.program, h.environment.withProvisional key t,
    h.wrap.guards.put (.inr fun _ hs => Option.some.inj hs ▸ ht)⟩

theorem setThis (h : p.Setting env T) {t : TypeId} (ht : T.Has t) : p.Setting (env.setThis t) T :=
  ⟨h.table, h.program, h.environment.setThis ht, h.guards.put (.inl fun _ hk => by cases hk)⟩

theorem extend (h : p.Setting env T) {bindings : List (DeclId × TypeId)}
    (hbindings : T.Binds bindings) : p.Setting (env.extend bindings) T :=
  ⟨h.table, h.program, h.environment.extend bindings hbindings, h.guards.extend bindings⟩

end Setting

/-! ### Built-in types -/

theorem stable_arrayOf (hT : T.WellFormed) {element : TypeId} (helement : T.Has element) :
    TypeM.Stable (p.world.builtins.arrayOf element) T TypeTable.Has :=
  TypeM.stable_nominal hT _ helement.hasAll

theorem stable_promiseOf (hT : T.WellFormed) {value error : TypeId} (hvalue : T.Has value)
    (herror : T.Has error) :
    TypeM.Stable (p.world.builtins.promiseOf value error) T TypeTable.Has :=
  TypeM.stable_nominal hT _ (hvalue.hasAll.append herror.hasAll)

theorem stable_capture (hT : T.WellFormed) {t : TypeId} (ht : T.Has t) :
    TypeM.Stable (capture t) T TypeTable.Has := by
  rw [capture]
  refine .lookup ht ?_
  split
  · exact TypeM.stable_upperBound hT ht
  · exact .pure hT ht

theorem stable_signature? (hT : T.WellFormed) {t : TypeId} (ht : T.Has t) :
    TypeM.Stable (signature? t) T
      fun T' o => ∀ signature, o = some signature → T'.HasAll signature.types := by
  rw [signature?]
  exact .lookup ht (.pure hT fun _ hs => hT.hasAll_signature hs)

theorem has_head_getD {args : List TypeId} {absent : TypeId} (hargs : T.HasAll args)
    (habsent : T.Has absent) : T.Has (args.head?.getD absent) := by
  cases args with
  | nil => exact habsent
  | cons arg args => exact hargs arg (List.mem_cons_self ..)

/-! ### Iteration -/

theorem stable_argumentOf? (hT : T.WellFormed) (hw : p.world.Within T) {t : TypeId} (ht : T.Has t)
    (decl : DeclId) :
    TypeM.Stable (p.argumentOf? t decl) T fun T' o => ∀ s, o = some s → T'.Has s := by
  refine (World.stable_findInstantiation? hT hw ht decl).bind fun found T₁ hg hfound =>
    .pure hg.wellFormed fun s hs => ?_
  obtain ⟨⟨u, args⟩, rfl, rfl⟩ := Option.map_eq_some_iff.mp hs
  exact has_head_getD (hfound u args rfl).2 (hg.wellFormed.has_reserved (by decide))

theorem stable_promiseValue? (hT : T.WellFormed) {t : TypeId} (ht : T.Has t) :
    TypeM.Stable (p.promiseValue? t) T fun T' o => ∀ s, o = some s → T'.Has s := by
  rw [promiseValue?]
  refine .lookup ht ?_
  have hparts := hT.hasAll_parts t
  cases hd : T.lookup t with
  | nominal decl args =>
    rw [hd] at hparts
    dsimp only
    split
    · have hvalue := has_head_getD hparts (hT.has_reserved (t := .any) (by decide))
      refine (TypeM.stable_upperBound hT hvalue).bind fun s T₁ hg hs => .pure hg.wellFormed ?_
      exact fun _ h => Option.some.inj h ▸ hs
    · exact .pure hT fun _ h => by cases h
  | _ => exact .pure hT fun _ h => by cases h

theorem stable_inheritedElement? (hT : T.WellFormed) (hw : p.world.Within T) {t : TypeId}
    (ht : T.Has t) (isAsync : Bool) :
    TypeM.Stable (p.inheritedElement? t isAsync) T fun T' o => ∀ s, o = some s → T'.Has s := by
  rw [inheritedElement?]
  split
  · exact stable_argumentOf? hT hw ht _
  refine (stable_argumentOf? hT hw ht _).bind fun o T₁ hg₁ ho => ?_
  cases o with
  | some element => exact .pure hg₁.wellFormed ho
  | none =>
    refine (stable_argumentOf? hg₁.wellFormed (hw.of_le hg₁.le) (ht.of_le hg₁.le) _).bind
      fun o T₂ hg₂ ho => ?_
    cases o with
    | none => exact .pure hg₂.wellFormed ho
    | some element =>
      have helement := ho element rfl
      refine (stable_promiseValue? hg₂.wellFormed helement).bind fun value T₃ hg₃ hvalue =>
        .pure hg₃.wellFormed fun s hs => ?_
      cases hs
      cases value with
      | none => exact helement.of_le hg₃.le
      | some value => exact hvalue value rfl

/-- A loop that ends at the first element without an answer. -/
private theorem stable_optional_mapM {f : TypeId → TypeM (Option TypeId)} (l : List TypeId) :
    ∀ {T : TypeTable}, T.WellFormed →
      (∀ a ∈ l, ∀ T', T.GrowsTo T' →
        TypeM.Stable (f a) T' fun T' o => ∀ s, o = some s → T'.Has s) →
      TypeM.Stable (l.mapM fun a => OptionT.mk (f a)).run T
        fun T' o => ∀ ts, o = some ts → T'.HasAll ts := by
  induction l with
  | nil =>
    intro T hT _
    rw [List.mapM_nil]
    refine .pure hT fun ts hts => ?_
    cases hts
    exact TypeTable.hasAll_nil
  | cons a l ih =>
    intro T hT hf
    rw [List.mapM_cons, OptionT.run_bind]
    refine (hf a (List.mem_cons_self ..) T (.refl hT)).bind fun o T₁ hg₁ ho => ?_
    cases o with
    | none => exact .pure hg₁.wellFormed fun _ h => by cases h
    | some s =>
      dsimp only [Option.elim]
      rw [OptionT.run_bind]
      refine (ih hg₁.wellFormed fun b hb T' hg => hf b (List.mem_cons_of_mem _ hb) T'
        (hg₁.trans hg)).bind fun rest T₂ hg₂ hrest => ?_
      cases rest with
      | none => exact .pure hg₂.wellFormed fun _ h => by cases h
      | some ss =>
        refine .pure hg₂.wellFormed fun ts hts => ?_
        cases hts
        exact ((ho s rfl).of_le hg₂.le).hasAll.append (hrest ss rfl)

theorem stable_iterableElementFrom (isAsync : Bool) (room : Nat) :
    ∀ {T : TypeTable} {t : TypeId}, p.Setting env T → T.Has t →
      TypeM.Stable (p.iterableElementFrom env isAsync room t) T
        fun T' o => ∀ s, o = some s → T'.Has s := by
  induction room with
  | zero => exact fun h _ => .pure h.table fun _ hs => by cases hs
  | succ room ih =>
    intro T t h ht
    rw [iterableElementFrom]
    refine (World.stable_resolveAlias h.table h.world ht).bind fun t T₁ hg₁ ht => ?_
    have h := h.grow hg₁
    have hsome {s : TypeId} (hs : s.index < TypeId.firstDynamic) :
        TypeM.Stable (pure (some s)) T₁ fun T' o => ∀ s, o = some s → T'.Has s := by
      refine .pure h.table fun s' hs' => ?_
      cases hs'
      exact h.table.has_reserved hs
    have hnone : TypeM.Stable (pure (none : Option TypeId)) T₁
        fun T' o => ∀ s, o = some s → T'.Has s := .pure h.table fun _ hs => by cases hs
    -- Wildcards and a bound `this` are iterated through their bounds.
    have hupper : TypeM.Stable (do
        let upper ← TypeM.upperBound t
        if upper = t then return none
        p.iterableElementFrom env isAsync room upper) T₁
        fun T' o => ∀ s, o = some s → T'.Has s := by
      refine (TypeM.stable_upperBound h.table ht).bind fun upper T₂ hg₂ hu => ?_
      split
      · exact .pure hg₂.wellFormed fun _ hs => by cases hs
      · exact ih (h.grow hg₂) hu
    have hinherited := stable_inheritedElement? (p := p) h.table h.world ht isAsync
    refine .lookup ht ?_
    have hparts := h.table.hasAll_parts t
    cases hd : T₁.lookup t with
    | dynamicAny => exact hsome (by decide)
    | literal value =>
      cases value with
      | string text => exact hsome (by decide)
      | _ => exact hinherited
    | union members =>
      rw [hd] at hparts
      refine (stable_optional_mapM members h.table fun m hm T₂ hg =>
        ih (h.grow hg) ((hparts m hm).of_le hg.le)).bind fun elements T₂ hg₂ helements => ?_
      cases elements with
      | none => exact .pure hg₂.wellFormed fun _ hs => by cases hs
      | some elements =>
        refine (stable_createUnion (h.grow hg₂).inWorld (helements elements rfl)).bind
          fun s T₃ hg₃ hs => .pure hg₃.wellFormed fun s' hs' => ?_
        exact Option.some.inj hs' ▸ hs
    | typeVariable decl =>
      dsimp only
      split
      · exact hnone
      · exact ih h (h.world.variableBound h.table decl)
    | thisType bound =>
      cases bound with
      | none => exact hinherited
      | some bound => exact hupper
    | wildcard => exact hupper
    | primitive kind =>
      dsimp only
      split
      · exact hsome (by decide)
      split
      · exact hsome (by decide)
      · exact hinherited
    | _ => exact hinherited

/-- The element type of an iterated value. -/
theorem stable_iterableElement? (h : p.Setting env T) {t : TypeId} (ht : T.Has t)
    (isAsync : Bool) :
    TypeM.Stable (p.iterableElement? env t isAsync) T fun T' o => ∀ s, o = some s → T'.Has s :=
  stable_iterableElementFrom isAsync _ h ht

/-! ### Operators -/

theorem stable_isNumericFrom (room : Nat) : ∀ {T : TypeTable} {t : TypeId}, T.WellFormed →
    p.world.Within T → T.Has t → TypeM.Stable (p.isNumericFrom room t) T fun _ _ => True := by
  induction room with
  | zero => exact fun hT _ _ => .pure hT trivial
  | succ room ih =>
    intro T t hT hw ht
    have hupper : TypeM.Stable (do
        let upper ← TypeM.upperBound t
        if upper = t then return false
        p.isNumericFrom room upper) T fun _ _ => True := by
      refine (TypeM.stable_upperBound hT ht).bind fun upper T₁ hg hu => ?_
      split
      · exact .pure hg.wellFormed trivial
      · exact ih hg.wellFormed (hw.of_le hg.le) hu
    rw [isNumericFrom]
    refine .lookup ht ?_
    have hparts := hT.hasAll_parts t
    cases hd : T.lookup t with
    | literal value => cases value <;> exact .pure hT trivial
    | intersection members =>
      rw [hd] at hparts
      exact .anyM _ hT fun m hm T₁ hg =>
        ih hg.wellFormed (hw.of_le hg.le) ((hparts m hm).of_le hg.le)
    | typeVariable decl => exact ih hT hw (hw.variableBound hT decl)
    | thisType bound =>
      cases bound with
      | none => exact .pure hT trivial
      | some bound => exact hupper
    | wildcard => exact hupper
    | _ => exact .pure hT trivial

theorem stable_isNumeric (hT : T.WellFormed) (hw : p.world.Within T) {t : TypeId} (ht : T.Has t) :
    TypeM.Stable (p.isNumeric t) T fun _ _ => True :=
  stable_isNumericFrom _ hT hw ht

theorem stable_mayBeNumeric (hT : T.WellFormed) (hw : p.world.Within T) {t : TypeId}
    (ht : T.Has t) : TypeM.Stable (p.mayBeNumeric t) T fun _ _ => True := by
  rw [mayBeNumeric]
  split
  · exact .pure hT trivial
  refine (stable_isNumeric hT hw ht).bind fun numeric T₁ hg₁ _ => ?_
  split
  · exact .pure hg₁.wellFormed trivial
  refine .lookup (ht.of_le hg₁.le) ?_
  have hparts := hg₁.wellFormed.hasAll_parts t
  cases hd : T₁.lookup t with
  | union members =>
    rw [hd] at hparts
    exact .anyM _ hg₁.wellFormed fun m hm T₂ hg =>
      stable_isNumeric hg.wellFormed (hw.of_le (hg₁.trans hg).le) ((hparts m hm).of_le hg.le)
  | _ => exact .pure hg₁.wellFormed trivial

/-- The type of a sum. -/
theorem stable_additionType (h : p.Setting env T) {left right : TypeId} (hleft : T.Has left)
    (hright : T.Has right) : TypeM.Stable (p.additionType env left right) T TypeTable.Has := by
  have hunion {T' : TypeTable} (hg : T.GrowsTo T') :
      TypeM.Stable (p.union env [.number, .string]) T' TypeTable.Has := by
    refine stable_createUnion (h.grow hg).inWorld fun t ht => hg.wellFormed.has_reserved ?_
    revert t
    decide
  have hreserved {T' : TypeTable} (hg : T.GrowsTo T') {t : TypeId}
      (ht : t.index < TypeId.firstDynamic) : TypeM.Stable (pure t) T' TypeTable.Has :=
    .pure hg.wellFormed (hg.wellFormed.has_reserved ht)
  rw [additionType]
  split
  · exact hunion (.refl h.table)
  refine (stable_isNumeric h.table h.world hleft).bind fun leftNumeric T₁ hg₁ _ => ?_
  refine (stable_isNumeric hg₁.wellFormed (h.grow hg₁).world (hright.of_le hg₁.le)).bind
    fun rightNumeric T₂ hg₂ _ => ?_
  have hg := hg₁.trans hg₂
  split
  · exact hreserved hg (by decide)
  split
  · exact hunion hg
  refine (stable_mayBeNumeric hg.wellFormed (h.grow hg).world (hleft.of_le hg.le)).bind
    fun leftMay T₃ hg₃ _ => ?_
  have hg := hg.trans hg₃
  split
  · refine (stable_mayBeNumeric hg.wellFormed (h.grow hg).world (hright.of_le hg.le)).bind
      fun rightMay T₄ hg₄ _ => ?_
    split
    · exact hunion (hg.trans hg₄)
    · exact hreserved (hg.trans hg₄) (by decide)
  · exact hreserved hg (by decide)

theorem stable_compoundSumType (hT : T.WellFormed) (hw : p.world.Within T) {left right : TypeId}
    (hleft : T.Has left) (hright : T.Has right) :
    TypeM.Stable (p.compoundSumType left right) T TypeTable.Has := by
  have hnumeric {T' : TypeTable} (hg : T.GrowsTo T') {t : TypeId} (ht : T.Has t) :
      TypeM.Stable (p.isNumericLike t) T' fun _ _ => True := by
    rw [isNumericLike]
    split
    · exact .pure hg.wellFormed trivial
    · exact stable_isNumeric hg.wellFormed (hw.of_le hg.le) (ht.of_le hg.le)
  rw [compoundSumType]
  refine (hnumeric (.refl hT) hleft).bind fun leftNumeric T₁ hg₁ _ => ?_
  refine (hnumeric hg₁ hright).bind fun rightNumeric T₂ hg₂ _ => ?_
  split
  · exact .pure hg₂.wellFormed (hg₂.wellFormed.has_reserved (by decide))
  · exact .pure hg₂.wellFormed (hg₂.wellFormed.has_reserved (by decide))

theorem stable_isEmptyArray (hT : T.WellFormed) (slot : Slot) :
    TypeM.Stable (p.isEmptyArray slot) T fun _ _ => True := by
  rw [isEmptyArray]
  refine (TypeM.Stable.ofOption (V := fun _ _ => True) hT fun _ _ => trivial).bind
    fun stripped T₁ hg _ => ?_
  split
  · exact .pure hg.wellFormed trivial
  · exact .pure hg.wellFormed trivial

theorem stable_isArray (hT : T.WellFormed) {t : TypeId} (ht : T.Has t) :
    TypeM.Stable (p.isArray t) T fun _ _ => True :=
  .lookup ht (.pure hT trivial)

/-! ### Receivers -/

theorem stable_ownType (hT : T.WellFormed) (decl : DeclId) :
    TypeM.Stable (p.ownType decl) T TypeTable.Has := by
  rw [ownType]
  refine (TypeM.Stable.mapM (W := TypeTable.Has) (fun _ _ _ => TypeTable.Has.of_le) _ hT
    fun d _ T₁ hg => TypeM.stable_typeVariable hg.wellFormed d).bind fun args T₁ hg hargs => ?_
  exact TypeM.stable_nominal hg.wellFormed decl hargs

/-- The type of `this` at a node. -/
theorem stable_thisTypeAt? (hT : T.WellFormed) (n : NodeId) :
    TypeM.Stable (p.thisTypeAt? n) T fun T' o => ∀ s, o = some s → T'.Has s := by
  rw [thisTypeAt?]
  cases p.enclosingClassifier? n with
  | none => exact .pure hT fun _ h => by cases h
  | some found =>
    obtain ⟨member, classifier⟩ := found
    refine (stable_ownType hT classifier).bind fun own T₁ hg₁ hown => ?_
    have hbound : T₁.HasAll (TypeData.thisType (some own)).parts := hown.hasAll
    refine TypeM.Stable.bind (TypeM.stable_intern_has hg₁.wellFormed hbound)
      fun thisType T₂ hg₂ hthis => ?_
    split
    · refine (TypeM.stable_metaType hg₂.wellFormed hthis).bind fun t T₃ hg₃ ht =>
        .pure hg₃.wellFormed ?_
      exact fun _ h => Option.some.inj h ▸ ht
    · exact .pure hg₂.wellFormed fun _ h => Option.some.inj h ▸ hthis

theorem has_superClass (hw : p.world.Within T) (decl : DeclId) : T.Has (p.superClass decl) := by
  rw [superClass]
  cases hd : p.decl? decl with
  | none => exact hw.objectType
  | some info =>
    cases hs : info.superType with
    | none =>
      simp only [Option.bind_some, hs, Option.getD_none]
      exact hw.objectType
    | some above =>
      simp only [Option.bind_some, hs, Option.getD_some]
      exact hw.superType hd hs

/-- The type of `super`. -/
theorem stable_superType (h : p.Setting env T) (n : NodeId) :
    TypeM.Stable (p.superType env n) T TypeTable.Has := by
  have hunknown {T' : TypeTable} (hT : T'.WellFormed) :
      TypeM.Stable (pure TypeId.unknown) T' TypeTable.Has :=
    .pure hT (hT.has_reserved (by decide))
  rw [superType]
  cases p.enclosingClass? n with
  | none => exact hunknown h.table
  | some found =>
    obtain ⟨member, decl⟩ := found
    have habove := has_superClass h.world decl
    dsimp only
    cases p.superUse n with
    | receiver =>
      dsimp only
      split
      · exact TypeM.stable_constructorType h.table habove
      · exact .pure h.table habove
    | callee =>
      dsimp only
      split
      · exact hunknown h.table
      refine (TypeM.stable_constructorType h.table habove).bind fun callee T₁ hg₁ hcallee => ?_
      refine (World.stable_resolveConstructible? (h.grow hg₁).inWorld hcallee).bind
        fun newable T₂ hg₂ hnewable => .pure hg₂.wellFormed ?_
      cases newable with
      | none => exact hg₂.wellFormed.has_reserved (t := .unknown) (by decide)
      | some newable =>
        have hsignature := hnewable newable rfl
        obtain ⟨signature, instanceType, dynamic⟩ := newable
        cases signature with
        | none => exact hg₂.wellFormed.has_reserved (t := .unknown) (by decide)
        | some t => exact hsignature t (List.mem_cons_of_mem _ (List.mem_singleton_self _))
    | invalid => exact hunknown h.table

/-! ### Member access -/

theorem stable_shapeMember? (hT : T.WellFormed) {receiver : TypeId} (hr : T.Has receiver)
    (name : Symbol) :
    TypeM.Stable (shapeMember? receiver name) T fun T' o => ∀ s, o = some s → T'.Has s := by
  rw [shapeMember?]
  refine .lookup hr ?_
  have hparts := hT.hasAll_parts receiver
  cases hd : T.lookup receiver with
  | structural members =>
    rw [hd] at hparts
    refine .pure hT fun s hs => ?_
    obtain ⟨property, hfound, rfl⟩ := Option.map_eq_some_iff.mp hs
    exact hparts _ (List.mem_map_of_mem (List.mem_of_find?_eq_some hfound))
  | _ => exact .pure hT fun _ h => by cases h

theorem stable_memberOf? (hT : T.WellFormed) (hw : p.world.Within T) {receiver : TypeId}
    (hr : T.Has receiver) (name : Symbol) :
    TypeM.Stable (p.memberOf? receiver name) T fun _ _ => True :=
  .lookup hr (World.stable_resolveMember? hT hw _ hr)

theorem stable_constructorPropertyType (hT : T.WellFormed) (hw : p.world.Within T)
    {receiver : TypeId} (hr : T.Has receiver) :
    TypeM.Stable (p.constructorPropertyType receiver) T TypeTable.Has := by
  have hclassifier : TypeM.Stable (p.classifierBehind? receiver) T fun _ _ => True := by
    rw [classifierBehind?]
    refine .lookup hr ?_
    split
    · exact .pure hT trivial
    · exact (World.stable_classifierChain hT hw hr).bind fun _ _ hg _ =>
        .pure hg.wellFormed trivial
  rw [constructorPropertyType]
  refine .lookup hr ?_
  split
  · exact TypeM.stable_constructorType hT hw.functionType
  refine hclassifier.bind fun decl T₁ hg₁ _ => ?_
  cases decl with
  | none => exact .pure hg₁.wellFormed (hg₁.wellFormed.has_reserved (by decide))
  | some decl =>
    refine (TypeM.stable_simple hg₁.wellFormed decl).bind fun bound T₂ hg₂ hbound => ?_
    have hbound : T₂.HasAll (some bound).toList := hbound.hasAll
    refine (TypeM.stable_wildcard hg₂.wellFormed hbound .upper).bind fun t T₃ hg₃ ht => ?_
    exact TypeM.stable_constructorType hg₃.wellFormed ht

theorem stable_memberTypeParams (hT : T.WellFormed) (member : DeclId) {t : TypeId}
    (ht : T.Has t) : TypeM.Stable (p.memberTypeParams member t) T fun _ _ => True := by
  have hsignature : TypeM.Stable (do return ((← signature? t).map (·.typeParams)).getD []) T
      fun _ _ => True :=
    (stable_signature? hT ht).bind fun _ _ hg _ => .pure hg.wellFormed trivial
  rw [memberTypeParams]
  cases p.decl? member with
  | none => exact hsignature
  | some info =>
    dsimp only
    split
    · exact .pure hT trivial
    · exact hsignature

theorem stable_rebindThisReturn (hT : T.WellFormed) (n : NodeId) {t : TypeId} (ht : T.Has t) :
    TypeM.Stable (p.rebindThisReturn n t) T TypeTable.Has := by
  rw [rebindThisReturn]
  refine (stable_signature? hT ht).bind fun o T₁ hg₁ ho => ?_
  cases o with
  | none => exact .pure hg₁.wellFormed (ht.of_le hg₁.le)
  | some signature =>
    have hsignature := ho signature rfl
    refine .lookup hsignature.returnType ?_
    split
    · exact .pure hg₁.wellFormed (ht.of_le hg₁.le)
    refine (stable_thisTypeAt? hg₁.wellFormed n).bind fun found T₂ hg₂ hfound => ?_
    have hreturn : T₂.Has (found.getD .unknown) := by
      cases found with
      | none => exact hg₂.wellFormed.has_reserved (by decide)
      | some t => exact hfound t rfl
    exact TypeM.stable_intern_has hg₂.wellFormed
      ((hsignature.of_le hg₂.le).withReturnType hreturn)

theorem stable_isConstructorProperty (hT : T.WellFormed) {name : Symbol} (hname : T.Names name)
    (property : Option DeclId) :
    TypeM.Stable (p.isConstructorProperty name property) T fun _ _ => True := by
  unfold isConstructorProperty
  cases property with
  | some member => exact .pure hT trivial
  | none =>
    dsimp only
    rw [TypeM.text, bind_assoc]
    simp only [pure_bind]
    refine .get (fun T₁ hle => ?_) (.pure hT trivial)
    rw [TypeTable.text, TypeTable.text, TypeTable.resolve_of_le hle hname]

/-- The replacements with which a member is read. -/
theorem stable_accessBindings (hT : T.WellFormed) (hw : p.world.Within T) (n : NodeId)
    (target : Option Content) {receiver : TypeId} (hr : T.Has receiver) :
    TypeM.Stable (p.accessBindings n target receiver) T
      fun T' bindings => T'.Binds bindings.1 ∧ T'.Binds bindings.2 := by
  have hnothing {T' : TypeTable} : T'.Binds [] := fun _ h => by cases h
  rw [accessBindings]
  refine (World.stable_receiverBindings hT hw hr).bind fun own T₁ hg₁ hown => ?_
  split
  · exact .pure hg₁.wellFormed ⟨hown, hnothing⟩
  split
  · rename_i above habove
    obtain ⟨info, hinfo, hsuper⟩ := Option.bind_eq_some_iff.mp habove
    obtain ⟨found, -, hdecl⟩ := Option.bind_eq_some_iff.mp hinfo
    have hw := hw.of_le hg₁.le
    refine (World.stable_receiverBindings hg₁.wellFormed hw (hw.superType hdecl hsuper)).bind
      fun passed T₂ hg₂ hpassed => ?_
    exact .pure hg₂.wellFormed ⟨hown.of_le hg₂.le, hpassed⟩
  · exact .pure hg₁.wellFormed ⟨hown, hnothing⟩

/-! ### Index access -/

/-- The payload in a slot is that of a node. -/
theorem Within.types_at (h : p.Within T) {slot : Slot} {content : Content}
    (hslot : p.contentAt? slot = some content) : T.HasAll content.types := by
  obtain ⟨n, -, hn⟩ := Option.bind_eq_some_iff.mp hslot
  exact h.types n content hn

theorem Within.texts_at (h : p.Within T) {slot : Slot} {content : Content}
    (hslot : p.tree.contentAt? slot = some content) : ∀ s ∈ content.texts, T.Names s := by
  obtain ⟨n, -, hn⟩ := Option.bind_eq_some_iff.mp hslot
  exact h.texts n content hn

/-- Constant expressions read texts of the table only. -/
theorem evalFrom_of_le (h : p.Within T) (hle : T ≤ T') (fuel : Nat) : ∀ visiting slot,
    Constant.evalFrom ⟨p.tree, p.world.declarations, T'.symbols⟩ fuel visiting slot =
      Constant.evalFrom ⟨p.tree, p.world.declarations, T.symbols⟩ fuel visiting slot := by
  have hsegment : Constant.segment? ⟨p.tree, p.world.declarations, T'.symbols⟩ =
      Constant.segment? ⟨p.tree, p.world.declarations, T.symbols⟩ := by
    funext slot
    rw [Constant.segment?, Constant.segment?]
    dsimp only
    split
    · rename_i text hslot
      rw [TypeTable.resolve_of_le hle (h.texts_at hslot text (List.mem_singleton_self _))]
    · rfl
  induction fuel with
  | zero => exact fun _ _ => rfl
  | succ fuel ih =>
    intro visiting slot
    unfold Constant.evalFrom
    dsimp only
    split
    · rfl
    · rename_i text hslot
      rw [TypeTable.resolve_of_le hle (h.texts_at hslot text (List.mem_singleton_self _))]
    · rfl
    · rw [hsegment]
    · rw [ih]
    · rw [ih]
    · rw [ih, ih]
    · simp only [ih]
      rfl
    · rfl

/-- The value of an expression depends on no text that is stored later. -/
theorem stable_constant? (hT : T.WellFormed) (hp : p.Within T) (slot : Slot) :
    TypeM.Stable (p.constant? slot) T fun _ _ => True := by
  rw [constant?]
  refine .get (fun T₁ hle => ?_) ?_
  · simp only [Constant.evaluate, evalFrom_of_le hp hle]
    rfl
  · dsimp only
    split
    · exact .pure hT trivial
    · exact TypeM.stable_diverge

theorem stable_indexedElement? (hT : T.WellFormed) (hw : p.world.Within T) {receiver : TypeId}
    (hr : T.Has receiver) :
    TypeM.Stable (p.indexedElement? receiver) T fun T' o => ∀ s, o = some s → T'.Has s := by
  rw [indexedElement?]
  refine .lookup hr (.ite (.pure hT fun s hs => ?_) ?_)
  · cases hs
    exact hT.has_reserved (by decide)
  refine (World.stable_classifierChain hT hw hr).bind fun chain T₁ hg _ =>
    .pure hg.wellFormed fun s hs => ?_
  obtain ⟨decl, -, hfound⟩ := List.exists_of_findSome?_eq_some hs
  obtain ⟨info, hinfo, helement⟩ := Option.bind_eq_some_iff.mp hfound
  split at helement
  · exact (hw.elementType hinfo helement).of_le hg.le
  · cases helement

theorem stable_isRawGeneric (hT : T.WellFormed) {t : TypeId} (ht : T.Has t) :
    TypeM.Stable (p.isRawGeneric t) T fun _ _ => True := by
  rw [isRawGeneric]
  refine .lookup ht ?_
  split
  · exact .pure hT trivial
  · exact .pure hT trivial

theorem stable_hasIndexSignature (hT : T.WellFormed) (hw : p.world.Within T) {t : TypeId}
    (ht : T.Has t) : TypeM.Stable (p.hasIndexSignature t) T fun _ _ => True :=
  (World.stable_classifierChain hT hw ht).bind fun _ _ hg _ => .pure hg.wellFormed trivial

theorem stable_numericElement? (h : p.Setting env T) {receiver index : TypeId}
    (hr : T.Has receiver) (hindex : T.Has index) :
    TypeM.Stable (p.numericElement? env receiver index) T
      fun T' o => ∀ s, o = some s → T'.Has s := by
  have hnumber : TypeM.Stable (p.isNumberIndex env index) T fun _ _ => True := by
    rw [isNumberIndex]
    split
    · exact .pure h.table trivial
    · exact h.inWorld.stable_isSubtype hindex (h.table.has_reserved (by decide))
  rw [numericElement?]
  refine hnumber.bind fun isNumber T₁ hg₁ _ => ?_
  have h := h.grow hg₁
  split
  · exact .pure h.table fun _ hs => by cases hs
  refine (stable_indexedElement? h.table h.world (hr.of_le hg₁.le)).bind fun o T₂ hg₂ ho => ?_
  have h := h.grow hg₂
  have hr := hr.of_le (hg₁.trans hg₂).le
  cases o with
  | none => exact .pure h.table fun _ hs => by cases hs
  | some element =>
    refine (stable_isRawGeneric h.table hr).bind fun isRaw T₃ hg₃ _ => ?_
    have h := h.grow hg₃
    split
    · refine .pure h.table fun s hs => ?_
      cases hs
      exact h.table.has_reserved (by decide)
    · refine (World.stable_instantiateFor h.inWorld (hr.of_le hg₃.le)
        ((ho element rfl).of_le hg₃.le)).bind fun t T₄ hg₄ ht => .pure hg₄.wellFormed ?_
      exact fun _ hs => Option.some.inj hs ▸ ht

/-! ### Elements, calls and literals -/

theorem stable_isBoundThis (hT : T.WellFormed) {t : TypeId} (ht : T.Has t) :
    TypeM.Stable (isBoundThis t) T fun _ _ => True := by
  rw [isBoundThis]
  refine .lookup ht ?_
  have hparts := hT.hasAll_parts t
  split
  · exact .pure hT trivial
  · rename_i arg _ hd
    rw [hd] at hparts
    exact .lookup (hparts arg (List.mem_singleton_self _)) (.pure hT trivial)
  · exact .pure hT trivial

theorem stable_promisedValue (h : p.Setting env T) {results : List TypeId}
    (hresults : T.HasAll results) :
    TypeM.Stable (p.promisedValue env results) T TypeTable.Has := by
  unfold promisedValue
  split
  · exact .pure h.table (h.table.has_reserved (by decide))
  · exact .pure h.table (hresults _ (List.mem_singleton_self _))
  · exact (stable_createUnion h.inWorld hresults).bind fun t T₁ hg ht =>
      stable_arrayOf hg.wellFormed ht

/-- The promise that a callback describes. -/
theorem stable_promiseOfCallback? (h : p.Setting env T) {signature : Signature}
    (hsignature : T.HasAll signature.types) :
    TypeM.Stable (p.promiseOfCallback? env signature) T
      fun T' o => ∀ s, o = some s → T'.Has s := by
  rw [promiseOfCallback?]
  cases hlast : signature.params.getLast? with
  | none => exact .pure h.table fun _ hs => by cases hs
  | some callback =>
    have hcallback := hsignature.params (List.mem_of_getLast? hlast)
    refine (TypeM.stable_upperBound h.table hcallback).bind fun t T₁ hg₁ ht => ?_
    refine (stable_signature? hg₁.wellFormed ht).bind fun o T₂ hg₂ ho => ?_
    have h := h.grow (hg₁.trans hg₂)
    cases o with
    | none => exact .pure h.table fun _ hs => by cases hs
    | some callback =>
      have htypes : T₂.HasAll (callback.params.map (·.type)) := fun t ht =>
        ho callback rfl t (List.mem_append_left _ ht)
      dsimp only
      generalize callback.params.map (·.type) = types at htypes
      have hrest {T₃ : TypeTable} (hg₃ : T₂.GrowsTo T₃) (hasError : Bool) : TypeM.Stable (do
          let value ← p.promisedValue env (if hasError then types.tail else types)
          return some (← p.world.builtins.promiseOf value
            (if hasError then types.head?.getD .undefined else .undefined))) T₃
          fun T' o => ∀ s, o = some s → T'.Has s := by
        have h := h.grow hg₃
        have htypes := htypes.of_le hg₃.le
        have hundefined : T₃.Has .undefined := h.table.has_reserved (by decide)
        have hresults : T₃.HasAll (if hasError then types.tail else types) := by
          split
          · exact fun t ht => htypes t (List.mem_of_mem_tail ht)
          · exact htypes
        have herror : T₃.Has (if hasError then types.head?.getD .undefined else .undefined) := by
          split
          · exact has_head_getD htypes hundefined
          · exact hundefined
        refine (stable_promisedValue h hresults).bind fun value T₄ hg₄ hvalue => ?_
        refine (stable_promiseOf hg₄.wellFormed hvalue (herror.of_le hg₄.le)).bind
          fun t T₅ hg₅ ht => .pure hg₅.wellFormed fun _ hs => Option.some.inj hs ▸ ht
      cases types with
      | nil => exact hrest (.refl h.table) false
      | cons first rest =>
        have hfirst := htypes first (List.mem_cons_self ..)
        refine TypeM.Stable.bind (V := fun _ _ => True) ?_ fun hasError T₃ hg₃ _ =>
          hrest hg₃ hasError
        rw [isErrorType]
        split
        · exact .pure h.table trivial
        · exact h.inWorld.stable_isSubtype hfirst (h.world.builtins _ (by simp [Builtins.types]))

theorem stable_hasThisReceiver (hT : T.WellFormed) (callee : Slot) :
    TypeM.Stable (p.hasThisReceiver callee) T fun _ _ => True := by
  rw [hasThisReceiver]
  refine (TypeM.Stable.ofOption (V := fun _ _ => True) hT fun _ _ => trivial).bind
    fun stripped T₁ hg _ => ?_
  split
  · exact .pure hg.wellFormed trivial
  · exact .pure hg.wellFormed trivial

theorem stable_declaredReturn? (hT : T.WellFormed) (hw : p.world.Within T) (n : NodeId) :
    TypeM.Stable (p.declaredReturn? n) T fun T' o => ∀ s, o = some s → T'.Has s := by
  rw [declaredReturn?]
  split
  · rename_i t ht
    obtain ⟨info, hinfo, hdeclared⟩ := Option.bind_eq_some_iff.mp ht
    obtain ⟨content, -, hcontent⟩ := Option.bind_eq_some_iff.mp (Option.mem_filter_iff.mp hinfo).1
    obtain ⟨d, -, hd⟩ := Option.bind_eq_some_iff.mp hcontent
    refine (stable_signature? hT (hw.declaredType hd hdeclared)).bind fun o T₁ hg ho =>
      .pure hg.wellFormed fun s hs => ?_
    obtain ⟨signature, rfl, rfl⟩ := Option.map_eq_some_iff.mp hs
    exact (ho signature rfl).returnType
  · exact .pure hT fun _ hs => by cases hs

theorem has_generatorArgument (hT : T.WellFormed) {data : TypeData} (hparts : T.HasAll data.parts)
    (i : Nat) : T.Has (p.generatorArgument data i) := by
  have hany : T.Has .any := hT.has_reserved (by decide)
  unfold generatorArgument
  split
  · split
    · rename_i args _
      cases harg : args[i]? with
      | none => exact hany
      | some arg => exact hparts arg (List.mem_of_getElem? harg)
    · exact hany
  · exact hany

theorem stable_joinOr (h : p.Setting env T) {absent : TypeId} {types : List TypeId}
    (habsent : T.Has absent) (htypes : T.HasAll types) :
    TypeM.Stable (p.joinOr env absent types) T TypeTable.Has := by
  rw [joinOr]
  split
  · exact .pure h.table habsent
  · exact stable_joinTypes h.inWorld htypes

theorem stable_templateType (hT : T.WellFormed) (parts : List Slot) :
    TypeM.Stable (p.templateType parts) T TypeTable.Has := by
  unfold templateType
  split
  · split
    · exact TypeM.stable_literal hT _
    · exact .pure hT (hT.has_reserved (by decide))
  · exact .pure hT (hT.has_reserved (by decide))

theorem stable_elementClassType (hT : T.WellFormed) (elementClass : Option DeclId)
    {props : Option TypeId} (hprops : T.HasAll props.toList) :
    TypeM.Stable (p.elementClassType elementClass props) T TypeTable.Has := by
  cases elementClass with
  | none => exact .pure hT (hT.has_reserved (by decide))
  | some decl =>
    refine TypeM.stable_nominal hT decl ?_
    split
    · exact hprops
    · exact TypeTable.hasAll_nil

end Program

end ScriptTyping
