import ScriptTyping.Proofs.Subtyping.Anonymous

/-!
# Regular types

A type is regular if it is built, to some finite depth, from primitive types, references to
non-generic classifiers, literals, type variables and `this` with regular bounds, function types and
object shapes in which nothing is optional, types of types, and unions and intersections.  `any` and
`void` are no members of composites, `null` and `undefined` no members of intersections, and a union
has more members than these two.

The plan that the subtype rules make for two regular types is known, and it is about regular types
again.  So a step of the relation can be read off the two types, and queries about them return.

## Main definitions

* `Subtyping.IsRegular` — the types of this file; `Subtyping.Regular` bounds their depth.
* `Subtyping.Layer` — the plans of two regular types that are neither unions nor intersections.

## Main results

* `Subtyping.LayerPair.step_iff` — one step of the relation between two such types.
* `Subtyping.yields_run_regular` — queries about regular types return.
-/

namespace ScriptTyping

/-- In this order the rules look at types that stand for their bound: `this` first, type variables
next, the others last. -/
def TypeData.rank : TypeData → Nat
  | thisType _ => 2
  | typeVariable _ => 1
  | _ => 0

/-- Whether the layer is a union or an intersection. -/
def TypeData.isComposite : TypeData → Bool
  | union _ | intersection _ => true
  | _ => false

theorem TypeData.composite_cases (data : TypeData) :
    (∃ members, data = .union members) ∨ (∃ members, data = .intersection members) ∨
      data.isComposite = false := by
  cases data with
  | union members => exact .inl ⟨members, rfl⟩
  | intersection members => exact .inr (.inl ⟨members, rfl⟩)
  | _ => exact .inr (.inr rfl)

theorem TypeData.isComposite_eq_false {data : TypeData} (hunion : ∀ members, data ≠ .union members)
    (hinter : ∀ members, data ≠ .intersection members) : data.isComposite = false := by
  rcases data.composite_cases with ⟨members, h⟩ | ⟨members, h⟩ | h
  · exact absurd h (hunion members)
  · exact absurd h (hinter members)
  · exact h

theorem TypeData.isComposite_eq_false_iff {data : TypeData} : data.isComposite = false ↔
    data.unionMembers? = none ∧ data.intersectionMembers? = none := by
  cases data <;> simp [isComposite, unionMembers?, intersectionMembers?]

theorem TypeData.eq_thisType {data : TypeData} (h : data.isBoundThis = true) :
    ∃ u, data = .thisType (some u) := by
  unfold isBoundThis at h
  split at h
  · exact ⟨_, rfl⟩
  · cases h

namespace Subtyping

variable {w : World} {T₀ T T' : TypeTable} {D : Set DeclId} {P P' : TypeId → Prop}
  {R : PairRelation} {s t u : TypeId} {data : TypeData} {p : Plan} {n : Nat}

/-! ### Regular types -/

/-- The handles with rules of their own: the top type, the two bottom types, and `void`, which as a
result accepts everything. -/
def extremes : List TypeId := [.any, .null, .undefined, .void]

/-- One layer of a regular type, whose parts have the property. -/
def RegularLayer (w : World) (T : TypeTable) (D : Set DeclId) (P : TypeId → Prop) (t : TypeId) :
    TypeData → Prop
  | .primitive kind => t = kind.typeId
  | .nominal d args => args = [] ∧ d ∈ D ∧ T.Refers t d
  | .literal value => ∃ u, literalBase value T = .ok u T ∧ P u ∧ u ∉ extremes
  | .typeVariable d => w.declarations.variableBound d = .any ∨
      P (w.declarations.variableBound d) ∧ w.declarations.variableBound d ∉ extremes
  | .thisType (some u) => P u ∧ u ∉ extremes
  | .function f => P f.returnType ∧
      ∀ param ∈ f.params, param.optional = false ∧ param.rest = false ∧ P param.type
  | .structural members => ∀ member ∈ members, member.optional = false ∧ P member.type
  | .metaType arg _ => P arg
  | .union members =>
      (∀ m ∈ members, P m ∧ m ≠ .any ∧ m ≠ .void) ∧ ∃ m ∈ members, m ∉ extremes
  | .intersection members => members ≠ [] ∧ ∀ m ∈ members, P m ∧ m ∉ extremes
  | _ => False

/-- A type that is regular to a depth. -/
def Regular (w : World) (T : TypeTable) (D : Set DeclId) : Nat → TypeId → Prop
  | 0, _ => False
  | n + 1, t => RegularLayer w T D (Regular w T D n) t (T.lookup t)

/-- A type that is regular to some depth. -/
def IsRegular (w : World) (T : TypeTable) (D : Set DeclId) (t : TypeId) : Prop :=
  ∃ n, Regular w T D n t

/-- The base of an enum literal is stored if it is the reference to the enum. -/
theorem literalBase_enumMember_iff {d member : DeclId} :
    literalBase (.enumMember d member) T = .ok u T ↔ T.Refers u d := by
  have hrun : literalBase (.enumMember d member) T =
      .ok (T.intern (.nominal d [])).1 (T.intern (.nominal d [])).2 := rfl
  rw [hrun]
  constructor
  · intro h
    have hhandle := T.handles_intern (.nominal d [])
    injection h with hid htable
    rwa [hid, htable] at hhandle
  · intro h
    rw [TypeTable.intern_of_handle h]

theorem literalBase_of_le {value : LiteralValue} (hle : T ≤ T')
    (h : literalBase value T = .ok u T) : literalBase value T' = .ok u T' := by
  cases value with
  | enumMember =>
    exact literalBase_enumMember_iff.mpr ((literalBase_enumMember_iff.mp h).of_le hle)
  | boolean | number | string =>
    cases h
    rfl

theorem RegularLayer.of_le (hle : T ≤ T') (hP : ∀ u, P u → P' u)
    (h : RegularLayer w T D P t data) : RegularLayer w T' D P' t data := by
  cases data with
  | primitive => exact h
  | nominal d args => exact ⟨h.1, h.2.1, h.2.2.of_le hle⟩
  | literal value =>
    obtain ⟨u, hu, hP', hplain⟩ := h
    exact ⟨u, literalBase_of_le hle hu, hP u hP', hplain⟩
  | typeVariable d => exact h.imp_right fun h => ⟨hP _ h.1, h.2⟩
  | thisType bound =>
    cases bound with
    | none => exact h
    | some u => exact ⟨hP u h.1, h.2⟩
  | function f =>
    refine ⟨hP _ h.1, fun param hparam => ?_⟩
    obtain ⟨hoptional, hrest, htype⟩ := h.2 param hparam
    exact ⟨hoptional, hrest, hP _ htype⟩
  | structural members => exact fun member hm => (h member hm).imp_right (hP _)
  | metaType arg => exact hP arg h
  | union members => exact ⟨fun m hm => (h.1 m hm).imp_left (hP m), h.2⟩
  | intersection members => exact ⟨h.1, fun m hm => (h.2 m hm).imp_left (hP m)⟩
  | unknown | dynamicAny | wildcard => exact h

theorem Regular.lookup_ne (h : Regular w T D n t) : T.lookup t ≠ .unknown := by
  intro hlookup
  cases n with
  | zero => exact h
  | succ n =>
    rw [Regular, hlookup] at h
    exact h

theorem Regular.has (h : Regular w T D n t) : T.Has t := TypeTable.has_of_lookup_ne h.lookup_ne

theorem Regular.of_le (hle : T ≤ T') (h : Regular w T D n t) : Regular w T' D n t := by
  induction n generalizing t with
  | zero => exact h
  | succ n ih =>
    rw [Regular, TypeTable.lookup_of_le hle h.has]
    exact RegularLayer.of_le hle (fun _ => ih) h

theorem IsRegular.layer (h : IsRegular w T D t) :
    RegularLayer w T D (IsRegular w T D) t (T.lookup t) := by
  obtain ⟨n, h⟩ := h
  cases n with
  | zero => exact h.elim
  | succ n => exact RegularLayer.of_le le_rfl (fun _ hu => ⟨n, hu⟩) h

theorem IsRegular.has (h : IsRegular w T D t) : T.Has t := by
  obtain ⟨n, h⟩ := h
  exact h.has

theorem IsRegular.of_le (hle : T ≤ T') (h : IsRegular w T D t) : IsRegular w T' D t :=
  h.imp fun _ => .of_le hle

theorem lookup_primitive (hinit : .initial ≤ T) (kind : Primitive) :
    T.lookup kind.typeId = .primitive kind := by
  cases kind <;> exact TypeTable.lookup_of_le hinit (by decide)

theorem isRegular_primitive (hinit : .initial ≤ T) (kind : Primitive) :
    IsRegular w T D kind.typeId := by
  refine ⟨1, ?_⟩
  rw [Regular, lookup_primitive hinit]
  rfl

/-! ### Plans of two regular types -/

/-- The first type stands for the second wherever it is compared with something above it. -/
inductive StandsFor (w : World) (T : TypeTable) (t u : TypeId) : Prop
  | literal {value : LiteralValue} (ht : T.lookup t = .literal value)
      (hu : literalBase value T = .ok u T)
  | typeVariable {d : DeclId} (ht : T.lookup t = .typeVariable d)
      (hu : w.declarations.variableBound d = u) (hne : u ≠ .any)
  | receiver (ht : T.lookup t = .thisType (some u))

/-- The plans of two types without a declaration that have the same form. -/
inductive Congruent (T : TypeTable) (s t : TypeId) : Plan → Prop
  | functions {f g : Signature} (hs : T.lookup s = .function f) (ht : T.lookup t = .function g) :
      Congruent T s t (functionPlan f g)
  | shapes {l r : List Property} (hs : T.lookup s = .structural l)
      (ht : T.lookup t = .structural r) : Congruent T s t (structuralPlan l r)
  | metaTypes {a b : TypeId} {i j : Bool} (hs : T.lookup s = .metaType a i)
      (ht : T.lookup t = .metaType b j) (hij : i = true ∨ j = false) : Congruent T s t (.pair a b)

/-- The plans of two regular types that are neither unions nor intersections, if they are not
refused. -/
inductive Layer (w : World) (T₀ T : TypeTable) (D : Set DeclId) (s t : TypeId) : Plan → Prop
  | base {u : TypeId} (hs : StandsFor w T s u) (hrank : (T.lookup t).rank ≤ (T.lookup s).rank)
      (hbound : (T.lookup s).isBoundThis = false ∨ (T.lookup t).isBoundThis = false) :
      Layer w T₀ T D s t (.pair u t)
  | receivers {u v : TypeId} (hs : T.lookup s = .thisType (some u))
      (ht : T.lookup t = .thisType (some v)) : Layer w T₀ T D s t (.pair u v)
  | hierarchy {d e : DeclId} {b : Bool} (hd : d ∈ D) (hs : w.Rooted T s d) (ht : T.Refers t e)
      (hb : b = true ↔ w.Below T₀ d e) : Layer w T₀ T D s t (.verdict b)
  | congruent {p : Plan} (hst : Congruent T s t p) : Layer w T₀ T D s t p

/-- Two regular types about whose handles nothing is settled. -/
structure Unsettled (w : World) (T : TypeTable) (D : Set DeclId) (s t : TypeId) : Prop where
  source : IsRegular w T D s
  target : IsRegular w T D t
  unsettled : sentinel? s t = none

/-- Two such types that are neither unions nor intersections. -/
structure LayerPair (w : World) (T : TypeTable) (D : Set DeclId) (s t : TypeId) : Prop
    extends Unsettled w T D s t where
  sourcePlain : (T.lookup s).isComposite = false
  targetPlain : (T.lookup t).isComposite = false

theorem expandedPlan_of_plain {sd td : TypeData} (hs : sd.isComposite = false)
    (ht : td.isComposite = false) : expandedPlan w s t sd td = layerPlan w s t sd td := by
  unfold expandedPlan
  split
  · cases hs
  · cases ht
  · cases ht
  · cases hs
  · rfl

theorem RegularLayer.not_wildcard (h : RegularLayer w T D P t data) : data.isWildcard = false := by
  cases data with
  | wildcard => exact h.elim
  | _ => rfl

section LayerPlan

variable {sd td : TypeData} (htd : td.isWildcard = false)

include htd

/-- A type that is looked at later is refused. -/
theorem layerPlan_of_rank_lt (hsd : sd.isWildcard = false) (hrank : sd.rank < td.rank) :
    layerPlan w s t sd td = pure (.verdict false) := by
  cases td with
  | thisType | typeVariable =>
    cases sd with
    | wildcard => cases hsd
    | thisType | typeVariable => first | rfl | simp [TypeData.rank] at hrank
    | _ => rfl
  | _ => cases hrank

theorem layerPlan_literal {value : LiteralValue} (hrank : td.rank = 0) :
    layerPlan w s t (.literal value) td = do return .pair (← literalBase value) t := by
  cases td with
  | wildcard => cases htd
  | thisType | typeVariable => cases hrank
  | _ => rfl

theorem layerPlan_typeVariable {d : DeclId} (hrank : td.rank ≤ 1) :
    layerPlan w s t (.typeVariable d) td = if w.declarations.variableBound d = .any
      then pure (.verdict false) else pure (.pair (w.declarations.variableBound d) t) := by
  cases td with
  | wildcard => cases htd
  | thisType => simp [TypeData.rank] at hrank
  | _ => rfl

theorem layerPlan_receiver (hbound : td.isBoundThis = false) :
    layerPlan w s t (.thisType (some u)) td = pure (.pair u t) := by
  cases td with
  | wildcard => cases htd
  | thisType bound =>
    cases bound with
    | none => rfl
    | some => cases hbound
  | _ => rfl

theorem layerPlan_primitive {kind : Primitive} (hrank : td.rank = 0) :
    layerPlan w s t (.primitive kind) td = pure (.verdict false) := by
  cases td with
  | wildcard => cases htd
  | thisType | typeVariable => cases hrank
  | _ => rfl

end LayerPlan

section Plans

variable (h : w.FunctionFragment T₀ D) (hg : T₀.GrowsTo T)

include h hg

theorem IsRegular.not_isAliasReference (ht : IsRegular w T D t) : ¬w.IsAliasReference T t := by
  rintro ⟨d, args, hlookup, halias⟩
  have hlayer := ht.layer
  rw [hlookup] at hlayer
  obtain ⟨-, hd, hrefers⟩ := hlayer
  exact h.not_isAliasReference hg.wellFormed hd hrefers ⟨d, args, hlookup, halias⟩

theorem IsRegular.ne_of_reserved (ht : IsRegular w T D t) : t ≠ .unknown ∧ t ≠ .dynamicAny := by
  have hinit := le_trans h.initial hg.le
  have hlayer := ht.layer
  constructor
  · rintro rfl
    rw [TypeTable.lookup_of_le hinit (by decide)] at hlayer
    exact hlayer
  · rintro rfl
    rw [TypeTable.lookup_of_le hinit (by decide)] at hlayer
    exact hlayer

/-- What the handles of regular types settle. -/
theorem sentinel?_regular (hs : IsRegular w T D s) (ht : IsRegular w T D t) :
    sentinel? s t = if t = .any then some true else if s = .undefined then some true
      else if s = .null then some (t != .undefined) else if s = .any then some false else none := by
  obtain ⟨hs₁, hs₂⟩ := hs.ne_of_reserved h hg
  obtain ⟨ht₁, ht₂⟩ := ht.ne_of_reserved h hg
  simp [sentinel?, TypeId.isUnknown, TypeId.isAny, hs₁, hs₂, ht₁, ht₂]

theorem IsRegular.resolveAlias (ht : IsRegular w T D t) : w.resolveAlias t T = .ok t T :=
  resolveAlias_of_not_alias (ht.not_isAliasReference h hg)

theorem Unsettled.plan_eq (hst : Unsettled w T D s t) :
    plan w s t T = expandedPlan w s t (T.lookup s) (T.lookup t) T :=
  plan_of_expansions hst.unsettled (hst.source.resolveAlias h hg) (hst.target.resolveAlias h hg)

theorem LayerPair.plan_eq_layerPlan (hst : LayerPair w T D s t) :
    plan w s t T = layerPlan w s t (T.lookup s) (T.lookup t) T := by
  rw [hst.plan_eq h hg, expandedPlan_of_plain hst.sourcePlain hst.targetPlain]

/-- Two such types are refused or have one of the plans. -/
theorem LayerPair.refused_or_layer (hst : LayerPair w T D s t) :
    plan w s t T = .ok (.verdict false) T ∨ ∃ p, Layer w T₀ T D s t p := by
  classical
  rw [hst.plan_eq_layerPlan h hg]
  have hsource := hst.source.layer
  have htarget := hst.target.layer
  by_cases hrank : (T.lookup s).rank < (T.lookup t).rank
  · rw [layerPlan_of_rank_lt htarget.not_wildcard hsource.not_wildcard hrank]
    exact .inl rfl
  rw [Nat.not_lt] at hrank
  have hbelow {d : DeclId} (hd : d ∈ D) (hroot : w.Rooted T s d) {e : DeclId} {args : List TypeId}
      (ht : T.lookup t = .nominal e args) : ∃ p, Layer w T₀ T D s t p := by
    rw [ht] at htarget
    exact ⟨.verdict (decide (w.Below T₀ d e)), .hierarchy hd hroot htarget.2.2 decide_eq_true_iff⟩
  cases hs : T.lookup s with
  | primitive kind =>
    rw [hs] at hrank
    rw [layerPlan_primitive htarget.not_wildcard (Nat.le_zero.mp hrank)]
    exact .inl rfl
  | nominal d args =>
    rw [hs] at hsource
    cases ht : T.lookup t with
    | nominal e args' => exact .inr (hbelow hsource.2.1 (.inl hsource.2.2) ht)
    | wildcard => rw [ht] at htarget; exact htarget.elim
    | _ => exact .inl rfl
  | literal value =>
    rw [hs] at hsource
    obtain ⟨u, hu, -, -⟩ := hsource
    exact .inr ⟨_, .base (.literal hs hu) hrank (.inl (by rw [hs]; rfl))⟩
  | typeVariable d =>
    by_cases hany : w.declarations.variableBound d = .any
    · rw [hs] at hrank
      rw [layerPlan_typeVariable htarget.not_wildcard hrank, if_pos hany]
      exact .inl rfl
    · exact .inr ⟨_, .base (.typeVariable hs rfl hany) hrank (.inl (by rw [hs]; rfl))⟩
  | thisType bound =>
    rw [hs] at hsource
    cases bound with
    | none => exact hsource.elim
    | some u =>
      cases hbound : (T.lookup t).isBoundThis with
      | false => exact .inr ⟨_, .base (.receiver hs) hrank (.inr hbound)⟩
      | true =>
        obtain ⟨v, ht⟩ := TypeData.eq_thisType hbound
        exact .inr ⟨_, .receivers hs ht⟩
  | function f =>
    cases ht : T.lookup t with
    | nominal e args => exact .inr (hbelow h.function (.inr (by rw [hs]; rfl)) ht)
    | function g => exact .inr ⟨_, .congruent (.functions hs ht)⟩
    | wildcard => rw [ht] at htarget; exact htarget.elim
    | _ => exact .inl rfl
  | structural l =>
    cases ht : T.lookup t with
    | nominal e args => exact .inr (hbelow h.object (.inr (by rw [hs]; rfl)) ht)
    | structural r => exact .inr ⟨_, .congruent (.shapes hs ht)⟩
    | wildcard => rw [ht] at htarget; exact htarget.elim
    | _ => exact .inl rfl
  | metaType a i =>
    cases ht : T.lookup t with
    | nominal e args =>
      cases i with
      | true => exact .inr (hbelow h.function (.inr (by rw [hs]; rfl)) ht)
      | false => exact .inr (hbelow h.object (.inr (by rw [hs]; rfl)) ht)
    | metaType b j =>
      cases i with
      | true => exact .inr ⟨_, .congruent (.metaTypes hs ht (.inl rfl))⟩
      | false =>
        cases j with
        | false => exact .inr ⟨_, .congruent (.metaTypes hs ht (.inr rfl))⟩
        | true => exact .inl rfl
    | wildcard => rw [ht] at htarget; exact htarget.elim
    | _ => exact .inl rfl
  | union | intersection =>
    have hplain := hst.sourcePlain
    rw [hs] at hplain
    cases hplain
  | unknown | dynamicAny | wildcard =>
    rw [hs] at hsource
    exact hsource.elim

/-- The plans are as stated.  Only the search through the hierarchy may store types. -/
theorem LayerPair.plan_of_layer (hst : LayerPair w T D s t) (hp : Layer w T₀ T D s t p) :
    ∃ T₁, plan w s t T = .ok p T₁ ∧ T.GrowsTo T₁ ∧ (T₁ = T ∨ ∃ b, p = .verdict b) := by
  have hT := hg.wellFormed
  have hwildcard := hst.target.layer.not_wildcard
  have hsame (hplan : layerPlan w s t (T.lookup s) (T.lookup t) T = .ok p T) :
      ∃ T₁, plan w s t T = .ok p T₁ ∧ T.GrowsTo T₁ ∧ (T₁ = T ∨ ∃ b, p = .verdict b) :=
    ⟨T, (hst.plan_eq_layerPlan h hg).trans hplan, .refl hT, .inl rfl⟩
  cases hp with
  | base hs hrank hbound =>
    refine hsame ?_
    cases hs with
    | literal hs hu =>
      rw [hs] at hrank ⊢
      rw [layerPlan_literal hwildcard (Nat.le_zero.mp hrank), TypeM.bind_of_ok hu]
      rfl
    | typeVariable hs hu hne =>
      rw [hs] at hrank ⊢
      rw [layerPlan_typeVariable hwildcard hrank, hu, if_neg hne]
      rfl
    | receiver hs =>
      rw [hs] at hbound ⊢
      rw [layerPlan_receiver hwildcard (hbound.resolve_left Bool.noConfusion)]
      rfl
  | receivers hs ht =>
    refine hsame ?_
    rw [hs, ht]
    rfl
  | @hierarchy d e b hd hs ht hb =>
    have hcandidate : IsCandidate (T.lookup s) := by
      rcases hs with hs | hs
      · rw [hs.lookup hT]
        trivial
      · cases hsd : T.lookup s with
        | function | structural | metaType => trivial
        | _ => rw [hsd] at hs; cases hs
    have hplan : layerPlan w s t (T.lookup s) (T.lookup t) = nominalPlan w s e [] := by
      rw [ht.lookup hT, layerPlan_candidate s t hcandidate]
    obtain ⟨p', T₁, hp', hg₁, b', rfl, hb'⟩ := h.yields_nominalPlan_rooted hg hd hs e
    obtain rfl : b' = b := Bool.eq_iff_iff.mpr (hb'.trans hb.symm)
    exact ⟨T₁, by rw [hst.plan_eq_layerPlan h hg, hplan, hp'], hg₁, .inr ⟨b', rfl⟩⟩
  | congruent hst =>
    refine hsame ?_
    cases hst with
    | functions hs ht | shapes hs ht =>
      rw [hs, ht]
      rfl
    | @metaTypes a b i j hs ht hij =>
      have hif : (i || !j) = true := by simpa using hij
      rw [hs, ht]
      change (pure (if (i || !j) = true then _ else _) : TypeM Plan) T = _
      rw [if_pos hif]
      rfl

end Plans

/-! ### One step -/

/-- What a plan says about a relation. -/
def Plan.Met (R : PairRelation) (T : TypeTable) : Plan → Prop
  | all goals => ∀ goal ∈ goals, goal.Met R T
  | any pairs => ∃ pair ∈ pairs, R T pair.1 pair.2

/-- The goal is about types with the property, and compares no type arguments. -/
def Goal.Asks (P : TypeId → Prop) : Goal → Prop
  | verdict _ => True
  | pair source target => P source ∧ P target
  | argument .. => False

/-- The plan is about types with the property, and compares no type arguments. -/
def Plan.Asks (P : TypeId → Prop) : Plan → Prop
  | all goals => ∀ goal ∈ goals, goal.Asks P
  | any pairs => ∀ pair ∈ pairs, P pair.1 ∧ P pair.2

theorem met_pair : (Plan.pair s t).Met R T ↔ R T s t := by
  simp [Plan.Met, Goal.Met]

theorem met_verdict {b : Bool} : (Plan.verdict b).Met R T ↔ b = true := by
  simp [Plan.Met, Goal.Met]

theorem Plan.asks_pair (hs : P s) (ht : P t) : (Plan.pair s t).Asks P := by
  simpa [Plan.Asks, Goal.Asks] using ⟨hs, ht⟩

theorem Plan.asks_verdict (b : Bool) : (Plan.verdict b).Asks P := by
  simp [Plan.Asks, Goal.Asks]

theorem Goal.Asks.isPlain {goal : Goal} (h : goal.Asks P) : goal.IsPlain := by
  cases goal with
  | verdict | pair => trivial
  | argument => exact h.elim

theorem Plan.Asks.mono (h : p.Asks P) (hP : ∀ u, P u → P' u) : p.Asks P' := by
  cases p with
  | all goals =>
    intro goal hgoal
    have hasks := h goal hgoal
    cases goal with
    | verdict => trivial
    | pair => exact hasks.imp (hP _) (hP _)
    | argument => exact hasks.elim
  | any pairs => exact fun pair hpair => (h pair hpair).imp (hP _) (hP _)

theorem step_iff_met {T₁ : TypeTable} (hplan : plan w s t T = .ok p T₁) (hp : p.Asks P)
    (hT₁ : T₁ = T ∨ ∃ b, p = .verdict b) : Step w R T s t ↔ p.Met R T := by
  rcases hT₁ with rfl | ⟨b, rfl⟩
  · cases p with
    | all goals => exact step_iff_all hplan fun goal hgoal => (hp goal hgoal).isPlain
    | any pairs => exact step_iff_any hplan
  · rw [step_iff_verdict hplan, met_verdict]

theorem StandsFor.part (hs : StandsFor w T s u) (h : RegularLayer w T D P s (T.lookup s)) :
    P u ∧ u ∉ extremes := by
  cases hs with
  | literal hs hu =>
    rw [hs] at h
    obtain ⟨u', hu', hP⟩ := h
    cases hu.symm.trans hu'
    exact hP
  | typeVariable hs hu hne =>
    rw [hs] at h
    subst hu
    exact h.resolve_left hne
  | receiver hs =>
    rw [hs] at h
    exact h

theorem asks_functionPlan {f g : Signature} (hf : RegularLayer w T D P s (.function f))
    (hg : RegularLayer w T D P t (.function g)) : (functionPlan f g).Asks P := by
  unfold functionPlan
  dsimp only
  split
  · exact Plan.asks_verdict _
  · intro goal hgoal
    rcases List.mem_append.mp hgoal with hgoal | hgoal
    · obtain ⟨pair, hpair, rfl⟩ := List.mem_map.mp hgoal
      obtain ⟨hleft, hright⟩ := List.of_mem_zip hpair
      exact ⟨(hg.2 _ hright).2.2, (hf.2 _ hleft).2.2⟩
    · split at hgoal
      · cases hgoal
      · rw [List.mem_singleton.mp hgoal]
        exact ⟨hf.1, hg.1⟩

theorem asks_structuralPlan {l r : List Property} (hl : RegularLayer w T D P s (.structural l))
    (hr : RegularLayer w T D P t (.structural r)) : (structuralPlan l r).Asks P := by
  intro goal hgoal
  obtain ⟨member, hmember, rfl⟩ := List.mem_map.mp hgoal
  cases hfound : findProperty? l member.name with
  | none => trivial
  | some found => exact ⟨(hl _ (List.mem_of_find?_eq_some hfound)).2, (hr _ hmember).2⟩

/-- The plans of regular types are about regular types. -/
theorem Layer.asks (hp : Layer w T₀ T D s t p) (hs : IsRegular w T D s) (ht : IsRegular w T D t) :
    p.Asks (IsRegular w T D) := by
  have hsource := hs.layer
  have htarget := ht.layer
  cases hp with
  | base hstands => exact Plan.asks_pair (hstands.part hsource).1 ht
  | receivers hs ht =>
    rw [hs] at hsource
    rw [ht] at htarget
    exact Plan.asks_pair hsource.1 htarget.1
  | hierarchy => exact Plan.asks_verdict _
  | congruent hst =>
    cases hst with
    | functions hs ht =>
      rw [hs] at hsource
      rw [ht] at htarget
      exact asks_functionPlan hsource htarget
    | shapes hs ht =>
      rw [hs] at hsource
      rw [ht] at htarget
      exact asks_structuralPlan hsource htarget
    | metaTypes hs ht =>
      rw [hs] at hsource
      rw [ht] at htarget
      exact Plan.asks_pair hsource htarget

section Step

variable (h : w.FunctionFragment T₀ D) (hg : T₀.GrowsTo T)

include h hg

section Composites

variable {ms : List TypeId} (hst : Unsettled w T D s t)

include hst

theorem Unsettled.step_union_left (hs : T.lookup s = .union ms) :
    Step w R T s t ↔ ∀ m ∈ ms, R T m t :=
  Subtyping.step_union_left hst.unsettled (hst.source.resolveAlias h hg)
    (hst.target.resolveAlias h hg) hs

theorem Unsettled.step_union_right (hs : (T.lookup s).unionMembers? = none)
    (ht : T.lookup t = .union ms) : Step w R T s t ↔ ∃ m ∈ ms, R T s m :=
  Subtyping.step_union_right hst.unsettled (hst.source.resolveAlias h hg)
    (hst.target.resolveAlias h hg) hs ht

theorem Unsettled.step_intersection_right (hs : (T.lookup s).unionMembers? = none)
    (ht : T.lookup t = .intersection ms) : Step w R T s t ↔ ∀ m ∈ ms, R T s m :=
  Subtyping.step_intersection_right hst.unsettled (hst.source.resolveAlias h hg)
    (hst.target.resolveAlias h hg) hs ht

theorem Unsettled.step_intersection_left (hs : T.lookup s = .intersection ms)
    (ht : (T.lookup t).isComposite = false) : Step w R T s t ↔ ∃ m ∈ ms, R T m t :=
  Subtyping.step_intersection_left hst.unsettled (hst.source.resolveAlias h hg)
    (hst.target.resolveAlias h hg) hs (TypeData.isComposite_eq_false_iff.mp ht).1
    (TypeData.isComposite_eq_false_iff.mp ht).2

end Composites

/-- One step of the relation between regular types that are neither unions nor intersections. -/
theorem LayerPair.step_iff (hst : LayerPair w T D s t) :
    Step w R T s t ↔ ∃ p, Layer w T₀ T D s t p ∧ p.Met R T := by
  have hmet {p : Plan} (hp : Layer w T₀ T D s t p) : Step w R T s t ↔ p.Met R T := by
    obtain ⟨T₁, hplan, -, hT₁⟩ := hst.plan_of_layer h hg hp
    exact step_iff_met hplan (hp.asks hst.source hst.target) hT₁
  constructor
  · intro hstep
    rcases hst.refused_or_layer h hg with hrefused | ⟨p, hp⟩
    · exact absurd ((step_iff_verdict hrefused).mp hstep) Bool.false_ne_true
    · exact ⟨p, hp, (hmet hp).mp hstep⟩
  · rintro ⟨p, hp, h⟩
    exact (hmet hp).mpr h

end Step

/-! ### Queries return -/

/-- Under every guard the computation returns something with a property. -/
def Yields {α : Type} (x : CheckM α) (T : TypeTable) (V : TypeTable → α → Prop) : Prop :=
  ∀ g, TypeM.Yields (x g) T fun T' r => V T' r.1

section Yields

variable {α β : Type} {x : CheckM α} {f : α → CheckM β} {V : TypeTable → α → Prop}
  {W : TypeTable → β → Prop}

theorem Yields.pure {a : α} (hT : T.WellFormed) (h : V T a) : Yields (pure a) T V :=
  fun _ => TypeM.Yields.pure hT h

theorem Yields.bind (hx : Yields x T V)
    (hf : ∀ a T', T.GrowsTo T' → V T' a → Yields (f a) T' W) : Yields (x >>= f) T W :=
  fun g => (hx g).bind fun r T' hg hv => hf r.1 T' hg hv r.2

theorem Yields.lift {z : TypeM α} (hz : TypeM.Yields z T V) : Yields (liftM z) T V :=
  fun _ => hz.bind fun _ _ hg hv => .pure hg.wellFormed hv

/-- Returning something as a property that sequencing respects. -/
def yieldsLogic : TableLogic CheckM where
  holds := Yields
  return' := .pure
  bind := .bind

end Yields

section Queries

variable (h : w.FunctionFragment T₀ D)

include h

/-- The plan of two regular types exists and is about regular types. -/
theorem yields_plan_regular (hg : T₀.GrowsTo T) (hs : IsRegular w T D s) (ht : IsRegular w T D t) :
    TypeM.Yields (plan w s t) T fun T' p => p.Asks (IsRegular w T' D) := by
  have hT := hg.wellFormed
  have hstored {p : Plan} (hplan : plan w s t T = .ok p T) (hp : p.Asks (IsRegular w T D)) :
      TypeM.Yields (plan w s t) T fun T' p => p.Asks (IsRegular w T' D) :=
    ⟨p, T, hplan, .refl hT, hp⟩
  cases hsentinel : sentinel? s t with
  | some b => exact hstored (plan_of_sentinel hsentinel) (Plan.asks_verdict b)
  | none =>
    have hsource := hs.layer
    have htarget := ht.layer
    have hst : Unsettled w T D s t := ⟨hs, ht, hsentinel⟩
    have hplan := hst.plan_eq h hg
    generalize hsd : T.lookup s = sd at hplan hsource
    generalize htd : T.lookup t = td at hplan htarget
    unfold expandedPlan at hplan
    split at hplan
    · refine hstored hplan fun goal hgoal => ?_
      obtain ⟨m, hm, rfl⟩ := List.mem_map.mp hgoal
      exact ⟨(hsource.1 m hm).1, ht⟩
    · refine hstored hplan fun pair hpair => ?_
      obtain ⟨m, hm, rfl⟩ := List.mem_map.mp hpair
      exact ⟨hs, (htarget.1 m hm).1⟩
    · refine hstored hplan fun goal hgoal => ?_
      obtain ⟨m, hm, rfl⟩ := List.mem_map.mp hgoal
      exact ⟨hs, (htarget.2 m hm).1⟩
    · refine hstored hplan fun pair hpair => ?_
      obtain ⟨m, hm, rfl⟩ := List.mem_map.mp hpair
      exact ⟨(hsource.2 m hm).1, ht⟩
    · rename_i hsunion hsinter htunion htinter
      subst hsd htd
      have hlayer : LayerPair w T D s t :=
        ⟨hst, TypeData.isComposite_eq_false hsunion hsinter,
          TypeData.isComposite_eq_false htunion htinter⟩
      rcases hlayer.refused_or_layer h hg with hrefused | ⟨p, hp⟩
      · exact hstored hrefused (Plan.asks_verdict false)
      · obtain ⟨T₁, hplan, hg₁, -⟩ := hlayer.plan_of_layer h hg hp
        exact ⟨p, T₁, hplan, hg₁, (hp.asks hs ht).mono fun _ => .of_le hg₁.le⟩

/-- Questions about regular types are answered. -/
theorem yields_check (room : Nat) : ∀ {T : TypeTable} {s t : TypeId}, T₀.GrowsTo T →
    IsRegular w T D s → IsRegular w T D t → Yields (check w room s t) T fun _ _ => True := by
  induction room with
  | zero => exact fun hg _ _ => .pure hg.wellFormed trivial
  | succ room ih =>
    intro T s t hg hs ht g
    have hask {T' : TypeTable} {s t : TypeId} (hg' : T.GrowsTo T')
        (hst : IsRegular w T' D s ∧ IsRegular w T' D t) :
        Yields (check w room s t) T' fun _ _ => True := ih (hg.trans hg') hst.1 hst.2
    have hrules : Yields (rules w (check w room) s t) T fun _ _ => True := by
      rw [rules_eq]
      refine (Yields.lift (yields_plan_regular h hg hs ht)).bind fun p T₁ hg₁ hp => ?_
      cases p with
      | all goals =>
        refine yieldsLogic.allM goals hg₁.wellFormed fun goal hgoal T₂ hg₂ => ?_
        have hasks := hp goal hgoal
        cases goal with
        | verdict b =>
          rw [Goal.eval_verdict]
          exact Yields.pure (V := fun _ _ => True) hg₂.wellFormed trivial
        | pair s' t' =>
          rw [Goal.eval_pair]
          exact hask (hg₁.trans hg₂) ⟨hasks.1.of_le hg₂.le, hasks.2.of_le hg₂.le⟩
        | argument => exact hasks.elim
      | any pairs =>
        refine yieldsLogic.anyM pairs hg₁.wellFormed fun pair hpair T₂ hg₂ => ?_
        obtain ⟨hleft, hright⟩ := hp pair hpair
        exact hask (hg₁.trans hg₂) ⟨hleft.of_le hg₂.le, hright.of_le hg₂.le⟩
    rw [check_succ]
    split
    · exact .pure hg.wellFormed trivial
    split
    · exact (hrules _).bind fun _ _ hg _ => .pure hg.wellFormed trivial
    · exact .pure hg.wellFormed trivial
    · exact .pure hg.wellFormed trivial

/-- Queries about regular types return. -/
theorem yields_run_regular (hg : T₀.GrowsTo T) (hs : IsRegular w T D s) (ht : IsRegular w T D t) :
    TypeM.Yields (run w s t) T fun _ _ => True :=
  yields_check h _ hg hs ht _

end Queries

end Subtyping

end ScriptTyping
