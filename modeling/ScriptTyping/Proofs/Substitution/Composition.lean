import ScriptTyping.Proofs.Substitution.Simultaneous
import ScriptTyping.Proofs.Termination.Hierarchy

/-!
# Substitutions compose

Substituting is an action: a substitution that replaces nothing in a type leaves it alone, and two
substitutions one after the other do what their composite does at once.  The composite replaces a
type variable by what the second substitution makes of the first one's replacement.

Two things could go wrong.  A layer that comes out unchanged keeps its handle while a changed one is
stored, so the two ways must meet at one handle: the table stores each layer once.  And a traversal
stops at a fixed depth; a replacement stands deeper in the result of the first substitution than on
its own, so the second substitution may stop earlier there.  Types that nest less deep than that are
traversed to the end, wherever the traversal starts.

## Main definitions

* `TypeData.mapParts` — a layer with other parts and fewer open type parameters.
* `TypeTable.NestsWithin` — a bound on the levels of a type.
* `Substitution.Composes`, `Substitution.compose` — the composite of two substitutions.

## Main results

* `Traversal.handles_of_recalls` — the layer that comes out of a traversal, by its handle.
* `Traversal.coincide_of_nestsWithin` — further room makes no difference.
* `Substitution.Composes.eq` — the composite does what the two do.
* `Substitution.instantiate_identity_composition` — substituting as an action.
-/

namespace ScriptTyping

/-! ### Layers with other parts -/

namespace TypeData

variable {g g' : TypeId → TypeId} {keep keep' : DeclId → Bool}

/-- The layer with its parts replaced, and with those open type parameters that pass a test. -/
def mapParts (g : TypeId → TypeId) (keep : DeclId → Bool) : TypeData → TypeData
  | nominal decl args => nominal decl (args.map g)
  | structural members =>
    structural (members.map fun member => { member with type := g member.type })
  | union members => union (members.map g)
  | intersection members => intersection (members.map g)
  | function signature => function { signature with
      params := signature.params.map fun param => { param with type := g param.type }
      returnType := g signature.returnType
      thisType := signature.thisType.map g
      typeParams := signature.typeParams.filter keep }
  | thisType bound => thisType (bound.map g)
  | wildcard bound kind => wildcard (bound.map g) kind
  | metaType arg isConstructor => metaType (g arg) isConstructor
  | data => data

/-- Rebuilding a layer with known parts. -/
theorem rebuild_eq_pure (data : TypeData) :
    data.rebuild (fun s => pure (g s)) keep = pure (data.mapParts g keep) := by
  cases data with
  | function signature =>
    obtain ⟨typeParams, params, returnType, thisType, decl⟩ := signature
    cases thisType <;> simp [rebuild, mapParts]
  | thisType bound => cases bound <;> simp [rebuild, mapParts]
  | wildcard bound kind => cases bound <;> simp [rebuild, mapParts]
  | _ => simp [rebuild, mapParts]

@[simp]
theorem parts_mapParts (data : TypeData) : (data.mapParts g keep).parts = data.parts.map g := by
  cases data with
  | function signature =>
    obtain ⟨typeParams, params, returnType, thisType, decl⟩ := signature
    cases thisType <;> simp [mapParts, parts]
  | thisType bound => cases bound <;> simp [mapParts, parts]
  | wildcard bound kind => cases bound <;> simp [mapParts, parts]
  | _ => simp [mapParts, parts]

@[simp]
theorem isIntrinsic_mapParts (data : TypeData) :
    (data.mapParts g keep).isIntrinsic = data.isIntrinsic := by
  cases data <;> rfl

theorem mapParts_mapParts (data : TypeData) :
    (data.mapParts g keep).mapParts g' keep' =
      data.mapParts (fun s => g' (g s)) fun d => keep d && keep' d := by
  cases data with
  | function signature =>
    obtain ⟨typeParams, params, returnType, thisType, decl⟩ := signature
    simp [mapParts, List.filter_filter, Bool.and_comm, Function.comp_def]
  | _ => simp [mapParts, Function.comp_def]

/-- Only the parts and the open type parameters of the layer matter. -/
theorem mapParts_congr (data : TypeData) (hparts : ∀ s ∈ data.parts, g s = g' s)
    (hopens : ∀ d ∈ data.opens, keep d = keep' d) :
    data.mapParts g keep = data.mapParts g' keep' := by
  cases data with
  | nominal decl args => simpa [mapParts, parts] using hparts
  | union members => simpa [mapParts, parts] using hparts
  | intersection members => simpa [mapParts, parts] using hparts
  | structural members => simpa [mapParts, parts] using hparts
  | function signature =>
    obtain ⟨typeParams, params, returnType, thisType, decl⟩ := signature
    simp only [parts, List.mem_append, List.mem_map, List.mem_cons, Option.mem_toList] at hparts
    have hparams : ∀ param ∈ params, g param.type = g' param.type :=
      fun param hparam => hparts _ (.inl ⟨param, hparam, rfl⟩)
    have hthis : thisType.map g = thisType.map g' :=
      Option.map_congr fun s hs => hparts s (.inr (.inr hs))
    simp only [mapParts, function.injEq, Signature.mk.injEq, and_true]
    exact ⟨List.filter_congr hopens, by simpa using hparams, hparts _ (.inr (.inl rfl)), hthis⟩
  | thisType bound => cases bound <;> simp_all [mapParts, parts]
  | wildcard bound kind => cases bound <;> simp_all [mapParts, parts]
  | metaType arg isConstructor => simpa [mapParts, parts] using hparts
  | _ => rfl

end TypeData

/-! ### Handles and layers -/

namespace TypeTable

variable {T T' : TypeTable} {t : TypeId}

/-- The handles held back and those of the intrinsic types are the ones with an intrinsic layer. -/
theorem Indexed.isIntrinsic_lookup (hT : T.Indexed) (ht : T.Has t) :
    (T.lookup t).isIntrinsic = t.isIntrinsic := by
  rw [TypeId.isIntrinsic]
  rcases Nat.lt_or_ge t.index TypeId.firstDynamic with hlt | hge
  · rw [decide_eq_true hlt]
    by_contra hlayer
    have hhandle := hT.handles_lookup (Bool.eq_false_iff.mpr hlayer)
    rcases hT.given _ _ hhandle with hlow | hhigh
    · exact hlayer (hT.isIntrinsic hlow ht.lookup?)
    · omega
  · rw [decide_eq_false (Nat.not_lt.mpr hge)]
    by_contra hlayer
    -- An intrinsic layer has its own handle, which is not this one.
    have hlayers (data : TypeData) (h : data.isIntrinsic = true) :
        ∃ row ∈ intrinsics, row.2 = data := by
      cases data with
      | primitive kind => cases kind <;> simp [intrinsics]
      | unknown => simp [intrinsics]
      | dynamicAny => simp [intrinsics]
      | _ => cases h
    obtain ⟨row, hrow, hdata⟩ := hlayers _ (Bool.not_eq_false _ ▸ hlayer)
    have hhandle := hT.stored t _ hge ht.lookup?
    rw [← hdata, (hT.intrinsic row hrow).2] at hhandle
    have hlow : ∀ row ∈ intrinsics, row.1.index < TypeId.firstDynamic := by decide
    have := hlow row hrow
    rw [Option.some.inj hhandle] at this
    omega

/-- A type that is not intrinsic is found by its layer. -/
theorem Indexed.handles_of_le (hT : T.Indexed) (hle : T ≤ T') (ht : T.Has t)
    (hintrinsic : t.isIntrinsic = false) : T'.handles[T'.lookup t]? = some t := by
  rw [lookup_of_le hle ht]
  exact hle.handles _ _ (hT.handles_lookup ((hT.isIntrinsic_lookup ht).trans hintrinsic))

/-- What a later table stores with a layer that is not intrinsic is no intrinsic type. -/
theorem Indexed.isIntrinsic_of_le (hT : T.Indexed) (hle : T ≤ T')
    (ht : (T'.lookup t).isIntrinsic = false) : t.isIntrinsic = false := by
  by_contra hintrinsic
  have hlt : t.index < TypeId.firstDynamic := of_decide_eq_true (Bool.not_eq_false _ ▸ hintrinsic)
  have hHas : T.Has t := Nat.lt_of_lt_of_le hlt hT.reserved
  rw [lookup_of_le hle hHas, hT.isIntrinsic_lookup hHas] at ht
  exact hintrinsic ht

/-! ### Nesting -/

/-- The type has at most so many levels; intrinsic types count for none. -/
def NestsWithin (T : TypeTable) : Nat → TypeId → Prop
  | 0, t => t.isIntrinsic = true
  | depth + 1, t => t.isIntrinsic = true ∨ ∀ s ∈ (T.lookup t).parts, T.NestsWithin depth s

instance decidableNestsWithin (T : TypeTable) : ∀ (depth : Nat) (t : TypeId),
    Decidable (T.NestsWithin depth t)
  | 0, t => inferInstanceAs (Decidable (t.isIntrinsic = true))
  | depth + 1, t =>
    have := decidableNestsWithin T depth
    inferInstanceAs (Decidable (t.isIntrinsic = true ∨ ∀ s ∈ (T.lookup t).parts, _))

theorem nestsWithin_iff_of_le (hT : T.WellFormed) (hle : T ≤ T') {depth : Nat} (ht : T.Has t) :
    T'.NestsWithin depth t ↔ T.NestsWithin depth t := by
  induction depth generalizing t with
  | zero => rfl
  | succ depth ih =>
    rw [NestsWithin, NestsWithin, lookup_of_le hle ht]
    exact or_congr_right (forall₂_congr fun s hs => ih (hT.hasAll_parts t s hs))

theorem NestsWithin.of_le (hT : T.WellFormed) (hle : T ≤ T') {depth : Nat} (ht : T.Has t)
    (h : T.NestsWithin depth t) : T'.NestsWithin depth t :=
  (nestsWithin_iff_of_le hT hle ht).mpr h

theorem NestsWithin.parts {depth : Nat} (h : T.NestsWithin (depth + 1) t)
    (hintrinsic : t.isIntrinsic = false) : ∀ s ∈ (T.lookup t).parts, T.NestsWithin depth s :=
  h.resolve_left (by simp [hintrinsic])

/-- A type that is not intrinsic has a level. -/
theorem NestsWithin.exists_succ {depth : Nat} (h : T.NestsWithin depth t)
    (hintrinsic : t.isIntrinsic = false) : ∃ below, depth = below + 1 := by
  cases depth with
  | zero => exact absurd h (by simp [NestsWithin, hintrinsic])
  | succ below => exact ⟨below, rfl⟩

end TypeTable

/-! ### Running several computations -/

/-- A loop that returns, as a function on the elements that is recalled from then on. -/
theorem TypeM.exists_recalls {α β : Type} [Inhabited β] {f : α → TypeM β} {T : TypeTable}
    (hT : T.WellFormed) (l : List α) (htotal : ∀ a, Total (f a))
    (hstable : ∀ a ∈ l, ∀ T', T.GrowsTo T' → Stable (f a) T' fun _ _ => True) :
    ∃ (T' : TypeTable) (g : α → β), l.mapM f T = .ok (l.map g) T' ∧ T.GrowsTo T' ∧
      ∀ a ∈ l, Recalls (f a) T' (g a) := by
  obtain ⟨bs, T', hrun⟩ := Total.mapM htotal l T
  obtain ⟨hg, hall, -⟩ := Stable.mapM_recalls l hT hstable bs T' hrun
  have hvalue : ∀ a ∈ l, ∃ b, Recalls (f a) T' b := fun a ha => by
    obtain ⟨b, -, hb⟩ := exists_of_mem_of_forall₂ hall ha
    exact ⟨b, hb⟩
  choose! g hg' using hvalue
  have hmap : List.Forall₂ Eq (l.map g) bs := List.forall₂_map_left_iff.mpr
    (((List.forall₂_and_left _ _).mpr ⟨fun _ ha => ha, hall⟩).imp
      fun a b hab => (hg' a hab.1).unique hab.2)
  rw [List.forall₂_eq_eq_eq] at hmap
  exact ⟨T', g, hmap ▸ hrun, hg, hg'⟩

/-! ### One traversal -/

namespace Traversal

variable {r : Traversal} {T F : TypeTable} {t u : TypeId} {room : Nat} {d : DeclId}

theorem apply_of_isIntrinsic (r : Traversal) (room : Nat) (ht : t.isIntrinsic = true) :
    r.apply room t = pure t := by
  cases room with
  | zero => rfl
  | succ room => rw [apply_succ, if_pos ht]

/-- Without chains a type variable becomes its replacement, if it has one. -/
theorem recalls_variable (hchained : r.chained = false) (hintrinsic : t.isIntrinsic = false)
    (ht : F.Has t) (hlookup : F.lookup t = .typeVariable d) :
    TypeM.Recalls (r.apply (room + 1) t) F ((r.resolve d).getD t) := by
  intro T' hle
  rw [apply_succ, if_neg (by simp [hintrinsic])]
  change r.visit room t (T'.lookup t) T' = _
  rw [TypeTable.lookup_of_le hle ht, hlookup, visit]
  cases r.resolve d with
  | none => rfl
  | some replacement =>
    by_cases hsame : replacement = t
    · simp [hsame]; rfl
    · simp [hsame, hchained]; rfl

/-- Without a receiver an unbound `this` stays. -/
theorem recalls_this (hthis : r.thisType = none) (ht : F.Has t)
    (hlookup : F.lookup t = .thisType none) : TypeM.Recalls (r.apply (room + 1) t) F t := by
  intro T' hle
  rw [apply_succ]
  split
  · rfl
  change r.visit room t (T'.lookup t) T' = _
  rw [TypeTable.lookup_of_le hle ht, hlookup, visit, hthis]
  rfl

/-- The type that comes out of a traversal is the one whose layer is the layer of the type with the
parts that come out. -/
theorem exists_layer {data : TypeData} (hF : F.WellFormed) (hr : r.Within F)
    (hintrinsic : t.isIntrinsic = false) (hself : F.handles[data]? = some t)
    (hvariable : ∀ d, data ≠ .typeVariable d) (hthis : data ≠ .thisType none)
    (h : TypeM.Recalls (r.apply (room + 1) t) F u) :
    ∃ (F' : TypeTable) (g : TypeId → TypeId), F.GrowsTo F' ∧
      (∀ s ∈ data.parts, TypeM.Recalls (r.apply room s) F' (g s)) ∧
      F'.handles[data.mapParts g fun param => (r.resolve param).isNone]? = some u := by
  have hlookup : F.lookup t = data := TypeTable.lookup_eq (hF.handles_sound _ _ hself)
  have hall : F.HasAll data.parts := hlookup ▸ hF.hasAll_parts t
  obtain ⟨F', g, -, hg, hparts⟩ := TypeM.exists_recalls hF data.parts (total_apply r room)
    fun s hs _ hg => (stable_apply room hg.wellFormed (hr.of_le hg.le)
      ((hall s hs).of_le hg.le)).mono fun _ _ _ _ => trivial
  refine ⟨F', g, hg, hparts, ?_⟩
  have hrebuild : TypeM.Recalls
      (data.rebuild (r.apply room) fun param => (r.resolve param).isNone) F'
      (data.mapParts g fun param => (r.resolve param).isNone) := by
    refine TypeM.Coincide.recalls ?_
    rw [← TypeData.rebuild_eq_pure]
    exact (TypeM.coincidence F').rebuild _ (fun s hs => (hparts s hs).coincide) fun _ _ => rfl
  have hrun := h F' hg.le
  rw [apply_succ, if_neg (by simp [hintrinsic])] at hrun
  change r.visit room t (F'.lookup t) F' = _ at hrun
  rw [TypeTable.lookup_eq (hg.wellFormed.handles_sound _ _ (hg.le.handles _ _ hself)),
    visit_of_not_site hvariable hthis, TypeM.bind_of_ok hrebuild.run] at hrun
  split at hrun
  · rename_i hsame
    obtain ⟨rfl, -⟩ := TypeM.pure_eq_ok.mp hrun
    rw [hsame]
    exact hg.le.handles _ _ hself
  · have hstored : EStateM.Result.ok (F'.intern _).1 (F'.intern _).2 = .ok u F' := hrun
    injection hstored with hu hF'
    have hhandle := TypeTable.handles_intern F'
      (data.mapParts g fun param => (r.resolve param).isNone)
    rwa [hu, hF'] at hhandle

/-- Further room makes no difference to a type that is traversed to its end. -/
theorem coincide_of_nestsWithin (hchained : r.chained = false) (hT : T.WellFormed) {depth : Nat} :
    ∀ {t room}, T.Has t → T.NestsWithin depth t → depth ≤ room →
      TypeM.Coincide T (r.apply depth t) (r.apply room t) Eq := by
  induction depth with
  | zero =>
    intro t room _ hnests _
    rw [apply_of_isIntrinsic r 0 hnests, apply_of_isIntrinsic r room hnests]
    exact (TypeM.coincidence T).same t
  | succ depth ih =>
    intro t room ht hnests hroom
    obtain ⟨room, rfl⟩ : ∃ k, room = k + 1 := ⟨room - 1, by omega⟩
    by_cases hintrinsic : t.isIntrinsic = true
    · rw [apply_of_isIntrinsic r _ hintrinsic, apply_of_isIntrinsic r _ hintrinsic]
      exact (TypeM.coincidence T).same t
    rw [apply_succ, apply_succ, if_neg hintrinsic, if_neg hintrinsic]
    refine .lookup ht ?_
    have hparts : ∀ s ∈ (T.lookup t).parts,
        TypeM.Coincide T (r.apply depth s) (r.apply room s) Eq := fun s hs =>
      ih (hT.hasAll_parts t s hs) (hnests.parts (Bool.eq_false_iff.mpr hintrinsic) s hs) (by omega)
    obtain ⟨d, hd⟩ | hthis | hvisit := visit_cases (T.lookup t)
    · rw [hd]
      cases hresolve : r.resolve d with
      | none =>
        simp only [visit, hresolve]
        exact (TypeM.coincidence T).same t
      | some replacement =>
        simp only [visit, hresolve, hchained, Bool.false_eq_true, if_false]
        split
        · exact (TypeM.coincidence T).same t
        · exact (TypeM.coincidence T).same replacement
    · rw [hthis]
      cases hreceiver : r.thisType with
      | none =>
        simp only [visit, hreceiver]
        exact (TypeM.coincidence T).same t
      | some receiver =>
        simp only [visit, hreceiver]
        exact coincide_bindThis receiver
    · rw [hvisit, hvisit]
      refine (TypeM.coincidence T).bindEq
        ((TypeM.coincidence T).rebuild _ hparts fun _ _ => rfl) fun data' => ?_
      split
      · exact (TypeM.coincidence T).same t
      · exact TypeM.coincide_intern data'

end Traversal

/-! ### The composite -/

namespace TypeData

variable {g : TypeId → TypeId} {keep : DeclId → Bool} {data : TypeData}

theorem mapParts_eq_typeVariable {d : DeclId} (h : data.mapParts g keep = typeVariable d) :
    data = typeVariable d := by
  cases data <;> first | exact h | cases h

theorem mapParts_eq_unboundThis (h : data.mapParts g keep = thisType none) :
    data = thisType none := by
  cases data with
  | thisType bound =>
    cases bound with
    | none => rfl
    | some bound => cases h
  | _ => cases h

end TypeData

namespace Substitution

variable {T T' F : TypeTable} {s s₁ s₂ : Substitution} {D : DeclId → Prop} {d : DeclId}
  {t u u₁ u₃ : TypeId} {room room₂ : Nat}

/-- On these declarations, the substitution does at once what the two do one after the other.  All
three belong to the table and have no receiver. -/
structure Composes (s s₁ s₂ : Substitution) (T : TypeTable) (D : DeclId → Prop) : Prop where
  within : s.Within T ∧ s₁.Within T ∧ s₂.Within T
  thisType : s.thisType = none ∧ s₁.thisType = none ∧ s₂.thisType = none
  /-- What the first one replaces becomes what the second makes of the replacement. -/
  mapped : ∀ d a, D d → s₁.get? d = some a →
    ∃ b, s.get? d = some b ∧ TypeM.Recalls (s₂.instantiate a) T b
  /-- What the first one leaves alone is left to the second. -/
  unmapped : ∀ d, D d → s₁.get? d = none → s.get? d = s₂.get? d

theorem Composes.of_le (hle : T ≤ T') (h : s.Composes s₁ s₂ T D) : s.Composes s₁ s₂ T' D where
  within := ⟨h.within.1.of_le hle, h.within.2.1.of_le hle, h.within.2.2.of_le hle⟩
  thisType := h.thisType
  mapped d a hd ha := by
    obtain ⟨b, hb, hrecalls⟩ := h.mapped d a hd ha
    exact ⟨b, hb, hrecalls.of_le hle⟩
  unmapped := h.unmapped

/-- The composite closes the open type parameters that one of the two closes. -/
theorem Composes.isNone_get? (h : s.Composes s₁ s₂ T D) (hd : D d) :
    (s.get? d).isNone = ((s₁.get? d).isNone && (s₂.get? d).isNone) := by
  cases hfirst : s₁.get? d with
  | none => rw [h.unmapped d hd hfirst]; simp
  | some a =>
    obtain ⟨b, hb, -⟩ := h.mapped d a hd hfirst
    simp [hb]

/-- A substitution that replaces nothing in a type leaves it alone. -/
theorem recalls_instantiate (hT : T.WellFormed) (ht : T.Has t)
    (hmentions : ∀ d, T.Mentions t d → s.get? d = none)
    (hthis : s.thisType = none ∨ ¬T.MentionsThis t) : TypeM.Recalls (s.instantiate t) T t :=
  fun T' hle => (s.instantiate_eq_run hT ht hle).trans
    (Traversal.recalls_apply (r := s.traversal) hT _ ht hmentions hthis T' hle)

/-- The composite as it is computed: the replacements of the first substitution with the second
applied to them, and what only the second replaces.  Receivers are left out. -/
def compose (s₁ s₂ : Substitution) : TypeM Substitution := do
  let images ← s₁.replacements.mapM fun entry => s₂.instantiate entry.2
  return {
    replacements := (s₁.replacements.map Prod.fst).zip images ++
      s₂.replacements.filter fun entry => (s₁.get? entry.1).isNone }

private theorem lookup_zip_of_forall₂ {R : TypeId → TypeId → Prop}
    {entries : List (DeclId × TypeId)} {images : List TypeId}
    (h : List.Forall₂ (fun entry b => R entry.2 b) entries images) :
    (∀ a, entries.lookup d = some a →
      ∃ b, ((entries.map Prod.fst).zip images).lookup d = some b ∧ R a b) ∧
    (entries.lookup d = none → ((entries.map Prod.fst).zip images).lookup d = none) := by
  induction h with
  | nil => exact ⟨fun _ h => (by cases h), fun _ => rfl⟩
  | @cons entry b entries images hb _ ih =>
    obtain ⟨key, value⟩ := entry
    simp only [List.map_cons, List.zip_cons_cons, List.lookup_cons]
    split
    · exact ⟨fun a ha => ⟨b, rfl, Option.some.inj ha ▸ hb⟩, fun h => (by cases h)⟩
    · exact ih

private theorem lookup_filter_fst {p : DeclId → Bool} (hp : p d = true)
    (entries : List (DeclId × TypeId)) :
    (entries.filter fun entry => p entry.1).lookup d = entries.lookup d := by
  induction entries with
  | nil => rfl
  | cons entry entries ih =>
    obtain ⟨key, value⟩ := entry
    rw [List.filter_cons]
    split
    · rw [List.lookup_cons, List.lookup_cons, ih]
    · rename_i hkey
      rw [ih, List.lookup_cons]
      have hne : (d == key) = false := beq_eq_false_iff_ne.mpr fun h => hkey (h ▸ hp)
      rw [hne]

/-- The composite of two substitutions of the table. -/
theorem compose_composes (hT : T.WellFormed) (h₁ : s₁.Within T) (h₂ : s₂.Within T)
    (hthis : s₁.thisType = none ∧ s₂.thisType = none) :
    ∃ s T', s₁.compose s₂ T = .ok s T' ∧ T.GrowsTo T' ∧ s.Composes s₁ s₂ T' fun _ => True := by
  obtain ⟨images, T', hrun⟩ :=
    TypeM.Total.mapM (fun entry => total_instantiate s₂ entry.2) s₁.replacements T
  have hstable : ∀ entry ∈ s₁.replacements, ∀ T', T.GrowsTo T' →
      TypeM.Stable (s₂.instantiate entry.2) T' TypeTable.Has := fun entry hentry T' hg =>
    stable_instantiate hg.wellFormed (h₂.of_le hg.le) ((h₁.replacements _ hentry).of_le hg.le)
  obtain ⟨hg, hall, -⟩ := TypeM.Stable.mapM_recalls _ hT
    (fun entry hentry T' hg => (hstable entry hentry T' hg).mono fun _ _ _ _ => trivial)
    images T' hrun
  obtain ⟨-, himages, -⟩ := TypeM.Stable.mapM (W := TypeTable.Has)
    (fun _ _ _ => TypeTable.Has.of_le) _ hT hstable images T' hrun
  have hlookup (d : DeclId) := lookup_zip_of_forall₂ (d := d)
    (R := fun a b => TypeM.Recalls (s₂.instantiate a) T' b) hall
  refine ⟨_, T', TypeM.bind_eq_ok.mpr ⟨images, T', hrun, rfl⟩, hg,
    ⟨⟨fun entry hentry => ?_, fun _ h => (by cases h)⟩, h₁.of_le hg.le, h₂.of_le hg.le⟩,
    ⟨rfl, hthis⟩, fun d a _ ha => ?_, fun d _ hnone => ?_⟩
  · rcases List.mem_append.mp hentry with hmem | hmem
    · exact himages _ (List.of_mem_zip hmem).2
    · exact (h₂.replacements _ (List.mem_of_mem_filter hmem)).of_le hg.le
  · obtain ⟨b, hb, hrecalls⟩ := (hlookup d).1 a ha
    exact ⟨b, by rw [get?, List.lookup_append, hb]; rfl, hrecalls⟩
  · rw [get?, List.lookup_append, (hlookup d).2 hnone, Option.none_or]
    exact lookup_filter_fst (p := fun d => (s₁.get? d).isNone) (by simp [hnone]) _

/-- At a type variable the composite does what the two do. -/
private theorem Composes.variable_eq (h : s.Composes s₁ s₂ F D) (hF : F.WellFormed) (hd : D d)
    (ht : F.Has t) (hintrinsic : t.isIntrinsic = false) (hsite : F.lookup t = .typeVariable d)
    (hnests : F.NestsWithin room₂ ((s₁.get? d).getD t))
    (hroom : room₂ ≤ RecursionProfile.substitution.maxDepth)
    (h₂ : TypeM.Recalls (s₂.traversal.apply room₂ ((s₁.get? d).getD t)) F u) :
    u = (s.get? d).getD t := by
  cases hfirst : s₁.get? d with
  | none =>
    rw [hfirst, Option.getD_none] at hnests h₂
    obtain ⟨below, rfl⟩ := hnests.exists_succ hintrinsic
    rw [h.unmapped d hd hfirst]
    exact h₂.unique (Traversal.recalls_variable rfl hintrinsic ht hsite)
  | some a =>
    rw [hfirst, Option.getD_some] at hnests h₂
    obtain ⟨b, hb, hrecalls⟩ := h.mapped d a hd hfirst
    have ha : F.Has a := h.within.2.1.traversal.resolve d a hfirst
    rw [hb, Option.getD_some]
    -- The replacement stands deeper here than on its own, but not too deep.
    have hdeep := Traversal.coincide_of_nestsWithin (r := s₂.traversal) rfl hF ha hnests hroom
    refine h₂.unique fun F' hle => ?_
    rw [hdeep.eq hle]
    exact (instantiate_eq_run s₂ hF ha hle).symm.trans (hrecalls F' hle)

/-- At any other layer the composite does what the two do, if it does so at the parts. -/
private theorem Composes.layer_eq {data : TypeData} (h : s.Composes s₁ s₂ F D) (hF : F.WellFormed)
    (hindex : T.Indexed) (hle : T ≤ F) (ht : T.Has t) (hintrinsic : t.isIntrinsic = false)
    (hdata : T.lookup t = data) (hopens : ∀ d ∈ data.opens, D d)
    (hvariable : ∀ d, data ≠ .typeVariable d) (hthis : data ≠ .thisType none)
    (hnests : F.NestsWithin room₂ u₁)
    (hparts : ∀ F', F.GrowsTo F' → ∀ part ∈ data.parts, ∀ below < room₂, ∀ a b c,
      F'.NestsWithin below a → TypeM.Recalls (s₁.traversal.apply room part) F' a →
      TypeM.Recalls (s₂.traversal.apply below a) F' b →
      TypeM.Recalls (s.traversal.apply room part) F' c → b = c)
    (h₁ : TypeM.Recalls (s₁.traversal.apply (room + 1) t) F u₁)
    (h₂ : TypeM.Recalls (s₂.traversal.apply room₂ u₁) F u)
    (h₃ : TypeM.Recalls (s.traversal.apply (room + 1) t) F u₃) : u = u₃ := by
  obtain ⟨hw, hw₁, hw₂⟩ := h.within
  have hself : F.handles[data]? = some t := by
    rw [← hdata, ← TypeTable.lookup_of_le hle ht]
    exact hindex.handles_of_le hle ht hintrinsic
  -- What the first substitution makes of the layer.
  obtain ⟨F₁, g₁, hg₁, hr₁, hlayer₁⟩ :=
    Traversal.exists_layer hF hw₁.traversal hintrinsic hself hvariable hthis h₁
  have hlookup₁ := TypeTable.lookup_eq (hg₁.wellFormed.handles_sound _ _ hlayer₁)
  have hintrinsic₁ : u₁.isIntrinsic = false := by
    refine hindex.isIntrinsic_of_le (le_trans hle hg₁.le) ?_
    rw [hlookup₁, TypeData.isIntrinsic_mapParts, ← hdata, hindex.isIntrinsic_lookup ht, hintrinsic]
  obtain ⟨below, rfl⟩ := hnests.exists_succ hintrinsic₁
  have hu₁ : F.Has u₁ :=
    (Traversal.stable_apply (room + 1) hF hw₁.traversal (ht.of_le hle) u₁ F h₁.run).2.1
  have hall₁ := hg₁.wellFormed.hasAll_parts u₁
  have hnests₁ := (hnests.of_le hF hg₁.le hu₁).parts hintrinsic₁
  rw [hlookup₁, TypeData.parts_mapParts] at hall₁ hnests₁
  -- What the second one makes of that layer, and the composite of the first layer.
  obtain ⟨F₂, g₂, hg₂, hr₂, hlayer₂⟩ := Traversal.exists_layer hg₁.wellFormed
    (hw₂.of_le hg₁.le).traversal hintrinsic₁ hlayer₁
    (fun d hd => hvariable d (TypeData.mapParts_eq_typeVariable hd))
    (fun hd => hthis (TypeData.mapParts_eq_unboundThis hd)) (h₂.of_le hg₁.le)
  rw [TypeData.parts_mapParts] at hr₂
  have hg₁₂ := hg₁.trans hg₂
  obtain ⟨F₃, g₃, hg₃, hr₃, hlayer₃⟩ := Traversal.exists_layer hg₁₂.wellFormed
    (hw.of_le hg₁₂.le).traversal hintrinsic (hg₁₂.le.handles _ _ hself) hvariable hthis
    (h₃.of_le hg₁₂.le)
  have hg₂₃ := hg₂.trans hg₃
  -- The two layers are one.
  have hsame : ∀ part ∈ data.parts, g₂ (g₁ part) = g₃ part := fun part hpart => by
    have hmem := List.mem_map_of_mem (f := g₁) hpart
    exact hparts F₃ (hg₁₂.trans hg₃) part hpart below (Nat.lt_succ_self below) _ _ _
      ((hnests₁ _ hmem).of_le hg₁.wellFormed hg₂₃.le (hall₁ _ hmem))
      ((hr₁ part hpart).of_le hg₂₃.le) ((hr₂ _ hmem).of_le hg₃.le) (hr₃ part hpart)
  have hopened : ∀ d ∈ data.opens,
      ((s₁.traversal.resolve d).isNone && (s₂.traversal.resolve d).isNone) =
        (s.traversal.resolve d).isNone := fun d hd => (h.isNone_get? (hopens d hd)).symm
  rw [TypeData.mapParts_mapParts, TypeData.mapParts_congr data hsame hopened] at hlayer₂
  exact Option.some.inj ((hg₃.le.handles _ _ hlayer₂).symm.trans hlayer₃)

/-- The composite traversal does what the two traversals do, of which the second has as much room as
the outcome of the first has levels. -/
private theorem Composes.apply_eq (hT : T.WellFormed) (hindex : T.Indexed) :
    ∀ {room : Nat} {F : TypeTable} {t u₁ u u₃ : TypeId} {room₂ : Nat}, T.GrowsTo F →
      s.Composes s₁ s₂ F D → T.Has t → (∀ d, T.Mentions t d → D d) →
      T.NestsWithin room t → F.NestsWithin room₂ u₁ →
      room₂ ≤ RecursionProfile.substitution.maxDepth →
      TypeM.Recalls (s₁.traversal.apply room t) F u₁ →
      TypeM.Recalls (s₂.traversal.apply room₂ u₁) F u →
      TypeM.Recalls (s.traversal.apply room t) F u₃ → u = u₃ := by
  intro room
  induction room with
  | zero =>
    intro F t u₁ u u₃ room₂ _ _ _ _ hnests _ _ h₁ h₂ h₃
    rw [Traversal.apply_of_isIntrinsic _ _ hnests] at h₁ h₃
    obtain rfl := h₁.unique (.pure t)
    rw [Traversal.apply_of_isIntrinsic _ _ hnests] at h₂
    exact h₂.unique h₃
  | succ room ih =>
    intro F t u₁ u u₃ room₂ hg hcomp ht hD hnests hnests₁ hroom h₁ h₂ h₃
    by_cases hintrinsic : t.isIntrinsic = true
    · rw [Traversal.apply_of_isIntrinsic _ _ hintrinsic] at h₁ h₃
      obtain rfl := h₁.unique (.pure t)
      rw [Traversal.apply_of_isIntrinsic _ _ hintrinsic] at h₂
      exact h₂.unique h₃
    replace hintrinsic := Bool.eq_false_iff.mpr hintrinsic
    have hrow := TypeTable.lookup_of_le hg.le ht
    have htF := ht.of_le hg.le
    by_cases hvariable : ∃ d, T.lookup t = .typeVariable d
    · obtain ⟨d, hd⟩ := hvariable
      have hsite := hrow.trans hd
      obtain rfl := h₁.unique (Traversal.recalls_variable rfl hintrinsic htF hsite)
      obtain rfl := h₃.unique (Traversal.recalls_variable rfl hintrinsic htF hsite)
      exact hcomp.variable_eq hg.wellFormed (hD d (TypeTable.mentions_variable hd)) htF hintrinsic
        hsite hnests₁ hroom h₂
    by_cases hthis : T.lookup t = .thisType none
    · have hsite := hrow.trans hthis
      obtain ⟨hthis₃, hthis₁, hthis₂⟩ := hcomp.thisType
      obtain rfl := h₁.unique (Traversal.recalls_this hthis₁ htF hsite)
      obtain rfl := h₃.unique (Traversal.recalls_this hthis₃ htF hsite)
      obtain ⟨below, rfl⟩ := hnests₁.exists_succ hintrinsic
      exact h₂.unique (Traversal.recalls_this hthis₂ htF hsite)
    refine hcomp.layer_eq hg.wellFormed hindex hg.le ht hintrinsic rfl
      (fun d hd => hD d (TypeTable.mentions_opens hd)) (not_exists.mp hvariable) hthis hnests₁
      (fun F' hg' part hpart below hbelow a b c hnests₂ hr₁ hr₂ hr₃ => ?_) h₁ h₂ h₃
    exact ih (hg.trans hg') (hcomp.of_le hg'.le) (hT.hasAll_parts t part hpart)
      (fun d hd => hD d (hd.of_part hpart)) (hnests.parts hintrinsic part hpart) hnests₂
      (by omega) hr₁ hr₂ hr₃

/-- Where types nest within the depth limit, the composite instantiates as the two do one after the
other. -/
theorem Composes.eq (h : s.Composes s₁ s₂ F D) (hT : T.WellFormed) (hindex : T.Indexed)
    (hg : T.GrowsTo F) (ht : T.Has t) (hD : ∀ d, T.Mentions t d → D d)
    (hnests : T.NestsWithin RecursionProfile.substitution.maxDepth t)
    (hnests₁ : F.NestsWithin RecursionProfile.substitution.maxDepth u₁)
    (h₁ : TypeM.Recalls (s₁.instantiate t) F u₁) (h₂ : TypeM.Recalls (s₂.instantiate u₁) F u)
    (h₃ : TypeM.Recalls (s.instantiate t) F u₃) : u = u₃ := by
  have hu₁ : F.Has u₁ :=
    (stable_instantiate hg.wellFormed h.within.2.1 (ht.of_le hg.le) u₁ F h₁.run).2.1
  refine h.apply_eq hT hindex hg ht hD hnests hnests₁ le_rfl (fun F' hle => ?_)
    (fun F' hle => ?_) (fun F' hle => ?_)
  · exact (instantiate_eq_run s₁ hT ht (le_trans hg.le hle)).symm.trans (h₁ F' hle)
  · exact (instantiate_eq_run s₂ hg.wellFormed hu₁ hle).symm.trans (h₂ F' hle)
  · exact (instantiate_eq_run s hT ht (le_trans hg.le hle)).symm.trans (h₃ F' hle)

/-- Substituting acts on the types of a table.

What replaces nothing that a type mentions, open type parameters included, and binds no `this` that
stands in it, returns the type and stores nothing; this holds of explicit substitutions, of
environments and of the two traversals behind them, so the shortcuts that both take when there is
nothing to replace make no difference.

Two substitutions without receivers have a composite: what the first one replaces becomes what the
second makes of the replacement, and the rest is left to the second.  From every later table on, the
first substitution returns, and if its outcome nests as little as the type does, the second one then
returns what the composite returns. -/
theorem instantiate_identity_composition (hT : T.WellFormed) (hindex : T.Indexed) (ht : T.Has t) :
    (∀ s : Substitution, (∀ d, T.Mentions t d → s.get? d = none) →
      (s.thisType = none ∨ ¬T.MentionsThis t) →
      TypeM.Recalls (s.instantiate t) T t ∧ TypeM.Recalls (s.traversal.run t) T t) ∧
    (∀ env : Environment, (∀ d, T.Mentions t d → env.substitution? d = none) →
      (env.this? = none ∨ ¬T.MentionsThis t) →
      TypeM.Recalls (env.substitute t) T t ∧ TypeM.Recalls (env.traversal.run t) T t) ∧
    (∀ (env : Environment) (T' : TypeTable), T ≤ T' →
      env.substitute t T' = env.traversal.run t T') ∧
    ∀ s₁ s₂ : Substitution, s₁.Within T → s₂.Within T →
      (s₁.thisType = none ∧ s₂.thisType = none) →
      T.NestsWithin RecursionProfile.substitution.maxDepth t →
      ∃ s T₁, s₁.compose s₂ T = .ok s T₁ ∧ T.GrowsTo T₁ ∧
        (s.Composes s₁ s₂ T₁ fun _ => True) ∧
        ∀ T₂, T₁.GrowsTo T₂ → ∃ u₁ T₃, s₁.instantiate t T₂ = .ok u₁ T₃ ∧ T₂.GrowsTo T₃ ∧
          (T₃.NestsWithin RecursionProfile.substitution.maxDepth u₁ →
            ∃ u T₄ T₅, s₂.instantiate u₁ T₃ = .ok u T₄ ∧ s.instantiate t T₄ = .ok u T₅) := by
  refine ⟨fun s hs hthis => ?_, fun env henv hthis => ?_,
    fun env T' hle => env.substitute_eq_run hT ht hle, fun s₁ s₂ hw₁ hw₂ hthis hnests => ?_⟩
  · exact ⟨recalls_instantiate hT ht hs hthis,
      Traversal.recalls_apply (r := s.traversal) hT _ ht hs hthis⟩
  · have hrun := Traversal.recalls_apply (r := env.traversal) hT
      RecursionProfile.substitution.maxDepth ht henv hthis
    exact ⟨fun T' hle => (env.substitute_eq_run hT ht hle).trans (hrun T' hle), hrun⟩
  · obtain ⟨s, T₁, hcompose, hg₁, hcomposes⟩ := compose_composes hT hw₁ hw₂ hthis
    refine ⟨s, T₁, hcompose, hg₁, hcomposes, fun T₂ hg₂ => ?_⟩
    have hg := hg₁.trans hg₂
    obtain ⟨u₁, T₃, h₁⟩ := total_instantiate s₁ t T₂
    obtain ⟨hg₃, hu₁, hrecalls₁⟩ := stable_instantiate hg.wellFormed (hw₁.of_le hg.le)
      (ht.of_le hg.le) u₁ T₃ h₁
    refine ⟨u₁, T₃, h₁, hg₃, fun hnests₁ => ?_⟩
    obtain ⟨u, T₄, h₂⟩ := total_instantiate s₂ u₁ T₃
    obtain ⟨hg₄, -, hrecalls₂⟩ := stable_instantiate hg₃.wellFormed
      (hw₂.of_le (hg.trans hg₃).le) hu₁ u T₄ h₂
    have hg' := (hg₂.trans hg₃).trans hg₄
    obtain ⟨u₃, T₅, h₃⟩ := total_instantiate s t T₄
    obtain ⟨hg₅, -, hrecalls₃⟩ := stable_instantiate hg'.wellFormed
      (hcomposes.within.1.of_le hg'.le) (ht.of_le (hg₁.trans hg').le) u₃ T₅ h₃
    obtain rfl : u = u₃ := (hcomposes.of_le (hg'.trans hg₅).le).eq hT hindex
      (hg₁.trans (hg'.trans hg₅)) ht (fun _ _ => trivial) hnests
      (hnests₁.of_le hg₃.wellFormed (hg₄.trans hg₅).le hu₁)
      (TypeM.Recalls.of_le hrecalls₁ (hg₄.trans hg₅).le) (TypeM.Recalls.of_le hrecalls₂ hg₅.le)
      hrecalls₃
    exact ⟨u, T₄, T₅, h₂, h₃⟩

/-- In a pair of two type parameters, the first is replaced by the second and then the second by
`number`: the composite replaces both by `number`. -/
theorem instantiate_identity_composition_pair :
    TypeM.Recalls (({ replacements := [(⟨1⟩, .number)] } : Substitution).instantiate ⟨18⟩)
      World.pairTable ⟨18⟩ ∧
    ∃ u T, ({ replacements := [(⟨2⟩, .number)] } : Substitution).instantiate ⟨24⟩
        (World.pairTable.store (.nominal ⟨3⟩ [⟨17⟩, ⟨17⟩])) = .ok u T ∧
      ∃ T', ({ replacements := [(⟨1⟩, .number), (⟨2⟩, .number)] } : Substitution).instantiate ⟨20⟩
        T = .ok u T' := by
  obtain ⟨hT, hindex⟩ := World.pairTable_sound
  have hobject {s : TypeId} (hs : World.pairTable.Occurs ⟨18⟩ s) : s = ⟨18⟩ :=
    List.mem_singleton.mp (hs.mem (List.mem_singleton_self _) (by decide))
  refine ⟨((instantiate_identity_composition hT hindex (t := ⟨18⟩) (by decide)).1 _
    (fun d hd => ?_) (.inl rfl)).1, ?_⟩
  · obtain ⟨s, hs, hd⟩ := hd
    obtain rfl := hobject hs
    rcases hd with hd | hd <;> cases hd
  · obtain ⟨s, T₁, hcompose, -, -, h⟩ :=
      (instantiate_identity_composition hT hindex (t := ⟨20⟩) (by decide)).2.2.2
        { replacements := [(⟨1⟩, ⟨17⟩)] } { replacements := [(⟨2⟩, .number)] }
        ⟨by decide, nofun⟩ ⟨by decide, nofun⟩ ⟨rfl, rfl⟩ (by decide)
    obtain ⟨rfl, rfl⟩ : { replacements := [(⟨1⟩, .number), (⟨2⟩, .number)] } = s ∧
        World.pairTable = T₁ := EStateM.Result.ok.inj hcompose
    obtain ⟨u₁, T₃, h₁, -, h⟩ := h World.pairTable (.refl hT)
    have hfirst : ({ replacements := [(⟨1⟩, ⟨17⟩)] } : Substitution).instantiate ⟨20⟩
        World.pairTable = .ok ⟨24⟩ (World.pairTable.store (.nominal ⟨3⟩ [⟨17⟩, ⟨17⟩])) :=
      TypeM.intern_of_new (hT.handles_eq_none (by decide))
    rw [hfirst] at h₁
    obtain ⟨rfl, rfl⟩ := EStateM.Result.ok.inj h₁
    obtain ⟨u, T₄, T₅, h₂, h₃⟩ := h (by decide)
    exact ⟨u, T₄, h₂, T₅, h₃⟩

end Substitution

end ScriptTyping
