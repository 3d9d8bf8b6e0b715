import Mathlib.Data.List.Nodup
import Mathlib.Order.Preorder.Finite
import ScriptTyping.Proofs.Lattice.JoinArguments
import ScriptTyping.Proofs.Subtyping.Nominal

/-!
# Shared super types

The join of several references to non-generic classifiers looks for the super types that they share.
These are read off the walks up from the arguments: a declaration that all of them reach is referred
to in all walks, and by the same type, so there is nothing to merge.  Of the shared super types the
lowest are kept.  Since the walks are finite, every shared super type has a lowest one below it,
also where the clauses run in circles; the lowest ones together are the least upper bound.

## Main definitions

* `World.Lowest` — the lowest declarations with a property.
* `World.Shared` — what several declarations reach.
* `World.IsJoin` — the declarations whose intersection is the least upper bound of others.
* `Join.Closures` — what the walks up from the arguments give.

## Main results

* `World.NominalFragment.isJoin_object`, `World.NominalFragment.isJoin_lowest` — least upper bounds
  of declarations.
* `Join.yields_common`, `Join.yields_minimal` — the shared super types and the lowest ones of them.
-/

namespace ScriptTyping

variable {w : World} {env : Environment} {T₀ T T' : TypeTable} {D : Set DeclId}
  {A C M : DeclId → Prop}

/-! ### Lowest declarations -/

namespace World

/-- The declaration has the property, and no other one strictly below it has. -/
def Lowest (w : World) (T : TypeTable) (C : DeclId → Prop) (c : DeclId) : Prop :=
  C c ∧ ∀ c', C c' → w.Below T c' c → w.Below T c c'

/-- Below each of finitely many declarations there is a lowest one, also if some of them stand above
one another in a circle. -/
theorem NominalFragment.exists_lowest (h : w.NominalFragment T D) {all : List DeclId}
    (hall : ∀ c, C c → c ∈ all) {c : DeclId} (hc : C c) : ∃ m, w.Lowest T C m ∧ w.Below T m c := by
  let _ : Preorder DeclId :=
    { le := w.Below T, le_refl := .refl, le_trans := fun _ _ _ => h.below_trans }
  have hfinite : {c | C c}.Finite := (List.finite_toSet all).subset hall
  obtain ⟨m, hm, hmin⟩ := hfinite.exists_le_minimal hc
  exact ⟨m, ⟨hmin.1, fun c' hc' hle => hmin.2 hc' hle⟩, hm⟩

/-- The intersection of the second declarations is the least upper bound of the first ones. -/
structure IsJoin (w : World) (T : TypeTable) (D : Set DeclId) (A M : DeclId → Prop) : Prop where
  mem : ∀ m, M m → m ∈ D
  upper : ∀ a m, A a → M m → w.Below T a m
  least : ∀ e ∈ D, (∀ a, A a → w.Below T a e) → ∃ m, M m ∧ w.Below T m e

/-- A declaration above all others is their least upper bound. -/
theorem isJoin_of_top (hA : ∀ a, A a → a ∈ D) {a : DeclId} (ha : A a)
    (htop : ∀ b, A b → w.Below T b a) : w.IsJoin T D A (· = a) where
  mem _ hm := hm ▸ hA a ha
  upper b _ hb hm := hm ▸ htop b hb
  least _ _ habove := ⟨a, rfl, habove a ha⟩

/-- What all of the declarations reach, without `Object`. -/
def Shared (w : World) (T : TypeTable) (A : DeclId → Prop) (e : DeclId) : Prop :=
  e ≠ w.builtins.object ∧ ∀ a, A a → w.Reaches T a e

/-- A declaration above all others is `Object` or shared by them. -/
theorem shared_of_above {e : DeclId} (hne : e ≠ w.builtins.object)
    (habove : ∀ a, A a → w.Below T a e) : w.Shared T A e :=
  ⟨hne, fun a ha => (habove a ha).resolve_left hne⟩

section Shared

variable (h : w.NominalFragment T D) (hA : ∀ a, A a → a ∈ D) {a : DeclId} (ha : A a)

include h hA ha

theorem Shared.mem {e : DeclId} (he : w.Shared T A e) : e ∈ D :=
  h.mem_of_reaches (hA a ha) (he.2 a ha)

theorem NominalFragment.exists_lowest_shared {e : DeclId} (he : w.Shared T A e) :
    ∃ m, w.Lowest T (w.Shared T A) m ∧ w.Below T m e := by
  obtain ⟨all, -, hall⟩ := h.bounded a (hA a ha)
  exact h.exists_lowest (fun c hc => hall c (hc.2 a ha)) he

/-- Declarations that share nothing have `Object` as their least upper bound. -/
theorem NominalFragment.isJoin_object (hnone : ∀ m, ¬w.Lowest T (w.Shared T A) m) :
    w.IsJoin T D A (· = w.builtins.object) where
  mem _ hm := hm ▸ h.object
  upper _ _ _ hm := .inl hm
  least e _ habove := by
    refine ⟨_, rfl, ?_⟩
    by_cases heq : e = w.builtins.object
    · exact .inl heq
    · obtain ⟨m, hm, -⟩ := h.exists_lowest_shared hA ha (shared_of_above heq habove)
      exact absurd hm (hnone m)

/-- The intersection of the lowest declarations that others share is the least upper bound of
those. -/
theorem NominalFragment.isJoin_lowest {m : DeclId} (hm : w.Lowest T (w.Shared T A) m) :
    w.IsJoin T D A (w.Lowest T (w.Shared T A)) where
  mem _ hm := hm.1.mem h hA ha
  upper b _ hb hm := .inr (hm.1.2 b hb)
  least e _ habove := by
    by_cases heq : e = w.builtins.object
    · exact ⟨m, hm, .inl heq⟩
    · exact h.exists_lowest_shared hA ha (shared_of_above heq habove)

end Shared

theorem NominalFragment.yields_strict (h : w.NominalFragment T₀ D) (henv : env.ReplacesNothing)
    (hg : T₀.GrowsTo T) {s t : TypeId} {d e : DeclId} (hd : d ∈ D) (he : e ∈ D)
    (hs : T.Refers s d) (ht : T.Refers t e) :
    TypeM.Yields (TypeRelation.strict w.isSubtype env s t) T
      fun _ b => b = true ↔ w.Below T₀ d e ∧ ¬w.Below T₀ e d := by
  rw [TypeRelation.strict]
  split
  · rename_i heq
    subst heq
    cases hs.decl_unique hg.wellFormed ht
    refine .pure hg.wellFormed ?_
    simp
  · refine (h.yields_isSubtype henv hg hd he hs ht).bind fun b T₁ hg₁ hb => ?_
    cases b with
    | false =>
      refine .pure hg₁.wellFormed ?_
      simp only [Bool.false_eq_true, false_iff] at hb ⊢
      exact fun hbelow => hb hbelow.1
    | true =>
      refine (h.yields_isSubtype henv (hg.trans hg₁) he hd (ht.of_le hg₁.le)
        (hs.of_le hg₁.le)).bind fun b' T₂ hg₂ hb' => .pure hg₂.wellFormed ?_
      rw [Bool.not_eq_true', ← Bool.not_eq_true, hb']
      exact ⟨fun hnot => ⟨hb.mp rfl, hnot⟩, fun hboth => hboth.2⟩

end World

namespace Join

variable {args : List TypeId}

/-! ### Shared super types -/

section Shared

variable {closures : List (List TypeId)} {t : TypeId} {d e : DeclId}

/-- Whether the type is a reference to the declaration. -/
def isReferenceTo (table : TypeTable) (decl : DeclId) (t : TypeId) : Bool :=
  match table.lookup t with
  | .nominal d _ => d == decl
  | _ => false

theorem firstReferences?_eq (T : TypeTable) (e : DeclId) (closures : List (List TypeId)) :
    firstReferences? T e closures =
      closures.mapM fun closure => closure.find? (isReferenceTo T e) :=
  rfl

theorem isReferenceTo_iff (hT : T.WellFormed) (ht : T.Refers t d) :
    isReferenceTo T e t = true ↔ d = e := by
  rw [isReferenceTo, ht.lookup hT]
  exact beq_iff_eq

/-- A list of references holds one to each of its declarations. -/
theorem find?_isReferenceTo {closure : List TypeId} (hT : T.WellFormed)
    (hclosure : T.Lists closure M) (ht : T.Refers t e) (he : M e) :
    closure.find? (isReferenceTo T e) = some t := by
  cases hfound : closure.find? (isReferenceTo T e) with
  | none =>
    have hnone := List.find?_eq_none.mp hfound t ((hclosure.mem_iff hT ht).mpr he)
    exact absurd ((isReferenceTo_iff hT ht).mpr rfl) hnone
  | some s =>
    obtain ⟨d, -, hs⟩ := hclosure.sound s (List.mem_of_find?_eq_some hfound)
    cases (isReferenceTo_iff hT hs).mp (List.find?_some hfound)
    exact congrArg some (hs.unique ht)

/-- The lists hold the references to what each of the declarations reaches. -/
structure Closures (w : World) (T₀ T : TypeTable) (A : DeclId → Prop)
    (closures : List (List TypeId)) : Prop where
  sound : ∀ closure ∈ closures, ∃ a, A a ∧ T.Lists closure (w.Reaches T₀ a)
  complete : ∀ a, A a → ∃ closure ∈ closures, T.Lists closure (w.Reaches T₀ a)

/-- What all of the declarations reach is referred to in all lists, by one and the same type. -/
theorem Closures.firstReferences? (h : Closures w T₀ T A closures) (hT : T.WellFormed)
    (he : ∀ a, A a → w.Reaches T₀ a e) (ht : T.Refers t e) :
    Join.firstReferences? T e closures = some (closures.map fun _ => t) := by
  have hfind (closure : List TypeId) (hclosure : closure ∈ closures) :
      closure.find? (isReferenceTo T e) = some t := by
    obtain ⟨a, ha, hlists⟩ := h.sound closure hclosure
    exact find?_isReferenceTo hT hlists ht (he a ha)
  clear h
  rw [firstReferences?_eq]
  induction closures with
  | nil => rfl
  | cons closure closures ih =>
    rw [List.mapM_cons, hfind closure (List.mem_cons_self ..),
      ih fun closure' hclosure' => hfind closure' (List.mem_cons_of_mem _ hclosure')]
    rfl

/-- A declaration that all lists refer to is reached from all of the declarations. -/
theorem Closures.reaches_of_firstReferences? (h : Closures w T₀ T A closures) (hT : T.WellFormed)
    {references : List TypeId} (he : Join.firstReferences? T e closures = some references)
    {a : DeclId} (ha : A a) : w.Reaches T₀ a e := by
  obtain ⟨closure, hclosure, hlists⟩ := h.complete a ha
  obtain ⟨t, -, hfound⟩ := Composite.exists_of_mem_mapM he hclosure
  obtain ⟨d, hd, ht⟩ := hlists.sound t (List.mem_of_find?_eq_some hfound)
  exact (isReferenceTo_iff hT ht).mp (List.find?_some hfound) ▸ hd

/-- The declarations that all lists refer to, with the references. -/
def sharedReferences (T : TypeTable) (closures : List (List TypeId)) :
    List (DeclId × List TypeId) :=
  (declarationsOf T (closures.head?.getD [])).filterMap fun decl =>
    (Join.firstReferences? T decl closures).map fun references => (decl, references)

theorem nodup_sharedReferences (T : TypeTable) (closures : List (List TypeId)) :
    ((sharedReferences T closures).map Prod.fst).Nodup := by
  rw [sharedReferences, List.map_filterMap]
  refine List.Nodup.filterMap (fun a a' b hb hb' => ?_) (nodup_eraseDups _)
  simp only [Option.map_map, Option.mem_def, Option.map_eq_some_iff] at hb hb'
  obtain ⟨_, -, rfl⟩ := hb
  obtain ⟨_, -, heq⟩ := hb'
  exact heq.symm

/-- Exactly the declarations that are reached from all are shared, each by one type. -/
theorem Closures.mem_sharedReferences (h : Closures w T₀ T A closures) (hT : T.WellFormed)
    (hne : closures ≠ []) (pair : DeclId × List TypeId) :
    pair ∈ sharedReferences T closures ↔ (∀ a, A a → w.Reaches T₀ a pair.1) ∧
      ∃ t, T.Refers t pair.1 ∧ pair.2 = closures.map fun _ => t := by
  obtain ⟨first, rest, rfl⟩ := List.exists_cons_of_ne_nil hne
  obtain ⟨a, ha, hfirst⟩ := h.sound first (List.mem_cons_self ..)
  obtain ⟨e, references⟩ := pair
  simp only [sharedReferences, List.mem_filterMap, Option.map_eq_some_iff, Prod.mk.injEq]
  constructor
  · rintro ⟨_, -, _, hreferences, rfl, rfl⟩
    have hreach (a : DeclId) (ha : A a) := h.reaches_of_firstReferences? hT hreferences ha
    obtain ⟨t, -, ht⟩ := hfirst.complete _ (hreach a ha)
    refine ⟨hreach, t, ht, ?_⟩
    exact Option.some.inj (hreferences.symm.trans (h.firstReferences? hT hreach ht))
  · rintro ⟨hreach, t, ht, rfl⟩
    refine ⟨e, List.mem_eraseDups.mpr (List.mem_filterMap.mpr ⟨t, ?_, ?_⟩), _,
      h.firstReferences? hT hreach ht, rfl, rfl⟩
    · exact (hfirst.mem_iff hT ht).mpr (hreach a ha)
    · rw [ht.lookup hT]
      rfl

/-- All types that the walks meet are references. -/
theorem Closures.sharedOthers (h : Closures w T₀ T A closures) (hT : T.WellFormed) :
    Join.sharedOthers T closures = [] := by
  refine List.filter_eq_nil_iff.mpr fun t ht => ?_
  cases closures with
  | nil => cases ht
  | cons first rest =>
    obtain ⟨a, -, hfirst⟩ := h.sound first (List.mem_cons_self ..)
    obtain ⟨e, -, hrefers⟩ := hfirst.sound t ht
    rw [hrefers.lookup hT]
    simp [TypeData.application?]

/-- References to different declarations, one for each, are different. -/
theorem lists_filterMap_of_forall₂ (hT : T.WellFormed) {decls : List DeclId}
    {merged : List (Option TypeId)}
    (h : List.Forall₂ (fun e o => ∃ t, o = some t ∧ T.Refers t e) decls merged)
    (hnodup : decls.Nodup) :
    T.Lists (merged.filterMap id) (· ∈ decls) ∧ (merged.filterMap id).Nodup := by
  induction h with
  | nil => exact ⟨⟨(fun _ h => by cases h), (fun _ h => by cases h)⟩, List.nodup_nil⟩
  | cons hhead _ ih =>
    obtain ⟨t, rfl, ht⟩ := hhead
    obtain ⟨hnew, hnodup⟩ := List.nodup_cons.mp hnodup
    obtain ⟨hlists, hrest⟩ := ih hnodup
    rw [List.filterMap_cons_some (f := id) rfl]
    refine ⟨⟨fun s hs => ?_, fun e he => ?_⟩, List.nodup_cons.mpr ⟨fun hmem => ?_, hrest⟩⟩
    · rcases List.mem_cons.mp hs with rfl | hs
      · exact ⟨_, List.mem_cons_self .., ht⟩
      · obtain ⟨e, he, hrefers⟩ := hlists.sound s hs
        exact ⟨e, List.mem_cons_of_mem _ he, hrefers⟩
    · rcases List.mem_cons.mp he with rfl | he
      · exact ⟨t, List.mem_cons_self .., ht⟩
      · obtain ⟨s, hs, hrefers⟩ := hlists.complete e he
        exact ⟨s, List.mem_cons_of_mem _ hs, hrefers⟩
    · exact hnew ((hlists.mem_iff hT ht).mp hmem)

end Shared

section Fragment

variable (h : w.NominalFragment T₀ D) (hA : ∀ a, A a → a ∈ D) (hg : T₀.GrowsTo T)
  (hargs : T.Lists args A)

include h hA hg hargs

/-- The walks up from the arguments. -/
theorem yields_closures :
    ReportM.Yields (args.mapM fun t => (liftM (w.supertypes t) : ReportM (List TypeId))) T
      fun T' closures => Closures w T₀ T' A closures ∧ closures.length = args.length := by
  refine (ReportM.yieldsLogic.mapM_forall₂
    (R := fun T' t closure => ∀ a, T.Refers t a → T'.Lists closure (w.Reaches T₀ a))
    (fun _ _ _ _ hle hR a ha => (hR a ha).of_le hle) args hg.wellFormed
    fun t ht T₁ hg₁ => .lift ?_).mono fun T₁ closures hg₁ hclosures => ⟨⟨?_, ?_⟩, ?_⟩
  · obtain ⟨a, ha, hrefers⟩ := hargs.sound t ht
    exact (h.yields_supertypes (hg.trans hg₁) (hA a ha) (hrefers.of_le hg₁.le)).mono
      fun T₂ closure hg₂ hclosure => (hrefers.forall_iff hg.wellFormed).mpr hclosure.1
  · intro closure hclosure
    obtain ⟨t, ht, hlists⟩ := TypeM.exists_of_mem_of_forall₂ hclosures.flip hclosure
    obtain ⟨a, ha, hrefers⟩ := hargs.sound t ht
    exact ⟨a, ha, hlists a hrefers⟩
  · intro a ha
    obtain ⟨t, ht, hrefers⟩ := hargs.complete a ha
    obtain ⟨closure, hclosure, hlists⟩ := TypeM.exists_of_mem_of_forall₂ hclosures ht
    exact ⟨closure, hclosure, hlists a hrefers⟩
  · exact hclosures.length_eq.symm

/-- The super types that the arguments share. -/
theorem yields_common (hne : args ≠ []) (join : List TypeId → ReportM TypeId) :
    ReportM.Yields (common w.isSubtype w env join args) T
      fun T' shared => T'.Lists shared (w.Shared T₀ A) ∧ shared.Nodup := by
  rw [common]
  refine (yields_closures h hA hg hargs).bind fun closures T₁ hg₁ hclosures => .get ?_
  obtain ⟨hclosures, hlength⟩ := hclosures
  have hT₁ := hg₁.wellFormed
  have hclosuresne : closures ≠ [] := by
    rintro rfl
    exact hne (List.length_eq_zero_iff.mp hlength.symm)
  have hshared := hclosures.mem_sharedReferences hT₁ hclosuresne
  change ReportM.Yields ((sharedReferences T₁ closures).mapM _ >>= _) _ _
  refine (ReportM.yieldsLogic.mapM_forall₂
    (R := fun T' (pair : DeclId × List TypeId) o => ∃ t, o = some t ∧ T'.Refers t pair.1)
    (fun _ _ _ _ hle hR => ?_) _ hT₁ fun pair hpair T₂ hg₂ => ?_).bind
    fun merged T₂ hg₂ hmerged => .pure hg₂.wellFormed ?_
  · obtain ⟨t, rfl, ht⟩ := hR
    exact ⟨t, rfl, ht.of_le hle⟩
  · -- All references to a shared declaration are the same, so there is nothing to merge.
    obtain ⟨-, t, ht, hreferences⟩ := (hshared pair).mp hpair
    obtain ⟨decl, references⟩ := pair
    obtain ⟨first, rest, rfl⟩ := List.exists_cons_of_ne_nil hclosuresne
    cases hreferences
    dsimp only [List.map_cons]
    rw [if_pos (by simp)]
    exact .pure hg₂.wellFormed ⟨t, rfl, ht.of_le hg₂.le⟩
  · have hT₂ := hg₂.wellFormed
    have hobject := h.objectType.of_le ((hg.trans hg₁).trans hg₂).le
    obtain ⟨hlists, hnodup⟩ := lists_filterMap_of_forall₂ hT₂
      (List.forall₂_map_left_iff.mpr hmerged) (nodup_sharedReferences T₁ closures)
    have hmem {e : DeclId} (he : e ∈ (sharedReferences T₁ closures).map Prod.fst) (a : DeclId)
        (ha : A a) : w.Reaches T₀ a e := by
      obtain ⟨pair, hpair, rfl⟩ := List.mem_map.mp he
      exact ((hshared pair).mp hpair).1 a ha
    rw [hclosures.sharedOthers hT₁, List.append_nil]
    refine ⟨⟨fun t ht => ?_, fun e he => ?_⟩, hnodup.filter _⟩
    · obtain ⟨ht, hne⟩ := List.mem_filter.mp ht
      obtain ⟨e, he, hrefers⟩ := hlists.sound t ht
      refine ⟨e, ⟨?_, hmem he⟩, hrefers⟩
      rintro rfl
      simp [hrefers.unique hobject] at hne
    · obtain ⟨hne', hreach⟩ := he
      obtain ⟨first, rest, rfl⟩ := List.exists_cons_of_ne_nil hclosuresne
      obtain ⟨a, ha, hfirst⟩ := hclosures.sound first (List.mem_cons_self ..)
      obtain ⟨s, -, hs⟩ := hfirst.complete e (hreach a ha)
      obtain ⟨t, ht, hrefers⟩ := hlists.complete e (List.mem_map.mpr
        ⟨(e, _), (hshared (e, _)).mpr ⟨hreach, s, hs, rfl⟩, rfl⟩)
      refine ⟨t, List.mem_filter.mpr ⟨ht, ?_⟩, hrefers⟩
      refine bne_iff_ne.mpr fun heq => hne' ?_
      exact hrefers.decl_unique hT₂ (heq ▸ hobject)

/-- The arguments above all arguments. -/
theorem yields_tops (henv : env.ReplacesNothing) :
    ReportM.Yields (args.filterM fun candidate => args.allM fun other =>
      if other = candidate then pure true
      else (liftM (w.isSubtype env other candidate) : ReportM Bool)) T
      fun _ tops => ∀ t, t ∈ tops ↔ t ∈ args ∧ ∀ e, T.Refers t e → ∀ a, A a → w.Below T₀ a e := by
  refine (ReportM.yieldsLogic.filterM_iff
    (P := fun t => ∀ e, T.Refers t e → ∀ a, A a → w.Below T₀ a e) args hg.wellFormed
    fun t ht T₁ hg₁ => ?_).mono fun _ _ _ htops => htops.2
  have hT := hg.wellFormed
  obtain ⟨e, he, hrefers⟩ := hargs.sound t ht
  rw [hrefers.forall_iff hT, ← hargs.forall_iff hT]
  refine ReportM.yieldsLogic.allM_iff args hg₁.wellFormed fun s hs T₂ hg₂ => ?_
  obtain ⟨a, ha, hsrefers⟩ := hargs.sound s hs
  rw [hsrefers.forall_iff hT]
  have hle := (hg₁.trans hg₂).le
  split
  · rename_i heq
    subst heq
    cases hsrefers.decl_unique hT hrefers
    exact .pure hg₂.wellFormed ⟨fun _ => .refl _, fun _ => rfl⟩
  · exact .lift (h.yields_isSubtype henv ((hg.trans hg₁).trans hg₂) (hA a ha) (hA e he)
      (hsrefers.of_le hle) (hrefers.of_le hle))

end Fragment

/-! ### The lowest ones -/

/-- In a list without repetition nothing stands twice in a row. -/
theorem eraseReps_of_nodup {ts : List TypeId} (hnodup : ts.Nodup) : ts.eraseReps = ts := by
  have hloop (rest : List TypeId) : ∀ (first : TypeId) (done : List TypeId),
      (first :: rest).Nodup →
      List.eraseRepsBy.loop (· == ·) first rest done = done.reverse ++ first :: rest := by
    induction rest with
    | nil => exact fun first done _ => by simp [List.eraseRepsBy.loop]
    | cons next rest ih =>
      intro first done hnodup
      obtain ⟨hne, hrest⟩ := List.nodup_cons.mp hnodup
      have hdiffer : (first == next) = false :=
        beq_eq_false_iff_ne.mpr fun heq => hne (heq ▸ List.mem_cons_self ..)
      rw [List.eraseRepsBy.loop, hdiffer]
      dsimp only
      rw [ih next (first :: done) hrest, List.reverse_cons, List.append_assoc,
        List.singleton_append]
  cases ts with
  | nil => rfl
  | cons first rest => exact hloop rest first [] hnodup

/-- The lowest of a list of references. -/
theorem yields_minimal (h : w.NominalFragment T₀ D) (henv : env.ReplacesNothing)
    (hC : ∀ c, C c → c ∈ D) (hg : T₀.GrowsTo T) {candidates : List TypeId}
    (hcandidates : T.Lists candidates C) (hnodup : candidates.Nodup) :
    TypeM.Yields (minimal w.isSubtype env candidates) T
      fun T' lowest => T'.Lists lowest (w.Lowest T₀ C) ∧ lowest.Nodup := by
  have hT := hg.wellFormed
  rw [minimal]
  refine (TypeM.yieldsLogic.filterM_iff (P := fun t => ∀ c, T.Refers t c → w.Lowest T₀ C c)
    candidates hg.wellFormed fun t ht T₁ hg₁ => ?_).bind fun lowest T₁ hg₁ hlowest =>
    .get (.pure hg₁.wellFormed ?_)
  · obtain ⟨c, hc, hrefers⟩ := hcandidates.sound t ht
    refine TypeM.Yields.bind (TypeM.yieldsLogic.anyM_iff
      (P := fun s => ∃ c', T.Refers s c' ∧ w.Below T₀ c' c ∧ ¬w.Below T₀ c c') candidates
      hg₁.wellFormed fun s hs T₂ hg₂ => ?_) fun b T₂ hg₂ hb => .pure hg₂.wellFormed ?_
    · obtain ⟨c', hc', hsrefers⟩ := hcandidates.sound s hs
      rw [hsrefers.exists_iff hT]
      have hle := (hg₁.trans hg₂).le
      split
      · rename_i heq
        subst heq
        cases hsrefers.decl_unique hT hrefers
        exact .pure hg₂.wellFormed (by simp)
      · exact h.yields_strict henv ((hg.trans hg₁).trans hg₂) (hC c' hc') (hC c hc)
          (hsrefers.of_le hle) (hrefers.of_le hle)
    · rw [hcandidates.exists_iff hT] at hb
      rw [Bool.not_eq_true', ← Bool.not_eq_true, hb, hrefers.forall_iff hT]
      constructor
      · intro hnone
        refine ⟨hc, fun c' hc' hbelow => ?_⟩
        by_contra hnot
        exact hnone ⟨c', hc', hbelow, hnot⟩
      · rintro hlow ⟨c', hc', hbelow, hnot⟩
        exact hnot (hlow.2 c' hc' hbelow)
  · obtain ⟨hsub, hmem⟩ := hlowest
    have hsort : (sort T₁ lowest).Perm lowest := List.mergeSort_perm ..
    have hsorted : (sort T₁ lowest).Nodup := hsort.nodup_iff.mpr (hnodup.sublist hsub)
    rw [eraseReps_of_nodup hsorted]
    refine ⟨⟨fun t ht => ?_, fun c hc => ?_⟩, hsorted⟩
    · obtain ⟨hcand, hlow⟩ := (hmem t).mp (hsort.mem_iff.mp ht)
      obtain ⟨c, -, hrefers⟩ := hcandidates.sound t hcand
      exact ⟨c, hlow c hrefers, hrefers.of_le hg₁.le⟩
    · obtain ⟨t, ht, hrefers⟩ := hcandidates.complete c hc.1
      exact ⟨t, hsort.mem_iff.mpr ((hmem t).mpr ⟨ht, (hrefers.forall_iff hT).mpr hc⟩),
        hrefers.of_le hg₁.le⟩

end Join

end ScriptTyping
