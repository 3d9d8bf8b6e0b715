import ScriptTyping.Lattice.Narrowing
import ScriptTyping.Proofs.Lattice.Coverage

/-!
# Types that are known not to hold

A test that failed takes out of a declared union what lies below the tested type.  The members of
the union are compared as they stand: a nested union is below an excluded type or it stays, with all
its members, and if all members stay the declared type itself is returned.  So excluded types are
gone from the refined type, however deep they were nested, if each nested union lies below an
excluded type together with all of its expanded members or with none of them.  Where the members are
no unions themselves, this is always so.

What is left is put in short form, which may cost all of it when the members that are left drop each
other in a circle; without circles something stays.

## Main definitions

* `Excluded` — a type lies below one of the excluded types.

## Main results

* `narrow_of_neverHolds` — refining by failed tests is excluding what they tested for.
* `yields_exclude` — what is left of a union.
* `narrow_neverHolds_excludes` — nothing excluded is left in the refined type, and nothing is added.
-/

namespace ScriptTyping

/-- The type lies below one of the excluded types. -/
def Excluded (below : TypeId → TypeId → Prop) (excluded : List TypeId) (t : TypeId) : Prop :=
  ∃ ex ∈ excluded, below t ex

instance (below : TypeId → TypeId → Prop) [DecidableRel below] (excluded : List TypeId) :
    DecidablePred (Excluded below excluded) :=
  fun t => inferInstanceAs (Decidable (∃ ex ∈ excluded, below t ex))

variable {rel : TypeRelation} {w : World} {env : Environment} {below : TypeId → TypeId → Prop}
  {T T' : TypeTable} {base : TypeId} {members leaves excluded : List TypeId} {facts : List TypeFact}

theorem yields_isExcluded {ts : List TypeId} (hrel : rel.Decides env ts below T)
    (hg : T.GrowsTo T') {t : TypeId} (ht : t ∈ ts) (hexcluded : ∀ ex ∈ excluded, ex ∈ ts) :
    TypeM.Yields (isExcluded rel env excluded t) T'
      fun _ answer => answer = true ↔ Excluded below excluded t :=
  TypeM.yieldsLogic.anyM_iff excluded hg.wellFormed fun ex hex _ hg' =>
    hrel _ (hg.trans hg') t ht ex (hexcluded ex hex)

/-- The members that are not excluded. -/
theorem yields_kept (hT : T.WellFormed)
    (hrel : rel.Decides env (members ++ leaves ++ excluded) below T) :
    TypeM.Yields (members.filterM fun t => return !(← isExcluded rel env excluded t)) T
      fun _ kept => kept.Sublist members ∧
        ∀ t, t ∈ kept ↔ t ∈ members ∧ ¬Excluded below excluded t := by
  refine TypeM.yieldsLogic.filterM_iff members hT fun t ht T₁ hg₁ => ?_
  refine (yields_isExcluded hrel hg₁ (by simp [ht]) (by simp +contextual)).bind
    fun answer T₂ hg₂ hanswer => .pure hg₂.wellFormed ?_
  rw [← hanswer, Bool.not_eq_true', Bool.not_eq_true]

/-- What is left of a union: if members that are not excluded hold anything, the union itself or the
short form of what they hold. -/
theorem yields_exclude (hT : T.WellFormed) (hlookup : T.lookup base = .union members)
    (hexpands : Composite.Expands .union T members leaves)
    (hrel : rel.Decides env (members ++ leaves ++ excluded) below T)
    (hacyclic : Composite.Acyclic .union below leaves)
    (hleft : ∃ t ∈ members, ¬Excluded below excluded t ∧ ¬Composite.Expands .union T [t] []) :
    TypeM.Yields (exclude rel w env excluded base) T fun T' left => ∃ r stay inner, left = some r ∧
      Composite.Expands .union T' [r] stay ∧ stay ≠ [] ∧
      (r = base ∧ stay = inner ∨ Composite.IsNormalForm .union below inner.eraseDups stay) ∧
      ∀ leaf, leaf ∈ inner ↔ ∃ t ∈ members, ¬Excluded below excluded t ∧
        ∃ part, Composite.Expands .union T [t] part ∧ leaf ∈ part := by
  have hunion : Composite.members? .union (T.lookup base) = some members := by
    rw [hlookup]
    rfl
  rw [exclude]
  refine .lookup ?_
  rw [hlookup]
  refine (yields_kept hT hrel).bind fun kept T₁ hg₁ hkept => ?_
  obtain ⟨hsub, hkept⟩ := hkept
  obtain ⟨inner, hinner, hle⟩ := hexpands.exists_sublist hsub
  obtain ⟨t, ht, hstays, hholds⟩ := hleft
  have htkept : t ∈ kept := (hkept t).mpr ⟨ht, hstays⟩
  have hne : inner ≠ [] := by
    rintro rfl
    obtain ⟨part, hpart, hnil⟩ := hinner.exists_single htkept
    exact hholds (List.sublist_nil.mp hnil ▸ hpart)
  have horigin : ∀ leaf, leaf ∈ inner ↔ ∃ t ∈ members, ¬Excluded below excluded t ∧
      ∃ part, Composite.Expands .union T [t] part ∧ leaf ∈ part := by
    intro leaf
    simp only [← and_assoc, ← hkept]
    exact hinner.mem_iff
  rw [if_neg (by simpa using List.ne_nil_of_mem htkept)]
  split
  · -- Nothing was taken out, so the declared type stands for the members.
    rename_i hlength
    obtain rfl := hsub.eq_of_length hlength
    have hbase : T.HasAll [base] :=
      List.forall_mem_singleton.mpr (Composite.has_of_members? hunion)
    exact .pure hg₁.wellFormed ⟨base, inner, inner, rfl,
      (Composite.Expands.single hunion hinner).of_le hT hg₁.le hbase, hne, .inl ⟨rfl, rfl⟩, horigin⟩
  · have hhas : T.HasAll kept := fun s hs => Composite.hasAll_members hT hunion s (hsub.subset hs)
    refine (Composite.yields_create_normal (w := w) hg₁.wellFormed (hhas.of_le hg₁.le)
      (hinner.of_le hT hg₁.le hhas) hne (hacyclic.mono hle.subset)
      (hrel.mono hg₁ fun s hs => by simp [hle.subset hs])).bind
        fun r T₂ hg₂ hr => .pure hg₂.wellFormed ?_
    obtain ⟨stay, hnormal, hr⟩ := hr
    refine ⟨r, stay, inner, rfl, hr.expands, ?_, .inr hnormal, horigin⟩
    exact hnormal.ne_nil (hacyclic.mono fun s hs => hle.subset (List.mem_eraseDups.mp hs))
      (eraseDups_ne_nil hne)

/-- Refining by failed tests only is excluding the tested types, and nothing happens if nothing is
left. -/
theorem narrow_of_neverHolds (hfacts : facts ≠ [])
    (hnever : ∀ fact ∈ facts, fact.assertion = .neverHolds) :
    narrow rel w env (some base) facts =
      (fun left => some (left.getD base)) <$> exclude rel w env (facts.map (·.type)) base := by
  have hholding : facts.filter (·.assertion == .alwaysHolds) = [] :=
    List.filter_eq_nil_iff.mpr fun fact hfact => by simp [hnever fact hfact]
  have hexcluded : facts.filter (·.assertion == .neverHolds) = facts :=
    List.filter_eq_self.mpr fun fact hfact => by simp [hnever fact hfact]
  have hsome : (facts.map (·.type)).isEmpty = false := by simpa using hfacts
  simp only [narrow, remaining, hholding, hexcluded, hsome, Option.toList_some, List.map_nil,
    List.append_nil, List.isEmpty_cons, Bool.false_eq_true, if_false, List.mapM_cons, List.mapM_nil,
    pure_bind, bind_assoc]
  rw [map_eq_pure_bind]
  refine bind_congr fun left => ?_
  cases left <;> rfl

/-- Let each member of a union be excluded if one of the types that it expands to is, and only with
all of them, and let these types not drop each other in a circle.  If one of them is not excluded,
failed tests refine the union to a type that expands to some of them, none of which is excluded: the
union itself, or the short form of all those that are not excluded. -/
theorem narrow_neverHolds_excludes (hT : T.WellFormed) (hlookup : T.lookup base = .union members)
    (hexpands : Composite.Expands .union T members leaves) (hfacts : facts ≠ [])
    (hnever : ∀ fact ∈ facts, fact.assertion = .neverHolds)
    (hrel : rel.Decides env (members ++ leaves ++ facts.map (·.type)) below T)
    (hacyclic : Composite.Acyclic .union below leaves)
    (hwhole : ∀ t ∈ members, ∀ inner, Composite.Expands .union T [t] inner → ∀ leaf ∈ inner,
      (Excluded below (facts.map (·.type)) leaf ↔ Excluded below (facts.map (·.type)) t))
    (hleft : ∃ leaf ∈ leaves, ¬Excluded below (facts.map (·.type)) leaf) :
    ∃ r T' stay inner, narrow rel w env (some base) facts T = .ok (some r) T' ∧
      Composite.Expands .union T' [r] stay ∧ stay ≠ [] ∧
      (∀ leaf ∈ stay, leaf ∈ leaves ∧ ¬Excluded below (facts.map (·.type)) leaf) ∧
      (r = base ∧ stay = inner ∨ Composite.IsNormalForm .union below inner.eraseDups stay) ∧
      ∀ leaf, leaf ∈ inner ↔ leaf ∈ leaves ∧ ¬Excluded below (facts.map (·.type)) leaf := by
  obtain ⟨leaf, hleaf, hstays⟩ := hleft
  obtain ⟨t, ht, part, hpart, hmem⟩ := hexpands.mem_iff.mp hleaf
  have hholds : ¬Composite.Expands .union T [t] [] := fun hnil => by
    rw [hpart.unique hnil] at hmem
    cases hmem
  obtain ⟨-, T', hrun, -, r, stay, inner, rfl, hr, hne, hresult, horigin⟩ :=
    yields_exclude (w := w) hT hlookup hexpands hrel hacyclic
      ⟨t, ht, fun hex => hstays ((hwhole t ht part hpart leaf hmem).mpr hex), hholds⟩
  have hinner : ∀ leaf, leaf ∈ inner ↔
      leaf ∈ leaves ∧ ¬Excluded below (facts.map (·.type)) leaf := by
    intro leaf
    rw [horigin, hexpands.mem_iff]
    constructor
    · rintro ⟨t, ht, hstays, part, hpart, hmem⟩
      exact ⟨⟨t, ht, part, hpart, hmem⟩,
        fun hex => hstays ((hwhole t ht part hpart leaf hmem).mp hex)⟩
    · rintro ⟨⟨t, ht, part, hpart, hmem⟩, hstays⟩
      have hkept := fun hex => hstays ((hwhole t ht part hpart leaf hmem).mpr hex)
      exact ⟨t, ht, hkept, part, hpart, hmem⟩
  refine ⟨r, T', stay, inner, ?_, hr, hne, fun leaf hleaf => (hinner leaf).mp ?_, hresult, hinner⟩
  · rw [narrow_of_neverHolds hfacts hnever, map_eq_pure_bind]
    exact TypeM.bind_eq_ok.mpr ⟨some r, T', hrun, rfl⟩
  · rcases hresult with ⟨-, rfl⟩ | hnormal
    · exact hleaf
    · exact List.mem_eraseDups.mp (hnormal.sublist.subset hleaf)

/-- What the hierarchy without declarations answers about the types of the nested unions. -/
def BelowNested (s t : TypeId) : Prop := s = t ∨ s = .null ∨ t = ⟨16⟩

instance : DecidableRel BelowNested := fun _ _ => inferInstanceAs (Decidable (_ ∨ _))

theorem BelowNested.trans {s t u : TypeId} (hst : BelowNested s t) (htu : BelowNested t u) :
    BelowNested s u := by
  obtain rfl | rfl | rfl := hst
  · exact htu
  · exact .inr (.inl rfl)
  · obtain rfl | hnull | rfl := htu
    · exact .inr (.inr rfl)
    · cases hnull
    · exact .inr (.inr rfl)

theorem decides_nestedUnion : TypeRelation.Decides (World.isSubtype default) .empty
    [.string, .null, .number, ⟨16⟩] BelowNested nestedUnionTable := by
  have hsetting : World.Setting default .empty nestedUnionTable :=
    ⟨wellFormed_nestedUnionTable, World.within_of_entries (by decide) (by decide),
      Environment.within_empty⟩
  have hasked : ∀ s ∈ [TypeId.string, .null, .number, ⟨16⟩],
      ∀ t ∈ [TypeId.string, .null, .number, ⟨16⟩],
      World.isSubtype default .empty s t nestedUnionTable =
        .ok (decide (BelowNested s t)) nestedUnionTable := by
    simp only [List.forall_mem_cons, List.not_mem_nil, false_imp_iff, implies_true, and_true]
    exact ⟨⟨rfl, rfl, rfl, rfl⟩, ⟨rfl, rfl, rfl, rfl⟩, ⟨rfl, rfl, rfl, rfl⟩, ⟨rfl, rfl, rfl, rfl⟩⟩
  intro T₁ hg s hs t ht
  refine (hsetting.decides_isSubtype (by decide) (fun s hs t ht => ⟨_, hasked s hs t ht⟩)
    T₁ hg s hs t ht).mono fun _ answer _ hanswer => ?_
  simpa [hasked s hs t ht] using hanswer

/-- Without `null`, the union of `string`, `null` and the union of `number` and `string` stands for
strings and numbers. -/
theorem narrow_neverHolds_excludes_null : ∃ r T' stay,
    narrow (World.isSubtype default) default .empty (some ⟨17⟩) [⟨.neverHolds, .null⟩]
      nestedUnionTable = .ok (some r) T' ∧
    Composite.Expands .union T' [r] stay ∧ stay ≠ [] ∧
    ∀ leaf ∈ stay, leaf = .string ∨ leaf = .number := by
  let T := nestedUnionTable
  have hinner : Composite.Expands .union T [.number, .string] [.number, .string] :=
    .leaf rfl (.leaf rfl .nil)
  have hexpands : Composite.Expands .union T [.string, .null, ⟨16⟩]
      [.string, .null, .number, .string] := .leaf rfl (.leaf rfl (.nested rfl hinner .nil))
  have hwhole : ∀ t ∈ [TypeId.string, .null, ⟨16⟩], ∀ inner, Composite.Expands .union T [t] inner →
      ∀ leaf ∈ inner, (Excluded BelowNested [.null] leaf ↔ Excluded BelowNested [.null] t) := by
    simp only [List.forall_mem_cons, List.not_mem_nil, false_imp_iff, implies_true, and_true]
    refine ⟨fun inner h => ?_, fun inner h => ?_, fun inner h => ?_⟩
    · obtain rfl := h.unique (.leaf rfl .nil)
      decide
    · obtain rfl := h.unique (.leaf rfl .nil)
      decide
    · obtain rfl := h.unique (.single rfl hinner)
      decide
  have hT : T.WellFormed := wellFormed_nestedUnionTable
  have hlookup : T.lookup ⟨17⟩ = .union [.string, .null, ⟨16⟩] := rfl
  have hnever : ∀ fact ∈ [TypeFact.mk .neverHolds .null], fact.assertion = .neverHolds := by decide
  have honly : ∀ leaf ∈ [TypeId.string, .null, .number, .string],
      ¬Excluded BelowNested [.null] leaf → leaf = .string ∨ leaf = .number := by decide
  obtain ⟨r, T', stay, -, hrun, hr, hne, hstay, -⟩ := narrow_neverHolds_excludes (w := default)
    hT hlookup hexpands (List.cons_ne_nil _ _) hnever
    (decides_nestedUnion.mono (.refl hT) (by decide))
    (.of_trans (fun _ _ _ hst htu => hst.trans htu) _) hwhole ⟨.string, by decide, by decide⟩
  exact ⟨r, T', stay, hrun, hr, hne, fun leaf hleaf =>
    honly leaf (hstay leaf hleaf).1 (hstay leaf hleaf).2⟩

/-- Of the union of `boolean` and the union of `number` and `string`, numbers are not taken out. -/
example :
    let T := (TypeTable.initial.store (.union [.number, .string])).store (.union [.boolean, ⟨16⟩])
    narrow (World.isSubtype default) default .empty (some ⟨17⟩) [⟨.neverHolds, .number⟩] T =
      .ok (some ⟨17⟩) T := rfl

end ScriptTyping
