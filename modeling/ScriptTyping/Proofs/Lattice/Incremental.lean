import ScriptTyping.Proofs.Lattice.Coverage

/-!
# Unions built in steps

The alternatives of a nested conditional are united first, and their union is then one alternative
of the outer conditional.  The inner union has lost members that would have made members of the
outer one go, and perhaps `null`, which depends on what else there is.  Under a transitive relation
nothing depends on these members: whatever they absorb is absorbed by what absorbed them, and a list
in which something is neither `null` nor `undefined` keeps something of that kind.  Since members
stay in the order of their first occurrences, both ways end with the same list.

## Main results

* `Composite.IsNormalForm.mem_iff_of_acyclic` — what stays, told from the list alone.
* `Composite.IsNormalForm.incremental` — the normal form of a list that ends in a normal form.
* `createUnion_incremental` — the union built in steps is the union built at once.
-/

namespace ScriptTyping

/-! ### Lists without repetition -/

theorem filter_contains_of_sublist {kept flat : List TypeId} (h : kept.Sublist flat)
    (hnodup : flat.Nodup) : flat.filter (kept.contains ·) = kept := by
  induction h with
  | slnil => rfl
  | @cons kept flat t h ih =>
    obtain ⟨ht, hflat⟩ := List.nodup_cons.mp hnodup
    have hnot : t ∉ kept := fun hmem => ht (h.subset hmem)
    rw [List.filter_cons_of_neg (by simpa using hnot), ih hflat]
  | @cons_cons kept flat t h ih =>
    obtain ⟨ht, hflat⟩ := List.nodup_cons.mp hnodup
    rw [List.filter_cons_of_pos (by simp)]
    refine congrArg (t :: ·) (Eq.trans (List.filter_congr fun s hs => ?_) (ih hflat))
    have hne : s ≠ t := fun heq => ht (heq ▸ hs)
    simp [hne]

/-- Lists without repetition that hold the same elements of a list, in its order, are equal. -/
theorem eq_of_sublist_of_mem_iff {kept kept' flat : List TypeId} (h : kept.Sublist flat)
    (h' : kept'.Sublist flat) (hnodup : flat.Nodup) (hmem : ∀ t, t ∈ kept' ↔ t ∈ kept) :
    kept' = kept := by
  rw [← filter_contains_of_sublist h hnodup, ← filter_contains_of_sublist h' hnodup]
  refine List.filter_congr fun t _ => ?_
  rw [Bool.eq_iff_iff]
  simpa using hmem t

/-- If the second part of a list loses repetitions and other elements, first occurrences stay in
order. -/
theorem eraseDups_append_sublist {l m kept : List TypeId} (h : kept.Sublist m.eraseDups) :
    (l ++ kept).eraseDups.Sublist (l ++ m).eraseDups := by
  have hkept : kept.eraseDups = kept := eraseDups_of_nodup (h.nodup (nodup_eraseDups m))
  rw [List.eraseDups_append, List.eraseDups_append, List.removeAll, List.removeAll,
    eraseDups_filter, eraseDups_filter, hkept]
  exact (List.Sublist.refl _).append (h.filter _)

namespace Composite

variable {rel : TypeRelation} {env : Environment} {below : TypeId → TypeId → Prop}
  {T T' : TypeTable} {w : World} {kind : Composite}
  {ms ns members leaves leavesM leavesN flat kept inner batch : List TypeId}

/-! ### What stays -/

/-- What stays without circles, told from the list alone. -/
theorem IsNormalForm.mem_iff_of_acyclic (h : kind.IsNormalForm below flat kept)
    (hacyclic : kind.Acyclic below flat) (t : TypeId) :
    t ∈ kept ↔ t ∈ flat ∧ (isCandidate t = true → ¬kind.Goes below flat t) ∧
      (t.isNullish = true → ¬(kind = .union ∧ ∃ u ∈ flat, u.isNullish = false)) := by
  rw [← h.exists_value_iff hacyclic]
  constructor
  · intro ht
    have hflat := h.sublist.subset ht
    exact ⟨hflat, fun hcand hgoes => (h.candidate t hflat hcand).mpr hgoes ht,
      fun hnullish hvalue => (h.nullish t hflat hnullish).mpr hvalue ht⟩
  · rintro ⟨hflat, hcandidate, hnull⟩
    by_contra hgone
    rcases isCandidate_or t with hcand | hunknown | hnullish
    · exact hcandidate hcand ((h.candidate t hflat hcand).mp hgone)
    · exact hgone (h.unknown t hflat hunknown)
    · exact hnull hnullish ((h.nullish t hflat hnullish).mp hgone)

/-- The members that stay are determined, with their order. -/
theorem IsNormalForm.unique (h : kind.IsNormalForm below flat kept)
    (h' : kind.IsNormalForm below flat inner) (hnodup : flat.Nodup) : inner = kept :=
  eq_of_sublist_of_mem_iff h.sublist h'.sublist hnodup (h.mem_iff h' hnodup hnodup fun _ => .rfl)

/-- In a list that ends in members that stay, a candidate goes exactly if it goes in the list that
ends in all of them, and it is one of those that stay or comes before them. -/
theorem IsNormalForm.goes_append_iff (h : kind.IsNormalForm below leavesN.eraseDups inner)
    (htrans : ∀ s t u, below s t → below t u → below s u)
    (hfew : ((leavesM ++ leavesN).eraseDups.filter isCandidate).length ≤ pairwiseLimit)
    (t : TypeId) :
    kind.Goes below (leavesM ++ inner).eraseDups t ↔
      kind.Goes below (leavesM ++ leavesN).eraseDups t := by
  have hsub := eraseDups_append_sublist (l := leavesM) h.sublist
  constructor
  · rintro ⟨-, other, hother, hcand, habsorbs⟩
    exact ⟨hfew, other, hsub.subset hother, hcand, habsorbs⟩
  · rintro ⟨-, other, hother, hcand, habsorbs⟩
    refine ⟨((hsub.filter _).length_le).trans hfew, ?_⟩
    rcases List.mem_append.mp (List.mem_eraseDups.mp hother) with hM | hN
    · exact ⟨other, List.mem_eraseDups.mpr (List.mem_append_left _ hM), hcand, habsorbs⟩
    · -- If the other one is gone, what absorbed it absorbs the candidate too.
      obtain hkept | ⟨k, hk, hkcand, hkabsorbs⟩ := h.covers htrans (List.mem_eraseDups.mpr hN) hcand
      · exact ⟨other, List.mem_eraseDups.mpr (List.mem_append_right _ hkept), hcand, habsorbs⟩
      · exact ⟨k, List.mem_eraseDups.mpr (List.mem_append_right _ hk), hkcand,
          absorbs_trans htrans hkabsorbs habsorbs⟩

/-- The normal form of a list that ends in a normal form is the one of the list that ends in all
the members. -/
theorem IsNormalForm.incremental (h : kind.IsNormalForm below leavesN.eraseDups inner)
    (hkept : kind.IsNormalForm below (leavesM ++ inner).eraseDups kept)
    (hbatch : kind.IsNormalForm below (leavesM ++ leavesN).eraseDups batch)
    (htrans : ∀ s t u, below s t → below t u → below s u)
    (hfew : ((leavesM ++ leavesN).eraseDups.filter isCandidate).length ≤ pairwiseLimit) :
    kept = batch := by
  have hsub := eraseDups_append_sublist (l := leavesM) h.sublist
  refine eq_of_sublist_of_mem_iff hbatch.sublist (hkept.sublist.trans hsub) (nodup_eraseDups _)
    fun t => ?_
  have hvalue : (∃ u ∈ (leavesM ++ inner).eraseDups, u.isNullish = false) ↔
      ∃ u ∈ (leavesM ++ leavesN).eraseDups, u.isNullish = false := by
    have hinner := h.exists_value_iff (.of_trans htrans _)
    simp only [List.mem_eraseDups, List.mem_append, or_and_right, exists_or] at hinner ⊢
    rw [hinner]
  rw [hkept.mem_iff_of_acyclic (.of_trans htrans _), hbatch.mem_iff_of_acyclic (.of_trans htrans _),
    h.goes_append_iff htrans hfew, hvalue]
  refine and_congr_left fun ⟨hstays, hnull⟩ => ⟨fun ht => hsub.subset ht, fun ht => ?_⟩
  rw [List.mem_eraseDups, List.mem_append] at ht ⊢
  refine ht.imp_right fun hN => (h.mem_iff_of_acyclic (.of_trans htrans _) t).mpr
    ⟨List.mem_eraseDups.mpr hN, fun hcand hgoes => hstays hcand ?_, fun hnullish hinner => ?_⟩
  · obtain ⟨-, other, hother, hothercand, habsorbs⟩ := hgoes
    refine ⟨hfew, other, ?_, hothercand, habsorbs⟩
    exact List.mem_eraseDups.mpr (List.mem_append_right _ (List.mem_eraseDups.mp hother))
  · obtain ⟨hkind, u, hu, huvalue⟩ := hinner
    refine hnull hnullish ⟨hkind, u, ?_, huvalue⟩
    exact List.mem_eraseDups.mpr (List.mem_append_right _ (List.mem_eraseDups.mp hu))

/-! ### Building in steps -/

/-- A composite represents the same normal form, whether it is built at once or in steps, and
whatever is stored between the steps. -/
theorem exists_yields_create_incremental (hT : T.WellFormed) (hms : T.HasAll ms)
    (hns : T.HasAll ns) (htrans : ∀ s t u, below s t → below t u → below s u)
    (hexpandsM : kind.Expands T ms leavesM) (hexpandsN : kind.Expands T ns leavesN)
    (hne : leavesN ≠ [])
    (hfew : ((leavesM ++ leavesN).eraseDups.filter isCandidate).length ≤ pairwiseLimit)
    (hrel : rel.Decides env (leavesM ++ leavesN) below T) :
    ∃ batch, kind.IsNormalForm below (leavesM ++ leavesN).eraseDups batch ∧
      (∀ T₀, T.GrowsTo T₀ → TypeM.Yields (kind.create rel w env (ms ++ ns)) T₀
        fun T' t => kind.Represents T' t batch) ∧
      (∀ T₀, T.GrowsTo T₀ → TypeM.Yields (kind.create rel w env ns) T₀ fun T₁ inner =>
        ∀ T₂, T₁.GrowsTo T₂ → TypeM.Yields (kind.create rel w env (ms ++ [inner])) T₂
          fun T' t => kind.Represents T' t batch) := by
  have hall : T.HasAll (ms ++ ns) := List.forall_mem_append.mpr ⟨hms, hns⟩
  have hbatch (T₀ : TypeTable) (hg : T.GrowsTo T₀) := yields_create_normal (w := w) hg.wellFormed
    (hall.of_le hg.le) ((hexpandsM.append hexpandsN).of_le hT hg.le hall)
    (List.append_ne_nil_of_right_ne_nil _ hne) (.of_trans htrans _) (hrel.mono hg fun _ ht => ht)
  obtain ⟨-, -, -, -, batch, hnormal, -⟩ := hbatch T (.refl hT)
  refine ⟨batch, hnormal, fun T₀ hg => ?_, fun T₀ hg => ?_⟩
  · refine (hbatch T₀ hg).mono fun T' t _ ht => ?_
    obtain ⟨batch', hnormal', hbatch'⟩ := ht
    rwa [hnormal.unique hnormal' (nodup_eraseDups _)] at hbatch'
  · refine (yields_create_normal (w := w) hg.wellFormed (hns.of_le hg.le)
      (hexpandsN.of_le hT hg.le hns) hne (.of_trans htrans _)
      (hrel.mono hg fun _ ht => List.mem_append_right _ ht)).mono fun T₁ i hg₁ hi T₂ hg₂ => ?_
    obtain ⟨inner, hinner, hi⟩ := hi
    have hgrows := (hg.trans hg₁).trans hg₂
    have hsingle : T₁.HasAll [i] := List.forall_mem_singleton.mpr hi.has
    have hmem : ∀ t ∈ leavesM ++ inner, t ∈ leavesM ++ leavesN := by
      simp only [List.mem_append]
      exact fun t ht => ht.imp_right fun h => List.mem_eraseDups.mp (hinner.sublist.subset h)
    refine (yields_create_normal (w := w) hg₂.wellFormed
      (List.forall_mem_append.mpr ⟨hms.of_le hgrows.le, hsingle.of_le hg₂.le⟩)
      ((hexpandsM.of_le hT hgrows.le hms).append (hi.expands.of_le hg₁.wellFormed hg₂.le hsingle))
      (List.append_ne_nil_of_right_ne_nil _
        (hinner.ne_nil (.of_trans htrans _) (eraseDups_ne_nil hne)))
      (.of_trans htrans _) (hrel.mono hgrows hmem)).mono fun T' t _ ht => ?_
    obtain ⟨kept, hkept, ht⟩ := ht
    rwa [hinner.incremental hkept hnormal htrans hfew] at ht

end Composite

variable {rel : TypeRelation} {env : Environment} {below : TypeId → TypeId → Prop} {T : TypeTable}
  {w : World} {ms ns leavesM leavesN : List TypeId}

/-- Under a transitive relation, the union of some types and the union of others is the union of all
of them, with the same members in the same order, whichever is built first: if the others have a
member and there are not too many candidates to compare.  The members are those of the normal form
of all that the types expand to. -/
theorem createUnion_incremental (hT : T.WellFormed) (hms : T.HasAll ms) (hns : T.HasAll ns)
    (htrans : ∀ s t u, below s t → below t u → below s u)
    (hexpandsM : Composite.Expands .union T ms leavesM)
    (hexpandsN : Composite.Expands .union T ns leavesN) (hne : leavesN ≠ [])
    (hfew : ((leavesM ++ leavesN).eraseDups.filter Composite.isCandidate).length ≤
      Composite.pairwiseLimit)
    (hrel : rel.Decides env (leavesM ++ leavesN) below T) :
    ∃ kept, Composite.IsNormalForm .union below (leavesM ++ leavesN).eraseDups kept ∧
      (∃ inner T₁ t T₂ T₃, createUnion rel w env ns T = .ok inner T₁ ∧
        createUnion rel w env (ms ++ [inner]) T₁ = .ok t T₂ ∧
        createUnion rel w env (ms ++ ns) T₂ = .ok t T₃ ∧ Composite.Expands .union T₃ [t] kept) ∧
      (∃ t T₁ inner T₂ T₃, createUnion rel w env (ms ++ ns) T = .ok t T₁ ∧
        createUnion rel w env ns T₁ = .ok inner T₂ ∧
        createUnion rel w env (ms ++ [inner]) T₂ = .ok t T₃ ∧
        Composite.Expands .union T₃ [t] kept) := by
  obtain ⟨kept, hnormal, hbatch, hsteps⟩ := Composite.exists_yields_create_incremental (w := w)
    hT hms hns htrans hexpandsM hexpandsN hne hfew hrel
  refine ⟨kept, hnormal, ?_, ?_⟩
  · obtain ⟨inner, T₁, hinner, hg₁, houter⟩ := hsteps T (.refl hT)
    obtain ⟨t, T₂, ht, hg₂, hkept⟩ := houter T₁ (.refl hg₁.wellFormed)
    obtain ⟨t', T₃, ht', hg₃, hkept'⟩ := hbatch T₂ (hg₁.trans hg₂)
    obtain rfl := (hkept.recalls.of_le hg₃.le).unique hkept'.recalls
    exact ⟨inner, T₁, t, T₂, T₃, hinner, ht, ht', hkept'.expands⟩
  · obtain ⟨t, T₁, ht, hg₁, hkept⟩ := hbatch T (.refl hT)
    obtain ⟨inner, T₂, hinner, hg₂, houter⟩ := hsteps T₁ hg₁
    obtain ⟨t', T₃, ht', hg₃, hkept'⟩ := houter T₂ (.refl hg₂.wellFormed)
    obtain rfl := (hkept.recalls.of_le (hg₂.trans hg₃).le).unique hkept'.recalls
    exact ⟨t, T₁, inner, T₂, T₃, ht, hinner, ht', hkept'.expands⟩

/-- The inner union loses the lower type and the outer one `null`. -/
theorem createUnion_incremental_lower : ∃ inner T₁ t T₂ T₃,
    let rel : TypeRelation := fun _ s t => pure (decide (s.index / 2 ≤ t.index / 2))
    createUnion rel default .empty [.number, .string] .initial = .ok inner T₁ ∧
    createUnion rel default .empty [.null, .boolean, inner] T₁ = .ok t T₂ ∧
    createUnion rel default .empty [.null, .boolean, .number, .string] T₂ = .ok t T₃ ∧
    ∃ kept, Composite.Expands .union T₃ [t] kept ∧ .null ∉ kept ∧ .number ∉ kept := by
  let below (s t : TypeId) : Prop := s.index / 2 ≤ t.index / 2
  have htrans (s t u : TypeId) (hst : below s t) (htu : below t u) : below s u :=
    Nat.le_trans hst htu
  have hms : Composite.Expands .union .initial [.null, .boolean] [.null, .boolean] :=
    .leaf rfl (.leaf rfl .nil)
  have hns : Composite.Expands .union .initial [.number, .string] [.number, .string] :=
    .leaf rfl (.leaf rfl .nil)
  obtain ⟨kept, hnormal, ⟨inner, T₁, t, T₂, T₃, hinner, hstep, hbatch, hexpands⟩, -⟩ :=
    createUnion_incremental (w := default) TypeTable.wellFormed_initial (by decide)
      (by decide) htrans hms hns (by decide) (by decide) (TypeRelation.decides_pure below _)
  have hvalue := (hnormal.exists_value_iff (.of_trans htrans _)).mpr ⟨.boolean, by decide, rfl⟩
  refine ⟨inner, T₁, t, T₂, T₃, hinner, hstep, hbatch, kept, hexpands,
    (hnormal.nullish .null (by decide) rfl).mpr ⟨rfl, hvalue⟩,
    (hnormal.candidate .number (by decide) rfl).mpr
      ⟨by decide, .string, by decide, rfl, ?_⟩⟩
  simp only [Composite.Absorbs, below]
  decide

end ScriptTyping
