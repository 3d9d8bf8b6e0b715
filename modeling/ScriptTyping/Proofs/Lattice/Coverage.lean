import Mathlib.Data.Set.Finite.List
import ScriptTyping.Proofs.Lattice.NormalForm

/-!
# What short forms retain

A member may be dropped because of one that is itself dropped.  Under a transitive relation nothing
is lost by that: following the members that made others go, one comes to a member that stays, since
a finite strict order has no infinite ascent.  Types that are below each other do not drop one
another, so all of the highest members of a union stay, and all of the lowest of an intersection.

## Main definitions

* `Composite.Acyclic` — no circle of members that absorb one another.
* `Composite.Retains` — a type stands for members that cover all others.
* `Composite.Represents` — a type is assembled from members and expanded to them.

## Main results

* `Composite.IsNormalForm.covers` — a candidate stays or is absorbed by one that stays.
* `Composite.yields_create_normal` — without circles a composite represents a normal form.
* `createUnion_createIntersection_retain` — the short forms of unions and intersections.
-/

namespace ScriptTyping

namespace Composite

variable {rel : TypeRelation} {env : Environment} {below : TypeId → TypeId → Prop}
  {T T' : TypeTable} {w : World} {kind : Composite} {members leaves flat kept : List TypeId}

theorem not_absorbs_self (t : TypeId) : ¬kind.Absorbs below t t := by
  cases kind <;> exact fun h => h.1 rfl

theorem absorbs_trans (htrans : ∀ s t u, below s t → below t u → below s u) {s t u : TypeId}
    (hst : kind.Absorbs below s t) (htu : kind.Absorbs below t u) : kind.Absorbs below s u := by
  cases kind with
  | union =>
    obtain ⟨-, hts, hnot⟩ := hst
    obtain ⟨-, hut, -⟩ := htu
    have hback : ¬below s u := fun hsu => hnot (htrans s u t hsu hut)
    exact ⟨fun heq => hback (heq ▸ htrans u t s hut hts), htrans u t s hut hts, hback⟩
  | intersection =>
    obtain ⟨-, hst, -⟩ := hst
    obtain ⟨-, htu, hnot⟩ := htu
    have hback : ¬below u s := fun hus => hnot (htrans u s t hus hst)
    exact ⟨fun heq => hback (heq ▸ htrans s t u hst htu), htrans s t u hst htu, hback⟩

/-- The members do not absorb one another in a circle. -/
def Acyclic (kind : Composite) (below : TypeId → TypeId → Prop) (flat : List TypeId) : Prop :=
  ∀ t, ¬Relation.TransGen (fun s t : {t // t ∈ flat} => kind.Absorbs below s t) t t

theorem Acyclic.of_trans (htrans : ∀ s t u, below s t → below t u → below s u)
    (flat : List TypeId) : kind.Acyclic below flat := by
  have habsorbs (s t : {t // t ∈ flat})
      (hst : Relation.TransGen (fun s t : {t // t ∈ flat} => kind.Absorbs below s t) s t) :
      kind.Absorbs below s t := by
    induction hst with
    | single hst => exact hst
    | tail _ htu ih => exact absorbs_trans htrans ih htu
  exact fun t hcircle => not_absorbs_self t.1 (habsorbs t t hcircle)

theorem Acyclic.mono {part : List TypeId} (h : kind.Acyclic below flat)
    (hsub : ∀ t ∈ part, t ∈ flat) : kind.Acyclic below part := by
  let lift (t : {t // t ∈ part}) : {t // t ∈ flat} := ⟨t, hsub t t.2⟩
  exact fun t hcircle => h (lift t) (Relation.TransGen.lift lift (fun _ _ hst => hst) t t hcircle)

/-- From a member one cannot go on forever to one that absorbs it. -/
theorem Acyclic.wellFounded (h : kind.Acyclic below flat) :
    WellFounded fun s t : {t // t ∈ flat} => kind.Absorbs below s t := by
  let above := Relation.TransGen fun s t : {t // t ∈ flat} => kind.Absorbs below s t
  have : Finite {t // t ∈ flat} := (List.finite_toSet flat).to_subtype
  have : IsTrans _ above := ⟨fun _ _ _ => Relation.TransGen.trans⟩
  have : Std.Irrefl above := ⟨h⟩
  have hsub : Subrelation (fun s t : {t // t ∈ flat} => kind.Absorbs below s t) above :=
    fun hst => Relation.TransGen.single hst
  exact hsub.wf (Finite.wellFounded_of_trans_of_irrefl above)

/-- A candidate stays or is absorbed by a candidate that stays. -/
theorem IsNormalForm.covers (h : kind.IsNormalForm below flat kept)
    (htrans : ∀ s t u, below s t → below t u → below s u) {t : TypeId} (ht : t ∈ flat)
    (hcand : isCandidate t = true) :
    t ∈ kept ∨ ∃ k ∈ kept, isCandidate k = true ∧ kind.Absorbs below k t := by
  have hacyclic : kind.Acyclic below flat := .of_trans htrans flat
  -- The induction goes from the members that made others go to those that went.
  have hcovers (t : {t // t ∈ flat}) : isCandidate t = true →
      t.1 ∈ kept ∨ ∃ k ∈ kept, isCandidate k = true ∧ kind.Absorbs below k t := by
    induction t using hacyclic.wellFounded.induction with
    | _ t ih =>
      intro hcand
      by_cases hkept : t.1 ∈ kept
      · exact .inl hkept
      obtain ⟨-, other, hother, hothercand, habsorbs⟩ := (h.candidate t t.2 hcand).mp hkept
      rcases ih ⟨other, hother⟩ habsorbs hothercand with hother | ⟨k, hk, hkcand, hkabsorbs⟩
      · exact .inr ⟨other, hother, hothercand, habsorbs⟩
      · exact .inr ⟨k, hk, hkcand, absorbs_trans htrans hkabsorbs habsorbs⟩
  exact hcovers ⟨t, ht⟩ hcand

/-- If there are candidates, one of them stays. -/
theorem IsNormalForm.exists_candidate (h : kind.IsNormalForm below flat kept)
    (hacyclic : kind.Acyclic below flat) (hex : ∃ t ∈ flat, isCandidate t = true) :
    ∃ k ∈ kept, isCandidate k = true := by
  have hfound (t : {t // t ∈ flat}) : isCandidate t = true → ∃ k ∈ kept, isCandidate k = true := by
    induction t using hacyclic.wellFounded.induction with
    | _ t ih =>
      intro hcand
      by_cases hkept : t.1 ∈ kept
      · exact ⟨t, hkept, hcand⟩
      obtain ⟨-, other, hother, hothercand, habsorbs⟩ := (h.candidate t t.2 hcand).mp hkept
      exact ih ⟨other, hother⟩ habsorbs hothercand
  obtain ⟨t, ht, hcand⟩ := hex
  exact hfound ⟨t, ht⟩ hcand

/-- If something is neither `null` nor `undefined`, something of that kind stays. -/
theorem IsNormalForm.exists_value_iff (h : kind.IsNormalForm below flat kept)
    (hacyclic : kind.Acyclic below flat) :
    (∃ u ∈ kept, u.isNullish = false) ↔ ∃ u ∈ flat, u.isNullish = false := by
  refine ⟨fun ⟨u, hu, hvalue⟩ => ⟨u, h.sublist.subset hu, hvalue⟩, ?_⟩
  rintro ⟨u, hu, hvalue⟩
  rcases isCandidate_or u with hcand | hunknown | hnullish
  · obtain ⟨k, hk, hkcand⟩ := h.exists_candidate hacyclic ⟨u, hu, hcand⟩
    rw [isCandidate, Bool.and_eq_true, Bool.not_eq_true', Bool.not_eq_true'] at hkcand
    exact ⟨k, hk, hkcand.2⟩
  · exact ⟨u, h.unknown u hu hunknown, hvalue⟩
  · rw [hvalue] at hnullish
    cases hnullish

/-- Something stays if there is something. -/
theorem IsNormalForm.ne_nil (h : kind.IsNormalForm below flat kept)
    (hacyclic : kind.Acyclic below flat) (hne : flat ≠ []) : kept ≠ [] := by
  rintro rfl
  have hnone : ¬∃ u ∈ flat, u.isNullish = false := by
    rw [← h.exists_value_iff hacyclic]
    rintro ⟨u, hu, -⟩
    cases hu
  obtain ⟨t, ht⟩ := List.exists_mem_of_ne_nil flat hne
  have hnullish : t.isNullish = true := by
    by_contra hvalue
    exact hnone ⟨t, ht, by simpa using hvalue⟩
  obtain ⟨-, u, hu, -⟩ := (h.nullish t ht hnullish).mp List.not_mem_nil
  cases hu

/-- The type stands for expanded members that cover all others: each candidate stays or is absorbed
by one that stays, so one stays if there is one.  (The composite of no members at all is the neutral
type.) -/
structure Retains (kind : Composite) (below : TypeId → TypeId → Prop) (leaves : List TypeId)
    (T : TypeTable) (t : TypeId) (kept : List TypeId) : Prop where
  denotes : leaves ≠ [] → kind.Denotes T t kept
  sublist : kept.Sublist leaves.eraseDups
  covers : ∀ member ∈ leaves, isCandidate member = true →
    member ∈ kept ∨ ∃ k ∈ kept, isCandidate k = true ∧ kind.Absorbs below k member
  candidate : (∃ member ∈ leaves, isCandidate member = true) → ∃ k ∈ kept, isCandidate k = true

theorem IsNormalForm.retains (h : kind.IsNormalForm below leaves.eraseDups kept)
    (htrans : ∀ s t u, below s t → below t u → below s u) {t : TypeId}
    (hdenotes : leaves ≠ [] → kind.Denotes T t kept) : kind.Retains below leaves T t kept where
  denotes := hdenotes
  sublist := h.sublist
  covers _ hmember := h.covers htrans (List.mem_eraseDups.mpr hmember)
  candidate := by
    rintro ⟨member, hmember, hcand⟩
    exact h.exists_candidate (.of_trans htrans _) ⟨member, List.mem_eraseDups.mpr hmember, hcand⟩

theorem build_of_expands_nil (hexpands : kind.Expands T members []) :
    kind.build rel w env members T = .ok (kind.neutral, []) T := by
  refine TypeM.bind_eq_ok.mpr ⟨T, T, rfl, ?_⟩
  rw [leaves?_eq_some_iff.mpr hexpands]
  rfl

/-- Building a composite under a transitive relation loses nothing. -/
theorem yields_create (hT : T.WellFormed) (hms : T.HasAll members)
    (htrans : ∀ s t u, below s t → below t u → below s u)
    (hexpands : kind.Expands T members leaves) (hrel : rel.Decides env leaves below T) :
    TypeM.Yields (kind.create rel w env members) T fun T' t =>
      ∃ kept, kind.Retains below leaves T' t kept := by
  rw [create]
  by_cases hne : leaves = []
  · subst hne
    have hempty : kind.IsNormalForm below [] [] := ⟨.refl [], by simp, by simp, by simp⟩
    refine ⟨kind.neutral, T, TypeM.bind_eq_ok.mpr ⟨_, T, build_of_expands_nil hexpands, rfl⟩,
      .refl hT, [], ?_⟩
    exact hempty.retains htrans fun h => absurd rfl h
  · refine (yields_build hT hms hexpands hne hrel).bind fun built T₁ hg₁ hbuilt =>
      .pure hg₁.wellFormed ?_
    obtain ⟨kept, hkept⟩ := hbuilt
    exact ⟨kept, hkept.normal.retains htrans fun _ => hkept.denotes⟩

/-! ### What a composite is expanded to -/

/-- The type that stands for members is expanded to them, unless there are none. -/
theorem Denotes.expands {t : TypeId} (h : kind.Denotes T t kept) (hne : kept ≠ [])
    (hplain : ∀ t ∈ kept, kind.members? (T.lookup t) = none) : kind.Expands T [t] kept := by
  obtain _ | ⟨first, _ | ⟨second, rest⟩⟩ := kept
  · exact absurd rfl hne
  · obtain rfl : t = first := h
    exact .of_plain hplain
  · exact .single h (.of_plain hplain)

theorem Denotes.has {t : TypeId} (h : kind.Denotes T t kept) (hne : kept ≠ [])
    (hkept : T.HasAll kept) : T.Has t := by
  obtain _ | ⟨first, _ | ⟨second, rest⟩⟩ := kept
  · exact absurd rfl hne
  · obtain rfl : t = first := h
    exact hkept t (List.mem_singleton_self t)
  · exact has_of_members? h

/-- From the table on, the type is what the members are assembled to, and is expanded to them. -/
structure Represents (kind : Composite) (T : TypeTable) (t : TypeId) (kept : List TypeId) :
    Prop where
  has : T.Has t
  expands : kind.Expands T [t] kept
  recalls : TypeM.Recalls (kind.assemble kept) T t

/-- Without circles, the composite of a list that has members represents members in normal form. -/
theorem yields_create_normal (hT : T.WellFormed) (hms : T.HasAll members)
    (hexpands : kind.Expands T members leaves) (hne : leaves ≠ [])
    (hacyclic : kind.Acyclic below leaves) (hrel : rel.Decides env leaves below T) :
    TypeM.Yields (kind.create rel w env members) T fun T' t =>
      ∃ kept, kind.IsNormalForm below leaves.eraseDups kept ∧ kind.Represents T' t kept := by
  refine (yields_build_assembled (w := w) hT hms hexpands hne hrel).bind fun built T₁ hg₁ hbuilt =>
    .pure hg₁.wellFormed ?_
  obtain ⟨kept, hshort, hrecalls⟩ := hbuilt
  have hkept := hshort.normal.ne_nil
    (hacyclic.mono fun _ ht => List.mem_eraseDups.mp ht) (eraseDups_ne_nil hne)
  have hhas : T₁.HasAll kept := fun t ht => TypeTable.Has.of_le hg₁.le
    (hexpands.hasAll hT hms t (List.mem_eraseDups.mp (hshort.normal.sublist.subset ht)))
  exact ⟨kept, hshort.normal, hshort.denotes.has hkept hhas,
    hshort.denotes.expands hkept hshort.plain, hrecalls⟩

end Composite

variable {rel : TypeRelation} {env : Environment} {below : TypeId → TypeId → Prop} {T : TypeTable}
  {w : World} {members : List TypeId}

/-- Under a transitive relation the short forms of unions and intersections return and retain all:
a candidate that does not stay is strictly below (in an intersection, above) one that stays. -/
theorem createUnion_createIntersection_retain (hT : T.WellFormed) (hms : T.HasAll members)
    (htrans : ∀ s t u, below s t → below t u → below s u) :
    (∀ {leaves}, Composite.Expands .union T members leaves → rel.Decides env leaves below T →
      ∃ t T' kept, createUnion rel w env members T = .ok t T' ∧
        Composite.Retains .union below leaves T' t kept) ∧
    (∀ {leaves}, Composite.Expands .intersection T members leaves →
      rel.Decides env leaves below T →
      ∃ t T' kept, createIntersection rel w env members T = .ok t T' ∧
        Composite.Retains .intersection below leaves T' t kept) := by
  constructor
  · intro leaves hexpands hrel
    obtain ⟨t, T', hrun, -, kept, hkept⟩ := Composite.yields_create hT hms htrans hexpands hrel
    exact ⟨t, T', kept, hrun, hkept⟩
  · intro leaves hexpands hrel
    obtain ⟨t, T', hrun, -, kept, hkept⟩ := Composite.yields_create hT hms htrans hexpands hrel
    exact ⟨t, T', kept, hrun, hkept⟩

/-- Types that are below each other stay beside one another. -/
theorem createUnion_createIntersection_retain_pair : ∃ t T' kept,
    createUnion (fun _ s t => pure (decide (s.index / 2 ≤ t.index / 2))) default .empty
      [.number, .string, .boolean] .initial = .ok t T' ∧
    Composite.Denotes .union T' t kept ∧ .string ∈ kept ∧ .boolean ∈ kept := by
  let below (s t : TypeId) : Prop := s.index / 2 ≤ t.index / 2
  have htrans (s t u : TypeId) (hst : below s t) (htu : below t u) : below s u :=
    Nat.le_trans hst htu
  have hexpands : Composite.Expands .union .initial [.number, .string, .boolean]
    [.number, .string, .boolean] := .leaf rfl (.leaf rfl (.leaf rfl .nil))
  obtain ⟨t, T', kept, hrun, h⟩ := (createUnion_createIntersection_retain (w := default)
    TypeTable.wellFormed_initial (by decide) htrans).1 hexpands
    (TypeRelation.decides_pure below _)
  have hhighest : ∀ t ∈ [TypeId.string, .boolean], ∀ k ∈ [TypeId.number, .string, .boolean],
      ¬Composite.Absorbs .union below k t := by
    simp only [Composite.Absorbs, below]
    decide
  have hstays : ∀ t ∈ [TypeId.string, .boolean], t ∈ kept := by
    intro t ht
    refine (h.covers t (List.mem_cons_of_mem _ ht) ?_).resolve_right ?_
    · revert t
      decide
    · rintro ⟨k, hk, -, habsorbs⟩
      exact hhighest t ht k (List.mem_eraseDups.mp (h.sublist.subset hk)) habsorbs
  exact ⟨t, T', kept, hrun, h.denotes (by decide), hstays _ (by decide), hstays _ (by decide)⟩

end ScriptTyping
