import Mathlib.Data.List.Induction
import Mathlib.Data.List.Perm.Subperm
import ScriptTyping.Proofs.Stability.Lattice
import ScriptTyping.Proofs.Table.Recall

/-!
# Simplifying a short form

The members that stay in a union or intersection are in short form: they are expanded, different,
none of them makes another one go, and `null` and `undefined` do not stand in a union beside other
members.  Building the composite of such members gives that composite and drops nothing, so a
simplified union or intersection is not simplified any further.

A single member that stays stands for itself as it is, though.  If it is a composite of the other
kind, it was not looked into, and simplifying it may go on.

## Main definitions

* `Composite.IsShort` — members in short form.

## Main results

* `Composite.IsShort.recalls_build` — members in short form stay.
* `Composite.isShort_survivors` — the members that stay are in short form.
* `simplify_idempotent_unless_unwrapped` — simplifying twice.
-/

namespace ScriptTyping

/-! ### Lists without repetition -/

theorem nodup_eraseDups {α : Type} [BEq α] [LawfulBEq α] (ts : List α) :
    ts.eraseDups.Nodup := by
  match ts with
  | [] => exact List.nodup_nil
  | t :: ts =>
    rw [List.eraseDups_cons]
    refine List.nodup_cons.mpr ⟨fun h => ?_, nodup_eraseDups _⟩
    have hne := (List.mem_filter.mp (List.mem_eraseDups.mp h)).2
    simp at hne
  termination_by ts.length
  decreasing_by
    have := List.length_filter_le (fun b => !b == t) ts
    simp only [List.length_cons]
    omega

theorem eraseDups_of_nodup {ts : List TypeId} (h : ts.Nodup) : ts.eraseDups = ts := by
  induction ts with
  | nil => rfl
  | cons t ts ih =>
    obtain ⟨ht, hts⟩ := List.nodup_cons.mp h
    rw [List.eraseDups_cons, List.filter_eq_self.mpr, ih hts]
    intro s hs
    simp only [Bool.not_eq_true', beq_eq_false_iff_ne]
    exact fun heq => ht (heq ▸ hs)

theorem eraseDups_ne_nil {l : List TypeId} (h : l ≠ []) : l.eraseDups ≠ [] := by
  obtain ⟨t, ht⟩ := List.exists_mem_of_ne_nil l h
  exact List.ne_nil_of_mem (List.mem_eraseDups.mpr ht)

theorem length_eraseDups_le (l : List TypeId) : l.eraseDups.length ≤ l.length :=
  (List.subperm_of_subset (nodup_eraseDups l) fun _ ht => List.mem_eraseDups.mp ht).length_le

theorem eraseDups_concat (l : List TypeId) (t : TypeId) :
    (l ++ [t]).eraseDups = if t ∈ l then l.eraseDups else l.eraseDups ++ [t] := by
  have hone : [t].eraseDups = [t] := rfl
  by_cases ht : t ∈ l <;> simp [List.eraseDups_append, List.removeAll, ht, hone]

theorem eraseDups_append_of_subset {l m : List TypeId} (h : ∀ t ∈ m, t ∈ l) :
    (l ++ m).eraseDups = l.eraseDups := by
  have hnone : m.removeAll l = [] := by
    rw [List.removeAll, List.filter_eq_nil_iff]
    exact fun t ht => by simp [h t ht]
  rw [List.eraseDups_append, hnone, List.eraseDups_nil, List.append_nil]

theorem eraseDups_filter (p : TypeId → Bool) (l : List TypeId) :
    (l.filter p).eraseDups = l.eraseDups.filter p := by
  induction l using List.reverseRecOn with
  | nil => rfl
  | append_singleton l t ih =>
    rw [List.filter_append, List.filter_singleton, eraseDups_concat]
    cases hp : p t with
    | true =>
      rw [cond_true, eraseDups_concat, ih]
      by_cases ht : t ∈ l <;> simp [ht, hp]
    | false =>
      rw [cond_false, List.append_nil, ih]
      by_cases ht : t ∈ l <;> simp [ht, hp]

/-- Repetitions may be left out before and after a function is applied. -/
theorem eraseDups_map_eraseDups (g : TypeId → TypeId) (l : List TypeId) :
    (l.eraseDups.map g).eraseDups = (l.map g).eraseDups := by
  induction l using List.reverseRecOn with
  | nil => rfl
  | append_singleton l t ih =>
    rw [List.map_append, List.map_singleton, eraseDups_concat (l.map g), eraseDups_concat, ← ih]
    by_cases ht : t ∈ l
    · rw [if_pos ht, if_pos (List.mem_map_of_mem ht)]
    · rw [if_neg ht, List.map_append, List.map_singleton, eraseDups_concat]
      simp only [List.mem_map, List.mem_eraseDups]

namespace Composite

variable {kind : Composite} {w : World} {env : Environment} {T T' : TypeTable}
  {members flat removed : List TypeId}

/-! ### Expanded members -/

/-- Expanding leaves no composite of the same kind. -/
theorem members?_of_mem_leavesFrom? (fuel : Nat) : ∀ {members leaves : List TypeId},
    kind.leavesFrom? T fuel members = some leaves →
    ∀ t ∈ leaves, kind.members? (T.lookup t) = none := by
  induction fuel with
  | zero =>
    intro members leaves h t ht
    rw [leavesFrom?] at h
    split at h
    · cases h
    rename_i hany
    obtain rfl := Option.some.inj h
    cases hm : kind.members? (T.lookup t) with
    | none => rfl
    | some nested => exact absurd (List.any_eq_true.mpr ⟨t, ht, by rw [hm]; rfl⟩) hany
  | succ fuel ih =>
    intro members leaves h t ht
    rw [leavesFrom?_succ] at h
    obtain ⟨expanded, hexpanded, hleaves⟩ := Option.bind_eq_some_iff.mp h
    obtain rfl := Option.some.inj hleaves
    have hplain : ∀ member ∈ members, ∀ b, expand kind T fuel member = some b →
        expand kind T fuel member = some b ∧ ∀ t ∈ b, kind.members? (T.lookup t) = none := by
      intro member _ b hb
      refine ⟨hb, ?_⟩
      rw [expand] at hb
      cases hm : kind.members? (T.lookup member) with
      | none =>
        rw [hm] at hb
        obtain rfl := Option.some.inj hb
        exact List.forall_mem_singleton.mpr hm
      | some nested =>
        rw [hm] at hb
        exact ih hb
    obtain ⟨b, hb, htb⟩ := List.mem_flatten.mp ht
    exact (mapM_eq_some_of_forall members hplain expanded hexpanded).2 b hb t htb

/-- Members that are no composites of the kind are expanded to themselves. -/
theorem leaves?_of_plain (hT : T.WellFormed) (hle : T ≤ T') (hms : T.HasAll members)
    (hplain : ∀ t ∈ members, kind.members? (T.lookup t) = none) :
    kind.leaves? T' members = some members := by
  refine (leavesFrom?_of_le hT hle 0 (Nat.zero_le _) hms ?_).1
  rw [leavesFrom?, if_neg]
  intro hany
  obtain ⟨t, ht, hsome⟩ := List.any_eq_true.mp hany
  rw [hplain t ht] at hsome
  cases hsome

/-! ### Members that stay -/

theorem mem_survivors {t : TypeId} : t ∈ kind.survivors flat removed ↔
    t ∈ flat ∧ t ∉ removed ∧ ¬(kind = .union ∧ t.isNullish = true ∧
      ∃ u ∈ flat, u ∉ removed ∧ u.isNullish = false) := by
  simp only [survivors, List.mem_filter, Bool.not_eq_true', List.contains_eq_mem,
    List.any_eq_true, Bool.and_eq_true, beq_iff_eq, and_assoc, Bool.eq_false_iff, ne_eq]
  grind

/-- Without `null` and `undefined` beside other members, all members stay. -/
theorem survivors_nil (h : kind = .union → (∃ t ∈ members, t.isNullish = false) →
    ∀ t ∈ members, t.isNullish = false) : kind.survivors members [] = members := by
  have hkept : members.filter (fun t => !([] : List TypeId).contains t) = members :=
    List.filter_eq_self.mpr fun _ _ => rfl
  rw [survivors, hkept]
  refine List.filter_eq_self.mpr fun t ht => ?_
  rw [Bool.not_eq_true', Bool.and_eq_false_imp]
  intro hnullish
  obtain ⟨hkind, ht'⟩ := Bool.and_eq_true_iff.mp hnullish
  rw [List.any_eq_false]
  intro u hu hvalue
  have := h (eq_of_beq hkind) ⟨u, hu, by simpa using hvalue⟩ t ht
  rw [ht'] at this
  cases this

/-- Dropping `null` and `undefined` drops no candidate. -/
theorem filter_isCandidate_survivors :
    (kind.survivors flat []).filter isCandidate = flat.filter isCandidate := by
  rw [survivors, List.filter_filter, List.filter_filter]
  refine List.filter_congr fun t _ => ?_
  rw [isCandidate]
  cases t.isNullish <;> simp

/-! ### Members that make another one go -/

/-- A member that was compared with all others and stays is recalled to be made to go by none. -/
theorem stable_dropped_recalls (h : w.Setting env T) {candidates : List TypeId}
    (hcandidates : T.HasAll candidates) :
    TypeM.Stable (kind.dropped w.isSubtype env candidates) T fun T' gone =>
      candidates.length ≤ pairwiseLimit → ∀ t ∈ candidates, t ∉ gone →
        ∀ other ∈ candidates, other ≠ t →
          TypeM.Recalls (kind.absorbs w.isSubtype env other t) T' false := by
  have hcompare {T₁ : TypeTable} (hg : T.GrowsTo T₁) {t other : TypeId} (ht : t ∈ candidates)
      (hother : other ∈ candidates) : TypeM.Stable
        (if other = t then pure false else kind.absorbs w.isSubtype env other t) T₁
        fun _ _ => True := by
    have ht₁ := (hcandidates t ht).of_le hg.le
    have hother₁ := (hcandidates other hother).of_le hg.le
    split
    · exact .pure hg.wellFormed trivial
    · cases kind with
      | union => exact (h.grow hg).stable_strict ht₁ hother₁
      | intersection => exact (h.grow hg).stable_strict hother₁ ht₁
  rw [dropped]
  split
  · exact .pure h.table fun hsize => by omega
  refine (TypeM.Stable.mapM_recalls candidates h.table fun t ht T₁ hg₁ => ?_).bind
    fun found T₁ hg₁ hfound => .pure hg₁.wellFormed fun _ t ht hstays other hother hne => ?_
  · refine (TypeM.Stable.findM? candidates hg₁.wellFormed fun other hother T₂ hg₂ => ?_).bind
      fun _ _ hg _ => .pure hg.wellFormed trivial
    exact hcompare (hg₁.trans hg₂) ht hother
  · -- Nothing was found that makes the member go, so nothing is ever found.
    obtain ⟨outcome, houtcome, hrecalls⟩ := TypeM.exists_of_mem_of_forall₂ hfound ht
    obtain ⟨witness, T₂, hwitness, hpure⟩ := TypeM.bind_eq_ok.mp hrecalls.run
    obtain ⟨rfl, rfl⟩ := TypeM.pure_eq_ok.mp hpure
    cases witness with
    | some witness =>
      have hgone : t ∈ found.filterMap id := List.mem_filterMap.mpr ⟨some t, houtcome, rfl⟩
      exact absurd hgone hstays
    | none =>
      obtain ⟨-, hnone, -⟩ := TypeM.Stable.findM?_recalls candidates hg₁.wellFormed
        (fun other hother T₃ hg₃ => hcompare (hg₁.trans hg₃) ht hother) _ _ hwitness
      have := hnone rfl other hother
      rwa [if_neg hne] at this

/-- The same for the members that are reported. -/
theorem redundancies_recalls (h : w.Setting env T) {candidates : List TypeId}
    (hcandidates : T.HasAll candidates) {reports : List Redundancy}
    (hrun : kind.redundancies w.isSubtype w env candidates T = .ok reports T') :
    T.GrowsTo T' ∧ (candidates.length ≤ pairwiseLimit → ∀ t ∈ candidates,
      t ∉ reports.map (·.removed) → ∀ other ∈ candidates, other ≠ t →
        TypeM.Recalls (kind.absorbs w.isSubtype env other t) T' false) := by
  have hdropped : kind.dropped w.isSubtype env candidates T =
      .ok (reports.map (·.removed)) T' := by
    rw [← map_removed_redundancies (w := w), map_eq_pure_bind]
    exact TypeM.bind_eq_ok.mpr ⟨reports, T', hrun, rfl⟩
  obtain ⟨hg, hstay, -⟩ := stable_dropped_recalls h hcandidates _ _ hdropped
  exact ⟨hg, hstay⟩

/-- If no candidate makes another one go, nothing is dropped. -/
theorem recalls_redundancies {candidates : List TypeId}
    (h : candidates.length ≤ pairwiseLimit → ∀ t ∈ candidates, ∀ other ∈ candidates, other ≠ t →
      TypeM.Recalls (kind.absorbs w.isSubtype env other t) T false) :
    TypeM.Recalls (kind.redundancies w.isSubtype w env candidates) T [] := by
  rw [redundancies]
  split
  · exact .pure []
  rename_i hsize
  have hnone : ∀ t ∈ candidates,
      TypeM.Recalls (kind.witness? w.isSubtype env candidates t) T none := by
    refine fun t ht => .findM?_none fun other hother => ?_
    split
    · exact .pure false
    · exact h (by omega) t ht other hother ‹_›
  have hempty : (candidates.map fun _ => (none : Option Redundancy)).filterMap id = [] := by
    simp
  rw [← hempty]
  refine TypeM.Recalls.bind (.mapM (List.forall₂_map_right_iff.mpr
    (List.forall₂_same.mpr fun t ht => (hnone t ht).bind ?_))) (.pure _)
  exact .pure none

/-! ### Short form -/

/-- The members of a composite that stays as it is, from the table on: they are expanded and
different, no candidate makes another one go, unless there are too many to compare, and `null` and
`undefined` do not stand in a union beside other members. -/
structure IsShort (kind : Composite) (w : World) (env : Environment) (T : TypeTable)
    (members : List TypeId) : Prop where
  has : T.HasAll members
  plain : ∀ t ∈ members, kind.members? (T.lookup t) = none
  nodup : members.Nodup
  several : 2 ≤ members.length
  incomparable : (members.filter isCandidate).length ≤ pairwiseLimit →
    ∀ t ∈ members.filter isCandidate, ∀ other ∈ members.filter isCandidate, other ≠ t →
      TypeM.Recalls (kind.absorbs w.isSubtype env other t) T false
  nullish : kind = .union → (∃ t ∈ members, t.isNullish = false) →
    ∀ t ∈ members, t.isNullish = false

theorem IsShort.of_le (hle : T ≤ T') (h : IsShort kind w env T members) :
    IsShort kind w env T' members where
  has := h.has.of_le hle
  plain t ht := by
    rw [TypeTable.lookup_of_le hle (h.has t ht)]
    exact h.plain t ht
  nodup := h.nodup
  several := h.several
  incomparable hsize t ht other hother hne :=
    (h.incomparable hsize t ht other hother hne).of_le hle
  nullish := h.nullish

/-- Members in short form stay, and none is reported. -/
theorem IsShort.recalls_build (hT : T.WellFormed) (h : IsShort kind w env T members) {t : TypeId}
    (ht : TypeM.Recalls (kind.intern members) T t) :
    TypeM.Recalls (kind.build w.isSubtype w env members) T (t, []) := by
  intro T' hle
  refine TypeM.bind_eq_ok.mpr ⟨T', T', rfl, TypeM.bind_eq_ok.mpr ⟨members, T', ?_, ?_⟩⟩
  · exact TypeM.ofOption_eq_ok.mpr ⟨leaves?_of_plain hT hle h.has h.plain, rfl⟩
  rw [eraseDups_of_nodup h.nodup]
  have hdropped := recalls_redundancies (w := w) h.incomparable T' hle
  have hstay := survivors_nil h.nullish
  obtain ⟨first, second, rest, rfl⟩ : ∃ first second rest, members = first :: second :: rest := by
    match members, h.several with
    | first :: second :: rest, _ => exact ⟨first, second, rest, rfl⟩
  refine TypeM.bind_eq_ok.mpr ⟨[], T', hdropped, TypeM.bind_eq_ok.mpr ⟨t, T', ?_, rfl⟩⟩
  rw [List.map_nil, hstay]
  exact ht T' hle

/-- The members that stay are in short form if there are several of them. -/
theorem isShort_survivors (h : w.Setting env T) (hflat : T.HasAll flat)
    (hplain : ∀ t ∈ flat, kind.members? (T.lookup t) = none) (hnodup : flat.Nodup)
    {reports : List Redundancy}
    (hrun : kind.redundancies w.isSubtype w env (flat.filter isCandidate) T = .ok reports T')
    (hseveral : 2 ≤ (kind.survivors flat (reports.map (·.removed))).length) :
    IsShort kind w env T' (kind.survivors flat (reports.map (·.removed))) := by
  obtain ⟨hg, hstay⟩ := redundancies_recalls h
    (fun t ht => hflat t (List.mem_filter.mp ht).1) hrun
  have hmem {t : TypeId} (ht : t ∈ kind.survivors flat (reports.map (·.removed))) : t ∈ flat :=
    (mem_survivors.mp ht).1
  refine ⟨fun t ht => (hflat t (hmem ht)).of_le hg.le, fun t ht => ?_,
    (hnodup.filter _).filter _, hseveral, fun hsize t ht other hother hne => ?_, ?_⟩
  · rw [TypeTable.lookup_of_le hg.le (hflat t (hmem ht))]
    exact hplain t (hmem ht)
  · obtain ⟨htmem, htcand⟩ := List.mem_filter.mp ht
    obtain ⟨homem, hocand⟩ := List.mem_filter.mp hother
    -- If there were too many candidates to compare, all of them stay and are too many again.
    have hfew : (flat.filter isCandidate).length ≤ pairwiseLimit := by
      by_contra hmany
      rw [redundancies, if_pos (by omega)] at hrun
      obtain ⟨rfl, -⟩ := TypeM.pure_eq_ok.mp hrun
      rw [List.map_nil, filter_isCandidate_survivors] at hsize
      omega
    exact hstay hfew t (List.mem_filter.mpr ⟨hmem htmem, htcand⟩) (mem_survivors.mp htmem).2.1
      other (List.mem_filter.mpr ⟨hmem homem, hocand⟩) hne
  · rintro hkind ⟨u, hu, huvalue⟩ t ht
    obtain ⟨huflat, hustays, -⟩ := mem_survivors.mp hu
    by_contra hnullish
    exact (mem_survivors.mp ht).2.2
      ⟨hkind, by simpa using hnullish, u, huflat, hustays, huvalue⟩

theorem stable_intern_members (hT : T.WellFormed) (hms : T.HasAll members) :
    TypeM.Stable (kind.intern members) T
      fun T' t => kind.members? (T'.lookup t) = some members := by
  cases kind with
  | union =>
    have hparts : T.HasAll (TypeData.union members).parts := hms
    exact (TypeM.stable_intern hT hparts).mono fun _ _ _ ht => by
      rw [ht.2]
      rfl
  | intersection =>
    have hparts : T.HasAll (TypeData.intersection members).parts := hms
    exact (TypeM.stable_intern hT hparts).mono fun _ _ _ ht => by
      rw [ht.2]
      rfl

/-- What the members that stay are assembled to. -/
theorem assemble_cases (hT : T.WellFormed) (hms : T.HasAll members) {r : TypeId}
    (hrun : kind.assemble members T = .ok r T') :
    T.GrowsTo T' ∧ (r = .undefined ∨ r ∈ members ∨ 2 ≤ members.length ∧
      TypeM.Recalls (kind.intern members) T' r ∧
      kind.members? (T'.lookup r) = some members) := by
  match members, hms with
  | [], _ =>
    cases hrun
    exact ⟨.refl hT, .inl rfl⟩
  | [single], _ =>
    cases hrun
    exact ⟨.refl hT, .inr (.inl (List.mem_singleton_self _))⟩
  | first :: second :: rest, hms =>
    obtain ⟨hg, ⟨hlookup, hrecalls⟩, -⟩ := (stable_intern_members hT hms).recalls _ _ hrun
    exact ⟨hg, .inr (.inr ⟨by simp, hrecalls, hlookup⟩)⟩

/-- What building a composite gives: the neutral type or `undefined`, one of the expanded members,
or a composite of members in short form. -/
theorem build_cases (h : w.Setting env T) (hms : T.HasAll members) {r : TypeId}
    {reports : List Redundancy}
    (hrun : kind.build w.isSubtype w env members T = .ok (r, reports) T') :
    T.GrowsTo T' ∧ (r = kind.neutral ∨ r = .undefined ∨
      (∃ leaves, kind.leaves? T members = some leaves ∧ r ∈ leaves) ∨
      ∃ stay, IsShort kind w env T' stay ∧ TypeM.Recalls (kind.intern stay) T' r ∧
        kind.members? (T'.lookup r) = some stay) := by
  obtain ⟨_, _, hget, hrun⟩ := TypeM.bind_eq_ok.mp hrun
  cases hget
  obtain ⟨leaves, T₁, hleaves, hrun⟩ := TypeM.bind_eq_ok.mp hrun
  obtain ⟨hfound, rfl⟩ := TypeM.ofOption_eq_ok.mp hleaves
  have hhas := (leavesFrom?_of_le h.table le_rfl _ (Nat.le_refl _) hms hfound).2
  have hplain := members?_of_mem_leavesFrom? _ hfound
  have hnodup := nodup_eraseDups leaves
  have hmem : ∀ t ∈ leaves.eraseDups, t ∈ leaves := fun t ht => List.mem_eraseDups.mp ht
  generalize leaves.eraseDups = flat at hrun hnodup hmem
  match flat, hnodup, hmem with
  | [], _, _ =>
    cases hrun
    exact ⟨.refl h.table, .inl rfl⟩
  | [single], _, hmem =>
    cases hrun
    exact ⟨.refl h.table, .inr (.inr (.inl ⟨leaves, hfound, hmem _ (List.mem_singleton_self _)⟩))⟩
  | first :: second :: rest, hnodup, hmem =>
    obtain ⟨dropped, T₂, hdropped, hrun⟩ := TypeM.bind_eq_ok.mp hrun
    obtain ⟨r', T₃, hr, hpure⟩ := TypeM.bind_eq_ok.mp hrun
    obtain ⟨hpair, rfl⟩ := TypeM.pure_eq_ok.mp hpure
    obtain ⟨rfl, rfl⟩ := Prod.mk.inj hpair
    have hflat : T.HasAll (first :: second :: rest) := fun t ht => hhas t (hmem t ht)
    obtain ⟨hg, -⟩ := redundancies_recalls h
      (fun t ht => hflat t (List.mem_filter.mp ht).1) hdropped
    have hstay : T₂.HasAll (kind.survivors (first :: second :: rest) (dropped.map (·.removed))) :=
      fun t ht => (hflat t (mem_survivors.mp ht).1).of_le hg.le
    obtain ⟨hg', hundefined | hsingle | ⟨hseveral, hrecalls, hlookup⟩⟩ :=
      assemble_cases hg.wellFormed hstay hr
    · exact ⟨hg.trans hg', .inr (.inl hundefined)⟩
    · exact ⟨hg.trans hg', .inr (.inr (.inl
        ⟨leaves, hfound, hmem _ (mem_survivors.mp hsingle).1⟩))⟩
    · have hshort := isShort_survivors h hflat (fun t ht => hplain t (hmem t ht)) hnodup hdropped
        hseveral
      exact ⟨hg.trans hg', .inr (.inr (.inr ⟨_, hshort.of_le hg'.le, hrecalls, hlookup⟩))⟩

end Composite

/-! ### Simplifying twice -/

section Twice

variable {w : World} {env : Environment} {T T' : TypeTable} {t r : TypeId}

/-- Simplifying a composite builds it from its members. -/
theorem simplify_of_members? {kind : Composite} {members : List TypeId}
    (h : kind.members? (T.lookup t) = some members) :
    simplify w.isSubtype w env t T = kind.build w.isSubtype w env members T := by
  have hlookup : TypeM.lookup t T = .ok (T.lookup t) T := rfl
  rw [simplify, TypeM.bind_of_ok hlookup]
  cases kind <;> cases hd : T.lookup t <;> rw [hd] at h <;> cases h <;> rfl

/-- Other types stay. -/
theorem simplify_of_plain (h : ∀ kind : Composite, kind.members? (T.lookup t) = none) :
    simplify w.isSubtype w env t T = .ok (t, []) T := by
  have hunion := h .union
  have hintersection := h .intersection
  refine TypeM.bind_eq_ok.mpr ⟨T.lookup t, T, rfl, ?_⟩
  cases hd : T.lookup t with
  | union members =>
    rw [hd] at hunion
    cases hunion
  | intersection members =>
    rw [hd] at hintersection
    cases hintersection
  | _ => rfl

theorem recalls_simplify_of_plain (ht : T.Has t)
    (h : ∀ kind : Composite, kind.members? (T.lookup t) = none) :
    TypeM.Recalls (simplify w.isSubtype w env t) T (t, []) := by
  intro T' hle
  refine simplify_of_plain fun kind => ?_
  rw [TypeTable.lookup_of_le hle ht]
  exact h kind

/-- A composite of members in short form stays. -/
theorem Composite.IsShort.recalls_simplify {kind : Composite} {members : List TypeId}
    (hT : T.WellFormed) (h : kind.IsShort w env T members)
    (hr : TypeM.Recalls (kind.intern members) T r)
    (hmembers : kind.members? (T.lookup r) = some members) :
    TypeM.Recalls (simplify w.isSubtype w env r) T (r, []) := by
  have hhas : T.Has r := by
    by_contra hnot
    have hnone : T.lookup? r = none := Array.getElem?_eq_none (Nat.le_of_not_lt hnot)
    rw [TypeTable.lookup, hnone] at hmembers
    cases kind <;> cases hmembers
  intro T' hle
  rw [simplify_of_members? (by rw [TypeTable.lookup_of_le hle hhas]; exact hmembers)]
  exact h.recalls_build hT hr T' hle

/-- The intrinsic types stay. -/
theorem recalls_simplify_intrinsic (hinitial : .initial ≤ T) (ht : TypeTable.initial.Has t)
    (h : ∀ kind : Composite, kind.members? (TypeTable.initial.lookup t) = none) :
    TypeM.Recalls (simplify w.isSubtype w env t) T (t, []) :=
  (recalls_simplify_of_plain ht h).of_le hinitial

/-- Simplifying a type of the table gives a type that from then on stays as it is without a report,
unless the type is a composite of one kind and the result a member of it, unwrapped, that is itself
a composite of the other kind. -/
theorem simplify_idempotent_unless_unwrapped (h : w.Setting env T) (hinitial : .initial ≤ T)
    (ht : T.Has t) {reports : List Redundancy}
    (hrun : simplify w.isSubtype w env t T = .ok (r, reports) T') :
    TypeM.Recalls (simplify w.isSubtype w env r) T' (r, []) ∨
      ∃ (kind other : Composite) (members leaves inner : List TypeId),
        kind.members? (T.lookup t) = some members ∧ kind.leaves? T members = some leaves ∧
        r ∈ leaves ∧ other ≠ kind ∧ other.members? (T.lookup r) = some inner := by
  by_cases hplain : ∀ kind : Composite, kind.members? (T.lookup t) = none
  · rw [simplify_of_plain hplain] at hrun
    cases hrun
    exact .inl (recalls_simplify_of_plain ht hplain)
  obtain ⟨kind, members, hmembers⟩ :
      ∃ (kind : Composite) (members : List TypeId), kind.members? (T.lookup t) = some members := by
    obtain ⟨kind, hkind⟩ := not_forall.mp hplain
    exact ⟨kind, Option.ne_none_iff_exists'.mp hkind⟩
  rw [simplify_of_members? hmembers] at hrun
  obtain ⟨hg, hneutral | rfl | ⟨leaves, hleaves, hr⟩ | ⟨stay, hshort, hrecalls, hstay⟩⟩ :=
    Composite.build_cases h (Composite.hasAll_members h.table hmembers) hrun
  · refine .inl (recalls_simplify_intrinsic (le_trans hinitial hg.le) ?_ ?_)
    · cases kind <;> rw [hneutral] <;> decide
    · cases kind <;> rw [hneutral] <;> rintro ⟨⟩ <;> rfl
  · refine .inl (recalls_simplify_intrinsic (le_trans hinitial hg.le) (by decide) ?_)
    rintro ⟨⟩ <;> rfl
  · -- A member that stays alone is returned as it is.
    have hhas := (Composite.leavesFrom?_of_le h.table le_rfl _ (Nat.le_refl _)
      (Composite.hasAll_members h.table hmembers) hleaves).2 r hr
    by_cases hinner : ∀ other : Composite, other.members? (T.lookup r) = none
    · exact .inl ((recalls_simplify_of_plain hhas hinner).of_le hg.le)
    · obtain ⟨other, hother⟩ := not_forall.mp hinner
      obtain ⟨inner, hinner⟩ := Option.ne_none_iff_exists'.mp hother
      refine .inr ⟨kind, other, members, leaves, inner, hmembers, hleaves, hr, ?_, hinner⟩
      rintro rfl
      exact hother (Composite.members?_of_mem_leavesFrom? _ hleaves r hr)
  · exact .inl (hshort.recalls_simplify hg.wellFormed hrecalls hstay)

end Twice

/-- A table with a union of `string`, `null` and a nested union of `number` and `string`. -/
def nestedUnionTable : TypeTable :=
  (TypeTable.initial.store (.union [.number, .string])).store (.union [.string, .null, ⟨16⟩])

theorem wellFormed_nestedUnionTable : nestedUnionTable.WellFormed :=
  TypeTable.wellFormed_store
    (TypeTable.wellFormed_store TypeTable.wellFormed_initial (by decide)) (by decide)

/-- The short form of the outer union is the new union of `string` and `number`, which stays. -/
theorem simplify_idempotent_unless_unwrapped_nestedUnion :
    TypeM.Recalls (simplify (World.isSubtype default) default .empty ⟨18⟩)
      (nestedUnionTable.store (.union [.string, .number])) (⟨18⟩, []) := by
  have houter : (TypeTable.initial.store (.union [.number, .string])).handles[
      TypeData.union [.string, .null, ⟨16⟩]]? = none := by
    rw [TypeTable.handles_store_of_ne (by decide), TypeTable.handles_initial_of_ne (by decide)]
  have hnew : nestedUnionTable.handles[TypeData.union [.string, .number]]? = none := by
    rw [nestedUnionTable, TypeTable.handles_store_of_ne (by decide),
      TypeTable.handles_store_of_ne (by decide), TypeTable.handles_initial_of_ne (by decide)]
  have hinitial : TypeTable.initial ≤ nestedUnionTable :=
    le_trans (TypeTable.le_store (TypeTable.handles_initial_of_ne (by decide)))
      (TypeTable.le_store houter)
  have hrun : simplify (World.isSubtype default) default .empty ⟨17⟩ nestedUnionTable =
      .ok (⟨18⟩, []) (nestedUnionTable.store (.union [.string, .number])) := by
    have hreduce : simplify (World.isSubtype default) default .empty ⟨17⟩ nestedUnionTable =
        (TypeM.union [.string, .number] >>= fun r => pure (r, [])) nestedUnionTable := rfl
    rw [hreduce]
    refine TypeM.bind_eq_ok.mpr ⟨_, _, ?_, rfl⟩
    change EStateM.Result.ok (nestedUnionTable.intern _).1 (nestedUnionTable.intern _).2 = _
    rw [TypeTable.intern_of_new hnew]
    rfl
  obtain h | ⟨kind, other, _, _, inner, -, -, -, -, hinner⟩ :=
    simplify_idempotent_unless_unwrapped
      ⟨wellFormed_nestedUnionTable, World.within_of_entries (by decide) (by decide),
        Environment.within_empty⟩ hinitial
      (by decide) hrun
  · exact h
  · cases other <;> cases hinner

/-- A union of one intersection is unwrapped to that intersection, which is not in short form. -/
example :
    let T := (TypeTable.initial.store (.intersection [.number, .any])).store (.union [⟨16⟩])
    simplify (World.isSubtype default) default .empty ⟨17⟩ T = .ok (⟨16⟩, []) T ∧
      (Prod.fst <$> simplify (World.isSubtype default) default .empty ⟨16⟩) T = .ok .number T :=
  ⟨rfl, rfl⟩

end ScriptTyping
