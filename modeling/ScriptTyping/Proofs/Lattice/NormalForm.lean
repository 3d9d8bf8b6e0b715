import ScriptTyping.Proofs.Lattice.Expansion
import ScriptTyping.Proofs.Table.Yields

/-!
# The normal form of a composite

Which members of a union or intersection stay is a matter of the set of expanded members and of the
answers of the subtype relation, nothing else.  The relation may be any that returns: no order is
assumed, so members may drop each other in a circle.

## Main definitions

* `TypeRelation.Decides` — the answers of a relation to the questions about some types.
* `Composite.Absorbs` — strictly above a member of a union or below a member of an intersection.
* `Composite.IsNormalForm` — the members that stay.
* `Composite.Denotes` — the type that stands for the members that stay.
* `Composite.Shortens` — all that is returned about a list of expanded members.

## Main results

* `Composite.IsNormalForm.mem_iff` — equal sets of members have equal sets of members that stay.
* `Composite.build_shortens` — every composite is built in normal form, whatever the relation.
-/

namespace ScriptTyping

/-- From the table on, whatever is stored meanwhile, the relation returns the answers `below` to all
questions about the types, and only adds to the table. -/
def TypeRelation.Decides (rel : TypeRelation) (env : Environment) (ts : List TypeId)
    (below : TypeId → TypeId → Prop) (T : TypeTable) : Prop :=
  ∀ T₁, T.GrowsTo T₁ → ∀ s ∈ ts, ∀ t ∈ ts,
    TypeM.Yields (rel env s t) T₁ fun _ answer => answer = true ↔ below s t

variable {rel : TypeRelation} {env : Environment} {below : TypeId → TypeId → Prop}
  {T T' : TypeTable} {w : World}

/-! ### Relations that decide -/

/-- A relation that does not look at the table decides itself. -/
theorem TypeRelation.decides_pure (below : TypeId → TypeId → Prop) [DecidableRel below]
    (ts : List TypeId) :
    TypeRelation.Decides (fun _ s t => pure (decide (below s t))) env ts below T :=
  fun _ hg _ _ _ _ => .pure hg.wellFormed decide_eq_true_iff

/-- The relation of the declared hierarchy decides what it answers once there is nothing left to
store for the answers. -/
theorem World.Setting.decides_isSubtype (h : w.Setting env T) {ts : List TypeId} (hts : T.HasAll ts)
    (hasked : ∀ s ∈ ts, ∀ t ∈ ts, ∃ answer, w.isSubtype env s t T = .ok answer T) :
    TypeRelation.Decides w.isSubtype env ts (fun s t => w.isSubtype env s t T = .ok true T) T := by
  intro T₁ hg s hs t ht
  obtain ⟨answer, hanswer⟩ := hasked s hs t ht
  obtain ⟨-, -, hreplay⟩ := h.stable_isSubtype (hts s hs) (hts t ht) _ _ hanswer
  refine ⟨answer, T₁, hreplay T₁ hg.le, .refl hg.wellFormed, ?_⟩
  simp only [hanswer, EStateM.Result.ok.injEq, and_true]

theorem TypeRelation.Decides.mono {ts ts' : List TypeId} (h : rel.Decides env ts below T)
    (hg : T.GrowsTo T') (hsub : ∀ t ∈ ts', t ∈ ts) : rel.Decides env ts' below T' :=
  fun T₁ hg₁ s hs t ht => h T₁ (hg.trans hg₁) s (hsub s hs) t (hsub t ht)

theorem TypeRelation.Decides.yields_strict {ts : List TypeId} (h : rel.Decides env ts below T)
    (hg : T.GrowsTo T') {s t : TypeId} (hs : s ∈ ts) (ht : t ∈ ts) :
    TypeM.Yields (rel.strict env s t) T'
      fun _ answer => answer = true ↔ s ≠ t ∧ below s t ∧ ¬below t s := by
  rw [TypeRelation.strict]
  split
  · rename_i heq
    exact .pure hg.wellFormed (by simp [heq])
  rename_i hne
  refine (h T' hg s hs t ht).bind fun up T₁ hg₁ hup => ?_
  cases up with
  | false =>
    have hnot : ¬below s t := fun hbelow => Bool.false_ne_true (hup.mpr hbelow)
    exact .pure hg₁.wellFormed (by simp [hnot])
  | true =>
    refine (h T₁ (hg.trans hg₁) t ht s hs).bind fun down T₂ hg₂ hdown => .pure hg₂.wellFormed ?_
    have hbelow := hup.mp rfl
    rw [Bool.not_eq_true', ← Bool.not_eq_true, hdown]
    exact ⟨fun hnot => ⟨hne, hbelow, hnot⟩, fun hstrict => hstrict.2.2⟩

namespace Composite

variable {kind : Composite} {members leaves flat kept : List TypeId}

/-! ### The members that stay -/

/-- The other type is strictly above the member, or strictly below it in an intersection. -/
def Absorbs (kind : Composite) (below : TypeId → TypeId → Prop) (other member : TypeId) : Prop :=
  match kind with
  | union => member ≠ other ∧ below member other ∧ ¬below other member
  | intersection => other ≠ member ∧ below other member ∧ ¬below member other

/-- Another candidate of a list that is not too long absorbs the member. -/
def Goes (kind : Composite) (below : TypeId → TypeId → Prop) (flat : List TypeId)
    (member : TypeId) : Prop :=
  (flat.filter isCandidate).length ≤ pairwiseLimit ∧
    ∃ other ∈ flat, isCandidate other = true ∧ kind.Absorbs below other member

/-- The members of a list that stay, in the order of the list.  Candidates go if another
one absorbs them; unknown stays; `null` and `undefined` leave a union in which something else
stays. -/
structure IsNormalForm (kind : Composite) (below : TypeId → TypeId → Prop)
    (flat kept : List TypeId) : Prop where
  sublist : kept.Sublist flat
  candidate : ∀ t ∈ flat, isCandidate t = true → (t ∉ kept ↔ kind.Goes below flat t)
  unknown : ∀ t ∈ flat, t.isUnknown = true → t ∈ kept
  nullish : ∀ t ∈ flat, t.isNullish = true →
    (t ∉ kept ↔ kind = .union ∧ ∃ u ∈ kept, u.isNullish = false)

/-- A member is unknown, `null` or `undefined`, or a candidate. -/
theorem isCandidate_or (t : TypeId) :
    isCandidate t = true ∨ t.isUnknown = true ∨ t.isNullish = true := by
  rw [isCandidate]
  cases t.isUnknown <;> cases t.isNullish <;> simp

/-- Which members stay depends on the set of members only. -/
theorem IsNormalForm.mem_iff {flat' kept' : List TypeId} (h : kind.IsNormalForm below flat kept)
    (h' : kind.IsNormalForm below flat' kept') (hnodup : flat.Nodup) (hnodup' : flat'.Nodup)
    (hsame : ∀ t, t ∈ flat' ↔ t ∈ flat) (t : TypeId) : t ∈ kept' ↔ t ∈ kept := by
  have hperm : flat'.Perm flat := (List.perm_ext_iff_of_nodup hnodup' hnodup).mpr hsame
  have hcandidates := (hperm.filter isCandidate).length_eq
  have hcandidate (t : TypeId) (ht : t ∈ flat) (hcand : isCandidate t = true) :
      t ∈ kept' ↔ t ∈ kept := by
    rw [← not_iff_not, h.candidate t ht hcand, h'.candidate t ((hsame t).mpr ht) hcand]
    simp only [Goes, hcandidates, hsame]
  have hunknown (t : TypeId) (ht : t ∈ flat) (hunknown : t.isUnknown = true) :
      t ∈ kept' ↔ t ∈ kept :=
    iff_of_true (h'.unknown t ((hsame t).mpr ht) hunknown) (h.unknown t ht hunknown)
  -- What is neither `null` nor `undefined` is settled; they depend on the rest only.
  have hvalue : (∃ u ∈ kept', u.isNullish = false) ↔ ∃ u ∈ kept, u.isNullish = false := by
    refine exists_congr fun u => and_congr_left fun hu => ?_
    by_cases hmem : u ∈ flat
    · rcases isCandidate_or u with hcand | hunk | hnull
      · exact hcandidate u hmem hcand
      · exact hunknown u hmem hunk
      · rw [hnull] at hu
        cases hu
    · exact iff_of_false (fun hu' => hmem ((hsame u).mp (h'.sublist.subset hu')))
        fun hu' => hmem (h.sublist.subset hu')
  by_cases hmem : t ∈ flat
  · rcases isCandidate_or t with hcand | hunk | hnull
    · exact hcandidate t hmem hcand
    · exact hunknown t hmem hunk
    · rw [← not_iff_not, h.nullish t hmem hnull, h'.nullish t ((hsame t).mpr hmem) hnull, hvalue]
  · exact iff_of_false (fun ht => hmem ((hsame t).mp (h'.sublist.subset ht)))
      fun ht => hmem (h.sublist.subset ht)

/-- The type that stands for the members that stay: `undefined` for none, a single one for itself,
and the composite of several in their order. -/
def Denotes (kind : Composite) (T : TypeTable) (t : TypeId) : List TypeId → Prop
  | [] => t = .undefined
  | [single] => t = single
  | kept => kind.members? (T.lookup t) = some kept

/-- A report about one of the members, with a candidate that absorbs it and the names of both as
they read at some later table. -/
structure IsReport (kind : Composite) (w : World) (below : TypeId → TypeId → Prop) (T : TypeTable)
    (flat : List TypeId) (report : Redundancy) : Prop where
  kind_eq : report.kind = kind
  witness : report.witness ∈ flat ∧ isCandidate report.witness = true
  absorbs : kind.Absorbs below report.witness report.removed
  names : ∃ T₁, T.GrowsTo T₁ ∧ report.names =
    [Rendering.type T₁ w.declarations report.removed,
      Rendering.type T₁ w.declarations report.witness]

/-- The short form of the composite of a list of expanded members: the normal form of the list, the
type that stands for it and the reports, one for each candidate that goes, in order. -/
structure Shortens (kind : Composite) (w : World) (below : TypeId → TypeId → Prop) (T : TypeTable)
    (flat kept : List TypeId) (t : TypeId) (reports : List Redundancy) (T' : TypeTable) :
    Prop where
  normal : kind.IsNormalForm below flat kept
  nodup : kept.Nodup
  plain : ∀ member ∈ kept, kind.members? (T'.lookup member) = none
  denotes : kind.Denotes T' t kept
  removed : reports.map (·.removed) = flat.filter fun member =>
    isCandidate member && !kept.contains member
  reports : ∀ report ∈ reports, kind.IsReport w below T flat report

/-! ### The loops -/

section Loops

variable (h : rel.Decides env (flat.filter isCandidate) below T)

include h

theorem yields_absorbs (hg : T.GrowsTo T') {other member : TypeId}
    (hother : other ∈ flat.filter isCandidate) (hmember : member ∈ flat.filter isCandidate) :
    TypeM.Yields (if other = member then pure false else kind.absorbs rel env other member) T'
      fun _ answer => answer = true ↔ kind.Absorbs below other member := by
  split
  · rename_i heq
    refine .pure hg.wellFormed ?_
    cases kind <;> simp [Absorbs, heq]
  · cases kind with
    | union => exact h.yields_strict hg hmember hother
    | intersection => exact h.yields_strict hg hother hmember

theorem yields_witness? (hg : T.GrowsTo T') {member : TypeId}
    (hmember : member ∈ flat.filter isCandidate) :
    TypeM.Yields (kind.witness? rel env (flat.filter isCandidate) member) T' fun _ found =>
      (∀ other, found = some other →
        other ∈ flat.filter isCandidate ∧ kind.Absorbs below other member) ∧
      (found = none → ∀ other ∈ flat.filter isCandidate, ¬kind.Absorbs below other member) :=
  TypeM.yieldsLogic.findM?_iff _ hg.wellFormed fun _ hother _ hg' =>
    yields_absorbs h (hg.trans hg') hother hmember

omit h in
/-- The outcomes of a loop over members, one for each, taken together. -/
private theorem removed_of_forall₂ {p : TypeId → Prop} [DecidablePred p] {P : Redundancy → Prop}
    {candidates : List TypeId} {found : List (Option Redundancy)}
    (hfound : List.Forall₂ (fun member outcome => outcome = none ∧ ¬p member ∨
      ∃ report, outcome = some report ∧ report.removed = member ∧ p member ∧ P report)
      candidates found) :
    (found.filterMap id).map (·.removed) = candidates.filter (p ·) ∧
      ∀ report ∈ found.filterMap id, P report := by
  induction hfound with
  | nil => exact ⟨rfl, fun _ hreport => by cases hreport⟩
  | cons houtcome _ ih =>
    obtain ⟨rfl, hstays⟩ | ⟨report, rfl, rfl, hgoes, hreport⟩ := houtcome
    · rw [List.filter_cons_of_neg (by simpa using hstays)]
      exact ih
    · rw [List.filter_cons_of_pos (by simpa using hgoes)]
      refine ⟨congrArg (report.removed :: ·) ih.1, ?_⟩
      exact List.forall_mem_cons.mpr ⟨hreport, ih.2⟩

/-- The candidates that go, with a report for each. -/
theorem yields_redundancies (hT : T.WellFormed) : TypeM.Yields
    (kind.redundancies rel w env (flat.filter isCandidate)) T fun _ reports =>
      (∃ goes : TypeId → Bool, (∀ t, goes t = true ↔ kind.Goes below flat t) ∧
        reports.map (·.removed) = (flat.filter isCandidate).filter goes) ∧
      ∀ report ∈ reports, kind.IsReport w below T flat report := by
  classical
  rw [redundancies]
  split
  · rename_i hmany
    refine .pure hT ⟨⟨fun _ => false, fun t => ?_, by simp⟩, fun _ hreport => by cases hreport⟩
    exact iff_of_false Bool.false_ne_true fun hgoes => by
      have := hgoes.1
      omega
  rename_i hfew
  refine (TypeM.yieldsLogic.mapM_forall₂ (R := fun _ member outcome =>
    outcome = none ∧ ¬kind.Goes below flat member ∨
      ∃ report : Redundancy, outcome = some report ∧ report.removed = member ∧
        kind.Goes below flat member ∧ kind.IsReport w below T flat report)
      (fun _ _ _ _ _ hR => hR) _ hT fun member hmember T₁ hg₁ => ?_).bind
        fun found T₁ hg₁ hfound => .pure hg₁.wellFormed ?_
  · refine (yields_witness? h hg₁ hmember).bind fun witness T₂ hg₂ hwitness => ?_
    cases witness with
    | none =>
      refine .pure hg₂.wellFormed (.inl ⟨rfl, ?_⟩)
      rintro ⟨-, other, hother, hcand, habsorbs⟩
      exact hwitness.2 rfl other (List.mem_filter.mpr ⟨hother, hcand⟩) habsorbs
    | some witness =>
      obtain ⟨hmem, habsorbs⟩ := hwitness.1 witness rfl
      obtain ⟨hflat, hcand⟩ := List.mem_filter.mp hmem
      refine .get (.pure hg₂.wellFormed (.inr
        ⟨_, rfl, rfl, ⟨by omega, witness, hflat, hcand, habsorbs⟩, ?_⟩))
      exact ⟨rfl, ⟨hflat, hcand⟩, habsorbs, T₂, hg₁.trans hg₂, rfl⟩
  · obtain ⟨hremoved, hreports⟩ := removed_of_forall₂ hfound
    exact ⟨⟨_, fun t => decide_eq_true_iff, hremoved⟩, hreports⟩

end Loops

/-! ### The short form -/

/-- The members that stay are in normal form. -/
theorem isNormalForm_survivors {removed : List TypeId}
    (hremoved : ∀ t, t ∈ removed ↔ t ∈ flat ∧ isCandidate t = true ∧ kind.Goes below flat t) :
    kind.IsNormalForm below flat (kind.survivors flat removed) where
  sublist := List.filter_sublist.trans List.filter_sublist
  candidate t ht hcand := by
    have hvalue : t.isNullish = false := by
      rw [isCandidate, Bool.and_eq_true, Bool.not_eq_true', Bool.not_eq_true'] at hcand
      exact hcand.2
    have hgone : t ∉ kind.survivors flat removed ↔ t ∈ removed := by
      simp [mem_survivors, ht, hvalue]
    rw [hgone, hremoved]
    simp only [ht, hcand, true_and]
  unknown t ht hunknown := by
    have hstays : t ∉ removed := fun hmem => by
      have hcand := ((hremoved t).mp hmem).2.1
      rw [isCandidate, hunknown] at hcand
      cases hcand
    refine mem_survivors.mpr ⟨ht, hstays, fun hnullish => ?_⟩
    cases eq_of_beq hunknown
    cases hnullish.2.1
  nullish t ht hnullish := by
    have hstays : t ∉ removed := fun hmem => by
      have hcand := ((hremoved t).mp hmem).2.1
      rw [isCandidate, hnullish, Bool.not_true, Bool.and_false] at hcand
      cases hcand
    have hvalue : (∃ u ∈ kind.survivors flat removed, u.isNullish = false) ↔
        ∃ u ∈ flat, u ∉ removed ∧ u.isNullish = false := by
      simp only [mem_survivors]
      refine exists_congr fun u => ?_
      constructor
      · rintro ⟨⟨hu, hkept, -⟩, hvalue⟩
        exact ⟨hu, hkept, hvalue⟩
      · rintro ⟨hu, hkept, hvalue⟩
        exact ⟨⟨hu, hkept, by simp [hvalue]⟩, hvalue⟩
    rw [hvalue, mem_survivors]
    simp [ht, hstays, hnullish]

theorem yields_assemble (hT : T.WellFormed) (hkept : T.HasAll kept) :
    TypeM.Yields (kind.assemble kept) T fun T' t =>
      kind.Denotes T' t kept ∧ TypeM.Recalls (kind.assemble kept) T' t := by
  obtain _ | ⟨first, _ | ⟨second, rest⟩⟩ := kept
  · exact .pure hT ⟨rfl, .pure _⟩
  · exact .pure hT ⟨rfl, .pure _⟩
  · obtain ⟨t, T', hrun⟩ : ∃ t T', kind.intern (first :: second :: rest) T = .ok t T' := by
      cases kind with
      | union => exact TypeM.total_intern _ T
      | intersection => exact TypeM.total_intern _ T
    obtain ⟨hg, hmembers, hrecalls⟩ := stable_intern_members hT hkept _ _ hrun
    exact ⟨t, T', hrun, hg, hmembers, hrecalls⟩

/-- A list without repetition is shortened by the reports about the candidates that go. -/
theorem shortens_survivors {t : TypeId} {reports : List Redundancy} (hnodup : flat.Nodup)
    (hplain : ∀ member ∈ flat, kind.members? (T'.lookup member) = none) (goes : TypeId → Bool)
    (hgoes : ∀ member ∈ flat, goes member = true ↔ kind.Goes below flat member)
    (hremoved : reports.map (·.removed) = (flat.filter isCandidate).filter goes)
    (hreports : ∀ report ∈ reports, kind.IsReport w below T flat report)
    (hdenotes : kind.Denotes T' t (kind.survivors flat (reports.map (·.removed)))) :
    kind.Shortens w below T flat (kind.survivors flat (reports.map (·.removed))) t reports T' := by
  have hnormal : kind.IsNormalForm below flat (kind.survivors flat (reports.map (·.removed))) := by
    refine isNormalForm_survivors fun member => ?_
    rw [hremoved, List.mem_filter, List.mem_filter, and_assoc]
    exact and_congr_right fun hmember => and_congr_right fun _ => hgoes member hmember
  refine ⟨hnormal, hnormal.sublist.nodup hnodup,
    fun member hmember => hplain member (hnormal.sublist.subset hmember), hdenotes, ?_, hreports⟩
  generalize kind.survivors flat (reports.map (·.removed)) = kept at hnormal
  rw [hremoved, List.filter_filter]
  refine List.filter_congr fun member hmember => ?_
  cases hcand : isCandidate member with
  | false => rw [Bool.and_false, Bool.false_and]
  | true =>
    rw [Bool.and_true, Bool.true_and, Bool.eq_iff_iff, hgoes member hmember,
      ← hnormal.candidate member hmember hcand]
    simp

/-- The short form of the composite of a list that has members, which is assembled from the members
that stay. -/
theorem yields_build_assembled (hT : T.WellFormed) (hms : T.HasAll members)
    (hexpands : kind.Expands T members leaves) (hne : leaves ≠ [])
    (hrel : rel.Decides env leaves below T) :
    TypeM.Yields (kind.build rel w env members) T fun T' built =>
      ∃ kept, kind.Shortens w below T leaves.eraseDups kept built.1 built.2 T' ∧
        TypeM.Recalls (kind.assemble kept) T' built.1 := by
  have hleaves := leaves?_eq_some_iff.mpr hexpands
  have hhas := (leavesFrom?_of_le hT le_rfl _ (Nat.le_refl _) hms hleaves).2
  have hmem : ∀ t ∈ leaves.eraseDups, t ∈ leaves := fun t ht => List.mem_eraseDups.mp ht
  have hplain : ∀ T', T.GrowsTo T' →
      ∀ t ∈ leaves.eraseDups, kind.members? (T'.lookup t) = none := by
    intro T' hg t ht
    rw [TypeTable.lookup_of_le hg.le (hhas t (hmem t ht))]
    exact hexpands.members?_eq_none t (hmem t ht)
  have hnodup := nodup_eraseDups leaves
  have hnil := eraseDups_ne_nil hne
  refine .get ?_
  rw [hleaves, TypeM.ofOption, pure_bind]
  generalize leaves.eraseDups = flat at hmem hplain hnodup hnil
  obtain _ | ⟨first, _ | ⟨second, rest⟩⟩ := flat
  · exact absurd rfl hnil
  · have hstays : ∀ t ∈ [first], ¬kind.Goes below [first] t := by
      rintro t ht ⟨-, other, hother, -, habsorbs⟩
      obtain rfl := List.mem_singleton.mp ht
      obtain rfl := List.mem_singleton.mp hother
      cases kind <;> exact habsorbs.1 rfl
    have hall : kind.survivors [first] [] = [first] := by
      refine survivors_nil ?_
      rintro - ⟨u, hu, hvalue⟩
      rw [List.mem_singleton.mp hu] at hvalue
      exact List.forall_mem_singleton.mpr hvalue
    refine .pure hT ⟨_, shortens_survivors hnodup (hplain T (.refl hT)) (fun _ => false)
      (fun t ht => iff_of_false Bool.false_ne_true (hstays t ht)) (by simp)
      (fun _ hreport => by cases hreport) ?_, ?_⟩
    · exact (congrArg (kind.Denotes T first) hall).mpr rfl
    · rw [List.map_nil, hall]
      exact .pure first
  · have hdecides : rel.Decides env ((first :: second :: rest).filter isCandidate) below T :=
      hrel.mono (.refl hT) fun t ht => hmem t (List.mem_filter.mp ht).1
    refine (yields_redundancies hdecides hT).bind fun reports T₁ hg₁ hreports => ?_
    obtain ⟨⟨goes, hgoes, hremoved⟩, hreports⟩ := hreports
    refine (yields_assemble hg₁.wellFormed fun t ht => ?_).bind fun t T₂ hg₂ hdenotes =>
      .pure hg₂.wellFormed ⟨_, shortens_survivors hnodup (hplain T₂ (hg₁.trans hg₂))
        goes (fun t _ => hgoes t) hremoved hreports hdenotes.1, hdenotes.2⟩
    exact (hhas t (hmem t (mem_survivors.mp ht).1)).of_le hg₁.le

/-- The short form of the composite of a list that has members. -/
theorem yields_build (hT : T.WellFormed) (hms : T.HasAll members)
    (hexpands : kind.Expands T members leaves) (hne : leaves ≠ [])
    (hrel : rel.Decides env leaves below T) :
    TypeM.Yields (kind.build rel w env members) T fun T' built =>
      ∃ kept, kind.Shortens w below T leaves.eraseDups kept built.1 built.2 T' :=
  (yields_build_assembled hT hms hexpands hne hrel).mono fun _ _ _ ⟨kept, hkept, _⟩ => ⟨kept, hkept⟩

/-- Building the composite of a list that has members, with any relation that returns: the members
that stay are those of the normal form of the expanded members, and another list with the same set
of expanded members, built at any table, leaves the same ones. -/
theorem build_shortens (hT : T.WellFormed) (hms : T.HasAll members)
    (hexpands : kind.Expands T members leaves) (hne : leaves ≠ [])
    (hrel : rel.Decides env leaves below T) : ∃ kept t reports T',
      kind.build rel w env members T = .ok (t, reports) T' ∧
      kind.Shortens w below T leaves.eraseDups kept t reports T' ∧
      ∀ {T₁ : TypeTable} {members₁ leaves₁ : List TypeId}, T₁.WellFormed → T₁.HasAll members₁ →
        kind.Expands T₁ members₁ leaves₁ → (∀ t, t ∈ leaves₁ ↔ t ∈ leaves) →
        rel.Decides env leaves₁ below T₁ → ∃ kept₁ t₁ reports₁ T₁',
          kind.build rel w env members₁ T₁ = .ok (t₁, reports₁) T₁' ∧
          kind.Shortens w below T₁ leaves₁.eraseDups kept₁ t₁ reports₁ T₁' ∧ kept₁.Perm kept := by
  obtain ⟨⟨t, reports⟩, T', hrun, -, kept, hkept⟩ := yields_build (w := w) hT hms hexpands hne hrel
  refine ⟨kept, t, reports, T', hrun, hkept, ?_⟩
  intro T₁ members₁ leaves₁ hT₁ hms₁ hexpands₁ hsame hrel₁
  have hne₁ : leaves₁ ≠ [] := by
    rintro rfl
    exact hne (List.eq_nil_iff_forall_not_mem.mpr fun t ht => List.not_mem_nil ((hsame t).mpr ht))
  obtain ⟨⟨t₁, reports₁⟩, T₁', hrun₁, -, kept₁, hkept₁⟩ :=
    yields_build (w := w) hT₁ hms₁ hexpands₁ hne₁ hrel₁
  refine ⟨kept₁, t₁, reports₁, T₁', hrun₁, hkept₁, ?_⟩
  refine (List.perm_ext_iff_of_nodup hkept₁.nodup hkept.nodup).mpr ?_
  refine hkept.normal.mem_iff hkept₁.normal (nodup_eraseDups _) (nodup_eraseDups _) fun t => ?_
  rw [List.mem_eraseDups, List.mem_eraseDups, hsame]

/-- Three primitive types in a circle, each below the next one only. -/
def Circle (s t : TypeId) : Prop :=
  (s, t) ∈ [(TypeId.number, TypeId.string), (.string, .boolean), (.boolean, .number)]

instance : DecidableRel Circle := fun _ _ => inferInstanceAs (Decidable (_ ∈ _))

/-- A union of types that drop each other in a circle loses all of them, so `null` stays. -/
theorem build_shortens_circle : ∃ reports T',
    Composite.build (fun _ s t => pure (decide (Circle s t))) .union default .empty
      [.number, .string, .null, .boolean] .initial = .ok (.null, reports) T' ∧
    reports.map (·.removed) = [.number, .string, .boolean] := by
  have hexpands : Composite.Expands .union .initial [.number, .string, .null, .boolean]
      [.number, .string, .null, .boolean] :=
    .leaf rfl (.leaf rfl (.leaf rfl (.leaf rfl .nil)))
  obtain ⟨kept, t, reports, T', hrun, h, -⟩ := build_shortens (w := default)
    TypeTable.wellFormed_initial (by decide) hexpands (by decide)
    (TypeRelation.decides_pure Circle _)
  have hflat : [TypeId.number, .string, .null, .boolean].eraseDups =
    [.number, .string, .null, .boolean] := by decide
  rw [hflat] at h
  have hgone : ∀ t ∈ [TypeId.number, .string, .boolean], t ∉ kept := by
    intro t ht
    refine (h.normal.candidate t ?_ ?_).mpr ⟨by decide, ?_⟩ <;> revert t
    · decide
    · decide
    · simp only [Absorbs]
      decide
  have honly : ∀ u ∈ kept, u = .null := by
    intro u hu
    have hmem := h.normal.sublist.subset hu
    simp only [List.mem_cons, List.not_mem_nil, or_false] at hmem hgone
    grind
  have hnull : .null ∈ kept := by
    by_contra hnot
    obtain ⟨-, u, hu, hvalue⟩ := (h.normal.nullish .null (by decide) rfl).mp hnot
    rw [honly u hu] at hvalue
    cases hvalue
  obtain rfl : kept = [.null] := List.perm_singleton.mp
    ((List.perm_ext_iff_of_nodup h.nodup (by decide)).mpr fun u =>
      ⟨fun hu => List.mem_singleton.mpr (honly u hu), fun hu => List.mem_singleton.mp hu ▸ hnull⟩)
  obtain rfl : t = .null := h.denotes
  exact ⟨reports, T', hrun, h.removed⟩

end Composite

end ScriptTyping
