import ScriptTyping.Proofs.Subtyping.Unfolding

/-!
# Members and their composites

One expects a member of a union to be below the union, and an intersection to be below its members.
The subtype rules take the pair apart in a fixed order, and this order does not always come back to
comparing the member with itself:

* a member `any` is refused before the union is looked at;
* a member that is an alias is replaced by what it stands for, which is then compared with the
  alias, and many types are not found to be below themselves when they are not the same handle;
* an intersection with a member that is a union is compared with the members of that union.

Everything else is fine, at any depth of nesting.  The exact conditions are given here.

## Main definitions

* `Subtyping.Nests` — what is reached from a type through members of composites of one kind.
* `Subtyping.Introduced`, `Subtyping.Eliminated` — the exact conditions.

## Main results

* `Subtyping.holds_union_of_mem_iff`, `Subtyping.holds_intersection_of_mem_iff` — when a member is
  below its union, and an intersection below its member.
* `Subtyping.isSubtype_of_mem_iff` — the answers of the query.
-/

namespace ScriptTyping

theorem TypeData.eq_union {data : TypeData} {ms : List TypeId} (h : data.unionMembers? = some ms) :
    data = .union ms := by
  cases data <;> cases h
  rfl

theorem TypeData.eq_intersection {data : TypeData} {ms : List TypeId}
    (h : data.intersectionMembers? = some ms) : data = .intersection ms := by
  cases data <;> cases h
  rfl

namespace Subtyping

variable {w : World} {T : TypeTable} {m x x' y u i : TypeId} {ms : List TypeId}

/-- The second type is reached from the first through members of composites of the kind, aliases
being expanded; the walk does not go on from `stop`. -/
inductive Nests (kind : Composite) (w : World) (T : TypeTable) (stop t : TypeId) : TypeId → Prop
  | refl : Nests kind w T stop t t
  | member {x x' y : TypeId} {xs : List TypeId} (hx : Nests kind w T stop t x) (hne : x ≠ stop)
      (hexpand : w.resolveAlias x T = .ok x' T) (hxs : kind.members? (T.lookup x') = some xs)
      (hy : y ∈ xs) : Nests kind w T stop t y

/-- The table holds the expansions of all that is reached. -/
def Expanded (kind : Composite) (w : World) (T : TypeTable) (stop t : TypeId) : Prop :=
  ∀ x, Nests kind w T stop t x → ∃ x', w.resolveAlias x T = .ok x' T

/-- The member of the union `u` of `ms` nests neither `any` nor an alias whose expansion is below no
member. -/
def Introduced (w : World) (T : TypeTable) (u : TypeId) (ms : List TypeId) (m : TypeId) : Prop :=
  ∀ x x', Nests .union w T u m x → w.resolveAlias x T = .ok x' T →
    Composite.members? .union (T.lookup x') = none →
    x ≠ .any ∧ (x' = x ∨ ∃ y ∈ ms, Holds w T x' y)

/-- The member of the intersection `i` of `ms` nests neither a union of which no member is above the
intersection nor an alias whose expansion is above no member. -/
def Eliminated (w : World) (T : TypeTable) (i : TypeId) (ms : List TypeId) (m : TypeId) : Prop :=
  ∀ x x', Nests .intersection w T i m x → w.resolveAlias x T = .ok x' T →
    Composite.members? .intersection (T.lookup x') = none →
    match Composite.members? .union (T.lookup x') with
    | some xs => ∃ y ∈ xs, Holds w T i y
    | none => x' = x ∨ ∃ k ∈ ms, Holds w T k x'

/-! ### Members of a union -/

section Union

variable {R : PairRelation} {xs : List TypeId} (hinit : .initial ≤ T)

include hinit

/-- A type that expands to a union is taken apart before a union on the right. -/
theorem step_union_union (hu : Composite.members? .union (T.lookup u) = some ms)
    (hx : w.resolveAlias x T = .ok x' T)
    (hxs : Composite.members? .union (T.lookup x') = some xs) :
    Step w R T x u ↔ ∀ y ∈ xs, R T y u := by
  have hself : w.resolveAlias u T = .ok u T := resolveAlias_of_members? hu
  refine step_union_left ?_ hx hself (TypeData.eq_union hxs)
  exact sentinel?_of_reserved_le (reserved_le_of_members? hinit hx hxs)
    (reserved_le_of_members? hinit hself hu)

/-- Another type is below a union if it is a bottom type, or below a member without being `any`. -/
theorem step_plain_union (hu : Composite.members? .union (T.lookup u) = some ms)
    (hx : w.resolveAlias x T = .ok x' T)
    (hplain : Composite.members? .union (T.lookup x') = none) :
    Step w R T x u ↔ x ∈ bottoms ∨ x ≠ .any ∧ ∃ y ∈ ms, R T x' y := by
  have hself : w.resolveAlias u T = .ok u T := resolveAlias_of_members? hu
  have hsentinel := sentinel?_of_reserved_le_right (s := x) (reserved_le_of_members? hinit hself hu)
  by_cases hbottom : x ∈ bottoms
  · rw [if_pos hbottom] at hsentinel
    exact iff_of_true ((step_iff_verdict (plan_of_sentinel hsentinel)).mpr rfl) (.inl hbottom)
  rw [if_neg hbottom] at hsentinel
  by_cases hany : x = .any
  · rw [if_pos hany] at hsentinel
    rw [step_iff_verdict (plan_of_sentinel hsentinel)]
    exact iff_of_false Bool.false_ne_true fun h => h.elim hbottom fun h => h.1 hany
  · rw [if_neg hany] at hsentinel
    rw [step_union_right hsentinel hx hself hplain (TypeData.eq_union hu)]
    simp [hbottom, hany]

/-- A type that is its own expansion and neither a union nor `any` is below everything from which it
is reached through unions. -/
theorem holds_of_nests {z : TypeId} (hz : w.resolveAlias z T = .ok z T)
    (hplain : Composite.members? .union (T.lookup z) = none) (hany : z ≠ .any)
    (hx : Nests .union w T u m x) (h : Holds w T z x) : Holds w T z m := by
  induction hx with
  | refl => exact h
  | @member x x' y xs _ _ hexpand hxs hy ih =>
    refine ih (holds_iff.mpr (.inr ?_))
    have hle := reserved_le_of_members? hinit hexpand hxs
    cases hsentinel : sentinel? z x with
    | some b =>
      refine (step_iff_verdict (plan_of_sentinel hsentinel)).mpr ?_
      rw [sentinel?_of_reserved_le_right hle, if_neg hany] at hsentinel
      split at hsentinel <;> cases hsentinel
      rfl
    | none =>
      exact (step_union_right hsentinel hz hexpand hplain (TypeData.eq_union hxs)).mpr ⟨y, hy, h⟩

/-- When a member is below its union. -/
theorem holds_union_of_mem_iff (hu : Composite.members? .union (T.lookup u) = some ms) (hm : m ∈ ms)
    (hstored : Expanded .union w T u m) : Holds w T m u ↔ Introduced w T u ms m := by
  constructor
  · intro h x x' hx hexpand hplain
    -- What is reached is below the union, since unions on the left are taken apart first.
    have hbelow : Holds w T x u := by
      clear hexpand hplain
      induction hx with
      | refl => exact h
      | member _ hne hexpand hxs hy ih =>
        have hstep := (holds_iff.mp ih).resolve_left hne
        exact (step_union_union hinit hu hexpand hxs).mp hstep _ hy
    have hne : x ≠ u := by
      rintro rfl
      cases (resolveAlias_of_members? hu).symm.trans hexpand
      rw [hu] at hplain
      cases hplain
    have hstep := (holds_iff.mp hbelow).resolve_left hne
    rcases (step_plain_union hinit hu hexpand hplain).mp hstep with hbottom | ⟨hany, hsome⟩
    · obtain ⟨hreserved, hany⟩ := reserved_of_mem_bottoms x hbottom
      cases (resolveAlias_of_reserved hinit hreserved).symm.trans hexpand
      exact ⟨hany, .inl rfl⟩
    · exact ⟨hany, .inr hsome⟩
  · intro hleaves
    refine holds_of_step (Q := fun x y => Nests .union w T u m x ∧ u = y) ?_ ⟨.refl, rfl⟩
    rintro x _ ⟨hx, rfl⟩
    by_cases heq : x = u
    · exact .inl heq
    refine .inr ?_
    obtain ⟨x', hexpand⟩ := hstored x hx
    cases hxs : Composite.members? .union (T.lookup x') with
    | some xs =>
      refine (step_union_union hinit hu hexpand hxs).mpr fun y hy => ?_
      exact .inl ⟨rfl, .member hx heq hexpand hxs hy, rfl⟩
    | none =>
      obtain ⟨hany, hleaf⟩ := hleaves x x' hx hexpand hxs
      refine (step_plain_union hinit hu hexpand hxs).mpr (.inr ⟨hany, ?_⟩)
      rcases hleaf with rfl | ⟨y, hy, hbelow⟩
      · exact ⟨m, hm, .inr (holds_of_nests hinit hexpand hxs hany hx (holds_refl x'))⟩
      · exact ⟨y, hy, .inr hbelow⟩

end Union

/-! ### Intersections and their members -/

section Intersection

variable {R : PairRelation} {xs : List TypeId} (hinit : .initial ≤ T)

include hinit

/-- An intersection on the right is taken apart before one on the left. -/
theorem step_intersection_intersection
    (hi : Composite.members? .intersection (T.lookup i) = some ms)
    (hx : w.resolveAlias x T = .ok x' T)
    (hxs : Composite.members? .intersection (T.lookup x') = some xs) :
    Step w R T i x ↔ ∀ y ∈ xs, R T i y := by
  have hself : w.resolveAlias i T = .ok i T := resolveAlias_of_members? hi
  refine step_intersection_right ?_ hself hx ?_ (TypeData.eq_intersection hxs)
  · exact sentinel?_of_reserved_le (reserved_le_of_members? hinit hself hi)
      (reserved_le_of_members? hinit hx hxs)
  · rw [TypeData.eq_intersection hi]
    rfl

/-- So is a union on the right. -/
theorem step_intersection_union
    (hi : Composite.members? .intersection (T.lookup i) = some ms)
    (hx : w.resolveAlias x T = .ok x' T)
    (hxs : Composite.members? .union (T.lookup x') = some xs) :
    Step w R T i x ↔ ∃ y ∈ xs, R T i y := by
  have hself : w.resolveAlias i T = .ok i T := resolveAlias_of_members? hi
  refine step_union_right ?_ hself hx ?_ (TypeData.eq_union hxs)
  · exact sentinel?_of_reserved_le (reserved_le_of_members? hinit hself hi)
      (reserved_le_of_members? hinit hx hxs)
  · rw [TypeData.eq_intersection hi]
    rfl

/-- Another type is above an intersection if it is a top type or above a member. -/
theorem step_intersection_plain
    (hi : Composite.members? .intersection (T.lookup i) = some ms)
    (hx : w.resolveAlias x T = .ok x' T)
    (hplain : ∀ kind : Composite, kind.members? (T.lookup x') = none) :
    Step w R T i x ↔ x ∈ tops ∨ ∃ k ∈ ms, R T k x' := by
  have hself : w.resolveAlias i T = .ok i T := resolveAlias_of_members? hi
  have hsentinel := sentinel?_of_reserved_le_left (t := x) (reserved_le_of_members? hinit hself hi)
  by_cases htop : x ∈ tops
  · rw [if_pos htop] at hsentinel
    exact iff_of_true ((step_iff_verdict (plan_of_sentinel hsentinel)).mpr rfl) (.inl htop)
  · rw [if_neg htop] at hsentinel
    rw [step_intersection_left hsentinel hself hx (TypeData.eq_intersection hi) (hplain .union)
      (hplain .intersection)]
    simp [htop]

/-- A type that is its own expansion and no composite is above everything from which it is reached
through intersections. -/
theorem holds_of_nests_left {z : TypeId} (hz : w.resolveAlias z T = .ok z T)
    (hplain : ∀ kind : Composite, kind.members? (T.lookup z) = none)
    (hx : Nests .intersection w T i m x) (h : Holds w T x z) : Holds w T m z := by
  induction hx with
  | refl => exact h
  | @member x x' y xs _ _ hexpand hxs hy ih =>
    refine ih (holds_iff.mpr (.inr ?_))
    have hsentinel := sentinel?_of_reserved_le_left (t := z)
      (reserved_le_of_members? hinit hexpand hxs)
    split at hsentinel
    · exact (step_iff_verdict (plan_of_sentinel hsentinel)).mpr rfl
    · exact (step_intersection_left hsentinel hexpand hz (TypeData.eq_intersection hxs)
        (hplain .union) (hplain .intersection)).mpr ⟨y, hy, h⟩

/-- When an intersection is below its member. -/
theorem holds_intersection_of_mem_iff
    (hi : Composite.members? .intersection (T.lookup i) = some ms) (hm : m ∈ ms)
    (hstored : Expanded .intersection w T i m) :
    Holds w T i m ↔ Eliminated w T i ms m := by
  constructor
  · intro h x x' hx hexpand hplain
    have habove : Holds w T i x := by
      clear hexpand hplain
      induction hx with
      | refl => exact h
      | member _ hne hexpand hxs hy ih =>
        have hstep := (holds_iff.mp ih).resolve_left (Ne.symm hne)
        exact (step_intersection_intersection hinit hi hexpand hxs).mp hstep _ hy
    have hne : i ≠ x := by
      rintro rfl
      cases (resolveAlias_of_members? hi).symm.trans hexpand
      rw [hi] at hplain
      cases hplain
    have hstep := (holds_iff.mp habove).resolve_left hne
    cases hxs : Composite.members? .union (T.lookup x') with
    | some xs => exact (step_intersection_union hinit hi hexpand hxs).mp hstep
    | none =>
      rcases (step_intersection_plain hinit hi hexpand (by rintro ⟨⟩ <;> assumption)).mp hstep with
        htop | hsome
      · cases (resolveAlias_of_reserved hinit (reserved_of_mem_tops x htop)).symm.trans hexpand
        exact .inl rfl
      · exact .inr hsome
  · intro hleaves
    refine holds_of_step (Q := fun y x => Nests .intersection w T i m x ∧ i = y) ?_ ⟨.refl, rfl⟩
    rintro _ x ⟨hx, rfl⟩
    by_cases heq : i = x
    · exact .inl heq
    refine .inr ?_
    obtain ⟨x', hexpand⟩ := hstored x hx
    cases hxs : Composite.members? .intersection (T.lookup x') with
    | some xs =>
      refine (step_intersection_intersection hinit hi hexpand hxs).mpr fun y hy => ?_
      exact .inl ⟨rfl, .member hx (Ne.symm heq) hexpand hxs hy, rfl⟩
    | none =>
      have hleaf := hleaves x x' hx hexpand hxs
      cases hunion : Composite.members? .union (T.lookup x') with
      | some xs =>
        rw [hunion] at hleaf
        obtain ⟨y, hy, habove⟩ := hleaf
        exact (step_intersection_union hinit hi hexpand hunion).mpr ⟨y, hy, .inr habove⟩
      | none =>
        rw [hunion] at hleaf
        have hplain : ∀ kind : Composite, kind.members? (T.lookup x') = none := by
          rintro ⟨⟩ <;> assumption
        refine (step_intersection_plain hinit hi hexpand hplain).mpr (.inr ?_)
        rcases hleaf with rfl | ⟨k, hk, habove⟩
        · exact ⟨m, hm, .inr (holds_of_nests_left hinit hexpand hplain hx (holds_refl x'))⟩
        · exact ⟨k, hk, .inr habove⟩

end Intersection

/-! ### The query -/

theorem isSubtype_of_run {b : Bool} {guard : PairGuard} {T' : TypeTable} {s t : TypeId}
    (h : run w s t T = .ok (b, guard) T') : w.isSubtype .empty s t T = .ok b T' :=
  TypeM.bind_eq_ok.mpr ⟨s, T, rfl, TypeM.bind_eq_ok.mpr ⟨t, T, rfl,
    TypeM.bind_eq_ok.mpr ⟨(b, guard), T', h, rfl⟩⟩⟩

/-- Within the limits the query decides the subtype relation. -/
theorem run_iff_holds {b : Bool} {guard : PairGuard} {T' Tₑ : TypeTable} {s t : TypeId}
    (hT : T.WellFormed) (hw : w.Within T) (hst : PairWithin T (s, t))
    (hrun : run w s t T = .ok (b, guard) T') (hlimits : guard.exceeded = false) (hle : T' ≤ Tₑ) :
    b = true ↔ Holds w Tₑ s t := by
  cases b with
  | true => exact iff_of_true rfl (holds_of_check hT hw hst rfl hrun hle)
  | false =>
    refine iff_of_false Bool.false_ne_true ?_
    refine not_holds_of_check _ hT hw hst (Nat.zero_le _) ?_ hrun hle hlimits
    simp [RecursionGuard.ofProfile, RecursionGuard.fresh]

/-- A composite and its members belong to the table. -/
theorem has_composite {kind : Composite} {t : TypeId} (hT : T.WellFormed)
    (h : kind.members? (T.lookup t) = some ms) (hm : m ∈ ms) : T.Has t ∧ T.Has m := by
  refine ⟨TypeTable.has_of_lookup_ne fun hunknown => ?_, ?_⟩
  · rw [hunknown] at h
    cases kind <;> cases h
  · have hparts := hT.hasAll_parts t
    cases kind with
    | union =>
      rw [TypeData.eq_union h] at hparts
      exact hparts m hm
    | intersection =>
      rw [TypeData.eq_intersection h] at hparts
      exact hparts m hm

/-- A query about a member and its composite, within the limits: the member of a union is found to
be below it, and an intersection below its member, exactly under the conditions above.  They are
read at any later table that holds the expansions of the aliases that are nested. -/
theorem isSubtype_of_mem_iff (hT : T.WellFormed) (hinit : .initial ≤ T) (hw : w.Within T)
    (hm : m ∈ ms) :
    (∀ {u b guard T' Tₑ}, T.lookup u = .union ms → run w m u T = .ok (b, guard) T' →
      guard.exceeded = false → T' ≤ Tₑ → Expanded .union w Tₑ u m →
      w.isSubtype .empty m u T = .ok b T' ∧ (b = true ↔ Introduced w Tₑ u ms m)) ∧
    (∀ {i b guard T' Tₑ}, T.lookup i = .intersection ms → run w i m T = .ok (b, guard) T' →
      guard.exceeded = false → T' ≤ Tₑ → Expanded .intersection w Tₑ i m →
      w.isSubtype .empty i m T = .ok b T' ∧ (b = true ↔ Eliminated w Tₑ i ms m)) := by
  constructor
  · intro u b guard T' Tₑ hu hrun hlimits hle hexpanded
    have hmembers : Composite.members? .union (T.lookup u) = some ms := by
      rw [hu]
      rfl
    obtain ⟨hhasu, hhasm⟩ := has_composite hT hmembers hm
    obtain ⟨hg, -, -⟩ := stable_run hT hw hhasm hhasu _ _ hrun
    have hlater := le_trans hg.le hle
    rw [← TypeTable.lookup_of_le hlater hhasu] at hmembers
    refine ⟨isSubtype_of_run hrun, ?_⟩
    rw [run_iff_holds hT hw ⟨hhasm, hhasu⟩ hrun hlimits hle]
    exact holds_union_of_mem_iff (le_trans hinit hlater) hmembers hm hexpanded
  · intro i b guard T' Tₑ hi hrun hlimits hle hexpanded
    have hmembers : Composite.members? .intersection (T.lookup i) = some ms := by
      rw [hi]
      rfl
    obtain ⟨hhasi, hhasm⟩ := has_composite hT hmembers hm
    obtain ⟨hg, -, -⟩ := stable_run hT hw hhasi hhasm _ _ hrun
    have hlater := le_trans hg.le hle
    rw [← TypeTable.lookup_of_le hlater hhasi] at hmembers
    refine ⟨isSubtype_of_run hrun, ?_⟩
    rw [run_iff_holds hT hw ⟨hhasi, hhasm⟩ hrun hlimits hle]
    exact holds_intersection_of_mem_iff (le_trans hinit hlater) hmembers hm hexpanded

/-- A table with a union in a union, and an intersection in an intersection. -/
def nestedTable : TypeTable :=
  (((TypeTable.initial.store (.union [.number])).store (.union [⟨16⟩, .boolean])).store
    (.intersection [.number])).store (.intersection [⟨18⟩, .boolean])

theorem wellFormed_nestedTable : nestedTable.WellFormed :=
  TypeTable.wellFormed_store (TypeTable.wellFormed_store (TypeTable.wellFormed_store
    (TypeTable.wellFormed_store TypeTable.wellFormed_initial (by decide)) (by decide)) (by decide))
    (by decide)

theorem initial_le_nestedTable : .initial ≤ nestedTable := by
  refine le_trans (TypeTable.le_store ?_) (le_trans (TypeTable.le_store ?_)
    (le_trans (TypeTable.le_store ?_) (TypeTable.le_store ?_)))
  all_goals
    repeat rw [TypeTable.handles_store_of_ne (by decide)]
    exact TypeTable.handles_initial_of_ne (by decide)

/-- The nested composites are below and above the outer ones. -/
theorem isSubtype_of_mem_iff_nested :
    Introduced default nestedTable ⟨17⟩ [⟨16⟩, .boolean] ⟨16⟩ ∧
      Eliminated default nestedTable ⟨19⟩ [⟨18⟩, .boolean] ⟨18⟩ := by
  have hT := wellFormed_nestedTable
  have hinit := initial_le_nestedTable
  have hw : World.Within default nestedTable := World.within_of_entries (by decide) (by decide)
  -- There are no declarations, hence no aliases.
  have hexpanded (kind : Composite) (stop t : TypeId) :
      Expanded kind default nestedTable stop t := by
    refine fun x _ => ⟨x, resolveAlias_of_not_alias ?_⟩
    rintro ⟨decl, args, -, hkind⟩
    obtain ⟨_ | index⟩ := decl <;> cases hkind
  let guard : PairGuard := { RecursionGuard.ofProfile .subtypeCheck with iterations := 3 }
  have hunion : run default ⟨16⟩ ⟨17⟩ nestedTable = .ok (true, guard) nestedTable := rfl
  have hinter : run default ⟨19⟩ ⟨18⟩ nestedTable = .ok (true, guard) nestedTable := rfl
  constructor
  · exact ((isSubtype_of_mem_iff hT hinit hw (List.mem_cons_self ..)).1 rfl hunion rfl le_rfl
      (hexpanded _ _ _)).2.mp rfl
  · exact ((isSubtype_of_mem_iff hT hinit hw (List.mem_cons_self ..)).2 rfl hinter rfl le_rfl
      (hexpanded _ _ _)).2.mp rfl

/-- A union is not found to be above its member `any`. -/
example :
    let T := TypeTable.initial.store (.union [.any, .number])
    World.isSubtype default .empty .any ⟨16⟩ T = .ok false T := rfl

/-- An intersection is not found to be below its member that is a union. -/
example :
    let T := (TypeTable.initial.store (.union [.number, .string])).store (.intersection [⟨16⟩])
    (World.isSubtype default .empty ⟨17⟩ ⟨16⟩ T matches .ok false _) = true := by
  decide +kernel

end Subtyping

end ScriptTyping
