import Mathlib.Data.Finset.Card
import Mathlib.Data.Finset.Lattice.Fold
import Mathlib.Data.Nat.Find
import ScriptTyping.Proofs.Lattice.Simplification

/-!
# Expanding nested composites

Nested composites of one kind are expanded with as much fuel as the table has rows.  Here the
expanded members are described without fuel, by an inductive relation, and the two descriptions are
shown to agree at every table: if a list has an expansion at all, no chain of nested composites in
it is longer than the table, because each composite of the chain needs a different amount of fuel.

## Main definitions

* `Composite.Expands` — the members of a list with nested composites expanded.

## Main results

* `Composite.exists_expands` — every list has an expansion where rows mention earlier handles only.
* `Composite.leaves?_eq_some_iff` — the fuel suffices for every list that has an expansion.
-/

namespace ScriptTyping.Composite

/-- The second list holds the members of the first with nested composites of the kind expanded. -/
inductive Expands (kind : Composite) (T : TypeTable) : List TypeId → List TypeId → Prop
  | nil : Expands kind T [] []
  | leaf {t : TypeId} {ts leaves : List TypeId} (ht : kind.members? (T.lookup t) = none)
      (hts : Expands kind T ts leaves) : Expands kind T (t :: ts) (t :: leaves)
  | nested {t : TypeId} {members ts inner leaves : List TypeId}
      (ht : kind.members? (T.lookup t) = some members) (hmembers : Expands kind T members inner)
      (hts : Expands kind T ts leaves) : Expands kind T (t :: ts) (inner ++ leaves)

variable {kind : Composite} {T : TypeTable} {members leaves : List TypeId}

/-- No expanded member is a composite of the kind. -/
theorem Expands.members?_eq_none (h : kind.Expands T members leaves) :
    ∀ t ∈ leaves, kind.members? (T.lookup t) = none := by
  induction h with
  | nil => exact fun _ ht => by cases ht
  | leaf ht _ ih => exact List.forall_mem_cons.mpr ⟨ht, ih⟩
  | nested _ _ _ ihmembers ihts =>
    intro t ht
    rcases List.mem_append.mp ht with ht | ht
    · exact ihmembers t ht
    · exact ihts t ht

theorem has_of_members? {t : TypeId} (h : kind.members? (T.lookup t) = some members) :
    T.Has t := by
  by_contra hnot
  have hnone : T.lookup? t = none := Array.getElem?_eq_none (Nat.le_of_not_lt hnot)
  rw [TypeTable.lookup, hnone] at h
  cases kind <;> cases h

theorem parts_of_members? {data : TypeData} (h : kind.members? data = some members) :
    data.parts = members := by
  cases kind <;> cases data <;> cases h <;> rfl

theorem union_of_members? {data : TypeData} (h : union.members? data = some members) :
    data = .union members := by
  cases data <;> cases h
  rfl

/-- Where rows mention earlier handles only, every list has an expansion. -/
theorem exists_expands (hT : T.Descending) (members : List TypeId) :
    ∃ leaves, kind.Expands T members leaves := by
  -- The induction is on a bound of the handles in the list, and then on the list.
  suffices h : ∀ (bound : Nat) (members : List TypeId), (∀ t ∈ members, t.index < bound) →
      ∃ leaves, kind.Expands T members leaves from by
    refine h (members.toFinset.sup TypeId.index + 1) members fun t ht => Nat.lt_succ_of_le ?_
    exact Finset.le_sup (List.mem_toFinset.mpr ht)
  intro bound
  induction bound with
  | zero =>
    intro members h
    obtain rfl := List.eq_nil_iff_forall_not_mem.mpr fun t ht => Nat.not_lt_zero _ (h t ht)
    exact ⟨[], .nil⟩
  | succ bound ihbound =>
    intro members
    induction members with
    | nil => exact fun _ => ⟨[], .nil⟩
    | cons t ts ih =>
      intro h
      obtain ⟨ht, hts⟩ := List.forall_mem_cons.mp h
      obtain ⟨leaves, hleaves⟩ := ih hts
      cases hm : kind.members? (T.lookup t) with
      | none => exact ⟨t :: leaves, .leaf hm hleaves⟩
      | some nested =>
        have hparts := hT t _ (has_of_members? hm).lookup?
        rw [parts_of_members? hm] at hparts
        obtain ⟨inner, hinner⟩ := ihbound nested fun s hs => by
          have := hparts s hs
          omega
        exact ⟨inner ++ leaves, .nested hm hinner hleaves⟩

/-! ### Fuel -/

theorem expand_of_none {fuel : Nat} {t : TypeId} (h : kind.members? (T.lookup t) = none) :
    expand kind T fuel t = some [t] := by
  rw [expand, h]

theorem expand_of_some {fuel : Nat} {t : TypeId} (h : kind.members? (T.lookup t) = some members) :
    expand kind T fuel t = kind.leavesFrom? T fuel members := by
  rw [expand, h]

theorem leavesFrom?_zero_of_forall (h : ∀ t ∈ members, kind.members? (T.lookup t) = none) :
    kind.leavesFrom? T 0 members = some members := by
  rw [leavesFrom?, if_neg]
  intro hany
  obtain ⟨t, ht, hsome⟩ := List.any_eq_true.mp hany
  rw [h t ht] at hsome
  cases hsome

/-- With further fuel a list is expanded member by member. -/
theorem leavesFrom?_succ_cons (fuel : Nat) (t : TypeId) (ts : List TypeId) :
    kind.leavesFrom? T (fuel + 1) (t :: ts) =
      (expand kind T fuel t).bind fun inner =>
        (kind.leavesFrom? T (fuel + 1) ts).bind fun leaves => some (inner ++ leaves) := by
  rw [leavesFrom?_succ, leavesFrom?_succ, List.mapM_cons]
  cases expand kind T fuel t with
  | none => rfl
  | some inner =>
    cases ts.mapM (expand kind T fuel) with
    | none => rfl
    | some expanded => rfl

theorem expands_of_leavesFrom? (fuel : Nat) : ∀ {members leaves : List TypeId},
    kind.leavesFrom? T fuel members = some leaves → kind.Expands T members leaves := by
  induction fuel with
  | zero =>
    intro members leaves h
    have hplain := members?_of_mem_leavesFrom? 0 h
    rw [leavesFrom?] at h
    split at h
    · cases h
    obtain rfl := Option.some.inj h
    clear h
    induction members with
    | nil => exact .nil
    | cons t ts ih =>
      obtain ⟨ht, hts⟩ := List.forall_mem_cons.mp hplain
      exact .leaf ht (ih (by simp_all) hts)
  | succ fuel ih =>
    intro members
    induction members with
    | nil =>
      intro leaves h
      obtain rfl : [] = leaves := Option.some.inj h
      exact .nil
    | cons t ts ihts =>
      intro leaves h
      rw [leavesFrom?_succ_cons] at h
      obtain ⟨inner, hinner, h⟩ := Option.bind_eq_some_iff.mp h
      obtain ⟨rest, hrest, h⟩ := Option.bind_eq_some_iff.mp h
      obtain rfl := Option.some.inj h
      cases ht : kind.members? (T.lookup t) with
      | none =>
        rw [expand_of_none ht] at hinner
        obtain rfl := Option.some.inj hinner
        exact .leaf ht (ihts hrest)
      | some nested =>
        rw [expand_of_some ht] at hinner
        exact .nested ht (ih hinner) (ihts hrest)

/-- A list has one expansion at most. -/
theorem Expands.unique (h : kind.Expands T members leaves) :
    ∀ {leaves' : List TypeId}, kind.Expands T members leaves' → leaves = leaves' := by
  induction h with
  | nil =>
    intro leaves' h'
    cases h'
    rfl
  | leaf ht _ ih =>
    intro leaves' h'
    cases h' with
    | leaf _ hts' => rw [ih hts']
    | nested ht' _ _ =>
      rw [ht] at ht'
      cases ht'
  | nested ht _ _ ihmembers ihts =>
    intro leaves' h'
    cases h' with
    | leaf ht' _ =>
      rw [ht] at ht'
      cases ht'
    | nested ht' hmembers' hts' =>
      obtain rfl := Option.some.inj (ht.symm.trans ht')
      rw [ihmembers hmembers', ihts hts']

/-! ### The amount of fuel that is enough -/

/-- The fuel is enough to expand the members. -/
def Suffices (kind : Composite) (T : TypeTable) (fuel : Nat) (members : List TypeId) : Prop :=
  ∃ leaves, kind.leavesFrom? T fuel members = some leaves

theorem suffices_zero : kind.Suffices T 0 members ↔
    ∀ t ∈ members, kind.members? (T.lookup t) = none := by
  constructor
  · rintro ⟨leaves, h⟩
    have hplain := members?_of_mem_leavesFrom? 0 h
    rw [leavesFrom?] at h
    split at h
    · cases h
    · obtain rfl := Option.some.inj h
      exact hplain
  · exact fun h => ⟨members, leavesFrom?_zero_of_forall h⟩

/-- One unit of fuel goes into each level of nesting. -/
theorem suffices_succ {fuel : Nat} : kind.Suffices T (fuel + 1) members ↔
    ∀ t ∈ members, ∀ nested, kind.members? (T.lookup t) = some nested →
      kind.Suffices T fuel nested := by
  induction members with
  | nil => simp [Suffices, leavesFrom?_succ]
  | cons t ts ih =>
    rw [List.forall_mem_cons, ← ih]
    constructor
    · rintro ⟨leaves, h⟩
      rw [leavesFrom?_succ_cons] at h
      obtain ⟨inner, hinner, h⟩ := Option.bind_eq_some_iff.mp h
      obtain ⟨rest, hrest, -⟩ := Option.bind_eq_some_iff.mp h
      exact ⟨fun nested ht => ⟨inner, by rwa [expand_of_some ht] at hinner⟩, rest, hrest⟩
    · rintro ⟨ht, rest, hrest⟩
      obtain ⟨inner, hinner⟩ : ∃ inner, expand kind T fuel t = some inner := by
        cases hm : kind.members? (T.lookup t) with
        | none => exact ⟨[t], expand_of_none hm⟩
        | some nested =>
          rw [expand_of_some hm]
          exact ht nested hm
      exact ⟨inner ++ rest, by rw [leavesFrom?_succ_cons, hinner, hrest]; rfl⟩

theorem Suffices.mono {fuel fuel' : Nat} (hfuel : fuel ≤ fuel')
    (h : kind.Suffices T fuel members) : kind.Suffices T fuel' members := by
  induction fuel generalizing fuel' members with
  | zero =>
    cases fuel' with
    | zero => exact h
    | succ fuel' =>
      refine suffices_succ.mpr fun t ht nested hnested => ?_
      rw [suffices_zero.mp h t ht] at hnested
      cases hnested
  | succ fuel ih =>
    obtain ⟨fuel', rfl⟩ : ∃ k, fuel' = k + 1 := ⟨fuel' - 1, by omega⟩
    exact suffices_succ.mpr fun t ht nested hnested =>
      ih (by omega) (suffices_succ.mp h t ht nested hnested)

/-- Every list with an expansion has enough of some amount of fuel. -/
theorem Expands.exists_suffices (h : kind.Expands T members leaves) :
    ∃ fuel, kind.Suffices T fuel members := by
  induction h with
  | nil => exact ⟨0, suffices_zero.mpr fun _ h => by cases h⟩
  | leaf ht _ ih =>
    obtain ⟨fuel, hfuel⟩ := ih
    refine ⟨fuel + 1, suffices_succ.mpr (List.forall_mem_cons.mpr ⟨fun nested hnested => ?_,
      suffices_succ.mp (hfuel.mono (Nat.le_succ _))⟩)⟩
    rw [ht] at hnested
    cases hnested
  | nested ht _ _ ihmembers ihts =>
    obtain ⟨m, hm⟩ := ihmembers
    obtain ⟨n, hn⟩ := ihts
    refine ⟨max m n + 1, suffices_succ.mpr (List.forall_mem_cons.mpr ⟨fun nested hnested => ?_,
      suffices_succ.mp (hn.mono (by omega))⟩)⟩
    obtain rfl := Option.some.inj (ht.symm.trans hnested)
    exact hm.mono (by omega)

/-- If fuel runs out at the last moment, that many composites are nested in each other.  The new one
of each level differs from those inside it, which need less fuel. -/
theorem exists_chain (fuel : Nat) : ∀ {members : List TypeId},
    kind.Suffices T (fuel + 1) members → ¬kind.Suffices T fuel members →
    ∃ chain : Finset Nat, chain.card = fuel + 1 ∧ ∀ i ∈ chain, i < T.rows.size ∧
      ∃ nested, kind.members? (T.lookup ⟨i⟩) = some nested ∧ kind.Suffices T fuel nested := by
  induction fuel with
  | zero =>
    intro members h hnot
    simp only [suffices_zero, not_forall] at hnot
    obtain ⟨t, ht, hsome⟩ := hnot
    obtain ⟨nested, hnested⟩ := Option.ne_none_iff_exists'.mp hsome
    refine ⟨{t.index}, rfl, fun i hi => ?_⟩
    obtain rfl := Finset.mem_singleton.mp hi
    exact ⟨has_of_members? hnested, nested, hnested, suffices_succ.mp h t ht nested hnested⟩
  | succ fuel ih =>
    intro members h hnot
    rw [suffices_succ] at hnot
    simp only [not_forall] at hnot
    obtain ⟨t, ht, nested, hnested, hinner⟩ := hnot
    have henough := suffices_succ.mp h t ht nested hnested
    obtain ⟨chain, hcard, hchain⟩ := ih henough hinner
    refine ⟨insert t.index chain, ?_, fun i hi => ?_⟩
    · rw [Finset.card_insert_of_notMem, hcard]
      intro hmem
      obtain ⟨-, nested', hnested', henough'⟩ := hchain _ hmem
      obtain rfl := Option.some.inj (hnested.symm.trans hnested')
      exact hinner henough'
    · rcases Finset.mem_insert.mp hi with rfl | hi
      · exact ⟨has_of_members? hnested, nested, hnested, henough⟩
      · obtain ⟨hlt, nested', hnested', henough'⟩ := hchain i hi
        exact ⟨hlt, nested', hnested', henough'.mono (Nat.le_succ _)⟩

/-- As much fuel as the table has rows is always enough. -/
theorem Suffices.rows_size {fuel : Nat} (h : kind.Suffices T fuel members) :
    kind.Suffices T T.rows.size members := by
  classical
  have hex : ∃ n, kind.Suffices T n members := ⟨fuel, h⟩
  refine (Nat.find_spec hex).mono ?_
  cases hn : Nat.find hex with
  | zero => exact Nat.zero_le _
  | succ n =>
    obtain ⟨chain, hcard, hchain⟩ := exists_chain n (hn ▸ Nat.find_spec hex)
      (Nat.find_min hex (by omega))
    rw [← hcard, ← Finset.card_range T.rows.size]
    exact Finset.card_le_card fun i hi => Finset.mem_range.mpr (hchain i hi).1

/-- The fuel suffices for every list that has an expansion. -/
theorem leaves?_eq_some_iff :
    kind.leaves? T members = some leaves ↔ kind.Expands T members leaves := by
  refine ⟨expands_of_leavesFrom? _, fun h => ?_⟩
  obtain ⟨fuel, hfuel⟩ := h.exists_suffices
  obtain ⟨found, hfound⟩ := hfuel.rows_size
  rw [leaves?, hfound, h.unique (expands_of_leavesFrom? _ hfound)]

/-! ### Parts of lists, and later tables -/

section Parts

variable {T' : TypeTable} {ms ns leavesM leavesN : List TypeId}

theorem Expands.append (hms : kind.Expands T ms leavesM) (hns : kind.Expands T ns leavesN) :
    kind.Expands T (ms ++ ns) (leavesM ++ leavesN) := by
  induction hms with
  | nil => exact hns
  | leaf ht _ ih => exact .leaf ht ih
  | nested ht hmembers _ _ ih =>
    rw [List.append_assoc]
    exact .nested ht hmembers ih

theorem Expands.hasAll (hT : T.WellFormed) (hms : T.HasAll members)
    (h : kind.Expands T members leaves) : T.HasAll leaves :=
  (leavesFrom?_of_le hT le_rfl _ le_rfl hms (leaves?_eq_some_iff.mpr h)).2

theorem Expands.of_le (hT : T.WellFormed) (hle : T ≤ T') (hms : T.HasAll members)
    (h : kind.Expands T members leaves) : kind.Expands T' members leaves :=
  leaves?_eq_some_iff.mp
    (leavesFrom?_of_le hT hle _ (TypeTable.rows_size_le hle) hms (leaves?_eq_some_iff.mpr h)).1

theorem Expands.of_plain (h : ∀ t ∈ members, kind.members? (T.lookup t) = none) :
    kind.Expands T members members := by
  induction members with
  | nil => exact .nil
  | cons t ts ih =>
    obtain ⟨ht, hts⟩ := List.forall_mem_cons.mp h
    exact .leaf ht (ih hts)

/-- A composite by itself is expanded to what its members are expanded to. -/
theorem Expands.single {t : TypeId} (ht : kind.members? (T.lookup t) = some members)
    (hmembers : kind.Expands T members leaves) : kind.Expands T [t] leaves := by
  have hnested := Expands.nested ht hmembers .nil
  rwa [List.append_nil] at hnested

/-- A part of a list is expanded to a part of what the list is expanded to. -/
theorem Expands.exists_sublist (h : kind.Expands T members leaves) {part : List TypeId}
    (hsub : part.Sublist members) : ∃ inner, kind.Expands T part inner ∧ inner.Sublist leaves := by
  induction h generalizing part with
  | nil =>
    obtain rfl := List.sublist_nil.mp hsub
    exact ⟨[], .nil, .refl _⟩
  | leaf ht _ ih =>
    rcases List.sublist_cons_iff.mp hsub with hrest | ⟨part, rfl, hrest⟩
    · obtain ⟨inner, hinner, hle⟩ := ih hrest
      exact ⟨inner, hinner, hle.cons _⟩
    · obtain ⟨inner, hinner, hle⟩ := ih hrest
      exact ⟨_, .leaf ht hinner, hle.cons_cons _⟩
  | nested ht hmembers _ _ ih =>
    rcases List.sublist_cons_iff.mp hsub with hrest | ⟨part, rfl, hrest⟩
    · obtain ⟨inner, hinner, hle⟩ := ih hrest
      exact ⟨inner, hinner, hle.trans (List.sublist_append_right _ _)⟩
    · obtain ⟨inner, hinner, hle⟩ := ih hrest
      exact ⟨_, .nested ht hmembers hinner, hle.append_left _⟩

/-- What a member is expanded to is part of what the list is expanded to. -/
theorem Expands.exists_single (h : kind.Expands T members leaves) {t : TypeId} (ht : t ∈ members) :
    ∃ inner, kind.Expands T [t] inner ∧ inner.Sublist leaves :=
  h.exists_sublist (List.singleton_sublist.mpr ht)

/-- Expanded members come from the members. -/
theorem Expands.mem_iff (h : kind.Expands T members leaves) {leaf : TypeId} :
    leaf ∈ leaves ↔ ∃ t ∈ members, ∃ part, kind.Expands T [t] part ∧ leaf ∈ part := by
  constructor
  · intro hleaf
    induction h with
    | nil => cases hleaf
    | @leaf t ts leaves ht _ ih =>
      rcases List.mem_cons.mp hleaf with rfl | hleaf
      · exact ⟨leaf, List.mem_cons_self, [leaf], .leaf ht .nil, List.mem_cons_self⟩
      · obtain ⟨s, hs, hpart⟩ := ih hleaf
        exact ⟨s, List.mem_cons_of_mem _ hs, hpart⟩
    | @nested t members ts inner leaves ht hmembers _ _ ih =>
      rcases List.mem_append.mp hleaf with hleaf | hleaf
      · exact ⟨t, List.mem_cons_self, inner, .single ht hmembers, hleaf⟩
      · obtain ⟨s, hs, hpart⟩ := ih hleaf
        exact ⟨s, List.mem_cons_of_mem _ hs, hpart⟩
  · rintro ⟨t, ht, part, hpart, hmem⟩
    obtain ⟨part', hpart', hle⟩ := h.exists_single ht
    exact hle.subset (hpart'.unique hpart ▸ hmem)

end Parts

end ScriptTyping.Composite
