import Mathlib.Data.List.Forall2
import Mathlib.Data.List.Perm.Basic
import ScriptTyping.Proofs.Lattice.Simplification
import ScriptTyping.Proofs.Stability.Join

/-!
# The arguments of a join

A join first simplifies its arguments one after the other, which stores types in the order of the
arguments.  What it does with the simplified arguments depends on which they are only: it tests for
members of the list and sorts what is left.  Since simplified arguments are recalled one by one, a
join of the same arguments in another order, later on, gives the same type.

Unknown among the simplified arguments makes the join unknown, and otherwise `any` absorbs the other
arguments.  Unknown as a member of a union among them is a member of the joined union, because it is
never compared with other members.

## Main definitions

* `Join.distinctValues` — the arguments that the join looks at.
* `TypeTable.Tainted` — unknown, or a composite with unknown as a member.

## Main results

* `joinTypes_of_perm` — the order of the arguments does not matter.
* `joinTypes_keeps_unknown` — what becomes of unknown among the arguments.
-/

namespace ScriptTyping

variable {w : World} {env : Environment} {T T' T₁ : TypeTable}
  {types types' args args' : List TypeId}

/-! ### Simplified arguments -/

/-- The arguments of a join, simplified one after the other. -/
def Join.shortArguments (w : World) (env : Environment) (types : List TypeId) :
    TypeM (List TypeId) :=
  types.mapM fun t => Prod.fst <$> simplify w.isSubtype w env t

theorem ReportM.lift_eq_ok {α : Type} {x : TypeM α} {a : α} {reports reports' : List Redundancy} :
    (liftM x : ReportM α) reports T = .ok (a, reports') T' ↔
      x T = .ok a T' ∧ reports = reports' := by
  have hlift : (liftM x : ReportM α) reports = x >>= fun a => pure (a, reports) := rfl
  rw [hlift, TypeM.bind_eq_ok]
  constructor
  · rintro ⟨b, T₁, hb, hpure⟩
    cases hpure
    exact ⟨hb, rfl⟩
  · rintro ⟨ha, rfl⟩
    exact ⟨a, T', ha, rfl⟩

theorem ReportM.collect_apply {α : Type} (x : TypeM (α × List Redundancy))
    (reports : List Redundancy) :
    ReportM.collect x reports = x >>= fun out => pure (out.1, reports ++ out.2) := by
  have hlift : (liftM x : ReportM (α × List Redundancy)) reports =
      x >>= fun out => pure (out, reports) := rfl
  calc ReportM.collect x reports
      = (liftM x : ReportM (α × List Redundancy)) reports >>=
          fun p => pure (p.1.1, p.2 ++ p.1.2) := rfl
    _ = x >>= fun out => pure (out.1, reports ++ out.2) := by
      rw [hlift, bind_assoc]
      rfl

/-- Collecting reports in a loop does not change what the loop returns. -/
theorem ReportM.fst_mapM_collect {α β : Type} (f : α → TypeM (β × List Redundancy))
    (l : List α) : ∀ reports, Prod.fst <$> (l.mapM fun a => ReportM.collect (f a)) reports =
      l.mapM fun a => Prod.fst <$> f a := by
  induction l with
  | nil => exact fun _ => rfl
  | cons a l ih =>
    intro reports
    have hloop : (List.mapM (fun a => ReportM.collect (f a)) (a :: l)) reports =
        ReportM.collect (f a) reports >>= fun first =>
          (l.mapM fun a => ReportM.collect (f a)) first.2 >>= fun rest =>
            pure (first.1 :: rest.1, rest.2) := by
      rw [List.mapM_cons]
      rfl
    rw [hloop, ReportM.collect_apply, List.mapM_cons, bind_assoc, map_bind, bind_map_left]
    refine bind_congr fun out => ?_
    rw [pure_bind, ← ih (reports ++ out.2), map_bind, bind_map_left]
    rfl

namespace Join

/-- The join of type arguments inside a join. -/
def nested (w : World) (env : Environment) : List TypeId → ReportM TypeId :=
  joinFrom w.isSubtype w env (RecursionProfile.join.maxDepth - 1)

/-- The join of simplified arguments, for any reports about them. -/
theorem join_eq (w : World) (env : Environment) (types : List TypeId) :
    join w.isSubtype w env types =
      (types.mapM fun t => ReportM.collect (simplify w.isSubtype w env t)) [] >>= fun args =>
        joinShort w.isSubtype w env (nested w env) args.1 args.2 := rfl

/-- A join that returns has simplified its arguments. -/
theorem exists_shortArguments {t : TypeId}
    (h : joinTypes w.isSubtype w env types T = .ok t T') :
    ∃ args T₁ reports reports', shortArguments w env types T = .ok args T₁ ∧
      joinShort w.isSubtype w env (nested w env) args reports T₁ =
        .ok (t, reports') T' := by
  obtain ⟨⟨_, reports'⟩, _, hrun, hpure⟩ := TypeM.bind_eq_ok.mp h
  obtain ⟨rfl, rfl⟩ := TypeM.pure_eq_ok.mp hpure
  rw [join_eq] at hrun
  obtain ⟨⟨args, reports⟩, T₁, hargs, hjoin⟩ := TypeM.bind_eq_ok.mp hrun
  refine ⟨args, T₁, reports, reports', ?_, hjoin⟩
  rw [shortArguments, ← ReportM.fst_mapM_collect _ types [], map_eq_pure_bind]
  exact TypeM.bind_eq_ok.mpr ⟨(args, reports), T₁, hargs, rfl⟩

/-- A join continues with its simplified arguments. -/
theorem joinTypes_of_shortArguments {t : TypeId}
    (hargs : shortArguments w env types T = .ok args T₁)
    (h : ∀ reports, ∃ reports', joinShort w.isSubtype w env (nested w env)
      args reports T₁ = .ok (t, reports') T') :
    joinTypes w.isSubtype w env types T = .ok t T' := by
  rw [shortArguments, ← ReportM.fst_mapM_collect _ types [], map_eq_pure_bind] at hargs
  obtain ⟨⟨args', reports⟩, _, hrun, hpure⟩ := TypeM.bind_eq_ok.mp hargs
  obtain ⟨rfl, rfl⟩ := TypeM.pure_eq_ok.mp hpure
  obtain ⟨reports', hjoin⟩ := h reports
  refine TypeM.bind_eq_ok.mpr ⟨(t, reports'), T', ?_, rfl⟩
  rw [join_eq]
  exact TypeM.bind_eq_ok.mpr ⟨_, _, hrun, hjoin⟩

/-- Simplified arguments are recalled one by one. -/
theorem stable_shortArguments (h : w.Setting env T) (htypes : T.HasAll types) :
    TypeM.Stable (shortArguments w env types) T fun T' args => T'.HasAll args ∧
      List.Forall₂ (fun t a => TypeM.Recalls (Prod.fst <$> simplify w.isSubtype w env t) T' a)
        types args := by
  have hshort (t : TypeId) (ht : t ∈ types) (T₁ : TypeTable) (hg : T.GrowsTo T₁) :
      TypeM.Stable (Prod.fst <$> simplify w.isSubtype w env t) T₁ TypeTable.Has :=
    stable_simplify (h.grow hg) ((htypes t ht).of_le hg.le)
  intro args T' hrun
  obtain ⟨hg, hhas, hlater⟩ := TypeM.Stable.mapM (W := TypeTable.Has)
    (fun _ _ _ => TypeTable.Has.of_le) types h.table hshort args T' hrun
  obtain ⟨-, hrecalls, -⟩ := TypeM.Stable.mapM_recalls types h.table
    (fun t ht T₁ hg => (hshort t ht T₁ hg).mono fun _ _ _ _ => trivial) args T' hrun
  exact ⟨hg, ⟨hhas, hrecalls⟩, hlater⟩

/-! ### What the join does with simplified arguments -/

/-- The different arguments, without `null` and `undefined` if there are others. -/
def distinctValues (args : List TypeId) : List TypeId :=
  let values := args.eraseDups.filter fun t => !t.isNullish
  if values.isEmpty then args.eraseDups else values

theorem mem_of_mem_distinctValues {t : TypeId} (h : t ∈ distinctValues args) : t ∈ args := by
  rw [distinctValues] at h
  split at h
  · exact List.mem_eraseDups.mp h
  · exact List.mem_eraseDups.mp (List.mem_filter.mp h).1

/-- Beside a value, `null` and `undefined` are left out. -/
theorem distinctValues_of_value {t : TypeId} (h : t ∈ args) (hvalue : t.isNullish = false) :
    distinctValues args = args.eraseDups.filter fun t => !t.isNullish := by
  have hmem : t ∈ args.eraseDups.filter fun t => !t.isNullish :=
    List.mem_filter.mpr ⟨List.mem_eraseDups.mpr h, by rw [hvalue]; rfl⟩
  rw [distinctValues, if_neg]
  rw [List.isEmpty_iff]
  exact List.ne_nil_of_mem hmem

theorem mem_distinctValues {t : TypeId} (h : t ∈ args) (hvalue : t.isNullish = false) :
    t ∈ distinctValues args := by
  rw [distinctValues_of_value h hvalue]
  exact List.mem_filter.mpr ⟨List.mem_eraseDups.mpr h, by rw [hvalue]; rfl⟩

/-- The join of at least two different arguments. -/
def joinValues (w : World) (env : Environment) (table : TypeTable) (values : List TypeId) :
    ReportM TypeId :=
  let sorted := sort table values
  if sorted.any fun t => (table.lookup t).unionMembers?.isSome then
    createUnion w.isSubtype w env sorted
  else joinDistinct w.isSubtype w env (nested w env) sorted

/-- The join of at least two arguments. -/
theorem joinShort_apply (h : 2 ≤ args.length) (reports : List Redundancy) (T : TypeTable) :
    joinShort w.isSubtype w env (nested w env) args reports T =
      if args.any TypeId.isUnknown then .ok (.unknown, reports) T
      else if args.contains .dynamicAny then .ok (.dynamicAny, reports) T
      else if args.contains .any then .ok (.any, reports) T
      else match distinctValues args with
        | [single] => .ok (single, reports) T
        | values => joinValues w env T values reports T := by
  obtain ⟨first, second, rest, rfl⟩ : ∃ first second rest, args = first :: second :: rest := by
    match args, h with
    | first :: second :: rest, _ => exact ⟨first, second, rest, rfl⟩
  unfold joinShort
  by_cases hunknown : (first :: second :: rest).any TypeId.isUnknown = true
  · rw [if_pos hunknown, if_pos hunknown]
    rfl
  rw [if_neg hunknown, if_neg hunknown]
  by_cases hdynamic : (first :: second :: rest).contains .dynamicAny = true
  · rw [if_pos hdynamic, if_pos hdynamic]
    rfl
  rw [if_neg hdynamic, if_neg hdynamic]
  by_cases hany : (first :: second :: rest).contains .any = true
  · rw [if_pos hany, if_pos hany]
    rfl
  rw [if_neg hany, if_neg hany, distinctValues]
  dsimp only
  generalize (if ((first :: second :: rest).eraseDups.filter fun t => !t.isNullish).isEmpty then
    (first :: second :: rest).eraseDups else
    (first :: second :: rest).eraseDups.filter fun t => !t.isNullish) = values
  match values with
  | [] => rfl
  | [single] => rfl
  | _ :: _ :: _ => rfl

/-! ### The order of the arguments -/

private theorem keyLe_iff {a b : Nat × Nat} :
    keyLe a b = true ↔ a.1 < b.1 ∨ a.1 = b.1 ∧ a.2 ≤ b.2 := by
  simp only [keyLe, Bool.or_eq_true, decide_eq_true_eq, Bool.and_eq_true, beq_iff_eq]

/-- Different types have different sorting keys. -/
theorem eq_of_keyLe {s t : TypeId} (hst : keyLe (sortKey T s) (sortKey T t) = true)
    (hts : keyLe (sortKey T t) (sortKey T s) = true) : s = t := by
  have hkey (t : TypeId) : (sortKey T t).2 = t.index := by
    rw [sortKey]
    split <;> rfl
  have hindex : s.index = t.index := by
    rw [keyLe_iff, hkey, hkey] at hst hts
    omega
  exact congrArg TypeId.mk hindex

/-- Sorting erases the order. -/
theorem sort_of_perm {ts us : List TypeId} (h : ts.Perm us) : sort T ts = sort T us := by
  have hsorted (ts : List TypeId) : (sort T ts).Pairwise
      fun a b => keyLe (sortKey T a) (sortKey T b) = true := by
    refine List.pairwise_mergeSort (fun a b c hab hbc => ?_) (fun a b => ?_) ts
    · rw [keyLe_iff] at *
      omega
    · rw [Bool.or_eq_true, keyLe_iff, keyLe_iff]
      omega
  have hperm : (sort T ts).Perm (sort T us) :=
    (List.mergeSort_perm ..).trans (h.trans (List.mergeSort_perm ..).symm)
  exact hperm.eq_of_pairwise (fun _ _ _ _ => eq_of_keyLe) (hsorted ts) (hsorted us)

theorem distinctValues_perm (h : args'.Perm args) :
    (distinctValues args').Perm (distinctValues args) := by
  have hdistinct : args'.eraseDups.Perm args.eraseDups := by
    refine (List.perm_ext_iff_of_nodup (nodup_eraseDups _) (nodup_eraseDups _)).mpr fun t => ?_
    rw [List.mem_eraseDups, List.mem_eraseDups, h.mem_iff]
  have hvalues := hdistinct.filter fun t => !t.isNullish
  rw [distinctValues, distinctValues, hvalues.isEmpty_eq]
  split
  · exact hdistinct
  · exact hvalues

/-- What the join does with simplified arguments does not depend on their order. -/
theorem joinShort_of_perm (h : args'.Perm args) (reports : List Redundancy) (T : TypeTable) :
    joinShort w.isSubtype w env (nested w env) args' reports T =
      joinShort w.isSubtype w env (nested w env) args reports T := by
  match args, h with
  | [], h => rw [List.perm_nil.mp h]
  | [single], h => rw [List.perm_singleton.mp h]
  | first :: second :: rest, h =>
    have hseveral : 2 ≤ (first :: second :: rest).length := by simp
    rw [joinShort_apply hseveral reports T, joinShort_apply (h.length_eq ▸ hseveral) reports T,
      h.any_eq, h.contains_eq, h.contains_eq]
    have hvalues := distinctValues_perm h
    generalize distinctValues args' = values' at hvalues
    generalize distinctValues (first :: second :: rest) = values at hvalues
    congr 3
    match values, hvalues with
    | [], hvalues => rw [List.perm_nil.mp hvalues]
    | [single], hvalues => rw [List.perm_singleton.mp hvalues]
    | _ :: _ :: _, hvalues =>
      match values', hvalues.length_eq with
      | _ :: _ :: _, _ =>
        dsimp only
        rw [joinValues, joinValues, sort_of_perm hvalues]

end Join

/-- A join of the same types in another order, after the first one, gives the same type. -/
theorem joinTypes_of_perm (h : w.Setting env T) (htypes : T.HasAll types)
    (hperm : types'.Perm types) {t : TypeId}
    (hrun : joinTypes w.isSubtype w env types T = .ok t T') :
    joinTypes w.isSubtype w env types' T' = .ok t T' := by
  obtain ⟨args, T₁, reports, reports₁, hargs, hjoin⟩ := Join.exists_shortArguments hrun
  obtain ⟨hg₁, ⟨hhas, hrecalls⟩, -⟩ := Join.stable_shortArguments h htypes args T₁ hargs
  obtain ⟨hg, -, hlater⟩ := Join.stable_joinShort (Join.stable_joinFrom _) (h.grow hg₁) hhas
    reports t reports₁ T' hjoin
  -- The other order has the same simplified arguments, in another order.
  obtain ⟨args', hrecalls', hargs'⟩ := List.perm_comp_forall₂ hperm hrecalls
  refine Join.joinTypes_of_shortArguments
    (TypeM.Recalls.mapM hrecalls' T' hg.le) fun reports => ?_
  obtain ⟨reports', hsame⟩ := hlater T' le_rfl reports
  exact ⟨reports', (Join.joinShort_of_perm hargs' reports T').trans hsame⟩

/-- A table with the union of unknown and `number`. -/
def unknownOrNumberTable : TypeTable := TypeTable.initial.store (.union [.unknown, .number])

namespace unknownOrNumberTable

theorem setting : World.Setting default .empty unknownOrNumberTable :=
  ⟨TypeTable.wellFormed_store TypeTable.wellFormed_initial (by decide),
    World.within_of_entries (by decide) (by decide), Environment.within_empty⟩

/-- The union is in short form. -/
theorem shortArguments {t : TypeId} (ht : t = .boolean ∨ t = .any) :
    Join.shortArguments default .empty [t, ⟨16⟩] unknownOrNumberTable =
      .ok [t, ⟨16⟩] unknownOrNumberTable := by
  -- Rows are read by evaluation, the index of the table is not.
  have hsimplify : Join.shortArguments default .empty [t, ⟨16⟩] unknownOrNumberTable =
      (TypeM.union [.unknown, .number] >>= fun u => pure [t, u]) unknownOrNumberTable := by
    rcases ht with rfl | rfl <;> rfl
  rw [hsimplify]
  exact TypeM.bind_eq_ok.mpr ⟨_, _, TypeM.intern_of_handle (TypeTable.handles_store ..), rfl⟩

/-- Joining the union with `boolean` stores the union of all three. -/
theorem joinTypes_boolean :
    joinTypes (World.isSubtype default) default .empty [.boolean, ⟨16⟩] unknownOrNumberTable =
      .ok ⟨17⟩ (unknownOrNumberTable.store (.union [.boolean, .unknown, .number])) := by
  have hnew : unknownOrNumberTable.handles[TypeData.union [.boolean, .unknown, .number]]? =
      none := by
    rw [unknownOrNumberTable, TypeTable.handles_store_of_ne (by decide),
      TypeTable.handles_initial_of_ne (by decide)]
  have hsort : Join.sort unknownOrNumberTable [.boolean, ⟨16⟩] = [.boolean, ⟨16⟩] := by
    rw [Join.sort, List.mergeSort_of_pairwise]
    decide
  have hunion : createUnion (World.isSubtype default) default .empty [.boolean, ⟨16⟩]
      unknownOrNumberTable = TypeM.union [.boolean, .unknown, .number] unknownOrNumberTable := rfl
  have hdistinct : Join.distinctValues [.boolean, ⟨16⟩] = [.boolean, ⟨16⟩] := rfl
  refine Join.joinTypes_of_shortArguments (shortArguments (.inl rfl)) fun reports => ⟨reports, ?_⟩
  rw [Join.joinShort_apply (by decide), if_neg (by decide), if_neg (by decide),
    if_neg (by decide), hdistinct]
  dsimp only
  rw [Join.joinValues, hsort, if_pos (by decide)]
  exact ReportM.lift_eq_ok.mpr ⟨hunion.trans (TypeM.intern_of_new hnew), rfl⟩

end unknownOrNumberTable

/-- The other order finds the union of all three. -/
theorem joinTypes_of_perm_unknownOrNumber :
    joinTypes (World.isSubtype default) default .empty [⟨16⟩, .boolean]
      (unknownOrNumberTable.store (.union [.boolean, .unknown, .number])) =
      .ok ⟨17⟩ (unknownOrNumberTable.store (.union [.boolean, .unknown, .number])) :=
  joinTypes_of_perm unknownOrNumberTable.setting (by decide) (List.Perm.swap ..)
    unknownOrNumberTable.joinTypes_boolean

/-! ### Unknown among the arguments -/

/-- The type is unknown, or a union or intersection with unknown as a direct member. -/
def TypeTable.Tainted (T : TypeTable) (t : TypeId) : Prop :=
  t = .unknown ∨ ∃ (kind : Composite) (members : List TypeId),
    kind.members? (T.lookup t) = some members ∧ .unknown ∈ members

namespace Composite

variable {kind : Composite} {members : List TypeId}

theorem exists_of_mem_mapM {α β : Type} {f : α → Option β} {a : α} {l : List α} :
    ∀ {bs}, l.mapM f = some bs → a ∈ l → ∃ b ∈ bs, f a = some b := by
  induction l with
  | nil => exact fun _ h => by cases h
  | cons a' l ih =>
    intro bs hbs ha
    rw [List.mapM_cons] at hbs
    obtain ⟨b, hb, hbs⟩ := Option.bind_eq_some_iff.mp hbs
    obtain ⟨bs', hbs', hcons⟩ := Option.bind_eq_some_iff.mp hbs
    obtain rfl : b :: bs' = bs := Option.some.inj hcons
    rcases List.mem_cons.mp ha with rfl | ha
    · exact ⟨b, List.mem_cons_self .., hb⟩
    · obtain ⟨b', hb', hfa⟩ := ih hbs' ha
      exact ⟨b', List.mem_cons_of_mem _ hb', hfa⟩

/-- A member that is no composite of the kind is not expanded. -/
theorem mem_leavesFrom?_of_plain {t : TypeId} (ht : t ∈ members)
    (hplain : kind.members? (T.lookup t) = none) (fuel : Nat) {leaves : List TypeId}
    (h : kind.leavesFrom? T fuel members = some leaves) : t ∈ leaves := by
  cases fuel with
  | zero =>
    rw [leavesFrom?] at h
    split at h
    · cases h
    · exact Option.some.inj h ▸ ht
  | succ fuel =>
    rw [leavesFrom?_succ] at h
    obtain ⟨expanded, hexpanded, hleaves⟩ := Option.bind_eq_some_iff.mp h
    obtain rfl := Option.some.inj hleaves
    obtain ⟨b, hb, ht'⟩ := exists_of_mem_mapM hexpanded ht
    rw [expand, hplain] at ht'
    obtain rfl := Option.some.inj ht'
    exact List.mem_flatten.mpr ⟨[t], hb, List.mem_singleton_self t⟩

/-- A member of a member of the same kind is expanded to. -/
theorem mem_leaves?_of_nested {u t : TypeId} {inner leaves : List TypeId} (hu : u ∈ members)
    (hinner : kind.members? (T.lookup u) = some inner) (ht : t ∈ inner)
    (hplain : kind.members? (T.lookup t) = none) (h : kind.leaves? T members = some leaves) :
    t ∈ leaves := by
  rw [leaves?] at h
  cases hfuel : T.rows.size with
  | zero =>
    rw [hfuel, leavesFrom?, if_pos] at h
    · cases h
    · exact List.any_eq_true.mpr ⟨u, hu, by rw [hinner]; rfl⟩
  | succ fuel =>
    rw [hfuel, leavesFrom?_succ] at h
    obtain ⟨expanded, hexpanded, hleaves⟩ := Option.bind_eq_some_iff.mp h
    obtain rfl := Option.some.inj hleaves
    obtain ⟨b, hb, hu'⟩ := exists_of_mem_mapM hexpanded hu
    rw [expand, hinner] at hu'
    exact List.mem_flatten.mpr ⟨b, hb, mem_leavesFrom?_of_plain ht hplain fuel hu'⟩

/-- Only candidates are dropped. -/
theorem mem_candidates_of_redundancies {rel : TypeRelation} {candidates : List TypeId}
    {reports : List Redundancy} (h : kind.redundancies rel w env candidates T = .ok reports T') :
    ∀ t ∈ reports.map (·.removed), t ∈ candidates := by
  intro t ht
  obtain ⟨report, hreport, rfl⟩ := List.mem_map.mp ht
  rw [redundancies] at h
  split at h
  · cases h
    cases hreport
  obtain ⟨found, T₁, hfound, hpure⟩ := TypeM.bind_eq_ok.mp h
  obtain ⟨rfl, rfl⟩ := TypeM.pure_eq_ok.mp hpure
  obtain ⟨_, hmem, rfl⟩ := List.mem_filterMap.mp hreport
  refine TypeM.forall_mem_of_mapM_eq_ok (P := fun o => ∀ report, o = some report →
    report.removed ∈ candidates) (fun member hmember T o T' hrun report ho => ?_)
    hfound _ hmem report rfl
  obtain ⟨witness, T₂, -, hrun⟩ := TypeM.bind_eq_ok.mp hrun
  cases witness with
  | none =>
    cases hrun
    cases ho
  | some witness =>
    cases hrun
    cases ho
    exact hmember

/-- Unknown among the expanded members stays. -/
theorem unknown_mem_of_build (h : w.Setting env T) (hms : T.HasAll members) {leaves : List TypeId}
    (hleaves : kind.leaves? T members = some leaves) (hunknown : .unknown ∈ leaves) {r : TypeId}
    {reports : List Redundancy}
    (hrun : kind.build w.isSubtype w env members T = .ok (r, reports) T') :
    r = .unknown ∨ ∃ stay, kind.members? (T'.lookup r) = some stay ∧ .unknown ∈ stay := by
  obtain ⟨_, _, hget, hrun⟩ := TypeM.bind_eq_ok.mp hrun
  cases hget
  obtain ⟨leaves', T₁, hleaves', hrun⟩ := TypeM.bind_eq_ok.mp hrun
  obtain ⟨hfound, rfl⟩ := TypeM.ofOption_eq_ok.mp hleaves'
  obtain rfl : leaves = leaves' := Option.some.inj (hleaves.symm.trans hfound)
  have hhas := (leavesFrom?_of_le h.table le_rfl _ (Nat.le_refl _) hms hfound).2
  have hflat : T.HasAll leaves.eraseDups := fun t ht => hhas t (List.mem_eraseDups.mp ht)
  have hmem : .unknown ∈ leaves.eraseDups := List.mem_eraseDups.mpr hunknown
  generalize leaves.eraseDups = flat at hrun hflat hmem
  match flat, hflat, hmem with
  | [single], _, hmem =>
    cases hrun
    exact .inl (List.mem_singleton.mp hmem).symm
  | first :: second :: rest, hflat, hmem =>
    obtain ⟨dropped, T₂, hdropped, hrun⟩ := TypeM.bind_eq_ok.mp hrun
    obtain ⟨r', T₃, hr, hpure⟩ := TypeM.bind_eq_ok.mp hrun
    obtain ⟨hpair, rfl⟩ := TypeM.pure_eq_ok.mp hpure
    obtain ⟨rfl, rfl⟩ := Prod.mk.inj hpair
    obtain ⟨hg, -⟩ := redundancies_recalls h
      (fun t ht => hflat t (List.mem_filter.mp ht).1) hdropped
    -- Unknown is no candidate, so it is not dropped.
    have hstays :
        .unknown ∈ kind.survivors (first :: second :: rest) (dropped.map (·.removed)) := by
      refine mem_survivors.mpr ⟨hmem, fun hgone => ?_, fun hnullish => by cases hnullish.2.1⟩
      have := (List.mem_filter.mp (mem_candidates_of_redundancies hdropped _ hgone)).2
      cases this
    have hstay : T₂.HasAll (kind.survivors (first :: second :: rest) (dropped.map (·.removed))) :=
      fun t ht => (hflat t (mem_survivors.mp ht).1).of_le hg.le
    generalize kind.survivors (first :: second :: rest) (dropped.map (·.removed)) = stay
      at hr hstays hstay
    match stay, hstay, hstays with
    | [single], _, hstays =>
      cases hr
      exact .inl (List.mem_singleton.mp hstays).symm
    | first :: second :: rest, hstay, hstays =>
      obtain ⟨-, hlookup, -⟩ := stable_intern_members hg.wellFormed hstay _ _ hr
      exact .inr ⟨_, hlookup, hstays⟩

end Composite

/-- The union of types with a tainted union among them is tainted. -/
theorem tainted_createUnion (h : w.Setting env T) (hinitial : .initial ≤ T)
    {members inner : List TypeId} (hms : T.HasAll members) {u : TypeId} (hu : u ∈ members)
    (hinner : T.lookup u = .union inner) (hunknown : .unknown ∈ inner) {r : TypeId}
    (hrun : createUnion w.isSubtype w env members T = .ok r T') : T'.Tainted r := by
  obtain ⟨⟨r', reports⟩, T₁, hbuild, hpure⟩ := TypeM.bind_eq_ok.mp hrun
  obtain ⟨rfl, rfl⟩ := TypeM.pure_eq_ok.mp hpure
  have hplain : Composite.members? .union (T.lookup .unknown) = none := by
    rw [TypeTable.lookup_of_le hinitial (by decide)]
    rfl
  obtain ⟨leaves, hleaves⟩ : ∃ leaves, Composite.leaves? .union T members = some leaves := by
    obtain ⟨_, _, hget, hrest⟩ := TypeM.bind_eq_ok.mp hbuild
    cases hget
    obtain ⟨leaves, _, hleaves, -⟩ := TypeM.bind_eq_ok.mp hrest
    exact ⟨leaves, (TypeM.ofOption_eq_ok.mp hleaves).1⟩
  have hmem := Composite.mem_leaves?_of_nested hu (by rw [hinner]; rfl) hunknown hplain hleaves
  rcases Composite.unknown_mem_of_build h hms hleaves hmem hbuild with hr | ⟨stay, hstay, hmem⟩
  · exact .inl hr
  · exact .inr ⟨.union, stay, hstay, hmem⟩

namespace Join

/-- A value beside which there are only `null` and `undefined` stands for itself. -/
theorem distinctValues_of_single {a : TypeId} (ha : a ∈ args) (hvalue : a.isNullish = false)
    (hsame : ∀ b ∈ args, b = a ∨ b.isNullish = true) : distinctValues args = [a] := by
  rw [distinctValues_of_value ha hvalue]
  refine List.perm_singleton.mp ((List.perm_ext_iff_of_nodup ((nodup_eraseDups _).filter _)
    (by simp)).mpr fun b => ?_)
  rw [List.mem_filter, List.mem_eraseDups, List.mem_singleton]
  constructor
  · rintro ⟨hb, hbvalue⟩
    rcases hsame b hb with rfl | hnullish
    · rfl
    · rw [hnullish] at hbvalue
      cases hbvalue
  · rintro rfl
    exact ⟨ha, by rw [hvalue]; rfl⟩

/-- Unknown among the arguments makes the join unknown. -/
theorem joinShort_of_unknown (h : .unknown ∈ args) (reports : List Redundancy) :
    joinShort w.isSubtype w env (nested w env) args reports T = .ok (.unknown, reports) T := by
  match args, h with
  | [single], h =>
    rw [List.mem_singleton.mp h]
    rfl
  | first :: second :: rest, h =>
    rw [joinShort_apply (by simp), if_pos]
    exact List.any_eq_true.mpr ⟨.unknown, h, rfl⟩

private theorem any_isUnknown_of_notMem (h : .unknown ∉ args) :
    ¬args.any TypeId.isUnknown = true := by
  rw [List.any_eq_true]
  rintro ⟨t, ht, htunknown⟩
  exact h (eq_of_beq htunknown ▸ ht)

/-- Dynamic `any` absorbs all arguments but unknown. -/
theorem joinShort_of_dynamicAny (hunknown : .unknown ∉ args) (h : .dynamicAny ∈ args)
    (reports : List Redundancy) :
    joinShort w.isSubtype w env (nested w env) args reports T = .ok (.dynamicAny, reports) T := by
  match args, h with
  | [single], h =>
    rw [List.mem_singleton.mp h]
    rfl
  | first :: second :: rest, h =>
    rw [joinShort_apply (by simp), if_neg (any_isUnknown_of_notMem hunknown), if_pos]
    exact List.contains_iff_mem.mpr h

/-- Next to dynamic `any`, `any` absorbs all arguments. -/
theorem joinShort_of_any (hunknown : .unknown ∉ args) (hdynamic : .dynamicAny ∉ args)
    (h : .any ∈ args) (reports : List Redundancy) :
    joinShort w.isSubtype w env (nested w env) args reports T = .ok (.any, reports) T := by
  match args, h with
  | [single], h =>
    rw [List.mem_singleton.mp h]
    rfl
  | first :: second :: rest, h =>
    rw [joinShort_apply (by simp), if_neg (any_isUnknown_of_notMem hunknown), if_neg, if_pos]
    · exact List.contains_iff_mem.mpr h
    · rwa [List.contains_iff_mem]

/-- Without unknown and `any` among them, the join looks at the different arguments. -/
theorem joinShort_of_values (hseveral : 2 ≤ args.length) (hunknown : .unknown ∉ args)
    (hdynamic : .dynamicAny ∉ args) (hany : .any ∉ args) (reports : List Redundancy) :
    joinShort w.isSubtype w env (nested w env) args reports T =
      match distinctValues args with
      | [single] => .ok (single, reports) T
      | values => joinValues w env T values reports T := by
  rw [joinShort_apply hseveral, if_neg (any_isUnknown_of_notMem hunknown), if_neg, if_neg]
  · rwa [List.contains_iff_mem]
  · rwa [List.contains_iff_mem]

end Join

theorem TypeTable.Tainted.isNullish {t : TypeId} (hinitial : .initial ≤ T) (h : T.Tainted t) :
    t.isNullish = false := by
  have hreserved {r : TypeId} (hr : TypeTable.initial.Has r)
      (hplain : ∀ kind : Composite, kind.members? (TypeTable.initial.lookup r) = none)
      (hne : r ≠ .unknown) : t ≠ r := by
    rintro rfl
    obtain rfl | ⟨kind, members, hmembers, -⟩ := h
    · exact hne rfl
    · rw [TypeTable.lookup_of_le hinitial hr, hplain kind] at hmembers
      cases hmembers
  rw [TypeId.isNullish, Bool.or_eq_false_iff, beq_eq_false_iff_ne, beq_eq_false_iff_ne]
  exact ⟨hreserved (by decide) (by rintro ⟨⟩ <;> rfl) (by decide),
    hreserved (by decide) (by rintro ⟨⟩ <;> rfl) (by decide)⟩

/-- The join of values with a tainted union among them is tainted. -/
theorem Join.tainted_joinValues (h : w.Setting env T) (hinitial : .initial ≤ T)
    {values inner : List TypeId} (hvalues : T.HasAll values) {u r : TypeId} (hu : u ∈ values)
    (hinner : T.lookup u = .union inner) (hunknown : .unknown ∈ inner)
    {reports reports' : List Redundancy}
    (hrun : joinValues w env T values reports T = .ok (r, reports') T') : T'.Tainted r := by
  have husort : u ∈ sort T values := List.mem_mergeSort.mpr hu
  rw [joinValues, if_pos (List.any_eq_true.mpr ⟨u, husort, by rw [hinner]; rfl⟩)] at hrun
  exact tainted_createUnion h hinitial (hasAll_sort hvalues) husort hinner hunknown
    (ReportM.lift_eq_ok.mp hrun).1

/-- What becomes of unknown among the simplified arguments of a join.  Unknown itself makes the join
unknown.  Otherwise dynamic `any` absorbs the other arguments, and after it `any` does.  Without
either of them a tainted argument that is the only value is the join, and a union with unknown as a
member makes the join tainted. -/
theorem joinTypes_keeps_unknown (h : w.Setting env T) (hinitial : .initial ≤ T)
    (htypes : T.HasAll types) (hargs : Join.shortArguments w env types T = .ok args T₁) :
    (.unknown ∈ args → joinTypes w.isSubtype w env types T = .ok .unknown T₁) ∧
    (.unknown ∉ args → .dynamicAny ∈ args →
      joinTypes w.isSubtype w env types T = .ok .dynamicAny T₁) ∧
    (.unknown ∉ args → .dynamicAny ∉ args → .any ∈ args →
      joinTypes w.isSubtype w env types T = .ok .any T₁) ∧
    (.dynamicAny ∉ args → .any ∉ args → ∀ a ∈ args,
      (T₁.Tainted a → (∀ b ∈ args, b = a ∨ b.isNullish = true) →
        joinTypes w.isSubtype w env types T = .ok a T₁) ∧
      (∀ members, T₁.lookup a = .union members → .unknown ∈ members → ∀ r T',
        joinTypes w.isSubtype w env types T = .ok r T' → T'.Tainted r)) := by
  obtain ⟨hg, ⟨hhas, -⟩, -⟩ := Join.stable_shortArguments h htypes args T₁ hargs
  have hinitial₁ := le_trans hinitial hg.le
  have hunknown (hmem : .unknown ∈ args) :
      joinTypes w.isSubtype w env types T = .ok .unknown T₁ :=
    Join.joinTypes_of_shortArguments hargs fun reports =>
      ⟨reports, Join.joinShort_of_unknown hmem reports⟩
  refine ⟨hunknown, fun hmem hdynamic => ?_, fun hmem hdynamic hany => ?_,
    fun hdynamic hany a ha => ⟨fun htainted hsame => ?_, ?_⟩⟩
  · exact Join.joinTypes_of_shortArguments hargs fun reports =>
      ⟨reports, Join.joinShort_of_dynamicAny hmem hdynamic reports⟩
  · exact Join.joinTypes_of_shortArguments hargs fun reports =>
      ⟨reports, Join.joinShort_of_any hmem hdynamic hany reports⟩
  · by_cases hmem : .unknown ∈ args
    · obtain rfl | hnullish := hsame _ hmem
      · exact hunknown hmem
      · cases hnullish
    have hdistinct := Join.distinctValues_of_single ha (htainted.isNullish hinitial₁) hsame
    refine Join.joinTypes_of_shortArguments hargs fun reports => ⟨reports, ?_⟩
    match args, ha with
    | [single], ha =>
      rw [List.mem_singleton.mp ha]
      rfl
    | first :: second :: rest, _ =>
      rw [Join.joinShort_of_values (by simp) hmem hdynamic hany, hdistinct]
  · intro members hmembers hmember r T' hrun
    by_cases hmem : .unknown ∈ args
    · rw [hunknown hmem] at hrun
      cases hrun
      exact .inl rfl
    have htainted : T₁.Tainted a := .inr ⟨.union, members, by rw [hmembers]; rfl, hmember⟩
    have hvalue := Join.mem_distinctValues ha (htainted.isNullish hinitial₁)
    have hvalues : T₁.HasAll (Join.distinctValues args) :=
      fun t ht => hhas t (Join.mem_of_mem_distinctValues ht)
    obtain ⟨args', _, reports, reports', hargs', hjoin⟩ := Join.exists_shortArguments hrun
    rw [hargs] at hargs'
    cases hargs'
    match args, ha with
    | [single], ha =>
      cases hjoin
      exact List.mem_singleton.mp ha ▸ htainted
    | first :: second :: rest, _ =>
      rw [Join.joinShort_of_values (by simp) hmem hdynamic hany] at hjoin
      generalize Join.distinctValues (first :: second :: rest) = values at *
      match values, hvalue with
      | [single], hvalue =>
        cases hjoin
        exact List.mem_singleton.mp hvalue ▸ htainted
      | _ :: _ :: _, hvalue =>
        exact Join.tainted_joinValues (h.grow hg) hinitial₁ hvalues hvalue hmembers hmember hjoin

/-- The union of unknown, `number` and `boolean` is tainted, as the union that was joined; with
`any` instead of `boolean` nothing of it is left. -/
theorem joinTypes_keeps_unknown_unknownOrNumber :
    joinTypes (World.isSubtype default) default .empty [.boolean, ⟨16⟩] unknownOrNumberTable =
      .ok ⟨17⟩ (unknownOrNumberTable.store (.union [.boolean, .unknown, .number])) ∧
    (unknownOrNumberTable.store (.union [.boolean, .unknown, .number])).Tainted ⟨17⟩ ∧
    joinTypes (World.isSubtype default) default .empty [.any, ⟨16⟩] unknownOrNumberTable =
      .ok .any unknownOrNumberTable := by
  have hinitial : TypeTable.initial ≤ unknownOrNumberTable :=
    TypeTable.le_store (TypeTable.handles_initial_of_ne (by decide))
  have hkeeps := (joinTypes_keeps_unknown unknownOrNumberTable.setting hinitial (by decide)
    (unknownOrNumberTable.shortArguments (.inl rfl))).2.2.2 (by decide) (by decide) ⟨16⟩ (by decide)
  have habsorbs := (joinTypes_keeps_unknown unknownOrNumberTable.setting hinitial (by decide)
    (unknownOrNumberTable.shortArguments (.inr rfl))).2.2.1 (by decide) (by decide) (by decide)
  exact ⟨unknownOrNumberTable.joinTypes_boolean, hkeeps.2 [.unknown, .number] rfl (by decide) _ _
    unknownOrNumberTable.joinTypes_boolean, habsorbs⟩

/-- `any` absorbs a tainted union. -/
theorem joinTypes_any_absorbs_tainted :
    Join.shortArguments default .empty [.any, ⟨16⟩] unknownOrNumberTable =
      .ok [.any, ⟨16⟩] unknownOrNumberTable ∧
    unknownOrNumberTable.Tainted ⟨16⟩ ∧
    joinTypes (World.isSubtype default) default .empty [.any, ⟨16⟩] unknownOrNumberTable =
      .ok .any unknownOrNumberTable ∧
    ¬ unknownOrNumberTable.Tainted .any := by
  have hargs := unknownOrNumberTable.shortArguments (.inr rfl)
  refine ⟨hargs, .inr ⟨.union, [.unknown, .number], rfl, by decide⟩,
    Join.joinTypes_of_shortArguments hargs fun reports => ⟨reports, ?_⟩, ?_⟩
  · rw [Join.joinShort_apply (by decide), if_neg (by decide), if_neg (by decide),
      if_pos (by decide)]
  · rintro (heq | ⟨kind, members, hmembers, -⟩)
    · exact absurd heq (by decide)
    · cases kind <;> cases hmembers

end ScriptTyping
