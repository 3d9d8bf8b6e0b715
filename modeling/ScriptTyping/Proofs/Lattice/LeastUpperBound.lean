import ScriptTyping.Proofs.Lattice.SharedSupertypes

/-!
# The join is the least upper bound

For references to non-generic classifiers the join is the least type above all of them, among such
references.  It is found in one of four ways: as an argument above all others, as the one lowest
super type that the arguments share, as the intersection of several lowest ones, or as `Object` when
they share nothing else.

## Main definitions

* `Join.Joins` — the type is the least upper bound of declarations.
* `World.IsSubtypeOf` — a subtype query gives a positive answer.

## Main results

* `Join.yields_joinDistinct` — the four ways.
* `joinTypes_isLeastUpperBound` — what the join is, and that it is the least upper bound.
-/

namespace ScriptTyping

variable {w : World} {env : Environment} {T₀ T T' : TypeTable} {D : Set DeclId}
  {A C : DeclId → Prop}

namespace Join

variable {args : List TypeId}

/-! ### The intersection of the lowest ones -/

/-- No lowest reference makes another one go, so their intersection has them all as members. -/
theorem yields_createIntersection (h : w.NominalFragment T₀ D) (henv : env.ReplacesNothing)
    (hC : ∀ c, C c → c ∈ D) (hg : T₀.GrowsTo T) {members : List TypeId}
    (hmembers : T.Lists members (w.Lowest T₀ C)) (hnodup : members.Nodup)
    (hseveral : 2 ≤ members.length) :
    TypeM.Yields (createIntersection w.isSubtype w env members) T
      fun T' t => T'.lookup? t = some (.intersection members) := by
  have hT := hg.wellFormed
  have hrefers {t : TypeId} (ht : t ∈ members) := hmembers.sound t ht
  have hhas : T.HasAll members := fun t ht => (hrefers ht).choose_spec.2.has hT
  have hplain (t : TypeId) (ht : t ∈ members) :
      Composite.members? .intersection (T.lookup t) = none := by
    obtain ⟨c, -, hc⟩ := hrefers ht
    rw [hc.lookup hT]
    rfl
  have hdropped : TypeM.Yields (Composite.dropped .intersection w.isSubtype env
      (members.filter Composite.isCandidate)) T fun _ gone => gone = [] := by
    rw [Composite.dropped]
    split
    · exact .pure hT rfl
    refine (TypeM.yieldsLogic.mapM_forall₂ (R := fun _ _ o => o = none)
      (fun _ _ _ _ _ hnone => hnone) _ hT fun t ht T₁ hg₁ => ?_).bind
      fun found T₁ hg₁ hfound => .pure hg₁.wellFormed ?_
    · refine TypeM.Yields.bind (TypeM.yieldsLogic.findM?_none _ hg₁.wellFormed
        fun s hs T₂ hg₂ => ?_) fun o T₂ hg₂ ho => .pure hg₂.wellFormed (by rw [ho]; rfl)
      split
      · exact .pure hg₂.wellFormed rfl
      obtain ⟨c, hc, hcrefers⟩ := hrefers (List.mem_filter.mp ht).1
      obtain ⟨c', hc', hcrefers'⟩ := hrefers (List.mem_filter.mp hs).1
      have hle := (hg₁.trans hg₂).le
      refine (h.yields_strict henv ((hg.trans hg₁).trans hg₂) (hC c' hc'.1) (hC c hc.1)
        (hcrefers'.of_le hle) (hcrefers.of_le hle)).mono fun _ b _ hb => ?_
      exact Bool.eq_false_iff.mpr fun htrue => (hb.mp htrue).2 (hc.2 c' hc'.1 (hb.mp htrue).1)
    · refine List.filterMap_eq_nil_iff.mpr fun o ho => ?_
      obtain ⟨_, -, hnone⟩ := TypeM.exists_of_mem_of_forall₂ hfound.flip ho
      exact hnone
  have hleaves : (do TypeM.ofOption (Composite.leaves? .intersection (← get) members)) T =
      .ok members T :=
    TypeM.ofOption_eq_ok.mpr ⟨Composite.leaves?_of_plain hT le_rfl hhas hplain, rfl⟩
  rw [createIntersection, Composite.create, bind_pure_comp, Composite.fst_build]
  refine .of_eq (TypeM.bind_of_ok hleaves) ?_
  rw [eraseDups_of_nodup hnodup]
  obtain _ | ⟨first, _ | ⟨second, rest⟩⟩ := members
  · cases hseveral
  · cases Nat.lt_irrefl 1 hseveral
  refine hdropped.bind fun gone T₁ hg₁ hgone => ?_
  rw [hgone, Composite.survivors_nil fun hunion => by cases hunion]
  refine (TypeM.yields_intern (.intersection (first :: second :: rest)) hg₁.wellFormed
    (hhas.of_le hg₁.le)).mono fun T₂ t hg₂ ht => hg₂.wellFormed.handles_sound _ _ ht

/-! ### The four ways -/

/-- The type is an intersection of few references, and the intersection of their declarations is the
least upper bound of others. -/
def Joins (w : World) (T₀ : TypeTable) (D : Set DeclId) (A : DeclId → Prop) (T : TypeTable)
    (t : TypeId) : Prop :=
  ∃ members M, T.Meets t members ∧ T.Lists members M ∧ members.length < World.supertypeLimit ∧
    w.IsJoin T₀ D A M

theorem joins_reference {t : TypeId} {e : DeclId} (ht : T.Refers t e)
    (hjoin : w.IsJoin T₀ D A (· = e)) : Joins w T₀ D A T t := by
  refine ⟨[t], (· = e), .single, ⟨fun s hs => ?_, fun e' he' => ?_⟩,
    (by decide : 1 < World.supertypeLimit), hjoin⟩
  · exact ⟨e, rfl, List.mem_singleton.mp hs ▸ ht⟩
  · exact ⟨t, List.mem_singleton_self t, he' ▸ ht⟩

theorem yields_joinDistinct (h : w.NominalFragment T₀ D) (henv : env.ReplacesNothing)
    (hA : ∀ a, A a → a ∈ D) (hg : T₀.GrowsTo T) (hargs : T.Lists args A) (hne : args ≠ [])
    (join : List TypeId → ReportM TypeId) :
    ReportM.Yields (joinDistinct w.isSubtype w env join args) T (Joins w T₀ D A) := by
  obtain ⟨t, ht⟩ := List.exists_mem_of_ne_nil args hne
  obtain ⟨a, ha, -⟩ := hargs.sound t ht
  rw [joinDistinct]
  refine (yields_tops h hA hg hargs henv).bind fun tops T₁ hg₁ htops => ?_
  cases tops with
  | cons top rest =>
    obtain ⟨htop, habove⟩ := (htops top).mp (List.mem_cons_self ..)
    obtain ⟨e, he, hrefers⟩ := hargs.sound top htop
    exact .pure hg₁.wellFormed (joins_reference (hrefers.of_le hg₁.le)
      (World.isJoin_of_top hA he (habove e hrefers)))
  | nil =>
    refine (yields_common h hA (hg.trans hg₁) (hargs.of_le hg₁.le) hne join).bind
      fun shared T₂ hg₂ hshared => ?_
    have hgrow₂ := (hg.trans hg₁).trans hg₂
    refine (ReportM.Yields.lift (yields_minimal h henv (fun _ hc => hc.mem h hA ha) hgrow₂
      hshared.1 hshared.2)).bind fun lowest T₃ hg₃ hlowest => ?_
    obtain ⟨hlowest, hnodup⟩ := hlowest
    have hT₃ := hg₃.wellFormed
    have hgrow₃ := hgrow₂.trans hg₃
    have hfew : lowest.length < World.supertypeLimit := by
      refine h.length_lt (T := T₃) (hA a ha) hnodup fun t ht => ?_
      obtain ⟨c, hc, hrefers⟩ := hlowest.sound t ht
      exact ⟨c, hc.1.2 a ha, hrefers⟩
    obtain _ | ⟨first, _ | ⟨second, rest⟩⟩ := lowest
    · have hobjects : ReportM.Yields
          (args.allM fun t => (liftM (w.isObjectLike t) : ReportM Bool)) T₃
          fun _ b => b = true ↔ ∀ t ∈ args, True := by
        refine ReportM.yieldsLogic.allM_iff args hT₃ fun t ht T₄ hg₄ => .lift ?_
        obtain ⟨d, hd, hrefers⟩ := hargs.sound t ht
        have hle := (((hg₁.trans hg₂).trans hg₃).trans hg₄).le
        refine (h.yields_isObjectLike hg₄.wellFormed (hA d hd) (hrefers.of_le hle)).mono ?_
        exact fun _ _ _ hb => ⟨fun _ => trivial, fun _ => hb⟩
      refine hobjects.bind fun b T₄ hg₄ hb => ?_
      rw [if_pos (hb.mpr fun _ _ => trivial)]
      refine .pure hg₄.wellFormed (joins_reference (h.objectType.of_le (hgrow₃.trans hg₄).le)
        (h.isJoin_object hA ha fun m hm => ?_))
      obtain ⟨_, hmem, -⟩ := hlowest.complete m hm
      cases hmem
    · obtain ⟨m, hm, -⟩ := hlowest.sound first (List.mem_singleton_self first)
      exact .pure hT₃ ⟨_, _, .single, hlowest, hfew, h.isJoin_lowest hA ha hm⟩
    · obtain ⟨m, hm, -⟩ := hlowest.sound first (List.mem_cons_self ..)
      refine (ReportM.Yields.lift (yields_createIntersection h henv (fun _ hc => hc.mem h hA ha)
        hgrow₃ hlowest hnodup (by simp))).mono fun T₄ t hg₄ ht => ?_
      exact ⟨_, _, .several (by simp) ht, hlowest.of_le hg₄.le, hfew, h.isJoin_lowest hA ha hm⟩

/-- The join of a single reference is that reference. -/
theorem joins_single {t : TypeId} (hT : T.WellFormed) (hA : ∀ a, A a → a ∈ D)
    (h : T.Lists [t] A) : Joins w T₀ D A T t := by
  obtain ⟨a, ha, ht⟩ := h.sound t (List.mem_singleton_self t)
  refine joins_reference ht (World.isJoin_of_top hA ha fun b hb => ?_)
  obtain ⟨s, hs, hrefers⟩ := h.complete b hb
  cases List.mem_singleton.mp hs
  exact hrefers.decl_unique hT ht ▸ .refl b

section Fragment

variable (h : w.NominalFragment T₀ D) (henv : env.ReplacesNothing) (hA : ∀ a, A a → a ∈ D)
  (hg : T₀.GrowsTo T)

include h henv hA hg

theorem yields_joinShort (hargs : T.Lists args A) (hne : args ≠ []) :
    ReportM.Yields (joinShort w.isSubtype w env (nested w env) args) T (Joins w T₀ D A) := by
  have hT := hg.wellFormed
  have hreserved (r : TypeId) (hr : r.index < TypeId.firstDynamic) : r ∉ args := by
    intro hmem
    obtain ⟨a, -, hrefers⟩ := hargs.sound r hmem
    have := Subtyping.reserved_le_of_nominal (le_trans h.initial hg.le) (hrefers.lookup hT)
    omega
  obtain _ | ⟨first, _ | ⟨second, rest⟩⟩ := args
  · cases hne rfl
  · exact .pure hT (joins_single hT hA hargs)
  intro reports
  rw [joinShort_of_values (by simp) (hreserved _ (by decide)) (hreserved _ (by decide))
    (hreserved _ (by decide))]
  have hvalues : T.Lists (distinctValues (first :: second :: rest)) A := by
    refine hargs.of_mem_iff fun t => ⟨mem_of_mem_distinctValues, fun ht => ?_⟩
    refine mem_distinctValues ht ?_
    rw [TypeId.isNullish, Bool.or_eq_false_iff, beq_eq_false_iff_ne, beq_eq_false_iff_ne]
    exact ⟨fun heq => hreserved .null (by decide) (heq ▸ ht),
      fun heq => hreserved .undefined (by decide) (heq ▸ ht)⟩
  generalize distinctValues (first :: second :: rest) = values at hvalues
  obtain _ | ⟨value, _ | ⟨other, others⟩⟩ := values
  · obtain ⟨a, ha, -⟩ := hargs.sound first (List.mem_cons_self ..)
    obtain ⟨_, hmem, -⟩ := hvalues.complete a ha
    cases hmem
  · exact ⟨value, reports, T, rfl, .refl hT, joins_single hT hA hvalues⟩
  · have hsorted : T.Lists (sort T (value :: other :: others)) A :=
      hvalues.of_mem_iff fun t => List.mem_mergeSort
    dsimp only
    rw [joinValues, if_neg]
    · refine yields_joinDistinct h henv hA hg hsorted (fun hnil => ?_) _ reports
      have hmem : value ∈ sort T (value :: other :: others) :=
        List.mem_mergeSort.mpr (List.mem_cons_self ..)
      rw [hnil] at hmem
      cases hmem
    · intro hany
      obtain ⟨t, ht, hunion⟩ := List.any_eq_true.mp hany
      obtain ⟨a, -, hrefers⟩ := hsorted.sound t ht
      rw [hrefers.lookup hT] at hunion
      cases hunion

theorem yields_joinTypes {types : List TypeId} (htypes : T.Lists types A) (hne : types ≠ []) :
    TypeM.Yields (joinTypes w.isSubtype w env types) T (Joins w T₀ D A) := by
  have hjoin : ReportM.Yields ((types.mapM fun t => ReportM.collect (simplify w.isSubtype w env t))
      >>= joinShort w.isSubtype w env (nested w env)) T (Joins w T₀ D A) := by
    refine (ReportM.yieldsLogic.mapM_forall₂ (R := fun _ t a => t = a) (fun _ _ _ _ _ heq => heq)
      types hg.wellFormed fun t ht T₁ hg₁ reports => ?_).bind fun args T₁ hg₁ hargs => ?_
    · -- References are simple as they are.
      obtain ⟨a, -, hrefers⟩ := htypes.sound t ht
      have hplain (kind : Composite) : kind.members? (T₁.lookup t) = none := by
        rw [(hrefers.of_le hg₁.le).lookup hg₁.wellFormed]
        cases kind <;> rfl
      refine ⟨t, reports ++ [], T₁, ?_, .refl hg₁.wellFormed, rfl⟩
      rw [ReportM.collect_apply]
      exact TypeM.bind_eq_ok.mpr ⟨(t, []), T₁, simplify_of_plain hplain, rfl⟩
    · have hsame : types = args := by rwa [List.forall₂_eq_eq_eq] at hargs
      subst hsame
      exact yields_joinShort h henv hA (hg.trans hg₁) (htypes.of_le hg₁.le) hne
  obtain ⟨t, reports, T', hrun, hg', ht⟩ := hjoin []
  exact ⟨t, T', TypeM.bind_eq_ok.mpr ⟨(t, reports), T', hrun, rfl⟩, hg', ht⟩

end Fragment

end Join

/-! ### The least upper bound -/

/-- From the table, the subtype query gives a positive answer. -/
def World.IsSubtypeOf (w : World) (env : Environment) (T : TypeTable) (s t : TypeId) : Prop :=
  ∃ T', w.isSubtype env s t T = .ok true T'

theorem World.isSubtypeOf_iff {s t : TypeId} {P : Prop}
    (h : TypeM.Yields (w.isSubtype env s t) T fun _ b => b = true ↔ P) :
    w.IsSubtypeOf env T s t ↔ P := by
  obtain ⟨b, T', hrun, -, hb⟩ := h
  constructor
  · rintro ⟨T'', hrun'⟩
    cases hrun.symm.trans hrun'
    exact hb.mp rfl
  · intro hP
    exact ⟨T', hb.mpr hP ▸ hrun⟩

/-- The join of references to non-generic classifiers returns such a reference or an intersection of
several, and it is their least upper bound among such references, from then on: all of them are
below it, and it is below every such reference that all of them are below. -/
theorem joinTypes_isLeastUpperBound (h : w.NominalFragment T D) (henv : env.ReplacesNothing)
    {types : List TypeId} (hne : types ≠ []) (htypes : ∀ s ∈ types, ∃ d ∈ D, T.Refers s d) :
    ∃ t T', joinTypes w.isSubtype w env types T = .ok t T' ∧ T.GrowsTo T' ∧
      (∃ members, T'.Meets t members ∧ ∀ m ∈ members, ∃ d ∈ D, T'.Refers m d) ∧
      ∀ T'', T'.GrowsTo T'' →
        (∀ s ∈ types, w.IsSubtypeOf env T'' s t) ∧
        ∀ u, ∀ e ∈ D, T''.Refers u e → (∀ s ∈ types, w.IsSubtypeOf env T'' s u) →
          w.IsSubtypeOf env T'' t u := by
  have hlists : T.Lists types fun a => a ∈ D ∧ ∃ s ∈ types, T.Refers s a := by
    refine ⟨fun s hs => ?_, fun a ha => ha.2⟩
    obtain ⟨d, hd, hrefers⟩ := htypes s hs
    exact ⟨d, ⟨hd, s, hs, hrefers⟩, hrefers⟩
  obtain ⟨t, T', hrun, hg, members, M, hmeets, hmembers, hfew, hjoin⟩ :=
    Join.yields_joinTypes h henv (fun a ha => ha.1) (.refl h.wellFormed) hlists hne
  refine ⟨t, T', hrun, hg, ⟨members, hmeets, fun m hm => ?_⟩, fun T'' hg' => ?_⟩
  · obtain ⟨d, hd, hrefers⟩ := hmembers.sound m hm
    exact ⟨d, hjoin.mem d hd, hrefers⟩
  have hg'' := hg.trans hg'
  have hmembers := hmembers.of_le hg'.le
  have hmeets := hmeets.of_le hg'.le
  refine ⟨fun s hs => ?_, fun u e he hu habove => ?_⟩
  · obtain ⟨d, hd, hrefers⟩ := htypes s hs
    refine (World.isSubtypeOf_iff (h.yields_isSubtype_meet henv hg'' hjoin.mem hmembers hfew hd
      (hrefers.of_le hg''.le) hmeets)).mpr fun m hm => ?_
    exact hjoin.upper d m ⟨hd, s, hs, hrefers⟩ hm
  · refine (World.isSubtypeOf_iff (h.yields_meet_isSubtype henv hg'' hjoin.mem hmembers hfew he hu
      hmeets)).mpr (hjoin.least e he ?_)
    rintro a ⟨ha, s, hs, hrefers⟩
    exact (World.isSubtypeOf_iff (h.yields_isSubtype henv hg'' ha he (hrefers.of_le hg''.le) hu)).mp
      (habove s hs)

/-! ### An example -/

/-- The table with the references to the first declarations. -/
def referenceTable : Nat → TypeTable
  | 0 => .initial
  | n + 1 => (referenceTable n).store (.nominal ⟨n + 1⟩ [])

namespace referenceTable

theorem rows_size (n : Nat) : (referenceTable n).rows.size = TypeId.firstDynamic + n := by
  induction n with
  | zero => rfl
  | succ n ih => simp [referenceTable, TypeTable.store, ih, Nat.add_assoc]

/-- Further declarations have no reference yet. -/
theorem handles_of_le {n m : Nat} (hle : n ≤ m) :
    (referenceTable n).handles[TypeData.nominal ⟨m + 1⟩ []]? = none := by
  induction n with
  | zero => exact TypeTable.handles_initial_of_ne (by simp [intrinsics])
  | succ n ih =>
    rw [referenceTable, TypeTable.handles_store_of_ne, ih (by omega)]
    simp only [ne_eq, TypeData.nominal.injEq, DeclId.mk.injEq, and_true]
    omega

theorem wellFormed (n : Nat) : (referenceTable n).WellFormed := by
  induction n with
  | zero => exact TypeTable.wellFormed_initial
  | succ n ih => exact TypeTable.wellFormed_store ih TypeTable.hasAll_nil

theorem le_succ (n : Nat) : referenceTable n ≤ referenceTable (n + 1) :=
  TypeTable.le_store (handles_of_le le_rfl)

theorem initial_le (n : Nat) : .initial ≤ referenceTable n := by
  induction n with
  | zero => exact le_rfl
  | succ n ih => exact le_trans ih (le_succ n)

/-- The references stand in the rows behind the reserved ones. -/
theorem refers {n i : Nat} (hi : i < n) :
    (referenceTable n).Refers ⟨TypeId.firstDynamic + i⟩ ⟨i + 1⟩ := by
  induction n with
  | zero => cases hi
  | succ n ih =>
    rcases Nat.lt_succ_iff_lt_or_eq.mp hi with hlt | rfl
    · exact (ih hlt).of_le (le_succ n)
    · rw [← rows_size]
      exact TypeTable.handles_store ..

end referenceTable

/-- `Object`, two interfaces that extend each other, a third interface, and two classes that
implement the first and the third. -/
def crossedInterfaces : World where
  declarations := ⟨#[
    { kind := .classType, name := .none },
    { kind := .interfaceType, name := .none, superType := some ⟨18⟩ },
    { kind := .interfaceType, name := .none, superType := some ⟨17⟩ },
    { kind := .interfaceType, name := .none },
    { kind := .classType, name := .none, interfaces := [⟨17⟩, ⟨19⟩] },
    { kind := .classType, name := .none, interfaces := [⟨19⟩, ⟨17⟩] }]⟩
  builtins := { (default : Builtins) with object := ⟨1⟩, objectType := ⟨16⟩ }
  fuel := 1

namespace crossedInterfaces

/-- All declarations. -/
def all : List DeclId := [⟨1⟩, ⟨2⟩, ⟨3⟩, ⟨4⟩, ⟨5⟩, ⟨6⟩]

theorem mem_all {i : Nat} (hi : i < 6) : (⟨i + 1⟩ : DeclId) ∈ all := by
  have hall : ∀ i < 6, (⟨i + 1⟩ : DeclId) ∈ all := by decide
  exact hall i hi

theorem classifiers : crossedInterfaces.Classifiers (referenceTable 6) {d | d ∈ all} where
  wellFormed := referenceTable.wellFormed 6
  initial := referenceTable.initial_le 6
  classifier d hd := by
    have hall : ∀ d ∈ all, ∃ info ∈ crossedInterfaces.decl? d,
      info.kind.isClassifier = true ∧ info.isGeneric = false := by decide
    exact hall d hd
  clauses d hd info hinfo _ t ht := by
    have hall : ∀ d ∈ all, ∀ info ∈ crossedInterfaces.decl? d, ∀ t ∈ info.clauses,
      TypeId.firstDynamic ≤ t.index ∧ t.index < TypeId.firstDynamic + 6 := by decide
    obtain ⟨hge, hlt⟩ := hall d hd info hinfo t ht
    obtain ⟨i, hi⟩ : ∃ i, t.index = TypeId.firstDynamic + i := ⟨_, (Nat.add_sub_cancel' hge).symm⟩
    have hindex : t = ⟨TypeId.firstDynamic + i⟩ := congrArg TypeId.mk hi
    exact ⟨⟨i + 1⟩, mem_all (by omega), hindex ▸ referenceTable.refers (by omega)⟩
  enumBases d hd info kind hinfo hkind := by
    have hall : ∀ d ∈ all, ∀ info ∈ crossedInterfaces.decl? d, info.enumKind? = none := by decide
    have hnone := hall d hd info hinfo
    rw [Declaration.enumKind?, hkind] at hnone
    cases hnone
  object := by decide
  objectType := referenceTable.refers (by decide : 0 < 6)

theorem fragment : crossedInterfaces.NominalFragment (referenceTable 6) {d | d ∈ all} where
  toClassifiers := classifiers
  fuel := by decide
  object_top e he := by
    cases he with
    | clause hinfo _ ht =>
      cases hinfo
      cases ht
    | root _ _ _ hne => exact hne rfl
    | enumBase hinfo hkind =>
      cases hinfo
      cases hkind
  bounded d hd := ⟨all, by decide, fun _ he => classifiers.mem_of_reaches hd he⟩

/-- Both classes are below all three interfaces. -/
theorem below {i j : Nat} (hi : i = 4 ∨ i = 5) (hj : j = 1 ∨ j = 2 ∨ j = 3) :
    crossedInterfaces.Below (referenceTable 6) ⟨i + 1⟩ ⟨j + 1⟩ := by
  have hstep {d : DeclId} {info : Declaration} (k : Nat) (hk : k < 6)
      (hd : crossedInterfaces.decl? d = some info) (hkind : info.kind.hasClauses = true)
      (ht : ⟨TypeId.firstDynamic + k⟩ ∈ info.clauses) :
      crossedInterfaces.Extends (referenceTable 6) d ⟨k + 1⟩ :=
    .clause hd hkind ht (referenceTable.refers hk)
  have hfirst : crossedInterfaces.Extends (referenceTable 6) ⟨i + 1⟩ ⟨2⟩ := by
    rcases hi with rfl | rfl <;> exact hstep 1 (by decide) rfl rfl (by decide)
  have hthird : crossedInterfaces.Extends (referenceTable 6) ⟨i + 1⟩ ⟨4⟩ := by
    rcases hi with rfl | rfl <;> exact hstep 3 (by decide) rfl rfl (by decide)
  rcases hj with rfl | rfl | rfl
  · exact .inr (.single hfirst)
  · exact .inr ((Relation.ReflTransGen.single hfirst).tail
      (hstep 2 (by decide) rfl rfl (by decide)))
  · exact .inr (.single hthird)

/-- What can be reached from each declaration. -/
def above : DeclId → List DeclId
  | ⟨1⟩ => [⟨1⟩]
  | ⟨2⟩ | ⟨3⟩ => [⟨2⟩, ⟨3⟩]
  | ⟨4⟩ => [⟨4⟩, ⟨1⟩]
  | d => [d, ⟨2⟩, ⟨3⟩, ⟨4⟩, ⟨1⟩]

theorem mem_above {d e : DeclId} (hd : d ∈ all)
    (he : crossedInterfaces.Reaches (referenceTable 6) d e) : e ∈ above d := by
  induction he with
  | refl =>
    have hself : ∀ d ∈ all, d ∈ above d := by decide
    exact hself d hd
  | @tail e e' hreach hstep ih =>
    have hmem := classifiers.mem_of_reaches hd hreach
    cases hstep with
    | clause hinfo _ ht hrefers =>
      have hindex : ∀ e ∈ all, ∀ info ∈ crossedInterfaces.decl? e, ∀ t ∈ info.clauses,
        ∃ i < 6, t = ⟨TypeId.firstDynamic + i⟩ := by decide
      have hclosed : ∀ d ∈ all, ∀ e ∈ above d, ∀ info ∈ crossedInterfaces.decl? e, ∀ i < 6,
        ⟨TypeId.firstDynamic + i⟩ ∈ info.clauses → (⟨i + 1⟩ : DeclId) ∈ above d := by decide
      obtain ⟨i, hi, rfl⟩ := hindex e hmem _ hinfo _ ht
      exact (referenceTable.refers hi).decl_unique (referenceTable.wellFormed 6) hrefers ▸
        hclosed d hd e ih _ hinfo i hi ht
    | root hinfo _ hsuper hne =>
      have hclosed : ∀ d ∈ all, ∀ e ∈ above d, ∀ info ∈ crossedInterfaces.decl? e,
        info.superType = none → e ≠ ⟨1⟩ → (⟨1⟩ : DeclId) ∈ above d := by decide
      exact hclosed d hd e ih _ hinfo hsuper hne
    | enumBase hinfo hkind =>
      have hall : ∀ e ∈ all, ∀ info ∈ crossedInterfaces.decl? e, info.enumKind? = none := by decide
      have hnone := hall e hmem _ hinfo
      rw [Declaration.enumKind?, hkind] at hnone
      cases hnone

/-- No declaration stands between the classes and the two interfaces without a common super
type. -/
theorem not_between {d : DeclId} (hd : d ∈ all)
    (hfirst : crossedInterfaces.Below (referenceTable 6) ⟨5⟩ d)
    (hsecond : crossedInterfaces.Below (referenceTable 6) ⟨6⟩ d)
    (hleft : crossedInterfaces.Below (referenceTable 6) d ⟨2⟩)
    (hright : crossedInterfaces.Below (referenceTable 6) d ⟨4⟩) : False := by
  have hup {e : DeclId} (he : e ∈ all) (h : crossedInterfaces.Below (referenceTable 6) e d) :
      d = ⟨1⟩ ∨ d ∈ above e := h.imp_right (mem_above he)
  have hdown {e : DeclId} (h : crossedInterfaces.Below (referenceTable 6) d e) (hne : e ≠ ⟨1⟩) :
      e ∈ above d := h.elim (absurd · hne) (mem_above hd)
  have hnone : ∀ d ∈ all, (d = ⟨1⟩ ∨ d ∈ above ⟨5⟩) → (d = ⟨1⟩ ∨ d ∈ above ⟨6⟩) →
    ⟨2⟩ ∈ above d → ⟨4⟩ ∉ above d := by decide
  exact hnone d hd (hup (by decide) hfirst) (hup (by decide) hsecond)
    (hdown hleft (by decide)) (hdown hright (by decide))

/-- Later on, the subtype relation between the declarations is still their order. -/
theorem isSubtypeOf_iff (hg : (referenceTable 6).GrowsTo T) {d e : DeclId} {s u : TypeId}
    (hd : d ∈ all) (he : e ∈ all) (hs : T.Refers s d) (hu : T.Refers u e) :
    crossedInterfaces.IsSubtypeOf .empty T s u ↔
      crossedInterfaces.Below (referenceTable 6) d e :=
  World.isSubtypeOf_iff (fragment.yields_isSubtype (by decide) hg hd he hs hu)

/-- A reference below all three interfaces is not above both classes. -/
theorem not_refers (hg : (referenceTable 6).GrowsTo T) {t : TypeId} {d : DeclId} (hd : d ∈ all)
    (hupper : ∀ s ∈ [(⟨20⟩ : TypeId), ⟨21⟩], crossedInterfaces.IsSubtypeOf .empty T s t)
    (hlower : ∀ u ∈ [(⟨17⟩ : TypeId), ⟨18⟩, ⟨19⟩], crossedInterfaces.IsSubtypeOf .empty T t u) :
    ¬T.Refers t d := by
  intro ht
  have hrow {i : Nat} (hi : i < 6) : T.Refers ⟨TypeId.firstDynamic + i⟩ ⟨i + 1⟩ :=
    (referenceTable.refers hi).of_le hg.le
  refine not_between hd ?_ ?_ ?_ ?_
  · exact (isSubtypeOf_iff hg (mem_all (i := 4) (by decide)) hd (hrow (by decide)) ht).mp
      (hupper ⟨20⟩ (by decide))
  · exact (isSubtypeOf_iff hg (mem_all (i := 5) (by decide)) hd (hrow (by decide)) ht).mp
      (hupper ⟨21⟩ (by decide))
  · exact (isSubtypeOf_iff hg hd (mem_all (i := 1) (by decide)) ht (hrow (by decide))).mp
      (hlower ⟨17⟩ (by decide))
  · exact (isSubtypeOf_iff hg hd (mem_all (i := 3) (by decide)) ht (hrow (by decide))).mp
      (hlower ⟨19⟩ (by decide))

end crossedInterfaces

/-- The join of the two classes is an intersection, which is below all three interfaces, since both
classes implement them and no declaration stands between. -/
theorem joinTypes_isLeastUpperBound_crossedInterfaces :
    ∃ t T', joinTypes crossedInterfaces.isSubtype crossedInterfaces .empty [⟨20⟩, ⟨21⟩]
        (referenceTable 6) = .ok t T' ∧
      (∃ members, 2 ≤ members.length ∧ T'.lookup? t = some (.intersection members)) ∧
      (∀ s ∈ [(⟨20⟩ : TypeId), ⟨21⟩], crossedInterfaces.IsSubtypeOf .empty T' s t) ∧
      ∀ u ∈ [(⟨17⟩ : TypeId), ⟨18⟩, ⟨19⟩], crossedInterfaces.IsSubtypeOf .empty T' t u := by
  have hclass : ∀ s ∈ [(⟨20⟩ : TypeId), ⟨21⟩], ∃ i, (i = 4 ∨ i = 5) ∧
      s = ⟨TypeId.firstDynamic + i⟩ := by simp [TypeId.firstDynamic]
  obtain ⟨t, T', hrun, hg, ⟨members, hmeets, hmembers⟩, hbounds⟩ :=
    joinTypes_isLeastUpperBound crossedInterfaces.fragment
      (by decide : Environment.empty.ReplacesNothing)
      (List.cons_ne_nil ⟨20⟩ [⟨21⟩]) fun s hs => by
        obtain ⟨i, hi, rfl⟩ := hclass s hs
        exact ⟨⟨i + 1⟩, crossedInterfaces.mem_all (by omega), referenceTable.refers (by omega)⟩
  obtain ⟨hupper, hleast⟩ := hbounds T' (.refl hg.wellFormed)
  have hlower : ∀ u ∈ [(⟨17⟩ : TypeId), ⟨18⟩, ⟨19⟩],
      crossedInterfaces.IsSubtypeOf .empty T' t u := by
    intro u hu
    obtain ⟨j, hj, rfl⟩ : ∃ j, (j = 1 ∨ j = 2 ∨ j = 3) ∧ u = ⟨TypeId.firstDynamic + j⟩ := by
      simpa [TypeId.firstDynamic] using hu
    have hu := (referenceTable.refers (by omega : j < 6)).of_le hg.le
    refine hleast _ _ (crossedInterfaces.mem_all (by omega)) hu fun s hs => ?_
    obtain ⟨i, hi, rfl⟩ := hclass s hs
    exact (crossedInterfaces.isSubtypeOf_iff hg (crossedInterfaces.mem_all (by omega))
      (crossedInterfaces.mem_all (by omega)) ((referenceTable.refers (by omega)).of_le hg.le)
      hu).mpr (crossedInterfaces.below hi hj)
  refine ⟨t, T', hrun, ?_, hupper, hlower⟩
  cases hmeets with
  | several hseveral hlookup => exact ⟨members, hseveral, hlookup⟩
  | single =>
    obtain ⟨d, hd, hrefers⟩ := hmembers t (List.mem_singleton_self t)
    exact absurd hrefers (crossedInterfaces.not_refers hg hd hupper hlower)

end ScriptTyping
