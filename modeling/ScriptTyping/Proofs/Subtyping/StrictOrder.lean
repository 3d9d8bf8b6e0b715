import ScriptTyping.Proofs.Subtyping.Transitivity

/-!
# The strict subtype query

A type is strictly below another one if the query for it succeeds and the query for the other
direction does not.  Among regular types this is a transitive relation, as long as no query was cut
off: the answers given at different tables are answers about the relation at the last one.

## Main definitions

* `Subtyping.Unlimited` — a query that meets no limit.

## Main results

* `Subtyping.strict_trans` — transitivity of the strict query.
-/

namespace ScriptTyping.Subtyping

variable {w : World} {T₀ T : TypeTable} {D : Set DeclId} {a b c s t : TypeId}

/-- The query from the table meets no limit. -/
def Unlimited (w : World) (T : TypeTable) (s t : TypeId) : Prop :=
  ∀ b guard T', run w s t T = .ok (b, guard) T' → guard.exceeded = false

theorem strict_eq_true {rel : TypeRelation} {env : Environment} {T' : TypeTable} :
    rel.strict env s t T = .ok true T' ↔
      s ≠ t ∧ ∃ T₁, rel env s t T = .ok true T₁ ∧ rel env t s T₁ = .ok false T' := by
  rw [TypeRelation.strict]
  by_cases heq : s = t
  · rw [if_pos heq]
    exact iff_of_false (fun h => by cases h) fun h => h.1 heq
  · rw [if_neg heq, TypeM.bind_eq_ok]
    constructor
    · rintro ⟨below, T₁, hbelow, hrest⟩
      cases below with
      | false => cases hrest
      | true =>
        obtain ⟨above, T₂, habove, hreturn⟩ := TypeM.bind_eq_ok.mp hrest
        obtain ⟨hnot, rfl⟩ := TypeM.pure_eq_ok.mp hreturn
        cases above with
        | true => cases hnot
        | false => exact ⟨heq, T₁, hbelow, habove⟩
    · rintro ⟨-, T₁, hbelow, habove⟩
      exact ⟨true, T₁, hbelow, TypeM.bind_eq_ok.mpr ⟨false, T', habove, rfl⟩⟩

/-- What an answer says about the relation at later tables. -/
theorem holds_of_run {T' : TypeTable} {v : Bool} {guard : PairGuard} (hg : T₀.GrowsTo T)
    (hw : w.Within T₀) (hs : T₀.Has s) (ht : T₀.Has t)
    (hrun : run w s t T = .ok (v, guard) T') :
    T.GrowsTo T' ∧ ∀ Tₑ, T' ≤ Tₑ → (v = true → Holds w Tₑ s t) ∧
      (v = false → guard.exceeded = false → ¬Holds w Tₑ s t) := by
  have hT := hg.wellFormed
  have hw := hw.of_le hg.le
  have hst : PairWithin T (s, t) := ⟨hs.of_le hg.le, ht.of_le hg.le⟩
  obtain ⟨hgrow, -, -⟩ := stable_run hT hw hst.1 hst.2 _ _ hrun
  refine ⟨hgrow, fun Tₑ hle => ⟨?_, ?_⟩⟩
  · rintro rfl
    exact holds_of_check hT hw hst rfl hrun hle
  · rintro rfl hlimits hholds
    exact Bool.false_ne_true ((run_iff_holds hT hw hst hrun hlimits hle).mpr hholds)

/-- What a positive answer of the strict query says about the relation at later tables; the other
direction is excluded if the second question meets no limit. -/
theorem holds_of_strict {T' : TypeTable} (hg : T₀.GrowsTo T) (hw : w.Within T₀) (hs : T₀.Has s)
    (ht : T₀.Has t) (hstrict : w.isSubtype.strict .empty s t T = .ok true T') :
    T.GrowsTo T' ∧ ∀ Tₑ, T' ≤ Tₑ → Holds w Tₑ s t ∧
      ((∀ T₁, w.isSubtype .empty s t T = .ok true T₁ → Unlimited w T₁ t s) →
        ¬Holds w Tₑ t s) := by
  obtain ⟨-, T₁, hbelow, habove⟩ := strict_eq_true.mp hstrict
  obtain ⟨_, hrun⟩ := run_of_isSubtype_empty hbelow
  obtain ⟨_, hrun'⟩ := run_of_isSubtype_empty habove
  obtain ⟨hg₁, hholds⟩ := holds_of_run hg hw hs ht hrun
  obtain ⟨hg₂, hnot⟩ := holds_of_run (hg.trans hg₁) hw ht hs hrun'
  refine ⟨hg₁.trans hg₂, fun Tₑ hle => ⟨(hholds Tₑ (le_trans hg₂.le hle)).1 rfl, ?_⟩⟩
  exact fun hlimits => (hnot Tₑ hle).2 rfl (hlimits T₁ hbelow _ _ _ hrun')

/-- On regular types the strict query is transitive, as long as no limit is met. -/
theorem strict_trans {T₁ T₂ : TypeTable} (h : w.FunctionFragment T D) (hw : w.Within T)
    (ha : IsRegular w T D a) (hb : IsRegular w T D b) (hc : IsRegular w T D c)
    (hab : w.isSubtype.strict .empty a b T = .ok true T₁)
    (hbc : w.isSubtype.strict .empty b c T₁ = .ok true T₂)
    (hcb : ∀ T', w.isSubtype .empty b c T₁ = .ok true T' → Unlimited w T' c b)
    (hac : Unlimited w T₂ a c) : ∃ T₃, w.isSubtype.strict .empty a c T₂ = .ok true T₃ := by
  obtain ⟨hg₁, hab⟩ := holds_of_strict (.refl h.wellFormed) hw ha.has hb.has hab
  obtain ⟨hg₂, hbc⟩ := holds_of_strict hg₁ hw hb.has hc.has hbc
  have hgrow₂ := hg₁.trans hg₂
  -- The two questions that are asked for are answered.
  obtain ⟨⟨below, guard⟩, T₃, hbelow, -⟩ :=
    yields_run_regular h hgrow₂ (ha.of_le hgrow₂.le) (hc.of_le hgrow₂.le)
  have hlimits := hac _ _ _ hbelow
  obtain ⟨hg₃, hsub⟩ := holds_of_run hgrow₂ hw ha.has hc.has hbelow
  have hgrow₃ := hgrow₂.trans hg₃
  obtain ⟨⟨above, guard'⟩, T₄, habove, -⟩ :=
    yields_run_regular h hgrow₃ (hc.of_le hgrow₃.le) (ha.of_le hgrow₃.le)
  obtain ⟨hg₄, hsup⟩ := holds_of_run hgrow₃ hw hc.has ha.has habove
  have hgrow := hgrow₃.trans hg₄
  -- At the last table all answers are about one relation.
  have hle : T₂ ≤ T₄ := (hg₃.trans hg₄).le
  have ha := ha.of_le hgrow.le
  have hb := hb.of_le hgrow.le
  have hc := hc.of_le hgrow.le
  obtain ⟨hab, -⟩ := hab T₄ (le_trans hg₂.le hle)
  obtain ⟨hbc, hnot⟩ := hbc T₄ hle
  have hnot := hnot hcb
  have hac := holds_trans h hgrow ha hb hc hab hbc
  obtain rfl : below = true := by
    by_contra hfalse
    exact (hsub T₄ hg₄.le).2 (Bool.eq_false_of_not_eq_true hfalse) hlimits hac
  obtain rfl : above = false := by
    by_contra htrue
    refine hnot (holds_trans h hgrow hc ha hb ?_ hab)
    exact (hsup T₄ le_rfl).1 (Bool.eq_true_of_not_eq_false htrue)
  have hne : a ≠ c := by
    rintro rfl
    exact hnot hab
  exact ⟨T₄, strict_eq_true.mpr ⟨hne, T₃, isSubtype_of_run hbelow, isSubtype_of_run habove⟩⟩

/-- A world with the roots of the hierarchy and nothing else. -/
def roots : World where
  declarations := ⟨#[{ kind := .classType, name := .none }, { kind := .classType, name := .none }]⟩
  builtins := { (default : Builtins) with
    object := ⟨1⟩, objectType := ⟨16⟩, function := ⟨2⟩, functionType := ⟨17⟩ }
  fuel := 1

/-- The references to the roots, a shape with two members and one with the first of them. -/
def rootsTable : TypeTable :=
  (((TypeTable.initial.store (.nominal ⟨1⟩ [])).store (.nominal ⟨2⟩ [])).store
    (.structural [⟨⟨1⟩, .number, false, none⟩, ⟨⟨2⟩, .number, false, none⟩])).store
    (.structural [⟨⟨1⟩, .number, false, none⟩])

namespace roots

theorem wellFormed : rootsTable.WellFormed :=
  TypeTable.wellFormed_store (TypeTable.wellFormed_store (TypeTable.wellFormed_store
    (TypeTable.wellFormed_store TypeTable.wellFormed_initial (by decide)) (by decide)) (by decide))
    (by decide)

theorem initial_le : .initial ≤ rootsTable := by
  refine le_trans (TypeTable.le_store ?_) (le_trans (TypeTable.le_store ?_)
    (le_trans (TypeTable.le_store ?_) (TypeTable.le_store ?_)))
  all_goals
    repeat rw [TypeTable.handles_store_of_ne (by decide)]
    exact TypeTable.handles_initial_of_ne (by decide)

theorem refers_object : rootsTable.Refers ⟨16⟩ ⟨1⟩ := by
  rw [TypeTable.Refers, rootsTable, TypeTable.handles_store_of_ne (by decide),
    TypeTable.handles_store_of_ne (by decide), TypeTable.handles_store_of_ne (by decide)]
  exact TypeTable.handles_store ..

theorem refers_function : rootsTable.Refers ⟨17⟩ ⟨2⟩ := by
  rw [TypeTable.Refers, rootsTable, TypeTable.handles_store_of_ne (by decide),
    TypeTable.handles_store_of_ne (by decide)]
  exact TypeTable.handles_store ..

/-- All declarations. -/
def all : List DeclId := [⟨1⟩, ⟨2⟩]

theorem classifiers : roots.Classifiers rootsTable {d | d ∈ all} where
  wellFormed := wellFormed
  initial := initial_le
  classifier d hd := by
    have hall : ∀ d ∈ all, ∃ info ∈ roots.decl? d,
      info.kind.isClassifier = true ∧ info.isGeneric = false := by decide
    exact hall d hd
  clauses d hd info hinfo _ t ht := by
    have hall : ∀ d ∈ all, ∀ info ∈ roots.decl? d, info.clauses = [] := by decide
    rw [hall d hd info hinfo] at ht
    cases ht
  enumBases d hd info kind hinfo hkind := by
    have hall : ∀ d ∈ all, ∀ info ∈ roots.decl? d, info.enumKind? = none := by decide
    have hnone := hall d hd info hinfo
    rw [Declaration.enumKind?, hkind] at hnone
    cases hnone
  object := by decide
  objectType := refers_object

theorem fragment : roots.FunctionFragment rootsTable {d | d ∈ all} where
  toClassifiers := classifiers
  fuel := by decide
  object_top e he := by
    cases he with
    | clause hinfo _ ht =>
      cases hinfo
      cases ht
    | root _ _ _ hne => exact hne rfl
    | enumBase hinfo hkind =>
      cases hinfo
      cases hkind
  bounded d hd := ⟨all, by decide, fun _ he => classifiers.mem_of_reaches hd he⟩
  function := by decide
  functionType := refers_function
  functionBounded := ⟨all, by decide, fun _ he => classifiers.mem_of_reaches (by decide) he⟩

end roots

/-- The first shape is strictly below the second one, which is strictly below `Object`. -/
theorem strict_trans_shapes :
    ∃ T, roots.isSubtype.strict .empty ⟨18⟩ ⟨16⟩ rootsTable = .ok true T := by
  have hw : roots.Within rootsTable := World.within_of_entries (by decide) (by decide)
  have hnumber : Regular roots rootsTable {d | d ∈ roots.all} 1 .number := rfl
  have hshape {t : TypeId} {members : List Property}
      (ht : rootsTable.lookup t = .structural members)
      (hmembers : ∀ member ∈ members, member.optional = false ∧ member.type = .number) :
      IsRegular roots rootsTable {d | d ∈ roots.all} t := by
    refine ⟨2, ?_⟩
    rw [Regular, ht]
    intro member hmember
    obtain ⟨hrequired, htype⟩ := hmembers member hmember
    exact ⟨hrequired, htype ▸ hnumber⟩
  have ha : IsRegular roots rootsTable {d | d ∈ roots.all} ⟨18⟩ := hshape rfl (by decide)
  have hb : IsRegular roots rootsTable {d | d ∈ roots.all} ⟨19⟩ := hshape rfl (by decide)
  have hc : IsRegular roots rootsTable {d | d ∈ roots.all} ⟨16⟩ :=
    ⟨1, rfl, by decide, roots.refers_object⟩
  have hunlimited {s t : TypeId} {b : Bool} {guard : PairGuard}
      (hrun : run roots s t rootsTable = .ok (b, guard) rootsTable) (hg : guard.exceeded = false) :
      Unlimited roots rootsTable s t := by
    intro b' guard' T' hrun'
    cases hrun.symm.trans hrun'
    exact hg
  have hab : roots.isSubtype.strict .empty ⟨18⟩ ⟨19⟩ rootsTable = .ok true rootsTable := rfl
  have hbc : roots.isSubtype.strict .empty ⟨19⟩ ⟨16⟩ rootsTable = .ok true rootsTable := rfl
  have hquery : roots.isSubtype .empty ⟨19⟩ ⟨16⟩ rootsTable = .ok true rootsTable := rfl
  let guard : PairGuard := { RecursionGuard.ofProfile .subtypeCheck with iterations := 1 }
  have hcb : run roots ⟨16⟩ ⟨19⟩ rootsTable = .ok (false, guard) rootsTable := rfl
  have hac : run roots ⟨18⟩ ⟨16⟩ rootsTable = .ok (true, guard) rootsTable := rfl
  refine strict_trans roots.fragment hw ha hb hc hab hbc ?_ (hunlimited hac rfl)
  intro T' h
  cases hquery.symm.trans h
  exact hunlimited hcb rfl

/-- Optional members are no part of a regular type: the member may be missing in the middle, and is
compared where it is present. -/
example :
    let T := ((TypeTable.initial.store
      (.structural [⟨⟨1⟩, .string, false, none⟩, ⟨⟨2⟩, .number, false, none⟩])).store
      (.structural [⟨⟨2⟩, .number, false, none⟩])).store (.structural [⟨⟨1⟩, .number, true, none⟩])
    (World.isSubtype default).strict .empty ⟨16⟩ ⟨17⟩ T = .ok true T ∧
      (World.isSubtype default).strict .empty ⟨17⟩ ⟨18⟩ T = .ok true T ∧
      World.isSubtype default .empty ⟨16⟩ ⟨18⟩ T = .ok false T :=
  ⟨rfl, rfl, rfl⟩

end ScriptTyping.Subtyping
