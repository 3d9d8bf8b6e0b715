import ScriptTyping.Proofs.Lattice.Widening
import ScriptTyping.Proofs.Subtyping.Primitives
import ScriptTyping.Proofs.Table.UpperBound

/-!
# The type that a declaration takes from its initializer

A declaration shall not take a type without usable values, a wildcard or, unless it is immutable, a
literal type.  The three replacements are made in a fixed order, each on one layer.  The types
without values are replaced first, so one that is the bound of a wildcard is not replaced any more.
Literal types are widened last.  That shortens unions, in which the type that a literal belongs to
may be dropped for a wildcard, for `void` or in a circle.  Where neither happens the type of the
declaration is as it should be.

## Main definitions

* `TypeTable.Definite` — a type with values that is no wildcard.
* `TypeTable.WidensTo` — what a type that is no union widens to.
* `TypeRelation.KeepsValues` — shortening leaves one of the widened members that has values.

## Main results

* `wideningInvariant_expands` — what the members of a widened union come from.
* `sanitizeDeclared_definite` — the type that a declaration takes has values.
-/

namespace ScriptTyping

variable {rel : TypeRelation} {w : World} {env : Environment} {T T' : TypeTable}
  {leaves : List TypeId}

/-- The types without a usable value, and unknown. -/
def valueless : List TypeId := [.unknown, .null, .undefined, .void]

/-- The type has values and is no wildcard. -/
structure TypeTable.Definite (T : TypeTable) (t : TypeId) : Prop where
  valued : t ∉ valueless
  notWildcard : (T.lookup t).isWildcard = false

/-- The layers of the types without a usable value. -/
def valuelessLayers : List TypeData :=
  [.unknown, .primitive .null, .primitive .undefined, .primitive .void]

theorem TypeTable.not_mem_valueless {t : TypeId} (hinitial : .initial ≤ T)
    (h : T.lookup t ∉ valuelessLayers) : t ∉ valueless := by
  have hrows : ∀ s ∈ valueless, TypeTable.initial.Has s ∧
      TypeTable.initial.lookup s ∈ valuelessLayers := by decide
  intro ht
  obtain ⟨hhas, hlayer⟩ := hrows t ht
  exact h (TypeTable.lookup_of_le hinitial hhas ▸ hlayer)

/-- A type with values takes part in the comparison of members. -/
theorem Composite.isCandidate_of_not_mem_valueless {t : TypeId} (h : t ∉ valueless) :
    isCandidate t = true := by
  simp only [valueless, List.mem_cons, List.not_mem_nil, or_false, not_or] at h
  obtain ⟨hunknown, hnull, hundefined, -⟩ := h
  simp [isCandidate, TypeId.isUnknown, TypeId.isNullish, hunknown, hnull, hundefined]

/-! ### Upper bounds -/

namespace TypeTable

/-- The type that a declaration takes for a type with values: the upper bound of a wildcard, any
other type itself. -/
def bounded? (T : TypeTable) (t : TypeId) : Option TypeId :=
  if (T.lookup t).isWildcard then T.upperBound? t else some t

theorem exists_bounded? (hT : initial.GrowsTo T) {t : TypeId} (ht : T.Has t) :
    ∃ u, T.bounded? t = some u ∧ T.Has u ∧ (T.lookup u).isWildcard = false := by
  rw [bounded?]
  cases hwild : (T.lookup t).isWildcard with
  | true =>
    obtain ⟨u, hu, hhas, hplain, -⟩ := exists_upperBound? hT ht
    exact ⟨u, hu, hhas, hplain⟩
  | false => exact ⟨t, rfl, ht, hwild⟩

end TypeTable

/-! ### Widened members -/

namespace TypeTable

/-- What a type that is no union widens to: the type that a literal belongs to, or the type
itself. -/
def WidensTo (T : TypeTable) (leaf s : TypeId) : Prop :=
  match T.lookup leaf with
  | .literal value => T.handles[value.baseLayer]? = some s
  | _ => s = leaf

theorem widensTo_of_literal {leaf s : TypeId} {value : LiteralValue}
    (h : T.lookup leaf = .literal value) :
    T.WidensTo leaf s ↔ T.handles[value.baseLayer]? = some s := by
  rw [WidensTo, h]

theorem widensTo_self {leaf : TypeId} (h : ¬∃ value, T.lookup leaf = .literal value) :
    T.WidensTo leaf leaf := by
  rw [WidensTo]
  split
  · rename_i value hd
    exact absurd ⟨value, hd⟩ h
  · rfl

theorem WidensTo.of_le (hle : T ≤ T') {leaf s : TypeId} (hleaf : T.Has leaf)
    (h : T.WidensTo leaf s) : T'.WidensTo leaf s := by
  rw [WidensTo, lookup_of_le hle hleaf]
  rw [WidensTo] at h
  split at h
  · exact hle.handles _ _ h
  · exact h

/-- Nothing widens to a literal type. -/
theorem WidensTo.not_literal (hT : T.WellFormed) {leaf s : TypeId} (h : T.WidensTo leaf s) :
    ¬∃ value, T.lookup s = .literal value := by
  rw [WidensTo] at h
  split at h
  · rename_i value _
    rw [lookup_eq (hT.handles_sound _ _ h)]
    rintro ⟨value', heq⟩
    cases value <;> cases heq
  · rename_i hd
    rw [h]
    exact fun ⟨value, heq⟩ => hd value heq

/-- The type that a literal belongs to has values. -/
theorem definite_of_baseLayer (hT : initial.GrowsTo T) {value : LiteralValue} {b : TypeId}
    (h : T.handles[value.baseLayer]? = some b) : T.Definite b := by
  have hlookup := lookup_eq (hT.wellFormed.handles_sound _ _ h)
  refine ⟨not_mem_valueless hT.le ?_, ?_⟩
  · rw [hlookup]
    cases value <;> simp [LiteralValue.baseLayer, valuelessLayers]
  · rw [hlookup]
    cases value <;> rfl

end TypeTable

/-- At every later table, the relation decides about what the members widen to, without circles, and
nothing that is dropped is below `void` or a wildcard. -/
def TypeRelation.KeepsValues (rel : TypeRelation) (env : Environment) (T : TypeTable)
    (leaves : List TypeId) : Prop :=
  ∀ T₁ ts, T.GrowsTo T₁ → (∀ s ∈ ts, ∃ leaf ∈ leaves, T₁.WidensTo leaf s) →
    ∃ below, rel.Decides env ts below T₁ ∧ Composite.Acyclic .union below ts ∧
      ∀ s ∈ ts, ∀ u ∈ ts, Composite.isCandidate u = true → Composite.Absorbs .union below u s →
        T₁.Definite u

/-- If everything that absorbs a candidate has a property, and some candidate has it, then so has
one of the candidates that stay. -/
theorem Composite.IsNormalForm.exists_of_absorbs {kind : Composite}
    {below : TypeId → TypeId → Prop} {flat kept : List TypeId}
    (h : kind.IsNormalForm below flat kept) (hacyclic : kind.Acyclic below flat)
    {p : TypeId → Prop} (hp : ∀ s ∈ flat, ∀ u ∈ flat, isCandidate u = true →
      kind.Absorbs below u s → p u)
    (hex : ∃ t ∈ flat, isCandidate t = true ∧ p t) : ∃ k ∈ kept, isCandidate k = true ∧ p k := by
  have hfound (t : {t // t ∈ flat}) : isCandidate t = true → p t →
      ∃ k ∈ kept, isCandidate k = true ∧ p k := by
    induction t using hacyclic.wellFounded.induction with
    | _ t ih =>
      intro hcand hpt
      by_cases hkept : t.1 ∈ kept
      · exact ⟨t, hkept, hcand, hpt⟩
      obtain ⟨-, other, hother, hothercand, habsorbs⟩ := (h.candidate t t.2 hcand).mp hkept
      exact ih ⟨other, hother⟩ habsorbs hothercand (hp t t.2 other hother hothercand habsorbs)
  obtain ⟨t, ht, hcand, hpt⟩ := hex
  exact hfound ⟨t, ht⟩ hcand hpt

/-- The type, with whatever it is expanded to among the given types. -/
def ExpandsWithin (T : TypeTable) (leaves : List TypeId) (t : TypeId) : Prop :=
  T.Has t ∧ ∀ part, Composite.Expands .union T [t] part → ∀ x ∈ part, x ∈ leaves

/-- At a later table, the type is expanded to what the given types widen to, with one that has
values if there was something to widen, and nothing changed otherwise. -/
structure WidenedWithin (T₀ T : TypeTable) (leaves : List TypeId) (s r : TypeId) : Prop where
  has : T.Has r
  same : ¬HoldsLiteral T₀ s → r = s
  expands : ∃ stay, Composite.Expands .union T [r] stay ∧
    (∀ x ∈ stay, ∃ leaf ∈ leaves, T.WidensTo leaf x) ∧
    (HoldsLiteral T₀ s → ∃ x ∈ stay, Composite.isCandidate x = true ∧ T.Definite x)

theorem ExpandsWithin.members (hT : T.WellFormed) (hdesc : T.Descending) {t : TypeId}
    {members : List TypeId} (ht : ExpandsWithin T leaves t) (hd : T.lookup t = .union members) :
    ∀ s ∈ members, ExpandsWithin T leaves s := by
  intro s hs
  refine ⟨hT.hasAll_of_lookup hd s hs, fun part hpart x hx => ?_⟩
  obtain ⟨inner, hinner⟩ : ∃ inner, Composite.Expands .union T members inner :=
    Composite.exists_expands hdesc members
  have hmembers : Composite.members? .union (T.lookup t) = some members := by rw [hd]; rfl
  exact ht.2 inner (.single hmembers hinner) x (hinner.mem_iff.mpr ⟨s, hs, part, hpart, hx⟩)

namespace WidenedWithin

variable {T₀ : TypeTable} {s r : TypeId}

theorem of_le (hT : T.WellFormed) (hT₀ : T₀ ≤ T) (hleaves : T₀.HasAll leaves) (hle : T ≤ T')
    (h : WidenedWithin T₀ T leaves s r) : WidenedWithin T₀ T' leaves s r where
  has := h.has.of_le hle
  same := h.same
  expands := by
    obtain ⟨stay, hstay, horigin, hvalue⟩ := h.expands
    have hhas := hstay.hasAll hT h.has.hasAll
    refine ⟨stay, hstay.of_le hT hle h.has.hasAll, fun x hx => ?_, fun hholds => ?_⟩
    · obtain ⟨leaf, hleaf, hwidens⟩ := horigin x hx
      exact ⟨leaf, hleaf, hwidens.of_le hle ((hleaves leaf hleaf).of_le hT₀)⟩
    · obtain ⟨x, hx, hcand, hdefinite⟩ := hvalue hholds
      refine ⟨x, hx, hcand, hdefinite.valued, ?_⟩
      rw [TypeTable.lookup_of_le hle (hhas x hx)]
      exact hdefinite.notWildcard

/-- A type that is no union and no literal type is kept. -/
theorem of_plain (hle : T₀ ≤ T) (hs : ExpandsWithin T₀ leaves s) (hplain : ¬HoldsLiteral T₀ s)
    (hunion : Composite.members? .union (T₀.lookup s) = none) :
    WidenedWithin T₀ T leaves s s where
  has := hs.1.of_le hle
  same _ := rfl
  expands := by
    have hlookup := TypeTable.lookup_of_le hle hs.1
    refine ⟨[s], .leaf (hlookup ▸ hunion) .nil, ?_, fun hholds => absurd hholds hplain⟩
    refine List.forall_mem_singleton.mpr ⟨s, ?_, TypeTable.widensTo_self ?_⟩
    · exact hs.2 [s] (.leaf hunion .nil) s (List.mem_singleton_self s)
    · rw [hlookup]
      exact (holdsLiteral_plain hunion).not.mp hplain

/-- A literal type is widened to the type that it belongs to. -/
theorem of_literal (hT : TypeTable.initial.GrowsTo T) (hle : T₀ ≤ T)
    (hs : ExpandsWithin T₀ leaves s) {value : LiteralValue} (hd : T₀.lookup s = .literal value)
    (hr : T.handles[value.baseLayer]? = some r) : WidenedWithin T₀ T leaves s r where
  has := TypeTable.has_iff.mpr ⟨_, hT.wellFormed.handles_sound _ _ hr⟩
  same hplain := absurd (.literal hd) hplain
  expands := by
    have hunion : Composite.members? .union (T₀.lookup s) = none := by rw [hd]; rfl
    have hbase : Composite.members? .union (T.lookup r) = none := by
      rw [TypeTable.lookup_eq (hT.wellFormed.handles_sound _ _ hr)]
      cases value <;> rfl
    have hdefinite := TypeTable.definite_of_baseLayer hT hr
    refine ⟨[r], .leaf hbase .nil, List.forall_mem_singleton.mpr ⟨s, ?_, ?_⟩,
      fun _ => ⟨r, List.mem_singleton_self r, ?_, hdefinite⟩⟩
    · exact hs.2 [s] (.leaf hunion .nil) s (List.mem_singleton_self s)
    · exact (TypeTable.widensTo_of_literal (TypeTable.lookup_of_le hle hs.1 ▸ hd)).mpr hr
    · exact Composite.isCandidate_of_not_mem_valueless hdefinite.valued

/-- The widened members of a union, when they are expanded, come from the given types. -/
theorem of_members {t : TypeId} {members widened inner : List TypeId}
    (hd : T₀.lookup t = .union members)
    (h : List.Forall₂ (WidenedWithin T₀ T leaves) members widened)
    (hinner : Composite.Expands .union T widened inner) :
    (∀ x ∈ inner, ∃ leaf ∈ leaves, T.WidensTo leaf x) ∧
      (HoldsLiteral T₀ t → ∃ x ∈ inner, Composite.isCandidate x = true ∧ T.Definite x) := by
  constructor
  · intro x hx
    obtain ⟨r, hr, part, hpart, hmem⟩ := hinner.mem_iff.mp hx
    obtain ⟨s, -, hsr⟩ := TypeM.exists_of_mem_of_forall₂ h.flip hr
    obtain ⟨stay, hstay, horigin, -⟩ := hsr.expands
    exact horigin x (hpart.unique hstay ▸ hmem)
  · intro hholds
    obtain ⟨s, hs, hholds⟩ := (holdsLiteral_union hd).mp hholds
    obtain ⟨r, hr, hsr⟩ := TypeM.exists_of_mem_of_forall₂ h hs
    obtain ⟨stay, hstay, -, hvalue⟩ := hsr.expands
    obtain ⟨x, hx, hdefinite⟩ := hvalue hholds
    exact ⟨x, hinner.mem_iff.mpr ⟨r, hr, stay, hstay, hx⟩, hdefinite⟩

/-- Members that all stay hold no literal type. -/
theorem eq_of_members {t : TypeId} {members widened : List TypeId}
    (hd : T₀.lookup t = .union members)
    (h : List.Forall₂ (WidenedWithin T₀ T leaves) members widened) (ht : ¬HoldsLiteral T₀ t) :
    widened = members := by
  have hmembers : ∀ s ∈ members, ¬HoldsLiteral T₀ s := fun s hs hholds => ht (.member hd hs hholds)
  clear hd
  induction h with
  | nil => rfl
  | cons hsr _ ih =>
    obtain ⟨hs, hrest⟩ := List.forall_mem_cons.mp hmembers
    rw [hsr.same hs, ih hrest]

end WidenedWithin

/-- Every step of widening establishes what the result is expanded to, if shortening keeps
values. -/
theorem wideningInvariant_expands (hT : TypeTable.initial.GrowsTo T) (hleaves : T.HasAll leaves)
    (hrel : rel.KeepsValues env T leaves) :
    WideningInvariant rel w env T (ExpandsWithin T leaves)
      fun T₁ s r => WidenedWithin T T₁ leaves s r where
  has ht := ht.1
  members ht hd := ht.members hT.wellFormed (TypeTable.descending_initial.growsTo hT) hd
  of_le hg hle h := h.of_le hg.wellFormed hg.le hleaves hle
  literal {T₁ t value} hg ht hd :=
    (yields_literalBase (hT.trans hg) value).mono fun T₂ b hg₂ hb =>
      .of_literal ((hT.trans hg).trans hg₂) (hg.trans hg₂).le ht hd hb
  same {T₁ t members} hg ht hd h := by
    have hmembers : Composite.members? .union (T₁.lookup t) = some members := by
      rw [TypeTable.lookup_of_le hg.le ht.1, hd]
      rfl
    obtain ⟨inner, hinner⟩ : ∃ inner, Composite.Expands .union T₁ members inner :=
      Composite.exists_expands (TypeTable.descending_initial.growsTo (hT.trans hg)) members
    obtain ⟨horigin, hvalue⟩ := WidenedWithin.of_members hd h hinner
    exact ⟨ht.1.of_le hg.le, fun _ => rfl, inner, .single hmembers hinner, horigin, hvalue⟩
  union {T₁ t members widened} hg ht hd h hne := by
    have hholds : HoldsLiteral T t := by
      by_contra hplain
      exact hne (WidenedWithin.eq_of_members hd h hplain)
    have hwidened : T₁.HasAll widened := by
      intro r hr
      obtain ⟨s, -, hsr⟩ := TypeM.exists_of_mem_of_forall₂ h.flip hr
      exact hsr.has
    obtain ⟨inner, hinner⟩ : ∃ inner, Composite.Expands .union T₁ widened inner :=
      Composite.exists_expands (TypeTable.descending_initial.growsTo (hT.trans hg)) widened
    obtain ⟨horigin, hvalue⟩ := WidenedWithin.of_members hd h hinner
    obtain ⟨x, hx, hcand, hdefinite⟩ := hvalue hholds
    obtain ⟨below, hdecides, hacyclic, habove⟩ := hrel T₁ inner hg horigin
    refine (Composite.yields_create_normal (w := w) hg.wellFormed hwidened hinner
      (List.ne_nil_of_mem hx) hacyclic hdecides).mono fun T₂ r hg₂ hr => ?_
    obtain ⟨kept, hnormal, hr⟩ := hr
    have hsub : ∀ s ∈ kept, s ∈ inner := fun s hs =>
      List.mem_eraseDups.mp (hnormal.sublist.subset hs)
    have hdups : ∀ s ∈ inner.eraseDups, s ∈ inner := fun s hs => List.mem_eraseDups.mp hs
    -- What made a value go has values, so one with values stays.
    obtain ⟨k, hk, hkcand, hkdefinite⟩ := hnormal.exists_of_absorbs (hacyclic.mono hdups)
      (fun s hs u hu => habove s (hdups s hs) u (hdups u hu))
      ⟨x, List.mem_eraseDups.mpr hx, hcand, hdefinite⟩
    have hhas := hinner.hasAll hg.wellFormed hwidened
    refine ⟨hr.has, fun hplain => absurd hholds hplain, kept, hr.expands, fun s hs => ?_,
      fun _ => ⟨k, hk, hkcand, hkdefinite.valued, ?_⟩⟩
    · obtain ⟨leaf, hleaf, hwidens⟩ := horigin s (hsub s hs)
      exact ⟨leaf, hleaf, hwidens.of_le hg₂.le ((hleaves leaf hleaf).of_le hg.le)⟩
    · rw [TypeTable.lookup_of_le hg₂.le (hhas k (hsub k hk))]
      exact hkdefinite.notWildcard
  other hg ht hplain hunion := .of_plain hg.le ht hplain hunion

/-! ### The declared type -/

/-- The type has values, and it is no literal type if those are widened. -/
def IsDeclarable (widen : Bool) (T : TypeTable) (r : TypeId) : Prop :=
  T.Definite r ∧ (widen = true → ∀ value, T.lookup r ≠ .literal value)

/-- The intrinsic types that stand for types without values. -/
theorem isDeclarable_any (hinitial : .initial ≤ T) (widen : Bool) :
    IsDeclarable widen T .any ∧ IsDeclarable widen T .dynamicAny := by
  have hany : T.lookup .any = .primitive .any := TypeTable.lookup_of_le hinitial (by decide)
  have hdynamic : T.lookup .dynamicAny = .dynamicAny :=
    TypeTable.lookup_of_le hinitial (by decide)
  refine ⟨⟨⟨by decide, by rw [hany]; rfl⟩, fun _ value => ?_⟩,
    ⟨⟨by decide, by rw [hdynamic]; rfl⟩, fun _ value => ?_⟩⟩
  · rw [hany]
    exact fun h => by cases h
  · rw [hdynamic]
    exact fun h => by cases h

/-- Widening a type that has values and is no wildcard, if shortening keeps values. -/
theorem yields_widenLiterals_isDeclarable (hT : TypeTable.initial.GrowsTo T) {u : TypeId}
    (hu : T.Has u) (hdefinite : T.Definite u)
    (hkeeps : ∀ members part, T.lookup u = .union members → HoldsLiteral T u →
      Composite.Expands .union T members part → rel.KeepsValues env T part) :
    TypeM.Yields (widenLiterals rel w env u) T fun T' r => IsDeclarable true T' r := by
  have hdesc := TypeTable.descending_initial.growsTo hT
  by_cases hholds : HoldsLiteral T u
  swap
  · exact ⟨u, T, (recalls_widenLiterals hT.wellFormed hdesc hu hholds).run, .refl hT.wellFormed,
      hdefinite, fun _ value hvalue => hholds (.literal hvalue)⟩
  cases hmembers : Composite.members? .union (T.lookup u) with
  | none =>
    obtain ⟨value, hd⟩ := (holdsLiteral_plain hmembers).mp hholds
    rw [widenLiterals]
    refine .get ?_
    rw [widenLiteralsFrom]
    refine .lookup ?_
    rw [hd]
    refine (yields_literalBase hT value).mono fun T' b hg hb =>
      ⟨TypeTable.definite_of_baseLayer (hT.trans hg) hb, fun _ value' hvalue' => ?_⟩
    rw [TypeTable.lookup_eq (hg.wellFormed.handles_sound _ _ hb)] at hvalue'
    cases value <;> cases hvalue'
  | some members =>
    have hd := Composite.union_of_members? hmembers
    obtain ⟨part, hpart⟩ : ∃ part, Composite.Expands .union T members part :=
      Composite.exists_expands hdesc members
    have hwithin : ExpandsWithin T part u :=
      ⟨hu, fun part' hpart' x hx => hpart'.unique (.single hmembers hpart) ▸ hx⟩
    have hleaves : T.HasAll part := hpart.hasAll hT.wellFormed (hT.wellFormed.hasAll_of_lookup hd)
    refine ((wideningInvariant_expands (w := w) hT hleaves (hkeeps members part hd hholds hpart)
      ).yields hdesc (.refl hT.wellFormed) hwithin).mono fun T' r hg hr => ?_
    obtain ⟨stay, hstay, horigin, hvalue⟩ := hr.expands
    obtain ⟨x, hx, -, hxdefinite⟩ := hvalue hholds
    have hinitial : .initial ≤ T' := le_trans hT.le hg.le
    cases hr : Composite.members? .union (T'.lookup r) with
    | none =>
      obtain rfl := hstay.unique (.leaf hr .nil)
      obtain rfl := List.mem_singleton.mp hx
      obtain ⟨leaf, -, hwidens⟩ := horigin x hx
      exact ⟨hxdefinite, fun _ value hvalue => hwidens.not_literal hg.wellFormed ⟨value, hvalue⟩⟩
    | some members' =>
      have hunion := Composite.union_of_members? hr
      refine ⟨⟨TypeTable.not_mem_valueless hinitial ?_, ?_⟩, fun _ value => ?_⟩
      · simp [hunion, valuelessLayers]
      · rw [hunion]
        rfl
      · rw [hunion]
        exact fun h => by cases h

/-- The type that a declaration takes from its initializer is none of the types without a usable
value, no wildcard and, if literal types are widened, no literal type.  This holds where the bound
of a wildcard has values and, for the members of a union that is widened, where nothing is dropped
for `void`, for a wildcard or in a circle. -/
theorem sanitizeDeclared_definite (hT : TypeTable.initial.GrowsTo T) {t : TypeId} (ht : T.Has t)
    (widen : Bool)
    (hbound : (T.lookup t).isWildcard = true → ∀ u, T.upperBound? t = some u → u ∉ valueless)
    (hkeeps : widen = true → ∀ u members part, T.bounded? t = some u →
      T.lookup u = .union members → HoldsLiteral T u → Composite.Expands .union T members part →
      rel.KeepsValues env T part) :
    ∃ r T', sanitizeDeclared rel w env t widen T = .ok r T' ∧ T.GrowsTo T' ∧
      r ∉ [.unknown, .null, .undefined, .void] ∧ (T'.lookup r).isWildcard = false ∧
      (widen = true → ∀ value, T'.lookup r ≠ .literal value) := by
  suffices h : TypeM.Yields (sanitizeDeclared rel w env t widen) T (IsDeclarable widen) by
    obtain ⟨r, T', hrun, hg, hdefinite, hliteral⟩ := h
    exact ⟨r, T', hrun, hg, hdefinite.valued, hdefinite.notWildcard, hliteral⟩
  obtain ⟨hany, hdynamic⟩ := isDeclarable_any hT.le widen
  rw [sanitizeDeclared]
  split
  · exact .pure hT.wellFormed hany
  rename_i hunknown
  split
  · exact .pure hT.wellFormed hdynamic
  rename_i hnull
  obtain ⟨u, hu, hhas, hnotWildcard⟩ := TypeTable.exists_bounded? hT ht
  have hdefinite : T.Definite u := by
    refine ⟨?_, hnotWildcard⟩
    rw [TypeTable.bounded?] at hu
    split at hu
    · rename_i hwild
      exact hbound hwild u hu
    · obtain rfl := Option.some.inj hu
      simpa [valueless, hunknown] using hnull
  have hrest : TypeM.Yields (if widen = true then widenLiterals rel w env u else pure u) T
      (IsDeclarable widen) := by
    cases widen with
    | false => exact .pure hT.wellFormed ⟨hdefinite, fun h => by cases h⟩
    | true =>
      exact yields_widenLiterals_isDeclarable hT hhas hdefinite fun members part =>
        hkeeps rfl u members part hu
  refine .lookup ?_
  dsimp only
  rw [TypeTable.bounded?] at hu
  by_cases hwild : (T.lookup t).isWildcard = true
  · rw [if_pos hwild] at hu ⊢
    have hrun : TypeM.upperBound t T = .ok u T :=
      TypeM.bind_eq_ok.mpr ⟨T, T, rfl, TypeM.ofOption_eq_ok.mpr ⟨hu, rfl⟩⟩
    obtain ⟨r, T', hr, hresult⟩ := hrest
    exact ⟨r, T', TypeM.bind_eq_ok.mpr ⟨u, T, hrun, hr⟩, hresult⟩
  · rw [if_neg hwild] at hu ⊢
    obtain rfl := Option.some.inj hu
    exact hrest

/-- The table of the nested union of literal types with a wildcard above the inner union. -/
def literalWildcardTable : TypeTable := literalUnionTable.store (.wildcard (some ⟨18⟩) .upper)

theorem growsTo_literalWildcardTable : TypeTable.initial.GrowsTo literalWildcardTable :=
  growsTo_literalUnionTable.store (by decide) (by decide)

/-- Numbers and strings are not below each other in the hierarchy without declarations. -/
theorem keepsValues_literalWildcardTable :
    TypeRelation.KeepsValues (World.isSubtype default) .empty literalWildcardTable
      [⟨16⟩, ⟨17⟩] := by
  let T := literalWildcardTable
  have hT : TypeTable.initial.GrowsTo T := growsTo_literalWildcardTable
  have hdecides : TypeRelation.Decides (World.isSubtype default) .empty [.number, .string] Eq T :=
    World.decides_primitives hT.le
      (by decide : ∀ k ∈ [Primitive.number, .string], k.isDiscrete = true)
  intro T₁ ts hg hts
  have hwidens : ∀ s ∈ ts, s ∈ [TypeId.number, .string] := by
    intro s hs
    have hbase (row : TypeId × TypeData) (hrow : row ∈ intrinsics) :
        T₁.handles[row.2]? = some row.1 :=
      (le_trans hT.le hg.le).handles _ _ (TypeTable.handles_initial.mpr hrow)
    have hlookup {leaf : TypeId} (hleaf : T.Has leaf) : T₁.lookup leaf = T.lookup leaf :=
      TypeTable.lookup_of_le hg.le hleaf
    obtain ⟨leaf, hleaf, hs⟩ := hts s hs
    have hone : T.lookup ⟨16⟩ = .literal (.number ⟨false, 1, 0⟩) := rfl
    have htext : T.lookup ⟨17⟩ = .literal (.string ⟨0⟩) := rfl
    rcases List.mem_pair.mp hleaf with rfl | rfl
    · rw [TypeTable.widensTo_of_literal ((hlookup (by decide)).trans hone)] at hs
      have hnumber := hbase (.number, .primitive .number) (by decide)
      exact List.mem_pair.mpr (.inl (Option.some.inj (hs.symm.trans hnumber)))
    · rw [TypeTable.widensTo_of_literal ((hlookup (by decide)).trans htext)] at hs
      have hstring := hbase (.string, .primitive .string) (by decide)
      exact List.mem_pair.mpr (.inr (Option.some.inj (hs.symm.trans hstring)))
  exact ⟨Eq, hdecides.mono hg hwidens, .of_trans (fun _ _ _ hst htu => hst.trans htu) ts,
    fun _ _ _ _ _ habsorbs => absurd habsorbs.2.1 habsorbs.1⟩

/-- A declaration that takes its type from a wildcard above `1` and a string literal. -/
theorem sanitizeDeclared_definite_wildcard : ∃ r T',
    sanitizeDeclared (World.isSubtype default) default .empty ⟨21⟩ true literalWildcardTable =
      .ok r T' ∧
    r ∉ [.unknown, .null, .undefined, .void] ∧ (T'.lookup r).isWildcard = false ∧
    ∀ value, T'.lookup r ≠ .literal value := by
  let T := literalWildcardTable
  have hupper : T.upperBound? ⟨21⟩ = some ⟨18⟩ := by decide
  have hbounded : T.bounded? ⟨21⟩ = some ⟨18⟩ := hupper
  have hunion : T.lookup ⟨18⟩ = .union [⟨16⟩, ⟨17⟩] := rfl
  have hexpands : Composite.Expands .union T [⟨16⟩, ⟨17⟩] [⟨16⟩, ⟨17⟩] :=
    .leaf rfl (.leaf rfl .nil)
  have hbound (_ : (T.lookup ⟨21⟩).isWildcard = true) (u : TypeId)
      (hu : T.upperBound? ⟨21⟩ = some u) : u ∉ valueless := by
    obtain rfl := Option.some.inj (hupper.symm.trans hu)
    decide
  have hkeeps (_ : true = true) (u : TypeId) (members part : List TypeId)
      (hu : T.bounded? ⟨21⟩ = some u) (hmembers : T.lookup u = .union members)
      (_ : HoldsLiteral T u) (hpart : Composite.Expands .union T members part) :
      TypeRelation.KeepsValues (World.isSubtype default) .empty T part := by
    obtain rfl := Option.some.inj (hbounded.symm.trans hu)
    obtain rfl := TypeData.union.inj (hunion.symm.trans hmembers)
    rw [hpart.unique hexpands]
    exact keepsValues_literalWildcardTable
  obtain ⟨r, T', hrun, -, hr, hwildcard, hliteral⟩ :=
    sanitizeDeclared_definite (w := default) growsTo_literalWildcardTable (by decide) true hbound
      hkeeps
  exact ⟨r, T', hrun, hr, hwildcard, hliteral rfl⟩

/-- The bound of a wildcard is not looked at again, so `null` comes out of it. -/
example : sanitizeDeclared (World.isSubtype default) default .empty ⟨16⟩ false
    (TypeTable.initial.store (.wildcard (some .null) .upper)) =
      .ok .null (TypeTable.initial.store (.wildcard (some .null) .upper)) := rfl

end ScriptTyping
