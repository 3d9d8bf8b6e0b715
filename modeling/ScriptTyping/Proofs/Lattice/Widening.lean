import ScriptTyping.Lattice.Widening
import ScriptTyping.Proofs.Lattice.Coverage

/-!
# Literal types that are widened

Widening goes through unions only, from the inside: a union whose members all widen to themselves
stays, any other one is built anew from the widened members.  What it is built of holds no literal
type, and a short form is expanded to part of what it was built of, or to nothing, which is written
`undefined`.  So no literal type is left whatever the subtype relation answers, and since a type
without literal types is widened to itself, widening it again changes nothing.

The relation may be any that returns.  It need not be a preorder, it may store types, and it may
answer the same question differently when it is asked again.

## Main definitions

* `TypeRelation.Answers` — the relation returns.
* `HoldsLiteral` — a literal type in a type, beneath nothing but unions.
* `WideningInvariant` — what every step of widening establishes.

## Main results

* `yields_createUnion` — a short form stands for part of what it was made from.
* `recalls_widenLiterals` — a type without literal types is widened to itself.
* `WideningInvariant.yields` — the induction over nested unions.
* `widenLiterals_removes_literals` — widening is complete and idempotent.
-/

namespace ScriptTyping

variable {rel : TypeRelation} {w : World} {env : Environment} {T T' : TypeTable}
  {members leaves kept : List TypeId}

/-! ### Relations that answer -/

/-- From the table on, the relation returns some answer to every question about types that are
stored, and only adds to the table. -/
def TypeRelation.Answers (rel : TypeRelation) (env : Environment) (T : TypeTable) : Prop :=
  ∀ T₁, T.GrowsTo T₁ → ∀ s t, T₁.Has s → T₁.Has t →
    TypeM.Yields (rel env s t) T₁ fun _ _ => True

namespace TypeRelation

/-- A relation that does not look at the table answers. -/
theorem answers_pure (below : TypeId → TypeId → Bool) :
    TypeRelation.Answers (fun _ s t => pure (below s t)) env T :=
  fun _ hg _ _ _ _ => .pure hg.wellFormed trivial

variable (hrel : rel.Answers env T)

include hrel

theorem Answers.growsTo (hg : T.GrowsTo T') : rel.Answers env T' :=
  fun T₁ hg₁ => hrel T₁ (hg.trans hg₁)

theorem Answers.yields_strict (hT : T.WellFormed) {s t : TypeId} (hs : T.Has s) (ht : T.Has t) :
    TypeM.Yields (rel.strict env s t) T fun _ _ => True := by
  rw [TypeRelation.strict]
  split
  · exact .pure hT trivial
  refine (hrel T (.refl hT) s t hs ht).bind fun up T₁ hg₁ _ => ?_
  cases up with
  | false => exact .pure hg₁.wellFormed trivial
  | true =>
    exact (hrel T₁ hg₁ t s (ht.of_le hg₁.le) (hs.of_le hg₁.le)).bind fun _ _ hg₂ _ =>
      .pure hg₂.wellFormed trivial

end TypeRelation

namespace Composite

variable {kind : Composite} {candidates : List TypeId}

theorem yields_absorbs_of_answers (hrel : rel.Answers env T) (hT : T.WellFormed)
    {other member : TypeId} (hother : T.Has other) (hmember : T.Has member) :
    TypeM.Yields (if other = member then pure false else kind.absorbs rel env other member) T
      fun _ _ => True := by
  split
  · exact .pure hT trivial
  · cases kind with
    | union => exact hrel.yields_strict hT hmember hother
    | intersection => exact hrel.yields_strict hT hother hmember

theorem yields_redundancies_of_answers (hrel : rel.Answers env T) (hT : T.WellFormed)
    (hcandidates : T.HasAll candidates) :
    TypeM.Yields (kind.redundancies rel w env candidates) T fun _ _ => True := by
  rw [redundancies]
  split
  · exact .pure hT trivial
  refine (TypeM.yieldsLogic.mapM (W := fun _ _ => True) (fun _ _ _ _ _ => trivial) candidates hT
    fun member hmember T₁ hg₁ => ?_).bind fun _ _ hg _ => .pure hg.wellFormed trivial
  refine TypeM.Yields.bind (V := fun _ _ => True) ?_ fun found T₂ hg₂ _ => ?_
  · refine (TypeM.yieldsLogic.findM? candidates hg₁.wellFormed fun other hother T₂ hg₂ => ?_).mono
      fun _ _ _ _ => trivial
    have hg := hg₁.trans hg₂
    exact yields_absorbs_of_answers (hrel.growsTo hg) hg₂.wellFormed
      ((hcandidates other hother).of_le hg.le) ((hcandidates member hmember).of_le hg.le)
  · cases found with
    | none => exact .pure hg₂.wellFormed trivial
    | some witness => exact .get (.pure hg₂.wellFormed trivial)

end Composite

/-- The short form of a union stands for part of the expanded members, perhaps for none, whatever
the relation answers. -/
theorem yields_createUnion (hrel : rel.Answers env T) (hT : T.WellFormed) (hms : T.HasAll members)
    (hexpands : Composite.Expands .union T members leaves) :
    TypeM.Yields (createUnion rel w env members) T fun T' r =>
      ∃ kept, (∀ t ∈ kept, t ∈ leaves) ∧ Composite.Denotes .union T' r kept := by
  have hmem : ∀ t ∈ leaves.eraseDups, t ∈ leaves := fun t ht => List.mem_eraseDups.mp ht
  have hhas := hexpands.hasAll hT hms
  rw [createUnion, Composite.create]
  refine TypeM.Yields.bind (V := fun T' built => ∃ kept, (∀ t ∈ kept, t ∈ leaves) ∧
    Composite.Denotes .union T' built.1 kept) (.get ?_) fun _ _ hg hbuilt =>
      .pure hg.wellFormed hbuilt
  rw [Composite.leaves?_eq_some_iff.mpr hexpands, TypeM.ofOption, pure_bind]
  generalize leaves.eraseDups = flat at hmem
  obtain _ | ⟨first, _ | ⟨second, rest⟩⟩ := flat
  · exact .pure hT ⟨[], by simp, rfl⟩
  · exact .pure hT ⟨[first], hmem, rfl⟩
  · refine (Composite.yields_redundancies_of_answers hrel hT fun t ht =>
      hhas t (hmem t (List.mem_filter.mp ht).1)).bind fun reports T₁ hg₁ _ => ?_
    have hkept : ∀ t ∈ Composite.survivors .union (first :: second :: rest)
        (reports.map (·.removed)), t ∈ leaves :=
      fun t ht => hmem t (Composite.mem_survivors.mp ht).1
    exact (Composite.yields_assemble hg₁.wellFormed fun t ht =>
      (hhas t (hkept t ht)).of_le hg₁.le).bind fun r T₂ hg₂ hr =>
        .pure hg₂.wellFormed ⟨_, hkept, hr.1⟩

/-! ### Literal types beneath unions -/

/-- The type is a literal type or holds one as a member, where unions may be nested. -/
inductive HoldsLiteral (T : TypeTable) : TypeId → Prop
  | literal {t : TypeId} {value : LiteralValue} (ht : T.lookup t = .literal value) :
    HoldsLiteral T t
  | member {t s : TypeId} {members : List TypeId} (ht : T.lookup t = .union members)
    (hs : s ∈ members) (h : HoldsLiteral T s) : HoldsLiteral T t

theorem holdsLiteral_union {t : TypeId} (ht : T.lookup t = .union members) :
    HoldsLiteral T t ↔ ∃ s ∈ members, HoldsLiteral T s := by
  constructor
  · intro h
    cases h with
    | literal hliteral =>
      rw [ht] at hliteral
      cases hliteral
    | member hunion hs h =>
      rw [ht] at hunion
      cases hunion
      exact ⟨_, hs, h⟩
  · rintro ⟨s, hs, h⟩
    exact .member ht hs h

/-- A type that is no union holds a literal type only by being one. -/
theorem holdsLiteral_plain {t : TypeId} (ht : Composite.members? .union (T.lookup t) = none) :
    HoldsLiteral T t ↔ ∃ value, T.lookup t = .literal value := by
  constructor
  · intro h
    cases h with
    | literal hliteral => exact ⟨_, hliteral⟩
    | member hunion _ _ =>
      rw [hunion] at ht
      cases ht
  · rintro ⟨value, hvalue⟩
    exact .literal hvalue

/-- A literal type that a later table shows in a type was there before. -/
theorem HoldsLiteral.of_le {t : TypeId} (h : HoldsLiteral T' t) (hT : T.WellFormed) (hle : T ≤ T')
    (ht : T.Has t) : HoldsLiteral T t := by
  induction h with
  | literal hliteral =>
    rw [TypeTable.lookup_of_le hle ht] at hliteral
    exact .literal hliteral
  | member hunion hs _ ih =>
    rw [TypeTable.lookup_of_le hle ht] at hunion
    exact .member hunion hs (ih (hT.hasAll_of_lookup hunion _ hs))

/-- Expanding nested unions neither hides literal types nor brings new ones. -/
theorem Composite.Expands.exists_holdsLiteral_iff
    (h : Composite.Expands .union T members leaves) :
    (∃ leaf ∈ leaves, HoldsLiteral T leaf) ↔ ∃ t ∈ members, HoldsLiteral T t := by
  induction h with
  | nil => exact Iff.rfl
  | leaf _ _ ih => simp only [List.exists_mem_cons_iff, ih]
  | nested ht _ _ ihmembers ihts =>
    simp only [List.exists_mem_cons_iff, holdsLiteral_union (Composite.union_of_members? ht),
      ← ihmembers, ← ihts, List.mem_append, or_and_right, exists_or]

/-- The type that stands for members of the table is one of the table. -/
theorem Composite.Denotes.has_of_wellFormed {t : TypeId} (hT : T.WellFormed)
    (h : Composite.Denotes .union T t kept) (hkept : T.HasAll kept) : T.Has t := by
  by_cases hne : kept = []
  · subst hne
    obtain rfl : t = .undefined := h
    exact hT.has_reserved (by decide)
  · exact h.has hne hkept

/-- The type that stands for members without literal types has none. -/
theorem Composite.Denotes.not_holdsLiteral {t : TypeId} (hinitial : .initial ≤ T)
    (h : Composite.Denotes .union T t kept) (hkept : ∀ s ∈ kept, ¬HoldsLiteral T s) :
    ¬HoldsLiteral T t := by
  obtain _ | ⟨first, _ | ⟨second, rest⟩⟩ := kept
  · obtain rfl : t = .undefined := h
    have hundefined : T.lookup .undefined = .primitive .undefined :=
      TypeTable.lookup_of_le hinitial (by decide)
    rw [holdsLiteral_plain (by rw [hundefined]; rfl), hundefined]
    rintro ⟨value, hvalue⟩
    cases hvalue
  · obtain rfl : t = first := h
    exact hkept t (List.mem_singleton_self t)
  · rw [holdsLiteral_union (Composite.union_of_members? h)]
    rintro ⟨s, hs, hholds⟩
    exact hkept s hs hholds

/-! ### Types that stay -/

/-- A type without literal types is widened to itself, now and later. -/
theorem recalls_widenLiteralsFrom (hT : T.WellFormed) (hdesc : T.Descending) (fuel : Nat) :
    ∀ {t : TypeId}, T.Has t → t.index < fuel → ¬HoldsLiteral T t →
      TypeM.Recalls (widenLiteralsFrom rel w env fuel t) T t := by
  induction fuel with
  | zero => exact fun _ h => absurd h (Nat.not_lt_zero _)
  | succ fuel ih =>
    intro t ht hfuel hplain
    rw [widenLiteralsFrom]
    refine (TypeM.recalls_lookup ht).bind ?_
    cases hd : T.lookup t with
    | literal value => exact absurd (.literal hd) hplain
    | union members =>
      have hsame : TypeM.Recalls (members.mapM (widenLiteralsFrom rel w env fuel)) T members := by
        refine .mapM (List.forall₂_same.mpr fun member hmember => ?_)
        have hlt : member.index < t.index :=
          hdesc t (.union members) (hd ▸ ht.lookup?) member hmember
        exact ih (hT.hasAll_of_lookup hd member hmember) (by omega)
          fun hholds => hplain (.member hd hmember hholds)
      refine hsame.bind ?_
      rw [if_pos rfl]
      exact .pure t
    | _ => exact .pure t

theorem recalls_widenLiterals (hT : T.WellFormed) (hdesc : T.Descending) {t : TypeId}
    (ht : T.Has t) (hplain : ¬HoldsLiteral T t) :
    TypeM.Recalls (widenLiterals rel w env t) T t := by
  intro T' hle
  have hfuel : t.index < T'.rows.size + 1 := Nat.lt_succ_of_lt (ht.of_le hle)
  exact recalls_widenLiteralsFrom hT hdesc (T'.rows.size + 1) ht hfuel hplain T' hle

/-! ### The induction over nested unions -/

/-- A property of types with what they are widened to that every step of widening establishes.  The
widened types are types of the given table that have the property `Q`; they are widened in tables
that it grows to. -/
structure WideningInvariant (rel : TypeRelation) (w : World) (env : Environment) (T₀ : TypeTable)
    (Q : TypeId → Prop) (P : TypeTable → TypeId → TypeId → Prop) : Prop where
  has : ∀ {t}, Q t → T₀.Has t
  members : ∀ {t members}, Q t → T₀.lookup t = .union members → ∀ s ∈ members, Q s
  of_le : ∀ {T T' t r}, T₀.GrowsTo T → T ≤ T' → P T t r → P T' t r
  literal : ∀ {T t value}, T₀.GrowsTo T → Q t → T₀.lookup t = .literal value →
    TypeM.Yields (literalBase value) T fun T' r => P T' t r
  same : ∀ {T t members}, T₀.GrowsTo T → Q t → T₀.lookup t = .union members →
    List.Forall₂ (P T) members members → P T t t
  union : ∀ {T t members widened}, T₀.GrowsTo T → Q t → T₀.lookup t = .union members →
    List.Forall₂ (P T) members widened → widened ≠ members →
    TypeM.Yields (createUnion rel w env widened) T fun T' r => P T' t r
  other : ∀ {T t}, T₀.GrowsTo T → Q t → ¬HoldsLiteral T₀ t →
    Composite.members? .union (T₀.lookup t) = none → P T t t

namespace WideningInvariant

variable {T₀ : TypeTable} {Q : TypeId → Prop} {P : TypeTable → TypeId → TypeId → Prop}
  (h : WideningInvariant rel w env T₀ Q P) (hdesc : T₀.Descending)

include h hdesc

/-- Where rows mention earlier handles only, widening returns with the property.  The fuel only has
to exceed the handle, since handles go down along nested unions. -/
theorem yieldsFrom (fuel : Nat) : ∀ {T : TypeTable} {t : TypeId}, T₀.GrowsTo T → Q t →
    t.index < fuel →
    TypeM.Yields (widenLiteralsFrom rel w env fuel t) T fun T' r => P T' t r := by
  induction fuel with
  | zero => exact fun _ _ hfuel => absurd hfuel (Nat.not_lt_zero _)
  | succ fuel ih =>
    intro T t hg ht hfuel
    have hhas := h.has ht
    have hother (hliteral : ∀ value, T₀.lookup t ≠ .literal value)
        (hunion : Composite.members? .union (T₀.lookup t) = none) :
        TypeM.Yields (pure t) T fun T' r => P T' t r := by
      refine .pure hg.wellFormed (h.other hg ht ?_ hunion)
      rw [holdsLiteral_plain hunion]
      exact fun ⟨value, hvalue⟩ => hliteral value hvalue
    rw [widenLiteralsFrom]
    refine .lookup ?_
    rw [TypeTable.lookup_of_le hg.le hhas]
    cases hd : T₀.lookup t with
    | literal value => exact h.literal hg ht hd
    | union members =>
      -- The loop keeps what it has at every later table, whichever it grows to.
      refine (TypeM.yieldsLogic.mapM_forall₂ (R := fun T₁ s r => ∀ T₂, T₁ ≤ T₂ → P T₂ s r)
        (fun _ _ _ _ hle hR T₂ hle₂ => hR T₂ (le_trans hle hle₂)) members hg.wellFormed
          fun member hmember T₁ hg₁ => ?_).bind fun widened T₁ hg₁ hwidened => ?_
      · have hlt : member.index < t.index :=
          hdesc t (.union members) (hd ▸ hhas.lookup?) member hmember
        refine (ih (hg.trans hg₁) (h.members ht hd member hmember) (by omega)).mono
          fun T₂ r hg₂ hr T₃ hle => ?_
        exact h.of_le ((hg.trans hg₁).trans hg₂) hle hr
      · have hwidened : List.Forall₂ (P T₁) members widened :=
          hwidened.imp fun _ _ hR => hR T₁ le_rfl
        split
        · rename_i heq
          subst heq
          exact .pure hg₁.wellFormed (h.same (hg.trans hg₁) ht hd hwidened)
        · rename_i hne
          exact h.union (hg.trans hg₁) ht hd hwidened hne
    | _ =>
      rw [hd] at hother
      exact hother (fun _ heq => by cases heq) rfl

theorem yields (hg : T₀.GrowsTo T) {t : TypeId} (ht : Q t) :
    TypeM.Yields (widenLiterals rel w env t) T fun T' r => P T' t r :=
  .get (h.yieldsFrom hdesc (T.rows.size + 1) hg ht
    (Nat.lt_succ_of_lt ((h.has ht).of_le hg.le)))

end WideningInvariant

/-! ### No literal type is left -/

/-- The layer of the type that a literal value belongs to. -/
def LiteralValue.baseLayer : LiteralValue → TypeData
  | boolean _ => .primitive .boolean
  | number _ => .primitive .number
  | string _ => .primitive .string
  | enumMember enumDecl _ => .nominal enumDecl []

/-- A literal type is widened to the type of that layer. -/
theorem yields_literalBase (hT : TypeTable.initial.GrowsTo T) (value : LiteralValue) :
    TypeM.Yields (literalBase value) T fun T' b => T'.handles[value.baseLayer]? = some b := by
  have hintrinsic (row : TypeId × TypeData) (hrow : row ∈ intrinsics) :
      T.handles[row.2]? = some row.1 := hT.le.handles _ _ (TypeTable.handles_initial.mpr hrow)
  cases value with
  | boolean _ => exact .pure hT.wellFormed (hintrinsic (.boolean, .primitive .boolean) (by decide))
  | number _ => exact .pure hT.wellFormed (hintrinsic (.number, .primitive .number) (by decide))
  | string _ => exact .pure hT.wellFormed (hintrinsic (.string, .primitive .string) (by decide))
  | enumMember enumDecl _ =>
    exact TypeM.yields_intern (.nominal enumDecl []) hT.wellFormed TypeTable.hasAll_nil

/-- No step of widening leaves a literal type, whatever the relation answers. -/
theorem wideningInvariant_not_holdsLiteral (hT : TypeTable.initial.GrowsTo T)
    (hrel : rel.Answers env T) :
    WideningInvariant rel w env T T.Has fun T₁ _ r => T₁.Has r ∧ ¬HoldsLiteral T₁ r where
  has ht := ht
  members _ hd := hT.wellFormed.hasAll_of_lookup hd
  of_le hg hle h := ⟨h.1.of_le hle, fun hholds => h.2 (hholds.of_le hg.wellFormed hle h.1)⟩
  literal {T₁ t value} hg _ _ := by
    refine (yields_literalBase (hT.trans hg) value).mono fun T₂ b hg₂ hb => ?_
    have hlookup := hg₂.wellFormed.handles_sound _ _ hb
    have hplain : Composite.members? .union (T₂.lookup b) = none := by
      rw [TypeTable.lookup_eq hlookup]
      cases value <;> rfl
    refine ⟨TypeTable.has_iff.mpr ⟨_, hlookup⟩, ?_⟩
    rw [holdsLiteral_plain hplain, TypeTable.lookup_eq hlookup]
    rintro ⟨value', heq⟩
    cases value <;> cases heq
  same {T₁ t members} hg ht hd h := by
    refine ⟨ht.of_le hg.le, ?_⟩
    rw [holdsLiteral_union (TypeTable.lookup_of_le hg.le ht ▸ hd)]
    rintro ⟨s, hs, hholds⟩
    exact (List.forall₂_same.mp h s hs).2 hholds
  union {T₁ t members widened} hg _ _ h _ := by
    have hwidened : ∀ r ∈ widened, T₁.Has r ∧ ¬HoldsLiteral T₁ r := by
      intro r hr
      obtain ⟨s, -, hs⟩ := TypeM.exists_of_mem_of_forall₂ h.flip hr
      exact hs
    obtain ⟨leaves, hleaves⟩ : ∃ leaves, Composite.Expands .union T₁ widened leaves :=
      Composite.exists_expands (TypeTable.descending_initial.growsTo (hT.trans hg)) widened
    have hhas := hleaves.hasAll hg.wellFormed fun r hr => (hwidened r hr).1
    have hplain : ¬∃ leaf ∈ leaves, HoldsLiteral T₁ leaf := by
      rw [hleaves.exists_holdsLiteral_iff]
      exact fun ⟨r, hr, hholds⟩ => (hwidened r hr).2 hholds
    refine (yields_createUnion (hrel.growsTo hg) hg.wellFormed (fun r hr => (hwidened r hr).1)
      hleaves).mono fun T₂ r hg₂ hr => ?_
    obtain ⟨kept, hkept, hdenotes⟩ := hr
    have hinitial : .initial ≤ T₂ := le_trans (hT.trans hg).le hg₂.le
    have hkeptHas : T₂.HasAll kept := fun s hs => (hhas s (hkept s hs)).of_le hg₂.le
    refine ⟨hdenotes.has_of_wellFormed hg₂.wellFormed hkeptHas,
      hdenotes.not_holdsLiteral hinitial fun s hs hholds => hplain ⟨s, hkept s hs, ?_⟩⟩
    exact hholds.of_le hg.wellFormed hg₂.le (hhas s (hkept s hs))
  other hg ht hplain _ :=
    ⟨ht.of_le hg.le, fun hholds => hplain (hholds.of_le hT.wellFormed hg.le ht)⟩

/-- Widening is complete and idempotent, whatever the subtype relation answers: the widened type
holds no literal type beneath unions, it is widened to itself from then on, and a type that holds
none is widened to itself without anything being stored. -/
theorem widenLiterals_removes_literals (hT : TypeTable.initial.GrowsTo T) {t : TypeId}
    (ht : T.Has t) (hrel : rel.Answers env T) :
    ∃ r T', widenLiterals rel w env t T = .ok r T' ∧ T.GrowsTo T' ∧ ¬HoldsLiteral T' r ∧
      TypeM.Recalls (widenLiterals rel w env r) T' r ∧
      (¬HoldsLiteral T t → r = t ∧ T' = T) := by
  have hdesc := TypeTable.descending_initial.growsTo hT
  obtain ⟨r, T', hrun, hg, hhas, hplain⟩ :=
    (wideningInvariant_not_holdsLiteral (w := w) hT hrel).yields hdesc (.refl hT.wellFormed) ht
  refine ⟨r, T', hrun, hg, hplain,
    recalls_widenLiterals hg.wellFormed (hdesc.growsTo hg) hhas hplain, fun hkeeps => ?_⟩
  have hstays : widenLiterals rel w env t T = .ok t T :=
    (recalls_widenLiterals hT.wellFormed hdesc ht hkeeps).run
  rw [hrun] at hstays
  injection hstays with hr hT'
  exact ⟨hr, hT'⟩

/-- A table with the union of `true` and the union of `1` and a string literal. -/
def literalUnionTable : TypeTable :=
  TypeTable.initial.store (.literal (.number ⟨false, 1, 0⟩)) |>.store (.literal (.string ⟨0⟩))
    |>.store (.union [⟨16⟩, ⟨17⟩]) |>.store (.literal (.boolean true))
    |>.store (.union [⟨18⟩, ⟨19⟩])

theorem growsTo_literalUnionTable : TypeTable.initial.GrowsTo literalUnionTable :=
  .store (.store (.store (.store (.store (.refl TypeTable.wellFormed_initial)
    (by decide) (by decide)) (by decide) (by decide)) (by decide) (by decide))
    (by decide) (by decide)) (by decide) (by decide)

/-- Under a relation in which numbers, strings and booleans run in a circle, only `boolean` is left
of the three literal types, since the nested union is shortened first. -/
theorem widenLiterals_removes_literals_circle : ∃ T',
    widenLiterals (fun _ s t => pure (decide (Composite.Circle s t))) default .empty ⟨20⟩
      literalUnionTable = .ok .boolean T' ∧
    HoldsLiteral literalUnionTable ⟨20⟩ ∧ ¬HoldsLiteral T' .boolean := by
  let circle : TypeRelation := fun _ s t => pure (decide (Composite.Circle s t))
  have hanswers : circle.Answers .empty literalUnionTable :=
    TypeRelation.answers_pure fun s t => decide (Composite.Circle s t)
  have ht : literalUnionTable.Has ⟨20⟩ := by decide
  obtain ⟨r, T', hrun, -, hplain, -, -⟩ := widenLiterals_removes_literals (w := default)
    growsTo_literalUnionTable ht hanswers
  obtain ⟨T₁, hboolean⟩ : ∃ T₁, widenLiterals circle default .empty ⟨20⟩ literalUnionTable =
      .ok .boolean T₁ := ⟨_, rfl⟩
  obtain rfl : r = .boolean := by
    rw [hrun] at hboolean
    injection hboolean
  have htrue : literalUnionTable.lookup ⟨19⟩ = .literal (.boolean true) := rfl
  exact ⟨T', hrun, .member rfl (List.mem_pair.mpr (.inr rfl)) (.literal htrue), hplain⟩

end ScriptTyping
