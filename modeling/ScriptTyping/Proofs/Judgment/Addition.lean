import ScriptTyping.Proofs.Stability.Judgment
import ScriptTyping.Proofs.Lattice.Incremental
import ScriptTyping.Proofs.Subtyping.Primitives
import ScriptTyping.Proofs.Table.UpperBound

/-!
# Sums

Only `+` looks at its operands.  Whether an operand is numeric is told by what stands behind it:
some member of an intersection, the bound of a type variable, the upper bound of a wildcard or of a
`this` type, so many steps deep.  The operand may be numeric if it is, if it is `any` or `symbol`,
or if a member of a union is.  The sum depends on these properties alone and on which operand is
unknown, so exchanging the operands changes nothing.

An unknown operand beside one that is not numeric but may be gives a string: unknown itself does not
count among the types that may be numeric.

## Main definitions

* `TypeM.Tells` — the computation finds out whether a proposition holds and stores nothing.
* `Program.NumericWithin`, `Program.Numeric`, `Program.MayBeNumeric` — classes of operands.
* `Program.NumericBy` — what the data of a type contributes.
* `Program.SumIsMixed` — operands whose sum is a number or a string, unless both are numeric.

## Main results

* `Program.tells_isNumericFrom`, `Program.tells_mayBeNumeric` — the tests find the classes out.
* `Program.additionType_of_operands` — the type of a sum, by the classes of its operands.
-/

namespace ScriptTyping

variable {T T' : TypeTable}

namespace TypeM

variable {α : Type} {x : TypeM Bool} {P Q : Prop}

/-- From the table on, the computation returns whether the proposition holds, and stores nothing. -/
def Tells (x : TypeM Bool) (T : TypeTable) (P : Prop) : Prop :=
  ∃ b, Recalls x T b ∧ (b = true ↔ P)

theorem Tells.pure {b : Bool} (h : b = true ↔ P) : Tells (pure b) T P := ⟨b, .pure b, h⟩

theorem Tells.congr (hx : Tells x T P) (h : P ↔ Q) : Tells x T Q := by
  obtain ⟨b, hb, hP⟩ := hx
  exact ⟨b, hb, hP.trans h⟩

theorem Tells.bind_recalls {y : TypeM α} {f : α → TypeM Bool} {a : α} (hy : Recalls y T a)
    (hf : Tells (f a) T P) : Tells (y >>= f) T P := by
  obtain ⟨b, hb, hP⟩ := hf
  exact ⟨b, hy.bind hb, hP⟩

theorem recalls_upperBound (hT : T.WellFormed) {t upper : TypeId} (ht : T.Has t)
    (h : T.upperBound? t = some upper) : Recalls (upperBound t) T upper := by
  have hrun : upperBound t T = .ok upper T :=
    bind_eq_ok.mpr ⟨T, T, rfl, ofOption_eq_ok.mpr ⟨h, rfl⟩⟩
  exact ((stable_upperBound hT ht) upper T hrun).2.2

/-- A search that tells about every element tells whether one of them is found. -/
theorem Tells.anyM {p : α → TypeM Bool} {P : α → Prop} {l : List α}
    (h : ∀ a ∈ l, Tells (p a) T (P a)) : Tells (l.anyM p) T (∃ a ∈ l, P a) := by
  induction l with
  | nil => exact .pure (by simp)
  | cons a l ih =>
    obtain ⟨ha, hl⟩ := List.forall_mem_cons.mp h
    obtain ⟨b, hb, hP⟩ := ha
    rw [List.anyM_cons]
    refine .bind_recalls hb ?_
    cases b with
    | true => exact .pure (by simp [hP.mp rfl])
    | false =>
      have hnot : ¬P a := fun ha => Bool.false_ne_true (hP.mpr ha)
      exact (ih hl).congr (by simp [hnot])

end TypeM

namespace Program

variable {p : Program} {env : Environment}

/-! ### Numeric operands -/

/-- The type is numeric, with so many members of intersections, bounds of type variables and upper
bounds on the way as there is room for, less one for the type at the end. -/
inductive NumericWithin (p : Program) (T : TypeTable) : Nat → TypeId → Prop
  | number {room : Nat} : NumericWithin p T (room + 1) .number
  | literal {room : Nat} {t : TypeId} {value : Decimal}
    (ht : T.lookup t = .literal (.number value)) : NumericWithin p T (room + 1) t
  | enumMember {room : Nat} {t : TypeId} {enumDecl member : DeclId}
    (ht : T.lookup t = .literal (.enumMember enumDecl member))
    (hd : p.world.isEnumOf enumDecl .numberBased = true) : NumericWithin p T (room + 1) t
  | enum {room : Nat} {t : TypeId} {decl : DeclId} {args : List TypeId}
    (ht : T.lookup t = .nominal decl args)
    (hd : p.world.isEnumOf decl .numberBased = true) : NumericWithin p T (room + 1) t
  | member {room : Nat} {t s : TypeId} {members : List TypeId}
    (ht : T.lookup t = .intersection members) (hs : s ∈ members)
    (h : NumericWithin p T room s) : NumericWithin p T (room + 1) t
  | typeVariable {room : Nat} {t : TypeId} {decl : DeclId}
    (ht : T.lookup t = .typeVariable decl)
    (h : NumericWithin p T room (p.world.declarations.variableBound decl)) :
    NumericWithin p T (room + 1) t
  | bound {room : Nat} {t upper : TypeId}
    (ht : (T.lookup t).isWildcard = true ∨ (T.lookup t).isBoundThis = true)
    (hupper : T.upperBound? t = some upper) (h : NumericWithin p T room upper) :
    NumericWithin p T (room + 1) t

/-- Whether the data of a type makes it numeric, if the types behind it are numeric of which `P`
holds. -/
def NumericBy (p : Program) (T : TypeTable) (P : TypeId → Prop) (t : TypeId) : TypeData → Prop
  | .primitive _ => t = .number
  | .literal (.number _) => True
  | .literal (.enumMember decl _) | .nominal decl _ => p.world.isEnumOf decl .numberBased = true
  | .intersection members => ∃ s ∈ members, P s
  | .typeVariable decl => P (p.world.declarations.variableBound decl)
  | .wildcard .. | .thisType (some _) => ∃ upper, T.upperBound? t = some upper ∧ P upper
  | _ => False

/-- Wildcards and `this` types with a receiver are as numeric as their upper bounds. -/
theorem numericBy_iff_upperBound {P : TypeId → Prop} {t : TypeId} {d : TypeData}
    (hd : d.isWildcard = true ∨ d.isBoundThis = true) :
    p.NumericBy T P t d ↔ ∃ upper, T.upperBound? t = some upper ∧ P upper := by
  cases d with
  | wildcard bound kind => exact Iff.rfl
  | thisType bound =>
    cases bound with
    | none => exact absurd hd (by decide)
    | some bound => exact Iff.rfl
  | _ => simp [TypeData.isWildcard, TypeData.isBoundThis] at hd

/-- A type is numeric by its data. -/
theorem numericWithin_succ (hnumber : T.lookup .number = .primitive .number) {room : Nat}
    {t : TypeId} : p.NumericWithin T (room + 1) t ↔
      p.NumericBy T (p.NumericWithin T room) t (T.lookup t) := by
  constructor
  · intro h
    cases h with
    | number =>
      rw [hnumber]
      rfl
    | literal ht =>
      rw [ht]
      trivial
    | enumMember ht hd =>
      rw [ht]
      exact hd
    | enum ht hd =>
      rw [ht]
      exact hd
    | member ht hs h =>
      rw [ht]
      exact ⟨_, hs, h⟩
    | typeVariable ht h =>
      rw [ht]
      exact h
    | bound ht hupper h => exact (numericBy_iff_upperBound ht).mpr ⟨_, hupper, h⟩
  · intro h
    have hbound (ht : (T.lookup t).isWildcard = true ∨ (T.lookup t).isBoundThis = true) :
        p.NumericWithin T (room + 1) t := by
      obtain ⟨upper, hupper, h⟩ := (numericBy_iff_upperBound ht).mp h
      exact .bound ht hupper h
    cases hd : T.lookup t with
    | primitive kind =>
      rw [hd] at h
      obtain rfl : t = .number := h
      exact .number
    | literal value =>
      rw [hd] at h
      cases value with
      | number value => exact .literal hd
      | enumMember enumDecl member => exact .enumMember hd h
      | _ => exact h.elim
    | nominal decl args =>
      rw [hd] at h
      exact .enum hd h
    | intersection members =>
      rw [hd] at h
      obtain ⟨s, hs, h⟩ := h
      exact .member hd hs h
    | typeVariable decl =>
      rw [hd] at h
      exact .typeVariable hd h
    | wildcard bound kind => exact hbound (.inl (by rw [hd]; rfl))
    | thisType bound =>
      cases bound with
      | none =>
        rw [hd] at h
        exact h.elim
      | some bound => exact hbound (.inr (by rw [hd]; rfl))
    | _ =>
      rw [hd] at h
      exact h.elim

/-- The end of a chain of bounds is not where it starts. -/
theorem upperBound?_ne (hT : TypeTable.initial.GrowsTo T) {t upper : TypeId} (ht : T.Has t)
    (hd : (T.lookup t).isWildcard = true ∨ (T.lookup t).isBoundThis = true)
    (hupper : T.upperBound? t = some upper) : T.Has upper ∧ upper ≠ t := by
  obtain ⟨u, hu, hhas, hwildcard, hreceiver⟩ := TypeTable.exists_upperBound? hT ht
  obtain rfl := Option.some.inj (hu.symm.trans hupper)
  refine ⟨hhas, ?_⟩
  rintro rfl
  rcases hd with hd | hd
  · rw [hd] at hwildcard
    cases hwildcard
  · rw [hd] at hreceiver
    cases hreceiver

/-- The test finds out whether a type is numeric with the given room. -/
theorem tells_isNumericFrom (hT : TypeTable.initial.GrowsTo T) (hw : p.world.Within T)
    (room : Nat) : ∀ {t : TypeId}, T.Has t →
    TypeM.Tells (p.isNumericFrom room t) T (p.NumericWithin T room t) := by
  have hnumber : T.lookup .number = .primitive .number :=
    TypeTable.lookup_of_le hT.le (by decide)
  induction room with
  | zero =>
    intro t ht
    refine .pure (iff_of_false Bool.false_ne_true fun h => ?_)
    cases h
  | succ room ih =>
    intro t ht
    have hbound (hd : (T.lookup t).isWildcard = true ∨ (T.lookup t).isBoundThis = true) :
        TypeM.Tells (do
          let upper ← TypeM.upperBound t
          if upper = t then return false
          p.isNumericFrom room upper) T
          (∃ upper, T.upperBound? t = some upper ∧ p.NumericWithin T room upper) := by
      obtain ⟨upper, hupper, -⟩ := TypeTable.exists_upperBound? hT ht
      obtain ⟨hhas, hne⟩ := upperBound?_ne hT ht hd hupper
      refine .bind_recalls (TypeM.recalls_upperBound hT.wellFormed ht hupper) ?_
      rw [if_neg hne]
      refine (ih hhas).congr ⟨fun h => ⟨upper, hupper, h⟩, ?_⟩
      rintro ⟨other, hother, h⟩
      exact Option.some.inj (hupper.symm.trans hother) ▸ h
    rw [isNumericFrom]
    refine .bind_recalls (TypeM.recalls_lookup ht)
      (TypeM.Tells.congr ?_ (numericWithin_succ hnumber).symm)
    have hparts := hT.wellFormed.hasAll_parts t
    cases hd : T.lookup t with
    | primitive kind => exact .pure beq_iff_eq
    | literal value =>
      cases value with
      | number value => exact .pure (iff_of_true rfl trivial)
      | enumMember enumDecl member => exact .pure Iff.rfl
      | _ => exact .pure (iff_of_false Bool.false_ne_true id)
    | nominal decl args => exact .pure Iff.rfl
    | intersection members =>
      rw [hd] at hparts
      exact TypeM.Tells.anyM fun s hs => ih (hparts s hs)
    | typeVariable decl => exact ih (hw.variableBound hT.wellFormed decl)
    | wildcard bound kind => exact hbound (.inl (by rw [hd]; rfl))
    | thisType bound =>
      cases bound with
      | none => exact .pure (iff_of_false Bool.false_ne_true id)
      | some bound => exact hbound (.inr (by rw [hd]; rfl))
    | _ => exact .pure (iff_of_false Bool.false_ne_true id)

/-- The type is numeric, as deep as the test looks. -/
def Numeric (p : Program) (T : TypeTable) (t : TypeId) : Prop := p.NumericWithin T operandDepth t

/-- The type is numeric, `any`, dynamic `any`, `symbol` or a union with a numeric member. -/
inductive MayBeNumeric (p : Program) (T : TypeTable) (t : TypeId) : Prop
  | any (h : t.isAny = true)
  | symbol (h : t = .symbol)
  | numeric (h : p.Numeric T t)
  | member {s : TypeId} {members : List TypeId} (ht : T.lookup t = .union members)
    (hs : s ∈ members) (h : p.Numeric T s)

/-- Both operands are unknown, one is unknown and the other numeric, or both may be numeric. -/
def SumIsMixed (p : Program) (T : TypeTable) (left right : TypeId) : Prop :=
  (left.isUnknown = true ∧ right.isUnknown = true) ∨
    (left.isUnknown = true ∧ p.Numeric T right ∨ right.isUnknown = true ∧ p.Numeric T left) ∨
    (p.MayBeNumeric T left ∧ p.MayBeNumeric T right)

theorem SumIsMixed.symm {left right : TypeId} (h : p.SumIsMixed T left right) :
    p.SumIsMixed T right left :=
  h.imp And.symm (Or.imp Or.symm And.symm)

/-- Unknown is not numeric. -/
theorem not_numeric_unknown (hinitial : .initial ≤ T) {t : TypeId} (ht : t.isUnknown = true) :
    ¬p.Numeric T t := by
  obtain rfl : t = .unknown := eq_of_beq ht
  have hunknown : T.lookup .unknown = .unknown := TypeTable.lookup_of_le hinitial (by decide)
  have hnumber : T.lookup .number = .primitive .number :=
    TypeTable.lookup_of_le hinitial (by decide)
  intro h
  have hby := (numericWithin_succ hnumber).mp h
  rw [hunknown] at hby
  exact hby

section Operands

variable (hT : TypeTable.initial.GrowsTo T) (hw : p.world.Within T)

include hT hw

theorem tells_isNumeric {t : TypeId} (ht : T.Has t) :
    TypeM.Tells (p.isNumeric t) T (p.Numeric T t) :=
  tells_isNumericFrom hT hw operandDepth ht

/-- The test finds out whether a type may be numeric. -/
theorem tells_mayBeNumeric {t : TypeId} (ht : T.Has t) :
    TypeM.Tells (p.mayBeNumeric t) T (p.MayBeNumeric T t) := by
  rw [mayBeNumeric]
  split
  · rename_i h
    refine .pure (iff_of_true rfl ?_)
    rcases Bool.or_eq_true _ _ |>.mp h with h | h
    · exact .any h
    · exact .symbol (eq_of_beq h)
  rename_i hplain
  rw [Bool.or_eq_true, not_or] at hplain
  obtain ⟨b, hb, hnumeric⟩ := tells_isNumeric hT hw ht
  refine .bind_recalls hb ?_
  cases b with
  | true => exact .pure (iff_of_true rfl (.numeric (hnumeric.mp rfl)))
  | false =>
    have hnot : ¬p.Numeric T t := fun h => Bool.false_ne_true (hnumeric.mpr h)
    have hinv (h : p.MayBeNumeric T t) :
        ∃ members, T.lookup t = .union members ∧ ∃ s ∈ members, p.Numeric T s := by
      cases h with
      | any h => exact absurd h hplain.1
      | symbol h => exact absurd (beq_iff_eq.mpr h) hplain.2
      | numeric h => exact absurd h hnot
      | member hunion hs h => exact ⟨_, hunion, _, hs, h⟩
    refine .bind_recalls (TypeM.recalls_lookup ht) ?_
    have hparts := hT.wellFormed.hasAll_parts t
    cases hd : T.lookup t with
    | union members =>
      rw [hd] at hparts
      refine (TypeM.Tells.anyM fun s hs => tells_isNumeric hT hw (hparts s hs)).congr ⟨?_, ?_⟩
      · rintro ⟨s, hs, h⟩
        exact .member hd hs h
      · intro h
        obtain ⟨members', hunion, hex⟩ := hinv h
        obtain rfl := TypeData.union.inj (hd.symm.trans hunion)
        exact hex
    | _ =>
      refine .pure (iff_of_false Bool.false_ne_true fun h => ?_)
      obtain ⟨members, hunion, -⟩ := hinv h
      rw [hd] at hunion
      cases hunion

end Operands

/-- The union of `number` and `string` is in short form. -/
theorem yields_numberOrString (hT : TypeTable.initial.GrowsTo T) (p : Program)
    (env : Environment) : TypeM.Yields (p.union env [.number, .string]) T fun T' t =>
      T'.lookup t = .union [.number, .string] := by
  have hdecides : TypeRelation.Decides p.relation env [.number, .string] Eq T :=
    World.decides_primitives hT.le
      (by decide : ∀ k ∈ [Primitive.number, .string], k.isDiscrete = true)
  have hplain : ∀ t ∈ [TypeId.number, .string],
      Composite.members? .union (T.lookup t) = none := by
    have hrows : ∀ t ∈ [TypeId.number, .string], TypeTable.initial.Has t ∧
        Composite.members? .union (TypeTable.initial.lookup t) = none := by decide
    intro t ht
    rw [TypeTable.lookup_of_le hT.le (hrows t ht).1]
    exact (hrows t ht).2
  have hhas : T.HasAll [.number, .string] := fun t ht => hT.wellFormed.has_reserved (by
    revert t
    decide)
  refine (Composite.yields_build (w := p.world) hT.wellFormed hhas (.of_plain hplain)
    (List.cons_ne_nil _ _) hdecides).bind fun built T₁ hg₁ hbuilt => .pure hg₁.wellFormed ?_
  obtain ⟨kept, hkept⟩ := hbuilt
  have hstays : ∀ t ∈ [TypeId.number, .string], t ∈ kept := by
    have hcand : ∀ t ∈ [TypeId.number, .string], Composite.isCandidate t = true := by decide
    intro t ht
    by_contra hgone
    obtain ⟨-, other, -, -, hne, heq, -⟩ := (hkept.normal.candidate t ht (hcand t ht)).mp hgone
    exact hne heq
  have hflat : [TypeId.number, .string].eraseDups = [.number, .string] := by decide
  have hsub : kept.Sublist [.number, .string] := hflat ▸ hkept.normal.sublist
  obtain rfl : kept = [.number, .string] :=
    eq_of_sublist_of_mem_iff (List.Sublist.refl _) hsub (by decide)
      fun t => ⟨fun ht => hsub.subset ht, hstays t⟩
  exact Composite.union_of_members? hkept.denotes

/-- The run of the tests, by what they return. -/
theorem additionType_of_tests {left right : TypeId}
    {leftNumeric rightNumeric leftMay rightMay : Bool}
    (hln : p.isNumeric left T = .ok leftNumeric T) (hrn : p.isNumeric right T = .ok rightNumeric T)
    (hlm : p.mayBeNumeric left T = .ok leftMay T) (hrm : p.mayBeNumeric right T = .ok rightMay T)
    (hunknown : left.isUnknown = true → leftNumeric = false) :
    p.additionType env left right T =
      if leftNumeric && rightNumeric then .ok .number T
      else if left.isUnknown && right.isUnknown ||
          (left.isUnknown && rightNumeric || right.isUnknown && leftNumeric) ||
          leftMay && rightMay then p.union env [.number, .string] T
      else .ok .string T := by
  rw [additionType]
  cases hboth : left.isUnknown && right.isUnknown with
  | true =>
    rw [Bool.and_eq_true] at hboth
    simp only [hunknown hboth.1, Bool.false_and, Bool.true_or]
    rfl
  | false =>
    simp only [Bool.false_eq_true, if_false]
    rw [TypeM.bind_of_ok hln, TypeM.bind_of_ok hrn]
    cases hnumeric : leftNumeric && rightNumeric with
    | true => rfl
    | false =>
      cases hone : left.isUnknown && rightNumeric || right.isUnknown && leftNumeric with
      | true => rfl
      | false =>
        simp only [Bool.false_eq_true, if_false, Bool.false_or]
        rw [TypeM.bind_of_ok hlm]
        cases leftMay with
        | false => rfl
        | true =>
          simp only [if_true]
          rw [TypeM.bind_of_ok hrm]
          cases rightMay <;> rfl

open scoped Classical in
/-- The type of a sum, by the classes of its operands. -/
theorem additionType_eq (hT : TypeTable.initial.GrowsTo T) (hw : p.world.Within T)
    {left right : TypeId} (hleft : T.Has left) (hright : T.Has right) :
    p.additionType env left right T =
      if p.Numeric T left ∧ p.Numeric T right then .ok .number T
      else if p.SumIsMixed T left right then p.union env [.number, .string] T
      else .ok .string T := by
  obtain ⟨leftNumeric, hln, hleftNumeric⟩ := tells_isNumeric hT hw hleft
  obtain ⟨rightNumeric, hrn, hrightNumeric⟩ := tells_isNumeric hT hw hright
  obtain ⟨leftMay, hlm, hleftMay⟩ := tells_mayBeNumeric hT hw hleft
  obtain ⟨rightMay, hrm, hrightMay⟩ := tells_mayBeNumeric hT hw hright
  have hunknown (h : left.isUnknown = true) : leftNumeric = false := by
    rw [← Bool.not_eq_true, hleftNumeric]
    exact not_numeric_unknown hT.le h
  rw [additionType_of_tests hln.run hrn.run hlm.run hrm.run hunknown]
  simp only [SumIsMixed, ← hleftNumeric, ← hrightNumeric, ← hleftMay, ← hrightMay,
    Bool.or_eq_true, Bool.and_eq_true, or_assoc]

/-- The sum of two operands.  It does not depend on their order, now or later; it is `number`
exactly for numeric operands, the union of `number` and `string` for other operands that are both
unknown, of which one is unknown and the other numeric, or that both may be numeric, and `string`
for all others. -/
theorem additionType_of_operands (hT : TypeTable.initial.GrowsTo T) (h : p.Setting env T)
    {left right : TypeId} (hleft : T.Has left) (hright : T.Has right) :
    ∃ sum T', T.GrowsTo T' ∧ p.additionType env left right T = .ok sum T' ∧
      p.additionType env right left T = .ok sum T' ∧
      TypeM.Recalls (p.additionType env left right) T' sum ∧
      TypeM.Recalls (p.additionType env right left) T' sum ∧
      (sum = .number ↔ p.Numeric T left ∧ p.Numeric T right) ∧
      (T'.lookup sum = .union [.number, .string] ↔
        ¬(p.Numeric T left ∧ p.Numeric T right) ∧ p.SumIsMixed T left right) ∧
      (sum = .string ↔
        ¬(p.Numeric T left ∧ p.Numeric T right) ∧ ¬p.SumIsMixed T left right) := by
  classical
  have hswap : p.additionType env right left T = p.additionType env left right T := by
    rw [additionType_eq hT h.world hleft hright, additionType_eq hT h.world hright hleft]
    simp only [and_comm (a := p.Numeric T right),
      show p.SumIsMixed T right left ↔ p.SumIsMixed T left right from ⟨.symm, .symm⟩]
  have hrecalls (sum : TypeId) (T' : TypeTable)
      (hrun : p.additionType env left right T = .ok sum T') :
      T.GrowsTo T' ∧ TypeM.Recalls (p.additionType env left right) T' sum ∧
        TypeM.Recalls (p.additionType env right left) T' sum := by
    obtain ⟨hg, -, hlater⟩ := stable_additionType h hleft hright sum T' hrun
    obtain ⟨-, -, hlater'⟩ := stable_additionType h hright hleft sum T' (hswap.trans hrun)
    exact ⟨hg, hlater, hlater'⟩
  have hnumber : T.lookup .number = .primitive .number :=
    TypeTable.lookup_of_le hT.le (by decide)
  have hstring : T.lookup .string = .primitive .string :=
    TypeTable.lookup_of_le hT.le (by decide)
  have heq : p.additionType env left right T = _ := additionType_eq hT h.world hleft hright
  by_cases hnumeric : p.Numeric T left ∧ p.Numeric T right
  · rw [if_pos hnumeric] at heq
    obtain ⟨hg, hlater, hlater'⟩ := hrecalls _ _ heq
    refine ⟨.number, T, hg, heq, hswap.trans heq, hlater, hlater', ?_, ?_, ?_⟩
    · exact iff_of_true rfl hnumeric
    · exact iff_of_false (by simp [hnumber]) fun hnot => hnot.1 hnumeric
    · exact iff_of_false (by decide) fun hnot => hnot.1 hnumeric
  rw [if_neg hnumeric] at heq
  by_cases hmixed : p.SumIsMixed T left right
  · rw [if_pos hmixed] at heq
    obtain ⟨sum, T', hrun, -, hunion⟩ := yields_numberOrString hT p env
    rw [hrun] at heq
    obtain ⟨hg, hlater, hlater'⟩ := hrecalls _ _ heq
    refine ⟨sum, T', hg, heq, hswap.trans heq, hlater, hlater', ?_, ?_, ?_⟩
    · refine iff_of_false ?_ hnumeric
      rintro rfl
      rw [TypeTable.lookup_of_le hg.le (h.table.has_reserved (by decide)), hnumber] at hunion
      cases hunion
    · exact iff_of_true hunion ⟨hnumeric, hmixed⟩
    · refine iff_of_false ?_ fun hnot => hnot.2 hmixed
      rintro rfl
      rw [TypeTable.lookup_of_le hg.le (h.table.has_reserved (by decide)), hstring] at hunion
      cases hunion
  · rw [if_neg hmixed] at heq
    obtain ⟨hg, hlater, hlater'⟩ := hrecalls _ _ heq
    refine ⟨.string, T, hg, heq, hswap.trans heq, hlater, hlater', ?_, ?_, ?_⟩
    · exact iff_of_false (by decide) hnumeric
    · exact iff_of_false (by simp [hstring]) fun hmix => hmixed hmix.2
    · exact iff_of_true rfl ⟨hnumeric, hmixed⟩

/-- A program without declarations and nodes. -/
def bare : Program where
  world := default
  tree := .empty
  flow := .empty
  options := {}

theorem setting_bare : bare.Setting .empty .initial := by
  refine setting_empty TypeTable.wellFormed_initial
    ⟨World.within_of_entries (by decide) (by decide), fun n content hn => ?_,
      fun n content hn => ?_⟩
  · cases hn
  · cases hn

/-- The sum of `any` and `number`, in both orders. -/
theorem additionType_of_operands_any : ∃ sum T',
    bare.additionType .empty .any .number .initial = .ok sum T' ∧
    bare.additionType .empty .number .any .initial = .ok sum T' ∧
    T'.lookup sum = .union [.number, .string] := by
  have hany : TypeTable.initial.Has .any := by decide
  have hnumber : TypeTable.initial.Has .number := by decide
  obtain ⟨sum, T', -, hrun, hswap, -, -, -, hunion, -⟩ :=
    additionType_of_operands (.refl TypeTable.wellFormed_initial) setting_bare hany hnumber
  refine ⟨sum, T', hrun, hswap, hunion.mpr ⟨fun hnumeric => ?_, .inr (.inr ⟨?_, ?_⟩)⟩⟩
  · have hby : TypeId.any = .number := (numericWithin_succ rfl).mp hnumeric.1
    cases hby
  · exact .any rfl
  · exact .numeric .number

/-- Unknown is not among the types that may be numeric. -/
example : bare.additionType .empty .unknown .any .initial = .ok .string .initial := rfl

end Program

end ScriptTyping
