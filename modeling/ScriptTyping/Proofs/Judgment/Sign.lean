import ScriptTyping.Proofs.Decimal.Value
import ScriptTyping.Proofs.Hierarchy.Abbreviation
import ScriptTyping.Proofs.Judgment.Comparison
import ScriptTyping.Proofs.Judgment.Inquiry
import ScriptTyping.Proofs.Table.Construction
import ScriptTyping.Proofs.Table.Recall

/-!
# Numeric literals and signs

A number has one literal type, however it is written.  A minus in front of an expression whose type
is the literal of a number gives the literal of the negated number, without rounding; a second minus
gives the first type back, and a plus changes nothing.

## Main results

* `TypeM.eq_iff_value_eq` — a number has one literal type.
* `Program.judge_minus`, `Program.judge_plus` — the rule of the signs.
* `Program.signs_exact` — literal types under signs.
-/

namespace ScriptTyping

variable {T T' : TypeTable} {a b v : Decimal} {t u : TypeId}

namespace TypeM

theorem recalls_numberLiteral_iff : Recalls (numberLiteral v) T t ↔
    T.handles[TypeData.literal (.number v.normalize)]? = some t :=
  recalls_intern_iff

/-- Decimals of one value have one literal type. -/
theorem Recalls.numberLiteral_of_value_eq (h : Recalls (numberLiteral a) T t)
    (hvalue : b.value = a.value) : Recalls (numberLiteral b) T t := by
  rw [recalls_numberLiteral_iff] at h ⊢
  rwa [Decimal.normalize_eq_iff_value_eq.mpr hvalue]

/-- Every number gets a literal type. -/
theorem exists_numberLiteral (hT : T.Indexed) (v : Decimal) :
    ∃ t T', numberLiteral v T = .ok t T' ∧ T ≤ T' ∧ T'.Indexed ∧ Recalls (numberLiteral v) T' t :=
  ⟨_, _, rfl, TypeTable.le_intern T _, hT.intern _,
    recalls_numberLiteral_iff.mpr (TypeTable.handles_intern T _)⟩

/-- The row of a literal type holds a normal form of the number. -/
theorem Recalls.lookup?_numberLiteral (hT : T.Indexed) (h : Recalls (numberLiteral v) T t) :
    T.lookup? t = some (.literal (.number v.normalize)) :=
  hT.sound _ _ (recalls_numberLiteral_iff.mp h)

/-- A number has one literal type. -/
theorem eq_iff_value_eq (hT : T.Indexed) (ha : Recalls (numberLiteral a) T t)
    (hb : Recalls (numberLiteral b) T u) : t = u ↔ a.value = b.value := by
  constructor
  · rintro rfl
    have hrow := (ha.lookup?_numberLiteral hT).symm.trans (hb.lookup?_numberLiteral hT)
    simp only [Option.some.injEq, TypeData.literal.injEq, LiteralValue.number.injEq] at hrow
    exact Decimal.normalize_eq_iff_value_eq.mp hrow
  · intro hvalue
    exact ha.unique (hb.numberLiteral_of_value_eq hvalue)

end TypeM

namespace Program

variable {p : Program} {room : Nat} {env : Environment} {operand : Slot} {n : NodeId}
  {s s₁ : Memory}

/-- A sign reads the row of its operand. -/
theorem judge_sign {op : UnaryOperator} {d : Decimal} (hop : op = .plus ∨ op = .minus)
    (hn : p.content? n = some (.unary op operand))
    (hrun : (p.judge room).slot env operand s = .ok t s₁)
    (hrow : s₁.types.lookup t = .literal (.number d)) :
    (p.judge (room + 1)).node env n s =
      (if op = .minus then liftM (TypeM.numberLiteral d.neg) else pure t : InferM TypeId) s₁ := by
  have hlookup := InferM.liftM_of_ok (s := s₁) (TypeM.lookup_run t s₁.types)
  rw [judge_succ hn]
  change unaryType (p.judge room) env op operand s = _
  rcases hop with rfl | rfl
  all_goals
    rw [unaryType, InferM.bind_of_ok hrun, InferM.bind_of_ok hlookup, hrow]

/-- A plus in front of a number changes nothing. -/
theorem judge_plus (hn : p.content? n = some (.unary .plus operand))
    (hrun : (p.judge room).slot env operand s = .ok t s₁) (hT : s₁.types.Indexed)
    (ht : TypeM.Recalls (TypeM.numberLiteral v) s₁.types t) :
    (p.judge (room + 1)).node env n s = .ok t s₁ :=
  judge_sign (.inl rfl) hn hrun (TypeTable.lookup_eq (ht.lookup?_numberLiteral hT))

/-- A minus in front of a number gives the literal type of every decimal of the negated value. -/
theorem judge_minus (hn : p.content? n = some (.unary .minus operand))
    (hrun : (p.judge room).slot env operand s = .ok t s₁) (hT : s₁.types.Indexed)
    (ht : TypeM.Recalls (TypeM.numberLiteral v) s₁.types t) (ha : a.value = -v.value)
    (hu : TypeM.numberLiteral a s₁.types = .ok u T') :
    (p.judge (room + 1)).node env n s = .ok u { s₁ with types := T' } := by
  have hnormal : v.normalize.neg.normalize = a.normalize := by
    rw [Decimal.normalize_eq_iff_value_eq, Decimal.value_neg, Decimal.value_normalize, ha]
  have hneg : TypeM.numberLiteral v.normalize.neg s₁.types = .ok u T' := by
    rw [← hu, TypeM.numberLiteral, TypeM.numberLiteral, hnormal]
  rw [judge_sign (.inr rfl) hn hrun (TypeTable.lookup_eq (ht.lookup?_numberLiteral hT)), if_pos rfl]
  exact InferM.liftM_of_ok hneg

/-- Literal types of numbers and signs.  In a growing table, two decimals have one literal type
exactly when they denote one number.  In front of an expression whose type is the literal of `v`, a
plus gives the same type.  A minus gives the literal type of exactly `-v`, whose row is
representable if `v` is, and a minus in front of any expression of that type gives the first type
back. -/
theorem signs_exact :
    (∀ (T : TypeTable) (a : Decimal), T.Indexed → ∃ t T₁, TypeM.numberLiteral a T = .ok t T₁ ∧
      T ≤ T₁ ∧ T₁.Indexed ∧ ∀ (T' : TypeTable) (b : Decimal), T₁ ≤ T' → T'.Indexed →
        ∃ u T₂, TypeM.numberLiteral b T' = .ok u T₂ ∧ T' ≤ T₂ ∧ T₂.Indexed ∧
          (t = u ↔ a.value = b.value)) ∧
    ∀ (p : Program) (room : Nat) (env : Environment) (operand : Slot) (s s₁ : Memory) (t : TypeId)
      (v : Decimal), (p.judge room).slot env operand s = .ok t s₁ → s₁.types.Indexed →
      TypeM.Recalls (TypeM.numberLiteral v) s₁.types t →
      (∀ n, p.content? n = some (.unary .plus operand) →
        (p.judge (room + 1)).node env n s = .ok t s₁) ∧
      ∃ t' T', s₁.types ≤ T' ∧ T'.Indexed ∧
        (∀ w, TypeM.Recalls (TypeM.numberLiteral w) T' t' ↔ w.value = -v.value) ∧
        (∃ d, T'.lookup? t' = some (.literal (.number d)) ∧ d.value = -v.value ∧
          (v.InRange → d.InRange)) ∧
        (∀ n, p.content? n = some (.unary .minus operand) →
          (p.judge (room + 1)).node env n s = .ok t' { s₁ with types := T' }) ∧
        ∀ (room' : Nat) (env' : Environment) (operand' : Slot) (s' s₁' : Memory) (n : NodeId),
          (p.judge room').slot env' operand' s' = .ok t' s₁' → T' ≤ s₁'.types →
          s₁'.types.Indexed → p.content? n = some (.unary .minus operand') →
          (p.judge (room' + 1)).node env' n s' = .ok t s₁' := by
  refine ⟨fun T a hT => ?_, fun p room env operand s s₁ t v hrun hT ht => ?_⟩
  · obtain ⟨t, T₁, hrun, hle, hT₁, ht⟩ := TypeM.exists_numberLiteral hT a
    refine ⟨t, T₁, hrun, hle, hT₁, fun T' b hle₁ hT' => ?_⟩
    obtain ⟨u, T₂, hrun', hle', hT₂, hu⟩ := TypeM.exists_numberLiteral hT' b
    exact ⟨u, T₂, hrun', hle', hT₂, TypeM.eq_iff_value_eq hT₂ (ht.of_le (hle₁.trans hle')) hu⟩
  · obtain ⟨t', T', hneg, hle, hT', ht'⟩ := TypeM.exists_numberLiteral hT v.neg
    have hliteral (w : Decimal) :
        TypeM.Recalls (TypeM.numberLiteral w) T' t' ↔ w.value = -v.value := by
      rw [← Decimal.value_neg]
      exact ⟨fun hw => (TypeM.eq_iff_value_eq hT' hw ht').mp rfl, ht'.numberLiteral_of_value_eq⟩
    have hrow : v.neg.normalize.value = -v.value := by
      rw [Decimal.value_normalize, Decimal.value_neg]
    refine ⟨fun n hn => judge_plus hn hrun hT ht, t', T', hle, hT', hliteral,
      ⟨_, ht'.lookup?_numberLiteral hT', hrow, fun hv => hv.neg.normalize⟩,
      fun n hn => judge_minus hn hrun hT ht v.value_neg hneg,
      fun room' env' operand' s' s₁' n hrun' hle' hT'' hn => ?_⟩
    -- The first literal type is still stored, and it is that of the number negated twice.
    have hback : v.value = -v.neg.value := by rw [Decimal.value_neg, neg_neg]
    exact judge_minus hn hrun' hT'' (ht'.of_le hle') hback (ht.of_le (hle.trans hle')).run

/-- The program `3.50; -3.50; -(-3.50)`. -/
def doubleMinus : Program where
  world := default
  tree := ⟨#[⟨.numericLiteral ⟨false, 350, 2⟩, some ⟨1⟩⟩, ⟨.unary .minus (some ⟨0⟩), some ⟨2⟩⟩,
    ⟨.unary .minus (some ⟨1⟩), none⟩]⟩
  flow := .empty
  options := {}

/-- Both signs together leave the literal type of `3.5`. -/
theorem signs_exact_doubleMinus :
    (doubleMinus.judge 1).node .empty ⟨0⟩ ⟨.initial, .empty, 0⟩ =
      .ok ⟨16⟩ ⟨TypeTable.initial.store (.literal (.number ⟨false, 35, 1⟩)), .empty, 0⟩ ∧
    ∃ t' T', (doubleMinus.judge 2).node .empty ⟨1⟩ ⟨.initial, .empty, 0⟩ =
        .ok t' ⟨T', .empty, 0⟩ ∧
      TypeM.Recalls (TypeM.numberLiteral ⟨true, 35, 1⟩) T' t' ∧
      (doubleMinus.judge 3).node .empty ⟨2⟩ ⟨.initial, .empty, 0⟩ = .ok ⟨16⟩ ⟨T', .empty, 0⟩ := by
  have hnew : TypeTable.initial.handles[TypeData.literal (.number ⟨false, 35, 1⟩)]? = none :=
    TypeTable.handles_initial_of_ne (by decide)
  have hfirst : (doubleMinus.judge 1).slot .empty (some ⟨0⟩) ⟨.initial, .empty, 0⟩ =
      .ok ⟨16⟩ ⟨TypeTable.initial.store (.literal (.number ⟨false, 35, 1⟩)), .empty, 0⟩ :=
    InferM.liftM_of_ok (TypeM.intern_of_new hnew)
  have hT := TypeTable.indexed_initial.intern (.literal (.number ⟨false, 35, 1⟩))
  rw [TypeTable.intern_of_new hnew] at hT
  have ht : TypeM.Recalls (TypeM.numberLiteral ⟨false, 350, 2⟩)
      (TypeTable.initial.store (.literal (.number ⟨false, 35, 1⟩))) ⟨16⟩ :=
    TypeM.recalls_intern (TypeTable.handles_store _ _)
  obtain ⟨-, t', T', -, hT', hliteral, -, hminus, hback⟩ :=
    signs_exact.2 doubleMinus 1 .empty (some ⟨0⟩) _ _ _ _ hfirst hT ht
  have hsecond := hminus ⟨1⟩ rfl
  refine ⟨hfirst, t', T', hsecond, (hliteral _).mpr ?_, ?_⟩
  · norm_num [Decimal.value, Decimal.signed]
  · exact hback 2 .empty (some ⟨1⟩) _ _ ⟨2⟩ hsecond le_rfl hT' rfl

end Program

end ScriptTyping
