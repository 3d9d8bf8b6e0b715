import ScriptTyping.Lattice.Composite
import ScriptTyping.Proofs.Subtyping.Coinduction
import ScriptTyping.Proofs.Termination.Subtyping

/-!
# One step of the subtype relation

The rules reduce a pair of types to other pairs in a fixed order: handles of intrinsic types first,
then a union on the left, a union on the right, an intersection on the right and an intersection on
the left.  Each of these reductions is stated here as an equivalence, for every relation that
answers the questions, at a table that holds the expansions of the aliases in question.

## Main definitions

* `Subtyping.sentinel?` — the answer that handles of intrinsic types give by themselves.
* `Subtyping.Goal.Met` — what a goal says about a relation.

## Main results

* `Subtyping.holds_iff` — the subtype relation is a fixed point of the rules.
* `Subtyping.holds_of_step` — coinduction.
* `Subtyping.step_union_left`, `Subtyping.step_union_right`, `Subtyping.step_intersection_right`,
  `Subtyping.step_intersection_left` — composites.
-/

namespace ScriptTyping.Subtyping

variable {w : World} {R : PairRelation} {T T₁ : TypeTable} {s t s' t' : TypeId}

/-! ### Fixed point and coinduction -/

/-- A relation at one table whose pairs are equal or accepted by the rules, given the relation and
what holds anyway, holds. -/
theorem holds_of_step {Q : TypeId → TypeId → Prop}
    (hQ : ∀ s t, Q s t → s = t ∨ Step w (fun T' s t => T' = T ∧ Q s t ∨ Holds w T' s t) T s t)
    (h : Q s t) : Holds w T s t := by
  refine ⟨fun T' s t => T' = T ∧ Q s t ∨ Holds w T' s t, ?_, .inl ⟨rfl, h⟩⟩
  rintro T' s t (⟨rfl, hst⟩ | hst)
  · exact hQ s t hst
  · rcases hst.unfold with heq | hstep
    · exact .inl heq
    · exact .inr (hstep.mono fun _ _ _ h => .inr h)

theorem holds_refl (s : TypeId) : Holds w T s s :=
  holds_of_step (Q := fun s t => s = t) (fun _ _ h => .inl h) rfl

/-- The subtype relation is a fixed point of the rules. -/
theorem holds_iff : Holds w T s t ↔ s = t ∨ Step w (Holds w) T s t := by
  refine ⟨Holds.unfold, ?_⟩
  rintro (rfl | hstep)
  · exact holds_refl s
  · refine holds_of_step (Q := fun s₁ t₁ => s₁ = s ∧ t₁ = t) ?_ ⟨rfl, rfl⟩
    rintro _ _ ⟨rfl, rfl⟩
    exact .inr (hstep.mono fun _ _ _ h => .inr h)

/-! ### Carrying out a plan -/

/-- The pairs that a goal is reduced to belong to the relation. -/
def Goal.Met (R : PairRelation) (T : TypeTable) : Goal → Prop
  | verdict holds => holds = true
  | pair source target => R T source target
  | argument source target variance => ∃ pairs T',
      argumentPairs source target variance T = .ok (some pairs) T' ∧
        ∀ pair ∈ pairs, R T' pair.1 pair.2

/-- The goal is no comparison of type arguments, so it stores nothing. -/
def Goal.IsPlain : Goal → Prop
  | argument .. => False
  | _ => True

theorem goal_eval_plain {goal : Goal} (hplain : goal.IsPlain) {g g' : PairGuard} :
    goal.eval (answer R) g T = .ok (true, g') T₁ ↔ goal.Met R T ∧ g = g' ∧ T = T₁ := by
  cases goal with
  | verdict holds =>
    rw [Goal.eval_verdict, pure_eq_ok]
    rfl
  | pair source target =>
    rw [Goal.eval_pair, answer_eq_ok]
    simp [Goal.Met]
  | argument => cases hplain

theorem goals_eval_plain {goals : List Goal} (hplain : ∀ goal ∈ goals, goal.IsPlain)
    {g g' : PairGuard} : goals.allM (Goal.eval (answer R)) g T = .ok (true, g') T₁ ↔
      (∀ goal ∈ goals, goal.Met R T) ∧ g = g' ∧ T = T₁ := by
  induction goals with
  | nil => simp [pure_eq_ok]
  | cons goal goals ih =>
    obtain ⟨hgoal, hgoals⟩ := List.forall_mem_cons.mp hplain
    rw [allM_cons_true, List.forall_mem_cons]
    constructor
    · rintro ⟨g₁, T₂, h, hrest⟩
      obtain ⟨hmet, rfl, rfl⟩ := (goal_eval_plain hgoal).mp h
      obtain ⟨hall, rfl, rfl⟩ := (ih hgoals).mp hrest
      exact ⟨⟨hmet, hall⟩, rfl, rfl⟩
    · rintro ⟨⟨hmet, hall⟩, rfl, rfl⟩
      exact ⟨g, T, (goal_eval_plain hgoal).mpr ⟨hmet, rfl, rfl⟩,
        (ih hgoals).mpr ⟨hall, rfl, rfl⟩⟩

/-- A plan without comparisons of type arguments is carried out by meeting its goals. -/
theorem step_iff_all {goals : List Goal} (hplan : plan w s t T = .ok (.all goals) T₁)
    (hplain : ∀ goal ∈ goals, goal.IsPlain) :
    Step w R T s t ↔ ∀ goal ∈ goals, goal.Met R T₁ := by
  constructor
  · rintro ⟨g, T', hrules⟩
    obtain ⟨p, T₂, hp, heval⟩ := rules_eq_ok.mp hrules
    cases hplan.symm.trans hp
    exact ((goals_eval_plain hplain).mp heval).1
  · intro hmet
    exact ⟨_, T₁, rules_eq_ok.mpr ⟨_, T₁, hplan,
      (goals_eval_plain hplain).mpr ⟨hmet, rfl, rfl⟩⟩⟩

theorem step_iff_any {pairs : List (TypeId × TypeId)}
    (hplan : plan w s t T = .ok (.any pairs) T₁) :
    Step w R T s t ↔ ∃ pair ∈ pairs, R T₁ pair.1 pair.2 := by
  constructor
  · rintro ⟨g, T', hrules⟩
    obtain ⟨p, T₂, hp, heval⟩ := rules_eq_ok.mp hrules
    cases hplan.symm.trans hp
    exact (anyM_answer_true.mp heval).1
  · intro hsome
    exact ⟨_, T₁, rules_eq_ok.mpr ⟨_, T₁, hplan, anyM_answer_true.mpr ⟨hsome, rfl, rfl⟩⟩⟩

theorem step_iff_verdict {b : Bool} (hplan : plan w s t T = .ok (.verdict b) T₁) :
    Step w R T s t ↔ b = true := by
  rw [step_iff_all hplan (by simp [Goal.IsPlain])]
  simp [Goal.Met]

/-! ### Handles of intrinsic types -/

/-- The answer about two handles that is given without looking at the types behind them. -/
def sentinel? (s t : TypeId) : Option Bool :=
  if s.isUnknown || t.isUnknown then some true
  else if t.isAny || s == .dynamicAny then some true
  else if s = .undefined then some true
  else if s = .null then some (t != .undefined)
  else if s = .any then some false
  else none

theorem plan_of_sentinel {b : Bool} (h : sentinel? s t = some b) :
    plan w s t T = .ok (.verdict b) T := by
  have hplan : plan w s t = pure (.verdict b) := by
    unfold sentinel? at h
    unfold plan
    repeat' split at h
    all_goals simp_all
  rw [hplan]
  rfl

/-- The plan at a table that holds the expansions of both types. -/
theorem plan_of_expansions (h : sentinel? s t = none) (hs : w.resolveAlias s T = .ok s' T)
    (ht : w.resolveAlias t T = .ok t' T) :
    plan w s t T = expandedPlan w s' t' (T.lookup s') (T.lookup t') T := by
  have hplan : plan w s t = (do
      let source ← w.resolveAlias s
      let target ← w.resolveAlias t
      let sourceData ← TypeM.lookup source
      let targetData ← TypeM.lookup target
      expandedPlan w source target sourceData targetData) := by
    unfold sentinel? at h
    unfold plan
    repeat' split at h
    all_goals simp_all
  rw [hplan, TypeM.bind_of_ok hs, TypeM.bind_of_ok ht]
  rfl

theorem holds_iff_of_sentinel {b : Bool} (h : sentinel? s t = some b) :
    Holds w T s t ↔ s = t ∨ b = true := by
  rw [holds_iff, step_iff_verdict (plan_of_sentinel h)]

/-- The handles of types that are below all types that are not reserved. -/
def bottoms : List TypeId := [.unknown, .dynamicAny, .undefined, .null]

/-- The handles of types that are above all types that are not reserved. -/
def tops : List TypeId := [.unknown, .any, .dynamicAny]

theorem reserved_of_mem_bottoms : ∀ x ∈ bottoms, x.index < TypeId.firstDynamic ∧ x ≠ .any := by
  decide

theorem reserved_of_mem_tops : ∀ x ∈ tops, x.index < TypeId.firstDynamic := by decide

theorem ne_of_reserved_le {r : TypeId} (hs : TypeId.firstDynamic ≤ s.index)
    (hr : r.index < TypeId.firstDynamic) : s ≠ r := by
  rintro rfl
  exact absurd hr (Nat.not_lt_of_le hs)

theorem sentinel?_of_reserved_le_right (ht : TypeId.firstDynamic ≤ t.index) :
    sentinel? s t = if s ∈ bottoms then some true else if s = .any then some false else none := by
  have hunknown : t ≠ .unknown := ne_of_reserved_le ht (by decide)
  have hany : t ≠ .any := ne_of_reserved_le ht (by decide)
  have hdynamic : t ≠ .dynamicAny := ne_of_reserved_le ht (by decide)
  have hundefined : t ≠ .undefined := ne_of_reserved_le ht (by decide)
  simp only [sentinel?, bottoms, TypeId.isUnknown, TypeId.isAny, Bool.or_eq_true, beq_iff_eq,
    hunknown, hany, hdynamic, or_false, false_or, bne_iff_ne.mpr hundefined, List.mem_cons,
    List.not_mem_nil]
  grind

theorem sentinel?_of_reserved_le_left (hs : TypeId.firstDynamic ≤ s.index) :
    sentinel? s t = if t ∈ tops then some true else none := by
  have hunknown : s ≠ .unknown := ne_of_reserved_le hs (by decide)
  have hany : s ≠ .any := ne_of_reserved_le hs (by decide)
  have hdynamic : s ≠ .dynamicAny := ne_of_reserved_le hs (by decide)
  have hundefined : s ≠ .undefined := ne_of_reserved_le hs (by decide)
  have hnull : s ≠ .null := ne_of_reserved_le hs (by decide)
  simp only [sentinel?, tops, TypeId.isUnknown, TypeId.isAny, Bool.or_eq_true, beq_iff_eq, hunknown,
    hany, hdynamic, hundefined, hnull, or_false, false_or, if_false, List.mem_cons,
    List.not_mem_nil]
  grind

/-- Nothing is settled about two types that are not reserved. -/
theorem sentinel?_of_reserved_le (hs : TypeId.firstDynamic ≤ s.index)
    (ht : TypeId.firstDynamic ≤ t.index) : sentinel? s t = none := by
  rw [sentinel?_of_reserved_le_left hs, if_neg]
  exact fun hmem => absurd (reserved_of_mem_tops t hmem) (Nat.not_lt_of_le ht)

/-! ### Reserved handles -/

section Reserved

variable {x x' : TypeId} {ms : List TypeId} {kind : Composite}

/-- A reserved handle is no alias. -/
theorem resolveAlias_of_reserved (hinit : .initial ≤ T) (hx : x.index < TypeId.firstDynamic) :
    w.resolveAlias x T = .ok x T := by
  refine resolveAlias_of_not_alias ?_
  rintro ⟨decl, args, hlookup, -⟩
  exact absurd hx (Nat.not_lt_of_le (reserved_le_of_nominal hinit hlookup))

/-- What expands to a composite is not reserved. -/
theorem reserved_le_of_members? (hinit : .initial ≤ T) (hx : w.resolveAlias x T = .ok x' T)
    (hms : kind.members? (T.lookup x') = some ms) : TypeId.firstDynamic ≤ x.index := by
  refine Nat.le_of_not_lt fun hlt => ?_
  rw [resolveAlias_of_reserved hinit hlt] at hx
  cases hx
  refine absurd hlt (Nat.not_lt_of_le (reserved_le_of_view kind.members? ?_ hinit hms))
  cases kind <;> decide

/-- A composite is no alias. -/
theorem resolveAlias_of_members? (hms : kind.members? (T.lookup x) = some ms) :
    w.resolveAlias x T = .ok x T := by
  refine resolveAlias_of_not_alias ?_
  rintro ⟨decl, args, hlookup, -⟩
  rw [hlookup] at hms
  cases kind <;> cases hms

end Reserved

/-! ### Composites -/

section Composites

variable {ms : List TypeId} (h : sentinel? s t = none) (hs : w.resolveAlias s T = .ok s' T)
  (ht : w.resolveAlias t T = .ok t' T)

include h hs ht

theorem step_union_left (hdata : T.lookup s' = .union ms) :
    Step w R T s t ↔ ∀ m ∈ ms, R T m t' := by
  have hplan : plan w s t T = .ok (.all (ms.map (.pair · t'))) T := by
    rw [plan_of_expansions h hs ht, hdata]
    rfl
  rw [step_iff_all hplan (by simp [Goal.IsPlain])]
  simp [Goal.Met]

theorem step_union_right (hsdata : (T.lookup s').unionMembers? = none)
    (htdata : T.lookup t' = .union ms) : Step w R T s t ↔ ∃ m ∈ ms, R T s' m := by
  have hplan : plan w s t T = .ok (.any (ms.map ((s', ·)))) T := by
    rw [plan_of_expansions h hs ht, htdata]
    cases hd : T.lookup s' <;> first | rfl | (rw [hd] at hsdata; cases hsdata)
  rw [step_iff_any hplan]
  simp

theorem step_intersection_right (hsdata : (T.lookup s').unionMembers? = none)
    (htdata : T.lookup t' = .intersection ms) : Step w R T s t ↔ ∀ m ∈ ms, R T s' m := by
  have hplan : plan w s t T = .ok (.all (ms.map (.pair s' ·))) T := by
    rw [plan_of_expansions h hs ht, htdata]
    cases hd : T.lookup s' <;> first | rfl | (rw [hd] at hsdata; cases hsdata)
  rw [step_iff_all hplan (by simp [Goal.IsPlain])]
  simp [Goal.Met]

theorem step_intersection_left (hsdata : T.lookup s' = .intersection ms)
    (htunion : (T.lookup t').unionMembers? = none)
    (htinter : (T.lookup t').intersectionMembers? = none) :
    Step w R T s t ↔ ∃ m ∈ ms, R T m t' := by
  have hplan : plan w s t T = .ok (.any (ms.map ((·, t')))) T := by
    rw [plan_of_expansions h hs ht, hsdata]
    cases hd : T.lookup t' with
    | union => rw [hd] at htunion; cases htunion
    | intersection => rw [hd] at htinter; cases htinter
    | _ => rfl
  rw [step_iff_any hplan]
  simp

end Composites

end ScriptTyping.Subtyping
