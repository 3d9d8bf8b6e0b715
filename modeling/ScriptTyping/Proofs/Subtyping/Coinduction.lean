import ScriptTyping.Proofs.Subtyping.Check

/-!
# Subtyping is coinductive

The subtype rules answer one question by asking others.  Read with a relation that answers these
questions, they are an operator on relations, and the subtype relation is the greatest relation that
equality and the operator account for.  This file shows that the guarded recursion decides that
relation: a positive answer is always right, although a pair is taken to hold while it is being
decided, and a negative answer is right unless a limit was met.

Types are stored during a query, and their handles depend on what was stored before.  The relation
is therefore read at the table that the query leaves, or at any later one, where all types that it
met have their handles.

## Main definitions

* `Subtyping.answer` — answers questions by a relation.
* `Subtyping.Step` — the rules as an operator on relations.
* `Subtyping.Holds` — the greatest relation within equality and the operator.

## Main results

* `Subtyping.Holds.unfold` — the greatest relation is a fixed point.
* `Subtyping.holds_of_check` — positive answers are right, by coinduction on the open pairs.
* `Subtyping.not_holds_of_check` — negative answers within the limits are right.
* `Subtyping.isSubtype_decides` — the query decides the relation.
-/

namespace ScriptTyping.Subtyping

/-- A relation on the types of each table. -/
abbrev PairRelation := TypeTable → TypeId → TypeId → Prop

open Classical in
/-- Answers questions by a relation, at the table of the moment. -/
noncomputable def answer (R : PairRelation) : Query := fun s t => do
  let table ← (get : TypeM TypeTable)
  return decide (R table s t)

/-- The rules accept the pair if their questions are answered by the relation. -/
def Step (w : World) (R : PairRelation) (T : TypeTable) (s t : TypeId) : Prop :=
  ∃ g T', rules w (answer R) s t (.ofProfile .subtypeCheck) T = .ok (true, g) T'

/-- The pair belongs to a relation within equality and the rules, hence to the greatest one. -/
def Holds (w : World) (T : TypeTable) (s t : TypeId) : Prop :=
  ∃ R : PairRelation, (∀ T s t, R T s t → s = t ∨ Step w R T s t) ∧ R T s t

variable {w : World} {ask : Query} {R R' : PairRelation} {T T' Tₑ : TypeTable}
  {g g' g₀ : PairGuard}

/-! ### Runs that return -/

section Lists

variable {α : Type} {p : α → CheckM Bool} {a : α} {l : List α}

theorem allM_cons_true : (a :: l).allM p g T = .ok (true, g') T' ↔
    ∃ g₁ T₁, p a g T = .ok (true, g₁) T₁ ∧ l.allM p g₁ T₁ = .ok (true, g') T' := by
  rw [List.allM_cons, bind_eq_ok]
  constructor
  · rintro ⟨b, g₁, T₁, ha, hl⟩
    cases b with
    | true => exact ⟨g₁, T₁, ha, hl⟩
    | false => simp [pure_eq_ok] at hl
  · rintro ⟨g₁, T₁, ha, hl⟩
    exact ⟨true, g₁, T₁, ha, hl⟩

theorem allM_cons_false : (a :: l).allM p g T = .ok (false, g') T' ↔
    p a g T = .ok (false, g') T' ∨
    ∃ g₁ T₁, p a g T = .ok (true, g₁) T₁ ∧ l.allM p g₁ T₁ = .ok (false, g') T' := by
  rw [List.allM_cons, bind_eq_ok]
  constructor
  · rintro ⟨b, g₁, T₁, ha, hl⟩
    cases b with
    | true => exact .inr ⟨g₁, T₁, ha, hl⟩
    | false =>
      obtain ⟨-, rfl, rfl⟩ := pure_eq_ok.mp hl
      exact .inl ha
  · rintro (ha | ⟨g₁, T₁, ha, hl⟩)
    · exact ⟨false, g', T', ha, pure_eq_ok.mpr ⟨rfl, rfl, rfl⟩⟩
    · exact ⟨true, g₁, T₁, ha, hl⟩

theorem anyM_cons_true : (a :: l).anyM p g T = .ok (true, g') T' ↔
    p a g T = .ok (true, g') T' ∨
    ∃ g₁ T₁, p a g T = .ok (false, g₁) T₁ ∧ l.anyM p g₁ T₁ = .ok (true, g') T' := by
  rw [List.anyM_cons, bind_eq_ok]
  constructor
  · rintro ⟨b, g₁, T₁, ha, hl⟩
    cases b with
    | true =>
      obtain ⟨-, rfl, rfl⟩ := pure_eq_ok.mp hl
      exact .inl ha
    | false => exact .inr ⟨g₁, T₁, ha, hl⟩
  · rintro (ha | ⟨g₁, T₁, ha, hl⟩)
    · exact ⟨true, g', T', ha, pure_eq_ok.mpr ⟨rfl, rfl, rfl⟩⟩
    · exact ⟨false, g₁, T₁, ha, hl⟩

theorem anyM_cons_false : (a :: l).anyM p g T = .ok (false, g') T' ↔
    ∃ g₁ T₁, p a g T = .ok (false, g₁) T₁ ∧ l.anyM p g₁ T₁ = .ok (false, g') T' := by
  rw [List.anyM_cons, bind_eq_ok]
  constructor
  · rintro ⟨b, g₁, T₁, ha, hl⟩
    cases b with
    | true => simp [pure_eq_ok] at hl
    | false => exact ⟨g₁, T₁, ha, hl⟩
  · rintro ⟨g₁, T₁, ha, hl⟩
    exact ⟨false, g₁, T₁, ha, hl⟩

end Lists

theorem goal_eval_true {goal : Goal} : goal.eval ask g T = .ok (true, g') T' ↔
    ∃ pairs T₁, goal.pairs T = .ok (some pairs) T₁ ∧
      (pairs.allM fun pair => ask pair.1 pair.2) g T₁ = .ok (true, g') T' := by
  rw [Goal.eval, bind_eq_ok]
  constructor
  · rintro ⟨o, g₁, T₁, hlift, h⟩
    obtain ⟨ho, rfl⟩ := lift_eq_ok.mp hlift
    cases o with
    | none => simp [pure_eq_ok] at h
    | some pairs => exact ⟨pairs, T₁, ho, h⟩
  · rintro ⟨pairs, T₁, ho, h⟩
    exact ⟨some pairs, g, T₁, lift_eq_ok.mpr ⟨ho, rfl⟩, h⟩

theorem goal_eval_false {goal : Goal} (h : goal.eval ask g T = .ok (false, g') T') :
    goal.pairs T = .ok none T' ∨ ∃ pairs T₁, goal.pairs T = .ok (some pairs) T₁ ∧
      (pairs.allM fun pair => ask pair.1 pair.2) g T₁ = .ok (false, g') T' := by
  obtain ⟨o, g₁, T₁, hlift, h⟩ := bind_eq_ok.mp h
  obtain ⟨ho, rfl⟩ := lift_eq_ok.mp hlift
  cases o with
  | none =>
    obtain ⟨-, -, rfl⟩ := pure_eq_ok.mp h
    exact .inl ho
  | some pairs => exact .inr ⟨pairs, T₁, ho, h⟩

/-! ### Questions answered by a relation -/

theorem answer_eq_ok {s t : TypeId} {b : Bool} :
    answer R s t g T = .ok (b, g') T' ↔ (b = true ↔ R T s t) ∧ g = g' ∧ T = T' := by
  classical
  have h : answer R s t g T = .ok (decide (R T s t), g) T := rfl
  rw [h]
  simp only [EStateM.Result.ok.injEq, Prod.mk.injEq, and_assoc]
  by_cases hR : R T s t <;> cases b <;> simp [hR]

theorem allM_answer_true {pairs : List (TypeId × TypeId)} :
    (pairs.allM fun pair => answer R pair.1 pair.2) g T = .ok (true, g') T' ↔
      (∀ pair ∈ pairs, R T pair.1 pair.2) ∧ g = g' ∧ T = T' := by
  induction pairs with
  | nil => simp [pure_eq_ok]
  | cons pair pairs ih =>
    rw [allM_cons_true]
    constructor
    · rintro ⟨g₁, T₁, hp, hl⟩
      obtain ⟨hR, rfl, rfl⟩ := answer_eq_ok.mp hp
      obtain ⟨hall, rfl, rfl⟩ := ih.mp hl
      exact ⟨List.forall_mem_cons.mpr ⟨hR.mp rfl, hall⟩, rfl, rfl⟩
    · rintro ⟨hall, rfl, rfl⟩
      obtain ⟨hR, hall⟩ := List.forall_mem_cons.mp hall
      exact ⟨g, T, answer_eq_ok.mpr ⟨by simp [hR], rfl, rfl⟩, ih.mpr ⟨hall, rfl, rfl⟩⟩

theorem anyM_answer_true {pairs : List (TypeId × TypeId)} :
    (pairs.anyM fun pair => answer R pair.1 pair.2) g T = .ok (true, g') T' ↔
      (∃ pair ∈ pairs, R T pair.1 pair.2) ∧ g = g' ∧ T = T' := by
  induction pairs with
  | nil => simp [pure_eq_ok]
  | cons pair pairs ih =>
    rw [anyM_cons_true]
    constructor
    · rintro (hp | ⟨g₁, T₁, hp, hl⟩)
      · obtain ⟨hR, rfl, rfl⟩ := answer_eq_ok.mp hp
        exact ⟨⟨pair, List.mem_cons_self .., hR.mp rfl⟩, rfl, rfl⟩
      · obtain ⟨-, rfl, rfl⟩ := answer_eq_ok.mp hp
        obtain ⟨⟨q, hq, hR⟩, rfl, rfl⟩ := ih.mp hl
        exact ⟨⟨q, List.mem_cons_of_mem _ hq, hR⟩, rfl, rfl⟩
    · rintro ⟨⟨q, hq, hR⟩, rfl, rfl⟩
      by_cases hp : R T pair.1 pair.2
      · exact .inl (answer_eq_ok.mpr ⟨by simp [hp], rfl, rfl⟩)
      · refine .inr ⟨g, T, answer_eq_ok.mpr ⟨by simp [hp], rfl, rfl⟩,
          ih.mpr ⟨⟨q, ?_, hR⟩, rfl, rfl⟩⟩
        rcases List.mem_cons.mp hq with rfl | hq
        · exact absurd hR hp
        · exact hq

/-- A goal is met by a relation if the pairs it is reduced to belong to it. -/
theorem goal_answer_true {goal : Goal} : goal.eval (answer R) g T = .ok (true, g') T' ↔
    ∃ pairs, goal.pairs T = .ok (some pairs) T' ∧ (∀ pair ∈ pairs, R T' pair.1 pair.2) ∧
      g = g' := by
  rw [goal_eval_true]
  constructor
  · rintro ⟨pairs, T₁, hp, h⟩
    obtain ⟨hall, rfl, rfl⟩ := allM_answer_true.mp h
    exact ⟨pairs, hp, hall, rfl⟩
  · rintro ⟨pairs, hp, hall, rfl⟩
    exact ⟨pairs, T', hp, allM_answer_true.mpr ⟨hall, rfl, rfl⟩⟩

/-! ### The greatest relation -/

/-- A goal that a relation meets is met by every larger relation. -/
theorem goals_mono (h : ∀ T s t, R T s t → R' T s t) {goals : List Goal}
    (hgoals : goals.allM (Goal.eval (answer R)) g T = .ok (true, g') T') :
    goals.allM (Goal.eval (answer R')) g T = .ok (true, g') T' := by
  induction goals generalizing g T with
  | nil => exact hgoals
  | cons goal goals ih =>
    obtain ⟨g₁, T₁, hgoal, hrest⟩ := allM_cons_true.mp hgoals
    obtain ⟨pairs, hp, hR, rfl⟩ := goal_answer_true.mp hgoal
    refine allM_cons_true.mpr ⟨g, T₁, goal_answer_true.mpr ⟨pairs, hp, ?_, rfl⟩, ih hrest⟩
    exact fun pair hpair => h _ _ _ (hR pair hpair)

/-- The rules ask their questions positively. -/
theorem Step.mono (h : ∀ T s t, R T s t → R' T s t) {s t : TypeId} (hs : Step w R T s t) :
    Step w R' T s t := by
  obtain ⟨g, T', hrules⟩ := hs
  obtain ⟨p, T₁, hp, heval⟩ := rules_eq_ok.mp hrules
  refine ⟨g, T', rules_eq_ok.mpr ⟨p, T₁, hp, ?_⟩⟩
  cases p with
  | all goals => exact goals_mono h heval
  | any pairs =>
    obtain ⟨⟨pair, hpair, hR⟩, rfl, rfl⟩ := anyM_answer_true.mp heval
    exact anyM_answer_true.mpr ⟨⟨pair, hpair, h _ _ _ hR⟩, rfl, rfl⟩

/-- The greatest relation is itself within equality and the rules. -/
theorem Holds.unfold {s t : TypeId} (h : Holds w T s t) : s = t ∨ Step w (Holds w) T s t := by
  obtain ⟨R, hR, hst⟩ := h
  rcases hR T s t hst with heq | hstep
  · exact .inl heq
  · exact .inr (hstep.mono fun T s t h => ⟨R, hR, h⟩)

/-! ### Replaying a run -/

/-- While a rule runs under a guard like `g₀`, every question with the answer `b` that is over
before the table `Tₑ` has the property `P`. -/
def Answers (w : World) (ask : Query) (g₀ : PairGuard) (Tₑ : TypeTable) (b : Bool)
    (P : PairGuard → TypeId → TypeId → Prop) : Prop :=
  ∀ g T s t g' T', T.WellFormed → w.Within T → PairWithin T (s, t) → Frame g₀ g →
    ask s t g T = .ok (b, g') T' → T' ≤ Tₑ → P g' s t

section Replay

variable (hstable : StableQuery w ask) (hsteady : ∀ s t, Steady (ask s t))

include hstable

private theorem stable_pairs {pairs : List (TypeId × TypeId)} (hT : T.WellFormed)
    (hw : w.Within T) (hpairs : ∀ pair ∈ pairs, PairWithin T pair) :
    Stable (pairs.allM fun pair => ask pair.1 pair.2) T fun _ _ => True :=
  stableLogic.allM pairs hT fun pair hp _ hg =>
    hstable _ _ _ hg.wellFormed (hw.of_le hg.le) ((hpairs pair hp).of_le hg.le)

private theorem stable_somePair {pairs : List (TypeId × TypeId)} (hT : T.WellFormed)
    (hw : w.Within T) (hpairs : ∀ pair ∈ pairs, PairWithin T pair) :
    Stable (pairs.anyM fun pair => ask pair.1 pair.2) T fun _ _ => True :=
  stableLogic.anyM pairs hT fun pair hp _ hg =>
    hstable _ _ _ hg.wellFormed (hw.of_le hg.le) ((hpairs pair hp).of_le hg.le)

private theorem stable_goals {goals : List Goal} (hT : T.WellFormed) (hw : w.Within T)
    (hgoals : ∀ goal ∈ goals, goal.Within T) :
    Stable (goals.allM (Goal.eval ask)) T fun _ _ => True :=
  stableLogic.allM goals hT fun goal hp _ hg =>
    stable_goal hstable hg.wellFormed (hw.of_le hg.le) ((hgoals goal hp).of_le hg.le)

include hsteady

/-- All pairs of a conjunction that was answered positively have the property of the positive
answers. -/
theorem forall_of_allM_true {P : TypeId → TypeId → Prop}
    (hP : Answers w ask g₀ Tₑ true fun _ => P) {pairs : List (TypeId × TypeId)}
    (hT : T.WellFormed) (hw : w.Within T) (hpairs : ∀ pair ∈ pairs, PairWithin T pair)
    (hg₀ : Frame g₀ g)
    (h : (pairs.allM fun pair => ask pair.1 pair.2) g T = .ok (true, g') T') (hle : T' ≤ Tₑ) :
    ∀ pair ∈ pairs, P pair.1 pair.2 := by
  induction pairs generalizing g T with
  | nil => exact fun _ hp => by cases hp
  | cons pair pairs ih =>
    obtain ⟨g₁, T₁, hask, hrest⟩ := allM_cons_true.mp h
    obtain ⟨hpair, hpairs⟩ := List.forall_mem_cons.mp hpairs
    obtain ⟨hg, -, -⟩ := hstable T _ _ hT hw hpair g _ _ hask
    have hw₁ := hw.of_le hg.le
    have hpairs₁ : ∀ pair ∈ pairs, PairWithin T₁ pair := fun p hp => (hpairs p hp).of_le hg.le
    obtain ⟨hg₁, -, -⟩ := stable_pairs hstable hg.wellFormed hw₁ hpairs₁ g₁ _ _ hrest
    refine List.forall_mem_cons.mpr ⟨?_, ?_⟩
    · exact hP g T _ _ g₁ T₁ hT hw hpair hg₀ hask (le_trans hg₁.le hle)
    · exact ih hg.wellFormed hw₁ hpairs₁ (hg₀.trans (hsteady _ _ _ _ _ _ _ hask)) hrest

/-- Some pair of a conjunction that was answered negatively has the property of the negative
answers. -/
theorem exists_of_allM_false {P : PairGuard → TypeId → TypeId → Prop}
    (hP : Answers w ask g₀ Tₑ false P) {pairs : List (TypeId × TypeId)} (hT : T.WellFormed)
    (hw : w.Within T) (hpairs : ∀ pair ∈ pairs, PairWithin T pair) (hg₀ : Frame g₀ g)
    (h : (pairs.allM fun pair => ask pair.1 pair.2) g T = .ok (false, g') T') (hle : T' ≤ Tₑ) :
    ∃ pair ∈ pairs, P g' pair.1 pair.2 := by
  induction pairs generalizing g T with
  | nil => simp [pure_eq_ok] at h
  | cons pair pairs ih =>
    obtain ⟨hpair, hpairs⟩ := List.forall_mem_cons.mp hpairs
    rcases allM_cons_false.mp h with hask | ⟨g₁, T₁, hask, hrest⟩
    · exact ⟨pair, List.mem_cons_self .., hP g T _ _ g' T' hT hw hpair hg₀ hask hle⟩
    · obtain ⟨hg, -, -⟩ := hstable T _ _ hT hw hpair g _ _ hask
      obtain ⟨q, hq, hPq⟩ := ih hg.wellFormed (hw.of_le hg.le)
        (fun p hp => (hpairs p hp).of_le hg.le) (hg₀.trans (hsteady _ _ _ _ _ _ _ hask)) hrest
      exact ⟨q, List.mem_cons_of_mem _ hq, hPq⟩

/-- Some pair of a disjunction that was answered positively has the property of the positive
answers. -/
theorem exists_of_anyM_true {P : TypeId → TypeId → Prop}
    (hP : Answers w ask g₀ Tₑ true fun _ => P) {pairs : List (TypeId × TypeId)}
    (hT : T.WellFormed) (hw : w.Within T) (hpairs : ∀ pair ∈ pairs, PairWithin T pair)
    (hg₀ : Frame g₀ g)
    (h : (pairs.anyM fun pair => ask pair.1 pair.2) g T = .ok (true, g') T') (hle : T' ≤ Tₑ) :
    ∃ pair ∈ pairs, P pair.1 pair.2 := by
  induction pairs generalizing g T with
  | nil => simp [pure_eq_ok] at h
  | cons pair pairs ih =>
    obtain ⟨hpair, hpairs⟩ := List.forall_mem_cons.mp hpairs
    rcases anyM_cons_true.mp h with hask | ⟨g₁, T₁, hask, hrest⟩
    · exact ⟨pair, List.mem_cons_self .., hP g T _ _ g' T' hT hw hpair hg₀ hask hle⟩
    · obtain ⟨hg, -, -⟩ := hstable T _ _ hT hw hpair g _ _ hask
      obtain ⟨q, hq, hPq⟩ := ih hg.wellFormed (hw.of_le hg.le)
        (fun p hp => (hpairs p hp).of_le hg.le) (hg₀.trans (hsteady _ _ _ _ _ _ _ hask)) hrest
      exact ⟨q, List.mem_cons_of_mem _ hq, hPq⟩

/-- No pair of a disjunction that was answered negatively within the limits belongs to the
relation, if that is so for all negative answers. -/
theorem forall_of_anyM_false {P : TypeId → TypeId → Prop}
    (hP : Answers w ask g₀ Tₑ false fun g s t => g.exceeded = false → P s t)
    {pairs : List (TypeId × TypeId)} (hT : T.WellFormed) (hw : w.Within T)
    (hpairs : ∀ pair ∈ pairs, PairWithin T pair) (hg₀ : Frame g₀ g)
    (h : (pairs.anyM fun pair => ask pair.1 pair.2) g T = .ok (false, g') T') (hle : T' ≤ Tₑ)
    (hex : g'.exceeded = false) : ∀ pair ∈ pairs, P pair.1 pair.2 := by
  induction pairs generalizing g T with
  | nil => exact fun _ hp => by cases hp
  | cons pair pairs ih =>
    obtain ⟨g₁, T₁, hask, hrest⟩ := anyM_cons_false.mp h
    obtain ⟨hpair, hpairs⟩ := List.forall_mem_cons.mp hpairs
    obtain ⟨hg, -, -⟩ := hstable T _ _ hT hw hpair g _ _ hask
    have hw₁ := hw.of_le hg.le
    have hpairs₁ : ∀ pair ∈ pairs, PairWithin T₁ pair := fun p hp => (hpairs p hp).of_le hg.le
    obtain ⟨hg₁, -, -⟩ := stable_somePair hstable hg.wellFormed hw₁ hpairs₁ g₁ _ _ hrest
    have hframe : Frame g₁ g' :=
      Steady.anyM (fun p : TypeId × TypeId => hsteady p.1 p.2) pairs _ _ _ _ _ hrest
    refine List.forall_mem_cons.mpr ⟨?_, ?_⟩
    · exact hP g T _ _ g₁ T₁ hT hw hpair hg₀ hask (le_trans hg₁.le hle) (hframe.exceeded hex)
    · exact ih hg.wellFormed hw₁ hpairs₁ (hg₀.trans (hsteady _ _ _ _ _ _ _ hask)) hrest

/-- Goals that were met are met by a relation that contains all positive answers. -/
theorem goals_answer_of_true (hR : Answers w ask g₀ Tₑ true fun _ => R Tₑ) {goals : List Goal}
    (hT : T.WellFormed) (hw : w.Within T) (hgoals : ∀ goal ∈ goals, goal.Within T)
    (hg₀ : Frame g₀ g) (h : goals.allM (Goal.eval ask) g T = .ok (true, g') T') (hle : T' ≤ Tₑ)
    (g₁ : PairGuard) : goals.allM (Goal.eval (answer R)) g₁ Tₑ = .ok (true, g₁) Tₑ := by
  induction goals generalizing g T with
  | nil => exact pure_eq_ok.mpr ⟨rfl, rfl, rfl⟩
  | cons goal goals ih =>
    obtain ⟨g₂, T₂, hgoal, hrest⟩ := allM_cons_true.mp h
    obtain ⟨hin, hgoals⟩ := List.forall_mem_cons.mp hgoals
    obtain ⟨hgrow, -, -⟩ := stable_goal hstable hT hw hin g _ _ hgoal
    have hw₂ := hw.of_le hgrow.le
    have hgoals₂ : ∀ goal ∈ goals, goal.Within T₂ := fun q hq => (hgoals q hq).of_le hgrow.le
    obtain ⟨hgrow₂, -, -⟩ := stable_goals hstable hgrow.wellFormed hw₂ hgoals₂ g₂ _ _ hrest
    have hle₂ := le_trans hgrow₂.le hle
    refine allM_cons_true.mpr ⟨g₁, Tₑ, ?_, ?_⟩
    · obtain ⟨pairs, T₃, hpairs, hall⟩ := goal_eval_true.mp hgoal
      obtain ⟨hgrow₃, hin₃, hreplay⟩ := Goal.stable_pairs hT hin _ _ hpairs
      have hw₃ := hw.of_le hgrow₃.le
      obtain ⟨hgrow₄, -, -⟩ :=
        stable_pairs hstable hgrow₃.wellFormed hw₃ (hin₃ pairs rfl) g _ _ hall
      refine goal_answer_true.mpr ⟨pairs, hreplay Tₑ (le_trans hgrow₄.le hle₂), ?_, rfl⟩
      exact forall_of_allM_true hstable hsteady hR hgrow₃.wellFormed hw₃ (hin₃ pairs rfl) hg₀
        hall hle₂
    · exact ih hgrow.wellFormed hw₂ hgoals₂
        (hg₀.trans (steady_goal hsteady goal _ _ _ _ _ hgoal)) hrest

/-- A pair that the rules accepted is accepted by a relation that contains all positive answers. -/
theorem step_of_rules (hR : Answers w ask g₀ Tₑ true fun _ => R Tₑ) {s t : TypeId}
    (hT : T.WellFormed) (hw : w.Within T) (hst : PairWithin T (s, t)) (hg₀ : Frame g₀ g)
    (h : rules w ask s t g T = .ok (true, g') T') (hle : T' ≤ Tₑ) : Step w R Tₑ s t := by
  obtain ⟨p, T₁, hplan, heval⟩ := rules_eq_ok.mp h
  obtain ⟨hgrow, hin, hreplay⟩ := stable_plan hT hw hst.1 hst.2 _ _ hplan
  have hw₁ := hw.of_le hgrow.le
  cases p with
  | all goals =>
    obtain ⟨hgrow₁, -, -⟩ := stable_goals hstable hgrow.wellFormed hw₁ hin g _ _ heval
    refine ⟨.ofProfile .subtypeCheck, Tₑ,
      rules_eq_ok.mpr ⟨_, Tₑ, hreplay Tₑ (le_trans hgrow₁.le hle), ?_⟩⟩
    exact goals_answer_of_true hstable hsteady hR hgrow.wellFormed hw₁ hin hg₀ heval hle _
  | any pairs =>
    obtain ⟨hgrow₁, -, -⟩ := stable_somePair hstable hgrow.wellFormed hw₁ hin g _ _ heval
    refine ⟨.ofProfile .subtypeCheck, Tₑ,
      rules_eq_ok.mpr ⟨_, Tₑ, hreplay Tₑ (le_trans hgrow₁.le hle), ?_⟩⟩
    exact anyM_answer_true.mpr
      ⟨exists_of_anyM_true hstable hsteady hR hgrow.wellFormed hw₁ hin hg₀ heval hle, rfl, rfl⟩

/-- Goals that were refused within the limits are refused by a relation that contains no negative
answer. -/
theorem goals_answer_of_false
    (hR : Answers w ask g₀ Tₑ false fun g s t => g.exceeded = false → ¬R Tₑ s t)
    {goals : List Goal} (hT : T.WellFormed) (hw : w.Within T)
    (hgoals : ∀ goal ∈ goals, goal.Within T) (hg₀ : Frame g₀ g)
    (h : goals.allM (Goal.eval ask) g T = .ok (false, g') T') (hle : T' ≤ Tₑ)
    (hex : g'.exceeded = false) {g₁ g₂ : PairGuard} {T₂ : TypeTable} :
    goals.allM (Goal.eval (answer R)) g₁ Tₑ ≠ .ok (true, g₂) T₂ := by
  induction goals generalizing g T g₁ with
  | nil => simp [pure_eq_ok] at h
  | cons goal goals ih =>
    intro hall
    obtain ⟨g₃, T₃, hmet, hrestmet⟩ := allM_cons_true.mp hall
    obtain ⟨pairs', hpairs', hR', rfl⟩ := goal_answer_true.mp hmet
    obtain ⟨hin, hgoals⟩ := List.forall_mem_cons.mp hgoals
    rcases allM_cons_false.mp h with hgoal | ⟨g₄, T₄, hgoal, hrest⟩
    · rcases goal_eval_false hgoal with hnone | ⟨pairs, T₅, hpairs, hfalse⟩
      · obtain ⟨-, -, hreplay⟩ := Goal.stable_pairs hT hin _ _ hnone
        rw [hreplay Tₑ hle] at hpairs'
        cases hpairs'
      · obtain ⟨hgrow, hin₅, hreplay⟩ := Goal.stable_pairs hT hin _ _ hpairs
        have hw₅ := hw.of_le hgrow.le
        obtain ⟨hgrow₅, -, -⟩ :=
          stable_pairs hstable hgrow.wellFormed hw₅ (hin₅ pairs rfl) g _ _ hfalse
        rw [hreplay Tₑ (le_trans hgrow₅.le hle)] at hpairs'
        cases hpairs'
        obtain ⟨pair, hmem, hnot⟩ := exists_of_allM_false hstable hsteady hR hgrow.wellFormed hw₅
          (hin₅ _ rfl) hg₀ hfalse hle
        exact hnot hex (hR' pair hmem)
    · obtain ⟨hgrow, -, -⟩ := stable_goal hstable hT hw hin g _ _ hgoal
      have hw₄ := hw.of_le hgrow.le
      have hgoals₄ : ∀ goal ∈ goals, goal.Within T₄ := fun q hq => (hgoals q hq).of_le hgrow.le
      obtain ⟨hgrow₄, -, -⟩ := stable_goals hstable hgrow.wellFormed hw₄ hgoals₄ g₄ _ _ hrest
      -- The goal that was met stores nothing when it is read at the later table.
      obtain ⟨pairs, T₅, hpairs, hall'⟩ := goal_eval_true.mp hgoal
      obtain ⟨hgrow₅, hin₅, hreplay⟩ := Goal.stable_pairs hT hin _ _ hpairs
      obtain ⟨hgrow₆, -, -⟩ := stable_pairs hstable hgrow₅.wellFormed (hw.of_le hgrow₅.le)
        (hin₅ pairs rfl) g _ _ hall'
      rw [hreplay Tₑ (le_trans hgrow₆.le (le_trans hgrow₄.le hle))] at hpairs'
      cases hpairs'
      exact ih hgrow.wellFormed hw₄ hgoals₄
        (hg₀.trans (steady_goal hsteady goal _ _ _ _ _ hgoal)) hrest hrestmet

/-- A pair that the rules refused within the limits is refused by a relation that contains no
negative answer. -/
theorem not_step_of_rules
    (hR : Answers w ask g₀ Tₑ false fun g s t => g.exceeded = false → ¬R Tₑ s t) {s t : TypeId}
    (hT : T.WellFormed) (hw : w.Within T) (hst : PairWithin T (s, t)) (hg₀ : Frame g₀ g)
    (h : rules w ask s t g T = .ok (false, g') T') (hle : T' ≤ Tₑ) (hex : g'.exceeded = false) :
    ¬Step w R Tₑ s t := by
  rintro ⟨g₂, T₂, hstep⟩
  obtain ⟨p, T₁, hplan, heval⟩ := rules_eq_ok.mp h
  obtain ⟨p', T₁', hplan', heval'⟩ := rules_eq_ok.mp hstep
  obtain ⟨hgrow, hin, hreplay⟩ := stable_plan hT hw hst.1 hst.2 _ _ hplan
  have hw₁ := hw.of_le hgrow.le
  cases p with
  | all goals =>
    obtain ⟨hgrow₁, -, -⟩ := stable_goals hstable hgrow.wellFormed hw₁ hin g _ _ heval
    rw [hreplay Tₑ (le_trans hgrow₁.le hle)] at hplan'
    cases hplan'
    exact goals_answer_of_false hstable hsteady hR hgrow.wellFormed hw₁ hin hg₀ heval hle hex
      heval'
  | any pairs =>
    obtain ⟨hgrow₁, -, -⟩ := stable_somePair hstable hgrow.wellFormed hw₁ hin g _ _ heval
    rw [hreplay Tₑ (le_trans hgrow₁.le hle)] at hplan'
    cases hplan'
    obtain ⟨⟨pair, hmem, hRp⟩, -, -⟩ := anyM_answer_true.mp heval'
    exact forall_of_anyM_false hstable hsteady hR hgrow.wellFormed hw₁ hin hg₀ heval hle hex pair
      hmem hRp

end Replay

/-! ### Positive answers -/

/-- A relation on the types of one table. -/
def relationAt (Tₑ : TypeTable) (Q : TypeId → TypeId → Prop) : PairRelation :=
  fun T s t => T = Tₑ ∧ Q s t

/-- The pair belongs to a relation at the table `Tₑ` each of whose pairs is open, or equal, or
accepted by the rules under the relation. -/
def Under (w : World) (Tₑ : TypeTable) (visiting : List (TypeId × TypeId)) (s t : TypeId) : Prop :=
  ∃ Q : TypeId → TypeId → Prop, Q s t ∧
    ∀ s t, Q s t → (s, t) ∈ visiting ∨ s = t ∨ Step w (relationAt Tₑ Q) Tₑ s t

section Under

variable {visiting : List (TypeId × TypeId)} {s t : TypeId}

theorem under_of_mem (h : (s, t) ∈ visiting) : Under w Tₑ visiting s t :=
  ⟨fun s t => (s, t) ∈ visiting, h, fun _ _ h => .inl h⟩

theorem under_refl (s : TypeId) : Under w Tₑ visiting s s :=
  ⟨fun s t => s = t, rfl, fun _ _ h => .inr (.inl h)⟩

theorem Under.unfold (h : Under w Tₑ visiting s t) :
    (s, t) ∈ visiting ∨ s = t ∨ Step w (relationAt Tₑ (Under w Tₑ visiting)) Tₑ s t := by
  obtain ⟨Q, hst, hQ⟩ := h
  rcases hQ s t hst with hmem | heq | hstep
  · exact .inl hmem
  · exact .inr (.inl heq)
  · exact .inr (.inr (hstep.mono fun _ s t h => ⟨h.1, Q, h.2, hQ⟩))

/-- A pair that the rules accept while it is open belongs to the relation without being open. -/
theorem under_of_step
    (h : Step w (relationAt Tₑ (Under w Tₑ ((s, t) :: visiting))) Tₑ s t) :
    Under w Tₑ visiting s t := by
  refine ⟨Under w Tₑ ((s, t) :: visiting), under_of_mem (List.mem_cons_self ..), ?_⟩
  intro s' t' h'
  rcases h'.unfold with hmem | heq | hstep
  · rcases List.mem_cons.mp hmem with hpair | hmem
    · obtain ⟨rfl, rfl⟩ := Prod.mk.inj hpair
      exact .inr (.inr h)
    · exact .inl hmem
  · exact .inr (.inl heq)
  · exact .inr (.inr hstep)

/-- Without open pairs the relation is within the greatest one. -/
theorem Under.holds (h : Under w Tₑ [] s t) : Holds w Tₑ s t := by
  obtain ⟨Q, hst, hQ⟩ := h
  refine ⟨relationAt Tₑ Q, ?_, rfl, hst⟩
  rintro _ s t ⟨rfl, hst⟩
  rcases hQ s t hst with hmem | heq | hstep
  · cases hmem
  · exact .inl heq
  · exact .inr hstep

end Under

/-- A positive answer is right as far as the open pairs are. -/
theorem under_of_check (room : Nat) {s t : TypeId} (hT : T.WellFormed) (hw : w.Within T)
    (hst : PairWithin T (s, t)) (h : check w room s t g T = .ok (true, g') T') (hle : T' ≤ Tₑ) :
    Under w Tₑ g.visiting s t := by
  induction room generalizing g T s t g' T' with
  | zero =>
    obtain ⟨heq, -, -⟩ := pure_eq_ok.mp h
    obtain rfl := of_decide_eq_true heq
    exact under_refl s
  | succ room ih =>
    obtain ⟨rfl, -, -, -⟩ | ⟨-, hmem, -, -, -⟩ | ⟨-, hb, -, -, -⟩ | ⟨-, g₁, g₂, ho, hr, -⟩ :=
      check_cases h
    · exact under_refl s
    · exact under_of_mem hmem
    · cases hb
    · refine under_of_step (step_of_rules (stable_check room) (check_frame room) ?_ hT hw hst
        (.refl g₁) hr hle)
      intro g T s' t' g' T' hT hw hst hframe h hle
      have := ih hT hw hst h hle
      rw [hframe.visiting, ho.visiting] at this
      exact ⟨rfl, this⟩

/-- Positive answers are right. -/
theorem holds_of_check {room : Nat} {s t : TypeId} (hT : T.WellFormed) (hw : w.Within T)
    (hst : PairWithin T (s, t)) (hg : g.visiting = [])
    (h : check w room s t g T = .ok (true, g') T') (hle : T' ≤ Tₑ) : Holds w Tₑ s t :=
  Under.holds (hg ▸ under_of_check room hT hw hst h hle)

/-! ### Negative answers -/

/-- Negative answers are right unless a limit was met.  The depth that the guard grants runs out
before `room` does. -/
theorem not_holds_of_check (room : Nat) {s t : TypeId} (hT : T.WellFormed) (hw : w.Within T)
    (hst : PairWithin T (s, t)) (hdepth : g.depth ≤ g.maxDepth)
    (hroom : g.maxDepth < g.depth + room)
    (h : check w room s t g T = .ok (false, g') T') (hle : T' ≤ Tₑ)
    (hex : g'.exceeded = false) : ¬Holds w Tₑ s t := by
  induction room generalizing g T s t g' T' with
  | zero => omega
  | succ room ih =>
    obtain ⟨-, hb, -, -⟩ | ⟨-, -, hb, -, -⟩ | ⟨-, -, hlimit, -, -⟩ | ⟨hne, g₁, g₂, ho, hr, rfl⟩ :=
      check_cases h
    · cases hb
    · cases hb
    · rw [hlimit] at hex
      cases hex
    · intro hholds
      rw [exceeded_leave] at hex
      rcases hholds.unfold with heq | hstep
      · exact hne heq
      · refine not_step_of_rules (stable_check room) (check_frame room) ?_ hT hw hst (.refl g₁) hr
          hle hex hstep
        intro g T s' t' g' T' hT hw hst hframe h hle hex
        have hopen := ho.room
        have hd := hframe.depth.trans ho.depth
        have hm := hframe.maxDepth.trans ho.maxDepth
        exact ih hT hw hst (by omega) (by omega) h hle hex

/-! ### The query -/

/-- The subtype query decides the greatest relation: a positive answer is right whatever limits were
met, and a negative one is right unless the guard met a limit. -/
theorem isSubtype_decides {env : Environment} {s t : TypeId} {b : Bool} (hT : T.WellFormed)
    (hw : w.Within T) (he : env.Within T) (hs : T.Has s) (ht : T.Has t)
    (h : w.isSubtype env s t T = .ok b T') :
    ∃ s' t' guard T₁ T₂, env.substitute s T = .ok s' T₁ ∧ env.substitute t T₁ = .ok t' T₂ ∧
      run w s' t' T₂ = .ok (b, guard) T' ∧
      ∀ Tₑ, T' ≤ Tₑ → (b = true → Holds w Tₑ s' t') ∧
        (b = false → guard.exceeded = false → ¬Holds w Tₑ s' t') := by
  obtain ⟨s', T₁, hs', h⟩ := TypeM.bind_eq_ok.mp h
  obtain ⟨t', T₂, ht', h⟩ := TypeM.bind_eq_ok.mp h
  obtain ⟨⟨b', guard⟩, T₃, hrun, h⟩ := TypeM.bind_eq_ok.mp h
  obtain ⟨rfl, rfl⟩ := TypeM.pure_eq_ok.mp h
  obtain ⟨hg₁, hs₁, -⟩ := Environment.stable_substitute hT he hs _ _ hs'
  obtain ⟨hg₂, ht₂, -⟩ := Environment.stable_substitute hg₁.wellFormed (he.of_le hg₁.le)
    (ht.of_le hg₁.le) _ _ ht'
  have hw₂ := hw.of_le (hg₁.trans hg₂).le
  have hst : PairWithin T₂ (s', t') := ⟨hs₁.of_le hg₂.le, ht₂⟩
  refine ⟨s', t', guard, T₁, T₂, hs', ht', hrun, fun Tₑ hle => ⟨?_, ?_⟩⟩
  · rintro rfl
    exact holds_of_check hg₂.wellFormed hw₂ hst rfl hrun hle
  · rintro rfl hex
    refine not_holds_of_check _ hg₂.wellFormed hw₂ hst ?_ ?_ hrun hle hex
    · exact Nat.zero_le _
    · simp [RecursionGuard.ofProfile, RecursionGuard.fresh]

/-- A type variable that is its own bound. -/
def ownBound : World where
  declarations := ⟨#[{ kind := .typeVariable, name := .none, declaredType := some ⟨16⟩ }]⟩
  builtins := default
  fuel := 0

/-- The type variable, and its union with `number`. -/
def ownBoundTable : TypeTable :=
  (TypeTable.initial.store (.typeVariable ⟨1⟩)).store (.union [.number, ⟨16⟩])

theorem wellFormed_ownBoundTable : ownBoundTable.WellFormed :=
  TypeTable.wellFormed_store
    (TypeTable.wellFormed_store TypeTable.wellFormed_initial (by decide)) (by decide)

theorem within_ownBound : ownBound.Within ownBoundTable :=
  World.within_of_entries (by decide) (by decide)

/-- The variable is below `number` because the question comes back to itself, and so is its union
with `number`; the union is not below `string`. -/
theorem isSubtype_decides_ownBound :
    Holds ownBound ownBoundTable ⟨17⟩ .number ∧ ¬Holds ownBound ownBoundTable ⟨17⟩ .string := by
  have hT := wellFormed_ownBoundTable
  have hw := within_ownBound
  have he := Environment.within_empty (T := ownBoundTable)
  constructor
  · have hrun : ownBound.isSubtype .empty ⟨17⟩ .number ownBoundTable = .ok true ownBoundTable := rfl
    obtain ⟨s', t', guard, T₁, T₂, hs, ht, -, hholds⟩ :=
      isSubtype_decides hT hw he (by decide) (by decide) hrun
    cases hs
    cases ht
    exact (hholds _ le_rfl).1 rfl
  · have hrun : ownBound.isSubtype .empty ⟨17⟩ .string ownBoundTable =
        .ok false ownBoundTable := rfl
    obtain ⟨s', t', guard, T₁, T₂, hs, ht, hquery, hholds⟩ :=
      isSubtype_decides hT hw he (by decide) (by decide) hrun
    cases hs
    cases ht
    cases hquery
    exact (hholds _ le_rfl).2 rfl rfl

end ScriptTyping.Subtyping
