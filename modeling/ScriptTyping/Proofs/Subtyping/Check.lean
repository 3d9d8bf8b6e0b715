import ScriptTyping.Proofs.Subtyping.Plan

/-!
# The guarded recursion of subtyping

The recursion guard of a subtype query is a stack: an answered question leaves the open entries as
it found them, and a limit that was met stays met.  This file opens one level of the recursion and
shows that the whole query is stable.

## Main definitions

* `Subtyping.Frame` — how a guard may change while a question is answered.
* `Subtyping.Opens` — how a guard changes when a pair is entered.

## Main results

* `Subtyping.check_cases` — the ways in which one level of the recursion answers.
* `Subtyping.check_frame` — the guard is a stack.
* `World.stable_isSubtype` — the subtype relation is stable.
-/

namespace ScriptTyping

namespace Subtyping

variable {w : World} {ask : Query} {T T' : TypeTable} {g g' g₁ g₂ : PairGuard}

/-! ### Computations under a guard -/

/-- A sequence that returns has returned from both of its parts. -/
theorem bind_eq_ok {α β : Type} {x : CheckM α} {f : α → CheckM β} {b : β} :
    (x >>= f) g T = .ok (b, g') T' ↔
      ∃ a g₁ T₁, x g T = .ok (a, g₁) T₁ ∧ f a g₁ T₁ = .ok (b, g') T' := by
  have h : (x >>= f) g = x g >>= fun r => f r.1 r.2 := rfl
  rw [h, TypeM.bind_eq_ok]
  constructor
  · rintro ⟨⟨a, g₁⟩, T₁, hx, hf⟩
    exact ⟨a, g₁, T₁, hx, hf⟩
  · rintro ⟨a, g₁, T₁, hx, hf⟩
    exact ⟨(a, g₁), T₁, hx, hf⟩

theorem pure_eq_ok {α : Type} {a b : α} :
    (pure a : CheckM α) g T = .ok (b, g') T' ↔ a = b ∧ g = g' ∧ T = T' := by
  have h : (pure a : CheckM α) g = pure (a, g) := rfl
  rw [h, TypeM.pure_eq_ok, Prod.mk.injEq, and_assoc]

/-- A computation over types does not touch the guard. -/
theorem lift_eq_ok {α : Type} {x : TypeM α} {a : α} :
    (liftM x : CheckM α) g T = .ok (a, g') T' ↔ x T = .ok a T' ∧ g = g' := by
  have h : (liftM x : CheckM α) g = x >>= fun a => pure (a, g) := rfl
  rw [h, TypeM.bind_eq_ok]
  simp only [TypeM.pure_eq_ok, Prod.mk.injEq]
  constructor
  · rintro ⟨b, T₁, hx, ⟨rfl, rfl⟩, rfl⟩
    exact ⟨hx, rfl⟩
  · rintro ⟨hx, rfl⟩
    exact ⟨a, T', hx, ⟨rfl, rfl⟩, rfl⟩

theorem rules_eq_ok {s t : TypeId} {b : Bool} : rules w ask s t g T = .ok (b, g') T' ↔
    ∃ p T₁, plan w s t T = .ok p T₁ ∧ p.eval ask g T₁ = .ok (b, g') T' := by
  rw [rules_eq, bind_eq_ok]
  constructor
  · rintro ⟨p, g₁, T₁, hlift, h⟩
    obtain ⟨hp, rfl⟩ := lift_eq_ok.mp hlift
    exact ⟨p, T₁, hp, h⟩
  · rintro ⟨p, T₁, hp, h⟩
    exact ⟨p, g, T₁, lift_eq_ok.mpr ⟨hp, rfl⟩, h⟩

/-! ### The guard -/

/-- What an answered question leaves of the guard: the open entries and the depth limit are as
before, and if no limit is recorded then none was. -/
structure Frame (g g' : PairGuard) : Prop where
  visiting : g'.visiting = g.visiting
  depth : g'.depth = g.depth
  maxDepth : g'.maxDepth = g.maxDepth
  exceeded : g'.exceeded = false → g.exceeded = false

theorem Frame.refl (g : PairGuard) : Frame g g := ⟨rfl, rfl, rfl, id⟩

theorem Frame.trans (h₁ : Frame g g₁) (h₂ : Frame g₁ g₂) : Frame g g₂ where
  visiting := h₂.visiting.trans h₁.visiting
  depth := h₂.depth.trans h₁.depth
  maxDepth := h₂.maxDepth.trans h₁.maxDepth
  exceeded h := h₁.exceeded (h₂.exceeded h)

/-- The guard after a pair was entered. -/
structure Opens (pair : TypeId × TypeId) (g g' : PairGuard) : Prop where
  room : g.depth < g.maxDepth
  visiting : g'.visiting = pair :: g.visiting
  depth : g'.depth = g.depth + 1
  maxDepth : g'.maxDepth = g.maxDepth
  exceeded : g'.exceeded = g.exceeded

/-- The outcomes of an attempt to enter a pair. -/
theorem enter_cases (g : PairGuard) (pair : TypeId × TypeId) :
    (∃ g₁, g.enter pair = (.entered, g₁) ∧ Opens pair g g₁) ∨
    (∃ g₁, g.enter pair = (.cycle, g₁) ∧ pair ∈ g.visiting ∧ Frame g g₁) ∨
    (∃ r g₁, g.enter pair = (r, g₁) ∧ (r = .depthExceeded ∨ r = .iterationExceeded) ∧
      g₁.exceeded = true ∧ Frame g g₁) := by
  rw [RecursionGuard.enter]
  dsimp only
  split
  · exact .inr (.inr ⟨_, _, rfl, .inr rfl, rfl, rfl, rfl, rfl, fun h => by cases h⟩)
  split
  · exact .inr (.inr ⟨_, _, rfl, .inl rfl, rfl, rfl, rfl, rfl, fun h => by cases h⟩)
  rename_i hdepth
  split
  · rename_i hvisiting
    have hmem : pair ∈ g.visiting := by simpa [RecursionGuard.isVisiting] using hvisiting
    exact .inr (.inl ⟨_, rfl, hmem, rfl, rfl, rfl, id⟩)
  · exact .inl ⟨_, rfl, Nat.lt_of_not_le hdepth, rfl, rfl, rfl, rfl⟩

/-- Leaving a pair that was entered takes the entry back. -/
theorem frame_leave {pair : TypeId × TypeId} (ho : Opens pair g g₁) (hf : Frame g₁ g₂) :
    Frame g ((g₂.leave pair).toOption.getD g₂) := by
  have hv : g₂.visiting = pair :: g.visiting := hf.visiting.trans ho.visiting
  have hin : g₂.isVisiting pair = true := by simp [RecursionGuard.isVisiting, hv]
  rw [RecursionGuard.leave, if_pos hin]
  refine ⟨?_, ?_, hf.maxDepth.trans ho.maxDepth, fun h => ?_⟩
  · simp only [Except.toOption, Option.getD_some, hv, List.erase_cons_head]
  · simp only [Except.toOption, Option.getD_some, hf.depth, ho.depth, Nat.add_sub_cancel]
  · exact ho.exceeded.symm.trans (hf.exceeded h)

theorem exceeded_leave (pair : TypeId × TypeId) :
    ((g.leave pair).toOption.getD g).exceeded = g.exceeded := by
  rw [RecursionGuard.leave]
  split <;> rfl

/-! ### One level of the recursion -/

/-- One level of the recursion, with the moves of the guard written out. -/
theorem check_succ (w : World) (room : Nat) (s t : TypeId) (g : PairGuard) :
    check w (room + 1) s t g =
      if s = t then pure (true, g)
      else match g.enter (s, t) with
        | (.entered, g₁) => do
          let (b, g₂) ← rules w (check w room) s t g₁
          return (b, (g₂.leave (s, t)).toOption.getD g₂)
        | (.cycle, g₁) => pure (true, g₁)
        | (_, g₁) => pure (false, g₁) := by
  rw [check]
  split
  · rfl
  · have henter (f : EntryResult → CheckM Bool) :
        (enter (s, t) >>= f) g = f (g.enter (s, t)).1 (g.enter (s, t)).2 := rfl
    rw [henter]
    obtain ⟨g₁, h, -⟩ | ⟨g₁, h, -, -⟩ | ⟨r, g₁, h, rfl | rfl, -, -⟩ := enter_cases g (s, t) <;>
      rw [h] <;> rfl

/-- The ways in which one level of the recursion answers. -/
theorem check_cases {room : Nat} {s t : TypeId} {b : Bool}
    (h : check w (room + 1) s t g T = .ok (b, g') T') :
    (s = t ∧ b = true ∧ g' = g ∧ T' = T) ∨
    (s ≠ t ∧ (s, t) ∈ g.visiting ∧ b = true ∧ Frame g g' ∧ T' = T) ∨
    (s ≠ t ∧ b = false ∧ g'.exceeded = true ∧ Frame g g' ∧ T' = T) ∨
    (s ≠ t ∧ ∃ g₁ g₂, Opens (s, t) g g₁ ∧
      rules w (check w room) s t g₁ T = .ok (b, g₂) T' ∧
      g' = (g₂.leave (s, t)).toOption.getD g₂) := by
  rw [check_succ] at h
  by_cases heq : s = t
  · rw [if_pos heq] at h
    obtain ⟨hr, rfl⟩ := TypeM.pure_eq_ok.mp h
    obtain ⟨rfl, rfl⟩ := Prod.mk.inj hr
    exact .inl ⟨heq, rfl, rfl, rfl⟩
  rw [if_neg heq] at h
  obtain ⟨g₁, he, ho⟩ | ⟨g₁, he, hv, hf⟩ | ⟨r, g₁, he, hr, hex, hf⟩ := enter_cases g (s, t)
  · rw [he] at h
    obtain ⟨⟨b', g₂⟩, T₁, hrules, hret⟩ := TypeM.bind_eq_ok.mp h
    obtain ⟨hp, rfl⟩ := TypeM.pure_eq_ok.mp hret
    obtain ⟨rfl, rfl⟩ := Prod.mk.inj hp
    exact .inr (.inr (.inr ⟨heq, g₁, g₂, ho, hrules, rfl⟩))
  · rw [he] at h
    obtain ⟨hp, rfl⟩ := TypeM.pure_eq_ok.mp h
    obtain ⟨rfl, rfl⟩ := Prod.mk.inj hp
    exact .inr (.inl ⟨heq, hv, rfl, hf, rfl⟩)
  · have hfalse : (pure (false, g₁) : TypeM (Bool × PairGuard)) T = .ok (b, g') T' := by
      rw [he] at h
      rcases hr with rfl | rfl <;> exact h
    obtain ⟨hp, rfl⟩ := TypeM.pure_eq_ok.mp hfalse
    obtain ⟨rfl, rfl⟩ := Prod.mk.inj hp
    exact .inr (.inr (.inl ⟨heq, rfl, hex, hf, rfl⟩))

/-! ### The guard is a stack -/

/-- The computation leaves the open entries of the guard as it finds them. -/
def Steady {α : Type} (x : CheckM α) : Prop :=
  ∀ g T a g' T', x g T = .ok (a, g') T' → Frame g g'

section Steady

variable {α β : Type} {x : CheckM α} {f : α → CheckM β}

theorem Steady.pure (a : α) : Steady (pure a : CheckM α) := by
  intro g T b g' T' h
  obtain ⟨-, rfl, -⟩ := pure_eq_ok.mp h
  exact .refl _

theorem Steady.bind (hx : Steady x) (hf : ∀ a, Steady (f a)) : Steady (x >>= f) := by
  intro g T b g' T' h
  obtain ⟨a, g₁, T₁, ha, hb⟩ := bind_eq_ok.mp h
  exact (hx _ _ _ _ _ ha).trans (hf a _ _ _ _ _ hb)

theorem Steady.lift (x : TypeM α) : Steady (liftM x : CheckM α) := by
  intro g T b g' T' h
  obtain ⟨-, rfl⟩ := lift_eq_ok.mp h
  exact .refl _

theorem Steady.allM {p : α → CheckM Bool} (hp : ∀ a, Steady (p a)) (l : List α) :
    Steady (l.allM p) := by
  induction l with
  | nil => exact .pure true
  | cons a l ih =>
    refine (hp a).bind fun b => ?_
    cases b with
    | true => exact ih
    | false => exact .pure false

theorem Steady.anyM {p : α → CheckM Bool} (hp : ∀ a, Steady (p a)) (l : List α) :
    Steady (l.anyM p) := by
  induction l with
  | nil => exact .pure false
  | cons a l ih =>
    refine (hp a).bind fun b => ?_
    cases b with
    | true => exact .pure true
    | false => exact ih

end Steady

theorem steady_goal (hask : ∀ s t, Steady (ask s t)) (goal : Goal) : Steady (goal.eval ask) := by
  refine (Steady.lift goal.pairs).bind fun o => ?_
  cases o with
  | none => exact .pure false
  | some pairs => exact .allM (fun pair => hask pair.1 pair.2) pairs

theorem steady_rules (hask : ∀ s t, Steady (ask s t)) (s t : TypeId) :
    Steady (rules w ask s t) := by
  rw [rules_eq]
  refine (Steady.lift _).bind fun p => ?_
  cases p with
  | all goals => exact .allM (steady_goal hask) goals
  | any pairs => exact .anyM (fun pair => hask pair.1 pair.2) pairs

/-- Answering a question leaves the open entries of the guard as they were. -/
theorem check_frame (room : Nat) (s t : TypeId) : Steady (check w room s t) := by
  induction room generalizing s t with
  | zero => exact .pure _
  | succ room ih =>
    intro g T b g' T' h
    obtain ⟨-, -, rfl, -⟩ | ⟨-, -, -, hf, -⟩ | ⟨-, -, -, hf, -⟩ | ⟨-, g₁, g₂, ho, hr, rfl⟩ :=
      check_cases h
    · exact .refl _
    · exact hf
    · exact hf
    · exact frame_leave ho (steady_rules ih s t _ _ _ _ _ hr)

/-! ### Stability of the query -/

/-- The computation is stable under every guard. -/
def Stable {α : Type} (x : CheckM α) (T : TypeTable) (V : TypeTable → α → Prop) : Prop :=
  ∀ g, TypeM.Stable (x g) T fun T' r => V T' r.1

section Stable

variable {α β : Type} {x : CheckM α} {f : α → CheckM β} {V : TypeTable → α → Prop}
  {W : TypeTable → β → Prop}

theorem Stable.pure {a : α} (hT : T.WellFormed) (h : V T a) : Stable (pure a : CheckM α) T V :=
  fun _ => TypeM.Stable.pure hT h

theorem Stable.bind (hx : Stable x T V)
    (hf : ∀ a T', T.GrowsTo T' → V T' a → Stable (f a) T' W) : Stable (x >>= f) T W :=
  fun g => (hx g).bind fun r T' hg hv => hf r.1 T' hg hv r.2

theorem Stable.lift {x : TypeM α} (hx : TypeM.Stable x T V) :
    Stable (liftM x : CheckM α) T V :=
  fun _ => hx.bind fun _ _ hg hv => .pure hg.wellFormed hv

/-- Stability under every guard as a property that sequencing respects. -/
def stableLogic : TableLogic CheckM where
  holds := Stable
  return' := .pure
  bind := .bind

end Stable

/-- Questions about pairs of the table are answered in a stable way. -/
def StableQuery (w : World) (ask : Query) : Prop :=
  ∀ T s t, T.WellFormed → w.Within T → PairWithin T (s, t) →
    Stable (ask s t) T fun _ _ => True

theorem stable_goal (hask : StableQuery w ask) {goal : Goal} (hT : T.WellFormed)
    (hw : w.Within T) (hgoal : goal.Within T) : Stable (goal.eval ask) T fun _ _ => True := by
  refine (Stable.lift (Goal.stable_pairs hT hgoal)).bind fun o T₁ hg ho => ?_
  cases o with
  | none => exact .pure hg.wellFormed trivial
  | some pairs =>
    exact stableLogic.allM pairs hg.wellFormed fun pair hp T₂ hg' =>
      hask T₂ _ _ hg'.wellFormed (hw.of_le (hg.trans hg').le) ((ho pairs rfl pair hp).of_le hg'.le)

theorem stable_eval (hask : StableQuery w ask) {p : Plan} (hT : T.WellFormed) (hw : w.Within T)
    (hp : p.Within T) : Stable (p.eval ask) T fun _ _ => True := by
  cases p with
  | all goals =>
    exact stableLogic.allM goals hT fun goal hgoal T₁ hg =>
      stable_goal hask hg.wellFormed (hw.of_le hg.le) ((hp goal hgoal).of_le hg.le)
  | any pairs =>
    exact stableLogic.anyM pairs hT fun pair hpair T₁ hg =>
      hask T₁ _ _ hg.wellFormed (hw.of_le hg.le) ((hp pair hpair).of_le hg.le)

theorem stable_rules (hask : StableQuery w ask) {s t : TypeId} (hT : T.WellFormed)
    (hw : w.Within T) (hp : PairWithin T (s, t)) :
    Stable (rules w ask s t) T fun _ _ => True := by
  rw [rules_eq]
  exact (Stable.lift (stable_plan hT hw hp.1 hp.2)).bind fun p T₁ hg hp =>
    stable_eval hask hg.wellFormed (hw.of_le hg.le) hp

theorem stable_check (room : Nat) : StableQuery w (check w room) := by
  induction room with
  | zero => exact fun T s t hT _ _ => .pure hT trivial
  | succ room ih =>
    intro T s t hT hw hp g
    rw [check_succ]
    split
    · exact .pure hT trivial
    split
    · exact (stable_rules ih hT hw hp _).bind fun _ _ hg _ => .pure hg.wellFormed trivial
    · exact .pure hT trivial
    · exact .pure hT trivial

theorem stable_run {s t : TypeId} (hT : T.WellFormed) (hw : w.Within T) (hs : T.Has s)
    (ht : T.Has t) : TypeM.Stable (run w s t) T fun _ _ => True :=
  stable_check _ T s t hT hw ⟨hs, ht⟩ _

end Subtyping

namespace World

variable {w : World} {T : TypeTable}

/-- The subtype relation on types of the table is stable. -/
theorem stable_isSubtype (hT : T.WellFormed) (hw : w.Within T) {env : Environment}
    (he : env.Within T) {s t : TypeId} (hs : T.Has s) (ht : T.Has t) :
    TypeM.Stable (w.isSubtype env s t) T fun _ _ => True := by
  refine (Environment.stable_substitute hT he hs).bind fun s' T₁ hg₁ hs' => ?_
  refine (Environment.stable_substitute hg₁.wellFormed (he.of_le hg₁.le)
    (ht.of_le hg₁.le)).bind fun t' T₂ hg₂ ht' => ?_
  exact (Subtyping.stable_run hg₂.wellFormed (hw.of_le (hg₁.trans hg₂).le) (hs'.of_le hg₂.le)
    ht').bind fun _ _ hg _ => .pure hg.wellFormed trivial

end World

end ScriptTyping
