import ScriptTyping.Proofs.Stability.Judgment

/-!
# Comparing two runs of inference

Several properties of inference compare a run with another one of the same rules: under fewer
guards, with more room, or with other memo cells.  The rules themselves matter little to such a
comparison: they ask a judge, compute with types, and note fallbacks.  A `Comparison` is a relation
between inferences that these three kinds of steps respect.

The second inference is given once for every room, since a comparison may have to look for enough of
it.  A comparison of runs from different tables is *tracked*: it relies on the stability of the
computations over types, so the rules have to show that all handles belong to the table.

## Main definitions

* `Comparison` — a relation that sequencing respects.
* `Comparison.Same` — equal results, known to the table if the comparison is tracked.
* `Comparison.Scope` — environments that differ in guards only.
* `Comparison.Asks` — two judges give related answers.

## Main results

* `Comparison.bindLift`, `Comparison.mapM` — derived steps.
* `Comparison.slot`, `Comparison.guarded` — asking for a slot, and asking under a guard.
-/

namespace ScriptTyping

namespace InferM

variable {α β : Type} {x : InferM α} {f : α → InferM β} {s s' : Memory}

/-- A sequence that returns has returned from both of its parts. -/
theorem bind_eq_ok {b : β} :
    (x >>= f) s = .ok b s' ↔ ∃ a s₁, x s = .ok a s₁ ∧ f a s₁ = .ok b s' := by
  change EStateM.bind x f s = _ ↔ _
  rw [EStateM.bind]
  cases hx : x s with
  | ok a s₁ =>
    constructor
    · exact fun h => ⟨a, s₁, rfl, h⟩
    · rintro ⟨_, _, h₁, h⟩
      injection h₁ with ha hs
      rw [ha, hs]
      exact h
  | error e s₁ => simp

theorem bind_of_ok {a : α} {s₁ : Memory} (h : x s = .ok a s₁) : (x >>= f) s = f a s₁ := by
  change EStateM.bind x f s = _
  rw [EStateM.bind, h]

/-- A sequence that fails has failed in one of its parts. -/
theorem bind_eq_error {e : Fault} :
    (x >>= f) s = .error e s' ↔
      x s = .error e s' ∨ ∃ a s₁, x s = .ok a s₁ ∧ f a s₁ = .error e s' := by
  change EStateM.bind x f s = _ ↔ _
  rw [EStateM.bind]
  cases hx : x s with
  | ok a s₁ =>
    constructor
    · exact fun h => .inr ⟨a, s₁, rfl, h⟩
    · rintro (h | ⟨_, _, h₁, h⟩)
      · cases h
      · injection h₁ with ha hs
        rw [ha, hs]
        exact h
  | error e s₁ => simp

theorem pure_eq_ok {a b : α} : (pure a : InferM α) s = .ok b s' ↔ a = b ∧ s = s' := by
  change EStateM.Result.ok a s = .ok b s' ↔ _
  simp

/-- A computation over types changes nothing but the table. -/
theorem liftM_eq_ok {z : TypeM α} {a : α} :
    (liftM z : InferM α) s = .ok a s' ↔
      ∃ T', z s.types = .ok a T' ∧ s' = { s with types := T' } := by
  obtain ⟨types, memo, fallbacks⟩ := s
  change InferM.ofTypes z _ = _ ↔ _
  rw [InferM.ofTypes]
  cases z types with
  | ok b T' =>
    simp only [EStateM.Result.ok.injEq]
    constructor
    · rintro ⟨rfl, rfl⟩
      exact ⟨T', ⟨rfl, rfl⟩, rfl⟩
    · rintro ⟨_, ⟨rfl, rfl⟩, rfl⟩
      exact ⟨rfl, rfl⟩
  | error e T' => simp

theorem liftM_of_ok {z : TypeM α} {a : α} {T' : TypeTable} (h : z s.types = .ok a T') :
    (liftM z : InferM α) s = .ok a { s with types := T' } :=
  liftM_eq_ok.mpr ⟨T', h, rfl⟩

theorem liftM_eq_error {z : TypeM α} {e : Fault} :
    (liftM z : InferM α) s = .error e s' ↔
      ∃ e' T', z s.types = .error e' T' ∧ e = .outOfFuel ∧ s' = { s with types := T' } := by
  obtain ⟨types, memo, fallbacks⟩ := s
  change InferM.ofTypes z _ = _ ↔ _
  rw [InferM.ofTypes]
  cases z types with
  | ok b T' => simp
  | error e' T' =>
    constructor
    · intro h
      injection h with he hs
      exact ⟨e', T', rfl, he.symm, hs.symm⟩
    · rintro ⟨_, _, h, rfl, rfl⟩
      injection h with _ hT
      rw [hT]

theorem liftM_bind {α β : Type} (z : TypeM α) (f : α → TypeM β) :
    (liftM (z >>= f) : InferM β) = liftM z >>= fun a => liftM (f a) := by
  funext ⟨types, memo, fallbacks⟩
  have hbind : (z >>= f) types = EStateM.bind z f types := rfl
  change InferM.ofTypes (z >>= f) _ = EStateM.bind (InferM.ofTypes z) _ _
  simp only [InferM.ofTypes, hbind, EStateM.bind]
  cases z types <;> rfl

theorem liftM_map {α β : Type} (f : α → β) (z : TypeM α) :
    (liftM (f <$> z) : InferM β) = liftM z >>= fun a => pure (f a) := by
  rw [map_eq_pure_bind, liftM_bind]
  rfl

end InferM

/-- A relation between an inference from a table and a family of inferences, with a relation between
what they return, for the table that the first one leaves. -/
structure Comparison where
  /-- Whether the growth of the table matters. -/
  tracked : Prop
  rel : ∀ {α β : Type}, TypeTable → InferM α → (Nat → InferM β) → (TypeTable → α → β → Prop) → Prop
  return' : ∀ {α β : Type} {T : TypeTable} {V : TypeTable → α → β → Prop} {a : α} {b : β},
    (tracked → T.WellFormed) → V T a b → rel T (pure a) (fun _ => pure b) V
  bind : ∀ {α β γ δ : Type} {T : TypeTable} {V : TypeTable → α → β → Prop}
    {W : TypeTable → γ → δ → Prop} {x : InferM α} {y : Nat → InferM β} {f : α → InferM γ}
    {g : Nat → β → InferM δ}, rel T x y V →
    (∀ a b T', (tracked → T.GrowsTo T') → V T' a b → rel T' (f a) (fun i => g i b) W) →
    rel T (x >>= f) (fun i => y i >>= g i) W
  /-- A computation over types is compared with itself. -/
  lift : ∀ {α : Type} {T : TypeTable} {V : TypeTable → α → Prop} {z : TypeM α},
    (tracked → TypeM.Stable z T V) →
    rel T (liftM z) (fun _ => liftM z) fun T' a b => a = b ∧ (tracked → V T' a)
  /-- What notes a fallback need not be compared any further. -/
  fallback : ∀ {α β : Type} {T : TypeTable} {V : TypeTable → α → β → Prop} {x : InferM α}
    {y y' : Nat → InferM β}, rel T x y V → rel T (InferM.noteFallback >>= fun _ => x) y' V
  fail : ∀ {α β : Type} {T : TypeTable} {V : TypeTable → α → β → Prop} (fault : Fault),
    rel T (throw fault) (fun _ => throw fault) V

namespace Comparison

variable {c : Comparison} {α β γ δ : Type} {T T' : TypeTable} {P : TypeTable → α → Prop}

/-- The table grows, if that matters. -/
def Grows (c : Comparison) (T T' : TypeTable) : Prop := c.tracked → T.GrowsTo T'

/-- The handle belongs to the table, if that matters. -/
def Has (c : Comparison) (T : TypeTable) (t : TypeId) : Prop := c.tracked → T.Has t

/-- The handles belong to the table, if that matters. -/
def HasAll (c : Comparison) (T : TypeTable) (ts : List TypeId) : Prop := c.tracked → T.HasAll ts

/-- Equal results with a property, if that matters. -/
def Same (c : Comparison) (P : TypeTable → α → Prop) (T : TypeTable) (a b : α) : Prop :=
  a = b ∧ (c.tracked → P T a)

theorem Has.grow {t : TypeId} (h : c.Has T t) (hg : c.Grows T T') : c.Has T' t :=
  fun ht => (h ht).of_le (hg ht).le

theorem HasAll.grow {ts : List TypeId} (h : c.HasAll T ts) (hg : c.Grows T T') : c.HasAll T' ts :=
  fun ht => (h ht).of_le (hg ht).le

theorem Grows.trans {T'' : TypeTable} (h : c.Grows T T') (h' : c.Grows T' T'') : c.Grows T T'' :=
  fun ht => (h ht).trans (h' ht)

theorem bindSame {W : TypeTable → γ → δ → Prop} {x : InferM α} {y : Nat → InferM α}
    {f : α → InferM γ} {g : Nat → α → InferM δ} (hx : c.rel T x y (c.Same P))
    (hf : ∀ a T', c.Grows T T' → (c.tracked → P T' a) → c.rel T' (f a) (fun i => g i a) W) :
    c.rel T (x >>= f) (fun i => y i >>= g i) W :=
  c.bind hx fun a _ T' hg hab => hab.1 ▸ hf a T' hg hab.2

theorem bindLift {W : TypeTable → γ → δ → Prop} {z : TypeM α} {f : α → InferM γ}
    {g : Nat → α → InferM δ} (hz : c.tracked → TypeM.Stable z T P)
    (hf : ∀ a T', c.Grows T T' → (c.tracked → P T' a) → c.rel T' (f a) (fun i => g i a) W) :
    c.rel T (liftM z >>= f) (fun i => liftM z >>= g i) W :=
  c.bindSame (c.lift hz) hf

/-- Two functions of what one computation over types returns. -/
theorem liftMap {V : TypeTable → β → γ → Prop} {z : TypeM α} {f : α → β} {g : α → γ}
    (hz : c.tracked → TypeM.Stable z T P)
    (h : ∀ a T', c.Grows T T' → (c.tracked → P T' a) → V T' (f a) (g a)) :
    c.rel T (liftM (f <$> z)) (fun _ => liftM (g <$> z)) V := by
  simp only [InferM.liftM_map]
  exact c.bindLift hz fun a T' hg hP =>
    c.return' (fun ht => (hg ht).wellFormed) (h a T' hg hP)

theorem same (a : α) (hT : c.tracked → T.WellFormed) (ha : c.tracked → P T a) :
    c.rel T (pure a) (fun _ => pure a) (c.Same P) :=
  c.return' hT ⟨rfl, ha⟩

theorem has_reserved {t : TypeId} (ht : t.index < TypeId.firstDynamic)
    (hT : c.tracked → T.WellFormed) : c.Has T t :=
  fun tr => (hT tr).has_reserved ht

/-- A handle that every table has. -/
theorem reserved {t : TypeId} (ht : t.index < TypeId.firstDynamic) (hT : c.tracked → T.WellFormed) :
    c.rel T (pure t) (fun _ => pure t) (c.Same TypeTable.Has) :=
  c.same t hT (c.has_reserved ht hT)

/-- An optional handle with a default. -/
theorem has_getD {o : Option TypeId} {t : TypeId}
    (ho : c.tracked → ∀ s, o = some s → T.Has s) (ht : c.Has T t) : c.Has T (o.getD t) := by
  cases o with
  | none => exact ht
  | some s => exact fun tr => ho tr s rfl

/-- An optional handle, or one that every table has in its place. -/
theorem orReserved {o : Option TypeId} {t : TypeId}
    (ho : c.tracked → ∀ s, o = some s → T.Has s) (ht : t.index < TypeId.firstDynamic)
    (hT : c.tracked → T.WellFormed) :
    c.rel T (pure (o.getD t)) (fun _ => pure (o.getD t)) (c.Same TypeTable.Has) :=
  c.same _ hT (c.has_getD ho (c.has_reserved ht hT))

/-- A choice between handles that every table has. -/
theorem reservedIf (hT : c.tracked → T.WellFormed) (choice : Prop) [Decidable choice]
    {t u : TypeId} (ht : t.index < TypeId.firstDynamic) (hu : u.index < TypeId.firstDynamic) :
    c.rel T (pure (if choice then t else u)) (fun _ => pure (if choice then t else u))
      (c.Same TypeTable.Has) := by
  split
  · exact c.reserved ht hT
  · exact c.reserved hu hT

theorem mapM {f : β → InferM α} {g : Nat → β → InferM α}
    (hP : ∀ T T' a, T ≤ T' → P T a → P T' a) (l : List β) :
    ∀ {T : TypeTable}, (c.tracked → T.WellFormed) →
      (∀ b T', c.Grows T T' → c.rel T' (f b) (fun i => g i b) (c.Same P)) →
      c.rel T (l.mapM f) (fun i => l.mapM (g i)) (c.Same fun T' as => ∀ a ∈ as, P T' a) := by
  induction l with
  | nil =>
    intro T hT _
    simp only [List.mapM_nil]
    exact c.same [] hT fun _ _ h => by cases h
  | cons b l ih =>
    intro T hT hf
    simp only [List.mapM_cons]
    refine c.bindSame (hf b T fun ht => .refl (hT ht)) fun a T₁ hg₁ ha => ?_
    refine c.bindSame (ih (fun ht => (hg₁ ht).wellFormed) fun b' T' hg => hf b' T' (hg₁.trans hg))
      fun as T₂ hg₂ has => ?_
    refine c.same _ (fun ht => (hg₂ ht).wellFormed) fun ht a' ha' => ?_
    rcases List.mem_cons.mp ha' with rfl | ha'
    · exact hP T₁ T₂ _ (hg₂ ht).le (ha ht)
    · exact has ht a' ha'

/-! ### Environments and judges -/

/-- Two environments differ in guards only, and the first one belongs to the table. -/
structure Scope (c : Comparison) (p : Program) (T : TypeTable) (env env' : Environment) : Prop where
  relaxes : env.Relaxes env'
  setting : c.tracked → p.Setting env T

variable {p : Program} {env env' : Environment}

namespace Scope

theorem table (h : c.Scope p T env env') (ht : c.tracked) : T.WellFormed := (h.setting ht).table

theorem world (h : c.Scope p T env env') (ht : c.tracked) : p.world.Within T := (h.setting ht).world

theorem inWorld (h : c.Scope p T env env') (ht : c.tracked) : p.world.Setting env T :=
  (h.setting ht).inWorld

theorem grow (h : c.Scope p T env env') (hg : c.Grows T T') : c.Scope p T' env env' :=
  ⟨h.relaxes, fun ht => (h.setting ht).grow (hg ht)⟩

theorem withGuard (h : c.Scope p T env env') (key : GuardKey) :
    c.Scope p T (env.withGuard key) (env'.withGuard key) :=
  ⟨h.relaxes.withGuard key, fun ht => (h.setting ht).withGuard key⟩

theorem withProvisional (h : c.Scope p T env env') (key : GuardKey) {t : TypeId}
    (ht : c.Has T t) : c.Scope p T (env.withProvisional key t) (env'.withProvisional key t) :=
  ⟨h.relaxes.withProvisional key t, fun htr => (h.setting htr).withProvisional key (ht htr)⟩

theorem wrap (h : c.Scope p T env env') : c.Scope p T env.wrap env'.wrap :=
  ⟨h.relaxes.wrap, fun ht => (h.setting ht).wrap⟩

theorem setThis (h : c.Scope p T env env') {t : TypeId} (ht : c.Has T t) :
    c.Scope p T (env.setThis t) (env'.setThis t) :=
  ⟨h.relaxes.setThis t, fun htr => (h.setting htr).setThis (ht htr)⟩

theorem extend (h : c.Scope p T env env') {bindings : List (DeclId × TypeId)}
    (hb : c.tracked → T.Binds bindings) :
    c.Scope p T (env.extend bindings) (env'.extend bindings) :=
  ⟨h.relaxes.extend bindings, fun ht => (h.setting ht).extend (hb ht)⟩

end Scope

/-- Two judges give related answers under environments that differ in guards only. -/
structure Asks (c : Comparison) (p : Program) (judge : Judge) (judge' : Nat → Judge) : Prop where
  node : ∀ {T : TypeTable} {env env' : Environment}, c.Scope p T env env' → ∀ n,
    c.rel T (judge.node env n) (fun i => (judge' i).node env' n) (c.Same TypeTable.Has)
  decl : ∀ {T : TypeTable} {env env' : Environment}, c.Scope p T env env' → ∀ d,
    c.rel T (judge.decl env d) (fun i => (judge' i).decl env' d) (c.Same TypeTable.Has)

variable {judge : Judge} {judge' : Nat → Judge}

theorem slot (hJ : c.Asks p judge judge') (h : c.Scope p T env env') (slot : Slot) :
    c.rel T (judge.slot env slot) (fun i => (judge' i).slot env' slot) (c.Same TypeTable.Has) := by
  cases slot with
  | none => exact c.reserved (by decide) h.table
  | some n => exact hJ.node h n

theorem slots (hJ : c.Asks p judge judge') (h : c.Scope p T env env') (slots : List Slot) :
    c.rel T (slots.mapM (judge.slot env)) (fun i => slots.mapM ((judge' i).slot env'))
      (c.Same TypeTable.HasAll) :=
  c.mapM (P := TypeTable.Has) (fun _ _ _ => TypeTable.Has.of_le) slots h.table
    fun s _ hg => c.slot hJ (h.grow hg) s

/-- A guard that is set makes the first inference fall back; one that is not set is not set for the
second inference either. -/
theorem guarded (h : c.Scope p T env env') (key : GuardKey) {f : Environment → InferM TypeId}
    {g : Nat → Environment → InferM TypeId}
    (hf : c.Scope p T (env.withGuard key) (env'.withGuard key) →
      c.rel T (f (env.withGuard key)) (fun i => g i (env'.withGuard key)) (c.Same TypeTable.Has)) :
    c.rel T (Program.guarded env key f) (fun i => Program.guarded env' key (g i))
      (c.Same TypeTable.Has) := by
  unfold Program.guarded
  cases hkey : env.isGuarded key with
  | true => exact c.fallback (c.reserved (t := .any) (by decide) h.table)
  | false =>
    simp only [h.relaxes.isGuarded_eq_false hkey]
    exact hf (h.withGuard key)

/-- The same for a guard that is set with a preliminary result. -/
theorem unlessProvisional {V : TypeTable → α → β → Prop} (h : c.Scope p T env env')
    (key : GuardKey) {preliminary : TypeId → InferM α} {preliminary' : Nat → TypeId → InferM β}
    {x : InferM α} {y : Nat → InferM β}
    (hpreliminary : ∀ t, c.Has T t → ∃ y', c.rel T (preliminary t) y' V) (hx : c.rel T x y V) :
    c.rel T
      (match env.guardState key with
        | .provisional t => InferM.noteFallback >>= fun _ => preliminary t
        | _ => x)
      (fun i => match env'.guardState key with
        | .provisional t => InferM.noteFallback >>= fun _ => preliminary' i t
        | _ => y i) V := by
  have hsecond (hkey : ∀ t, env.guardState key ≠ .provisional t) :
      (fun i => match env'.guardState key with
        | .provisional t => InferM.noteFallback >>= fun _ => preliminary' i t
        | _ => y i) = y := by
    funext i
    cases hkey' : env'.guardState key with
    | provisional t => exact absurd hkey' (h.relaxes.guardState_ne_provisional hkey t)
    | _ => rfl
  cases hkey : env.guardState key with
  | provisional t =>
    obtain ⟨y', hy'⟩ := hpreliminary t fun ht => (h.setting ht).guards key t hkey
    exact c.fallback hy'
  | _ =>
    rw [hsecond fun t ht => by rw [hkey] at ht; cases ht]
    exact hx

end Comparison

end ScriptTyping
