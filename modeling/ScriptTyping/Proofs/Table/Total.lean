import ScriptTyping.Proofs.Table.Stable

/-!
# Computations over types that return

A computation over types fails in one way only: it does not come to an end, which shows as running
out of fuel.  A *total* computation returns from every table.  A computation with fuel *settles* at
a table if all large amounts of fuel give one and the same result there.

## Main definitions

* `TypeM.Total` — returns from every table.
* `TypeM.Approx` — a second computation returns what a first returns.
* `TypeM.Settles` — returns the same from some amount of fuel on.

## Main results

* `TypeM.Total.bind`, `TypeM.Total.mapM`, `TypeM.Total.foldlM` — total computations.
* `TypeM.Settles.bind`, `TypeM.Settles.findSomeM?` — computations that settle.
* `TypeM.Total.settles` — a total and stable computation settles.
-/

namespace ScriptTyping.TypeM

variable {α β : Type} {T T' : TypeTable}

/-! ### Total computations -/

/-- The computation returns from every table. -/
def Total (x : TypeM α) : Prop := ∀ T, ∃ a T', x T = .ok a T'

theorem Total.pure (a : α) : Total (pure a) := fun T => ⟨a, T, rfl⟩

theorem Total.bind {x : TypeM α} {f : α → TypeM β} (hx : Total x) (hf : ∀ a, Total (f a)) :
    Total (x >>= f) := by
  intro T
  obtain ⟨a, T₁, ha⟩ := hx T
  obtain ⟨b, T₂, hb⟩ := hf a T₁
  exact ⟨b, T₂, bind_eq_ok.mpr ⟨a, T₁, ha, hb⟩⟩

theorem Total.map {x : TypeM α} (f : α → β) (hx : Total x) : Total (f <$> x) := by
  rw [map_eq_pure_bind]
  exact hx.bind fun a => .pure (f a)

theorem Total.ite {c : Prop} [Decidable c] {x y : TypeM α} (hx : Total x) (hy : Total y) :
    Total (if c then x else y) := by
  split
  · exact hx
  · exact hy

theorem Total.get {f : TypeTable → TypeM α} (hf : ∀ T, Total (f T)) :
    Total (MonadState.get >>= f) := fun T => hf T T

theorem total_lookup (t : TypeId) : Total (TypeM.lookup t) := fun T => ⟨T.lookup t, T, rfl⟩

theorem total_intern (data : TypeData) : Total (intern data) := fun _ => ⟨_, _, rfl⟩

theorem Total.mapM {f : α → TypeM β} (hf : ∀ a, Total (f a)) (l : List α) : Total (l.mapM f) := by
  induction l with
  | nil =>
    rw [List.mapM_nil]
    exact .pure []
  | cons a l ih =>
    rw [List.mapM_cons]
    exact (hf a).bind fun b => ih.bind fun bs => .pure (b :: bs)

theorem Total.foldlM {f : β → α → TypeM β} (hf : ∀ b a, Total (f b a)) (l : List α) (b : β) :
    Total (l.foldlM f b) := by
  induction l generalizing b with
  | nil => exact .pure b
  | cons a l ih =>
    rw [List.foldlM_cons]
    exact (hf b a).bind ih

/-! ### Approximation -/

/-- The second computation returns what the first returns. -/
def Approx (x y : TypeM α) : Prop := ∀ T a T', x T = .ok a T' → y T = .ok a T'

theorem Approx.refl (x : TypeM α) : Approx x x := fun _ _ _ h => h

theorem approx_diverge (y : TypeM α) : Approx diverge y := fun _ _ _ h => by cases h

theorem Approx.bind {x y : TypeM α} {f g : α → TypeM β} (h : Approx x y)
    (hf : ∀ a, Approx (f a) (g a)) : Approx (x >>= f) (y >>= g) := by
  intro T b T' hb
  obtain ⟨a, T₁, ha, hfa⟩ := bind_eq_ok.mp hb
  exact bind_eq_ok.mpr ⟨a, T₁, h T a T₁ ha, hf a T₁ b T' hfa⟩

theorem Approx.mapM {f g : α → TypeM β} (h : ∀ a, Approx (f a) (g a)) (l : List α) :
    Approx (l.mapM f) (l.mapM g) := by
  induction l with
  | nil => exact .refl _
  | cons a l ih =>
    rw [List.mapM_cons, List.mapM_cons]
    exact (h a).bind fun b => ih.bind fun bs => .refl _

theorem Approx.anyM {p q : α → TypeM Bool} (h : ∀ a, Approx (p a) (q a)) (l : List α) :
    Approx (l.anyM p) (l.anyM q) := by
  induction l with
  | nil => exact .refl _
  | cons a l ih =>
    refine (h a).bind fun b => ?_
    cases b with
    | true => exact .refl _
    | false => exact ih

theorem Approx.allM {p q : α → TypeM Bool} (h : ∀ a, Approx (p a) (q a)) (l : List α) :
    Approx (l.allM p) (l.allM q) := by
  induction l with
  | nil => exact .refl _
  | cons a l ih =>
    refine (h a).bind fun b => ?_
    cases b with
    | true => exact ih
    | false => exact .refl _

/-! ### Computations that settle -/

/-- From some amount of fuel on, the computation returns one result with the property `V`, and the
table grows. -/
def Settles (x : Nat → TypeM α) (T : TypeTable) (V : TypeTable → α → Prop) : Prop :=
  ∃ n a T', T.GrowsTo T' ∧ V T' a ∧ ∀ m, n ≤ m → x m T = .ok a T'

variable {V : TypeTable → α → Prop} {W : TypeTable → β → Prop}

/-- What all runs of a total computation have in common holds of its result. -/
theorem Total.settles_of_runs {x : TypeM α} (hx : Total x)
    (h : ∀ a T', x T = .ok a T' → T.GrowsTo T' ∧ V T' a) : Settles (fun _ => x) T V := by
  obtain ⟨a, T', hrun⟩ := hx T
  obtain ⟨hg, hv⟩ := h a T' hrun
  exact ⟨0, a, T', hg, hv, fun _ _ => hrun⟩

theorem Total.settles {x : TypeM α} (hx : Total x) (hs : Stable x T V) :
    Settles (fun _ => x) T V :=
  hx.settles_of_runs fun a T' h => ⟨(hs a T' h).1, (hs a T' h).2.1⟩

/-- A computation that returns once, and to which more fuel makes no difference, settles. -/
theorem settles_of_approx {x : Nat → TypeM α} (happrox : ∀ n m, n ≤ m → Approx (x n) (x m))
    {n : Nat} {a : α} (h : x n T = .ok a T') (hs : Stable (x n) T V) : Settles x T V := by
  obtain ⟨hg, hv, -⟩ := hs a T' h
  exact ⟨n, a, T', hg, hv, fun m hm => happrox n m hm T a T' h⟩

/-- Growth and properties of the result may be shown by stability. -/
theorem Settles.of_stable {x : Nat → TypeM α} (hx : Settles x T fun _ _ => True)
    (hs : ∀ n, Stable (x n) T V) : Settles x T V := by
  obtain ⟨n, a, T', hg, -, h⟩ := hx
  exact ⟨n, a, T', hg, (hs n a T' (h n (Nat.le_refl n))).2.1, h⟩

/-- A computation that spends one unit of fuel first. -/
theorem Settles.succ {x : Nat → TypeM α} (hx : Settles (fun n => x (n + 1)) T V) :
    Settles x T V := by
  obtain ⟨n, a, T', hg, hv, h⟩ := hx
  refine ⟨n + 1, a, T', hg, hv, fun m hm => ?_⟩
  obtain ⟨m, rfl⟩ : ∃ k, m = k + 1 := ⟨m - 1, by omega⟩
  exact h m (by omega)

theorem Settles.pure {a : α} (hT : T.WellFormed) (h : V T a) :
    Settles (fun _ => Pure.pure a) T V :=
  ⟨0, a, T, .refl hT, h, fun _ _ => rfl⟩

theorem Settles.bind {x : Nat → TypeM α} {f : Nat → α → TypeM β} (hx : Settles x T V)
    (hf : ∀ a T', T.GrowsTo T' → V T' a → Settles (fun n => f n a) T' W) :
    Settles (fun n => x n >>= f n) T W := by
  obtain ⟨n₁, a, T₁, hg₁, hv, hx⟩ := hx
  obtain ⟨n₂, b, T₂, hg₂, hw, hf⟩ := hf a T₁ hg₁ hv
  refine ⟨max n₁ n₂, b, T₂, hg₁.trans hg₂, hw, fun m hm => ?_⟩
  exact bind_eq_ok.mpr ⟨a, T₁, hx m (by omega), hf m (by omega)⟩

/-- After a computation that returned from the table and left it as it is. -/
theorem Settles.after {x : TypeM α} {f : Nat → α → TypeM β} {a : α} (hx : x T = .ok a T)
    (hf : Settles (fun n => f n a) T W) : Settles (fun n => x >>= f n) T W := by
  obtain ⟨n, b, T', hg, hw, h⟩ := hf
  exact ⟨n, b, T', hg, hw, fun m hm => bind_eq_ok.mpr ⟨a, T, hx, h m hm⟩⟩

theorem Settles.lookup {f : Nat → TypeData → TypeM β} {t : TypeId}
    (h : Settles (fun n => f n (T.lookup t)) T W) :
    Settles (fun n => TypeM.lookup t >>= f n) T W := h

theorem Settles.ite {c : Prop} {_ : Decidable c} {x y : Nat → TypeM α} (hx : c → Settles x T V)
    (hy : ¬c → Settles y T V) : Settles (fun n => if c then x n else y n) T V := by
  by_cases hc : c
  · simpa only [if_pos hc] using hx hc
  · simpa only [if_neg hc] using hy hc

theorem Settles.findSomeM? {f : Nat → α → TypeM (Option β)} (l : List α) :
    ∀ {T}, T.WellFormed →
      (∀ a ∈ l, ∀ T', T.GrowsTo T' → Settles (fun n => f n a) T' fun _ _ => True) →
      Settles (fun n => l.findSomeM? (f n)) T fun _ _ => True := by
  induction l with
  | nil => exact fun hT _ => .pure hT trivial
  | cons a l ih =>
    intro T hT hf
    simp only [List.findSomeM?_cons]
    refine (hf a (List.mem_cons_self ..) T (.refl hT)).bind fun o T₁ hg₁ _ => ?_
    cases o with
    | some b => exact .pure hg₁.wellFormed trivial
    | none =>
      exact ih hg₁.wellFormed fun a' ha' T' hg =>
        hf a' (List.mem_cons_of_mem _ ha') T' (hg₁.trans hg)

end ScriptTyping.TypeM
