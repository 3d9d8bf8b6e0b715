import ScriptTyping.Proofs.Table.Logic

/-!
# Stable computations over types

Handles are given out in order of arrival, so the result of a computation over types could depend on
what was stored before.  It does not depend on what is stored afterwards: a *stable* computation
that returned once returns the same result again, without storing anything, from every table that
extends the one it left.  Stability is shown together with the growth of the table and with a
property of the result, because only handles of the table read the same later on.

## Main definitions

* `TypeM.Stable` — growth, a property of the result, and the same result later on.

## Main results

* `TypeM.Stable.bind`, `TypeM.Stable.lookup`, `TypeM.Stable.get` — sequencing.
* `TypeM.stable_intern`, `TypeM.stable_upperBound` — the primitive computations.
* `TypeM.Stable.mapM` and its companions — loops over lists.
-/

namespace ScriptTyping.TypeM

variable {α β : Type} {x : TypeM α} {f : α → TypeM β} {T T' : TypeTable}
  {V : TypeTable → α → Prop} {W : TypeTable → β → Prop}

/-- If the computation returns from `T`, then the table grows, the result has the property `V`, and
every table that extends the one it leaves gives the same result and stays as it is. -/
def Stable (x : TypeM α) (T : TypeTable) (V : TypeTable → α → Prop) : Prop :=
  ∀ a T', x T = .ok a T' → T.GrowsTo T' ∧ V T' a ∧ ∀ T'', T' ≤ T'' → x T'' = .ok a T''

/-! ### Sequencing -/

/-- A sequence that returns has returned from both of its parts. -/
theorem bind_eq_ok {b : β} {T' : TypeTable} :
    (x >>= f) T = .ok b T' ↔ ∃ a T₁, x T = .ok a T₁ ∧ f a T₁ = .ok b T' := by
  change EStateM.bind x f T = _ ↔ _
  rw [EStateM.bind]
  cases hx : x T with
  | ok a T₁ =>
    constructor
    · exact fun h => ⟨a, T₁, rfl, h⟩
    · rintro ⟨_, _, h₁, h⟩
      injection h₁ with ha hT
      rw [ha, hT]
      exact h
  | error e T₁ => simp

theorem bind_of_ok {a : α} (h : x T = .ok a T') : (x >>= f) T = f a T' := by
  change EStateM.bind x f T = _
  rw [EStateM.bind, h]

theorem pure_eq_ok {a b : α} {T' : TypeTable} :
    (pure a : TypeM α) T = .ok b T' ↔ a = b ∧ T = T' := by
  change EStateM.Result.ok a T = .ok b T' ↔ _
  simp

theorem Stable.mono {V' : TypeTable → α → Prop} (hx : Stable x T V)
    (h : ∀ T' a, T.GrowsTo T' → V T' a → V' T' a) : Stable x T V' := by
  intro a T' ha
  obtain ⟨hg, hv, hr⟩ := hx a T' ha
  exact ⟨hg, h T' a hg hv, hr⟩

/-- The later runs may be part of the property. -/
theorem Stable.replays (hx : Stable x T V) :
    Stable x T fun T' a => V T' a ∧ ∀ T'', T' ≤ T'' → x T'' = .ok a T'' := by
  intro a T' ha
  obtain ⟨hg, hv, hr⟩ := hx a T' ha
  exact ⟨hg, ⟨hv, hr⟩, hr⟩

theorem Stable.pure {a : α} (hT : T.WellFormed) (h : V T a) : Stable (pure a) T V := by
  intro b T' hb
  obtain ⟨rfl, rfl⟩ := pure_eq_ok.mp hb
  exact ⟨.refl hT, h, fun _ _ => rfl⟩

theorem Stable.bind (hx : Stable x T V)
    (hf : ∀ a T', T.GrowsTo T' → V T' a → Stable (f a) T' W) : Stable (x >>= f) T W := by
  intro b T' hb
  obtain ⟨a, T₁, ha, hfa⟩ := bind_eq_ok.mp hb
  obtain ⟨hg₁, hv, hr₁⟩ := hx a T₁ ha
  obtain ⟨hg₂, hw, hr₂⟩ := hf a T₁ hg₁ hv b T' hfa
  refine ⟨hg₁.trans hg₂, hw, fun T'' hle => ?_⟩
  exact bind_eq_ok.mpr ⟨a, T'', hr₁ T'' (le_trans hg₂.le hle), hr₂ T'' hle⟩

theorem Stable.map {g : α → β} (hx : Stable x T V)
    (h : ∀ T' a, T.GrowsTo T' → V T' a → W T' (g a)) : Stable (g <$> x) T W := by
  rw [map_eq_pure_bind]
  exact hx.bind fun a T' hg hv => .pure hg.wellFormed (h T' a hg hv)

theorem Stable.ite {c : Prop} [Decidable c] {y : TypeM α} (hx : Stable x T V)
    (hy : Stable y T V) : Stable (if c then x else y) T V := by
  split
  · exact hx
  · exact hy

theorem stable_diverge : Stable (diverge : TypeM α) T V := by
  intro a T' h
  cases h

theorem Stable.ofOption {o : Option α} (hT : T.WellFormed) (h : ∀ a, o = some a → V T a) :
    Stable (ofOption o) T V := by
  cases o with
  | none => exact stable_diverge
  | some a => exact .pure hT (h a rfl)

/-- Reading the whole table is harmless if the rest does not see what is stored later. -/
theorem Stable.get {f : TypeTable → TypeM β} (hsame : ∀ T'', T ≤ T'' → f T'' = f T)
    (h : Stable (f T) T W) : Stable (MonadState.get >>= f) T W := by
  intro b T' hb
  obtain ⟨hg, hw, hr⟩ := h b T' hb
  refine ⟨hg, hw, fun T'' hle => ?_⟩
  change f T'' T'' = _
  rw [hsame T'' (le_trans hg.le hle)]
  exact hr T'' hle

/-- Reading a row of the table. -/
theorem Stable.lookup {f : TypeData → TypeM β} {t : TypeId} (ht : T.Has t)
    (h : Stable (f (T.lookup t)) T W) : Stable (TypeM.lookup t >>= f) T W := by
  rw [TypeM.lookup, bind_assoc]
  simp only [pure_bind]
  refine .get (fun T'' hle => ?_) h
  rw [TypeTable.lookup_of_le hle ht]

theorem stable_lookup {t : TypeId} (hT : T.WellFormed) (ht : T.Has t) :
    Stable (TypeM.lookup t) T fun T' data => data = T'.lookup t ∧ T'.HasAll data.parts := by
  rw [← bind_pure (TypeM.lookup t)]
  exact .lookup ht (.pure hT ⟨rfl, hT.hasAll_parts t⟩)

/-! ### Storing values -/

theorem stable_intern {data : TypeData} (hT : T.WellFormed) (hdata : T.HasAll data.parts) :
    Stable (intern data) T fun T' t => T'.Has t ∧ T'.lookup t = data := by
  intro t T' h
  have h' : EStateM.Result.ok (T.intern data).1 (T.intern data).2 = .ok t T' := h
  injection h' with ht hT'
  subst ht hT'
  refine ⟨TypeTable.growsTo_intern hT hdata, ⟨TypeTable.has_intern hT hdata,
    TypeTable.lookup_eq (TypeTable.lookup_intern hT hdata)⟩, fun T'' hle => ?_⟩
  change EStateM.Result.ok (T''.intern data).1 (T''.intern data).2 = _
  rw [TypeTable.intern_of_le hle]

theorem stable_internSymbol (hT : T.WellFormed) (text : String) :
    Stable (internSymbol text) T fun _ _ => True := by
  intro s T' h
  have h' : EStateM.Result.ok (T.internSymbol text).1 (T.internSymbol text).2 = .ok s T' := h
  injection h' with hs hT'
  subst hs hT'
  refine ⟨TypeTable.growsTo_internSymbol hT text, trivial, fun T'' hle => ?_⟩
  change EStateM.Result.ok (T''.internSymbol text).1 (T''.internSymbol text).2 = _
  rw [TypeTable.internSymbol_of_le hle]

/-- The handle of a value that mentions handles of the table is one of the table. -/
theorem stable_intern_has {data : TypeData} (hT : T.WellFormed) (hdata : T.HasAll data.parts) :
    Stable (intern data) T TypeTable.Has :=
  (stable_intern hT hdata).mono fun _ _ _ h => h.1

theorem stable_simple (hT : T.WellFormed) (decl : DeclId) :
    Stable (simple decl) T TypeTable.Has :=
  stable_intern_has hT fun _ h => by cases h

theorem stable_nominal (hT : T.WellFormed) (decl : DeclId) {args : List TypeId}
    (hargs : T.HasAll args) : Stable (nominal decl args) T TypeTable.Has :=
  stable_intern_has hT hargs

theorem stable_wildcard (hT : T.WellFormed) {bound : Option TypeId}
    (hbound : T.HasAll bound.toList) (kind : WildcardKind) :
    Stable (wildcard bound kind) T TypeTable.Has :=
  stable_intern_has hT hbound

theorem stable_metaType (hT : T.WellFormed) {arg : TypeId} (harg : T.Has arg) :
    Stable (metaType arg) T TypeTable.Has :=
  stable_intern_has hT harg.hasAll

theorem stable_constructorType (hT : T.WellFormed) {arg : TypeId} (harg : T.Has arg) :
    Stable (constructorType arg) T TypeTable.Has :=
  stable_intern_has hT harg.hasAll

theorem stable_literal (hT : T.WellFormed) (value : LiteralValue) :
    Stable (intern (.literal value)) T TypeTable.Has :=
  stable_intern_has hT TypeTable.hasAll_nil

theorem stable_typeVariable (hT : T.WellFormed) (decl : DeclId) :
    Stable (typeVariable decl) T TypeTable.Has :=
  stable_intern_has hT fun _ h => by cases h

/-! ### Upper bounds -/

/-- The bound of a handle is a handle, and more fuel and later rows do not change it. -/
theorem boundFrom?_of_le (hT : T.WellFormed) (hle : T ≤ T') {fuel fuel' : Nat}
    (hfuel : fuel ≤ fuel') {t b : TypeId} (ht : T.Has t)
    (h : T.boundFrom? fuel t = some b) : T'.boundFrom? fuel' t = some b ∧ T.Has b := by
  have hany : T.Has .any := hT.has_reserved (by decide)
  have hparts := hT.hasAll_parts t
  induction fuel generalizing fuel' t with
  | zero =>
    unfold TypeTable.boundFrom? at h ⊢
    cases fuel' <;>
    · simp only [TypeTable.lookup_of_le hle ht]
      split at h <;> simp_all
  | succ fuel ih =>
    obtain ⟨fuel', rfl⟩ : ∃ k, fuel' = k + 1 := ⟨fuel' - 1, by omega⟩
    rw [TypeTable.boundFrom?] at h ⊢
    rw [TypeTable.lookup_of_le hle ht]
    cases hd : T.lookup t with
    | wildcard bound kind =>
      cases bound with
      | none => simp_all
      | some bound =>
        cases kind with
        | upper =>
          have hb : T.Has bound := hparts bound (by simp [hd, TypeData.parts])
          simp only [hd] at h ⊢
          exact ih (by omega) hb h (hT.hasAll_parts bound)
        | lower => simp_all
    | thisType bound =>
      cases bound with
      | none => simp_all
      | some bound =>
        have hb : T.Has bound := hparts bound (by simp [hd, TypeData.parts])
        simp only [hd] at h ⊢
        exact ih (by omega) hb h (hT.hasAll_parts bound)
    | _ => simp_all

theorem stable_upperBound {t : TypeId} (hT : T.WellFormed) (ht : T.Has t) :
    Stable (upperBound t) T TypeTable.Has := by
  intro b T' h
  have h' : ofOption (T.upperBound? t) T = .ok b T' := h
  cases hb : T.upperBound? t with
  | none =>
    rw [hb] at h'
    cases h'
  | some c =>
    rw [hb] at h'
    obtain ⟨rfl, rfl⟩ := pure_eq_ok.mp h'
    refine ⟨.refl hT, (boundFrom?_of_le hT le_rfl (Nat.le_refl _) ht hb).2, fun T'' hle => ?_⟩
    have hb' := (boundFrom?_of_le hT hle (TypeTable.rows_size_le hle) ht hb).1
    change ofOption (T''.upperBound? t) T'' = _
    rw [TypeTable.upperBound?, hb']
    rfl

/-! ### Loops over lists -/

/-- Stability as a property that sequencing respects. -/
def stableLogic : TableLogic TypeM where
  holds := Stable
  return' := .pure
  bind := .bind

theorem Stable.mapM {f : α → TypeM β} (hW : ∀ T T' b, T ≤ T' → W T b → W T' b) (l : List α)
    (hT : T.WellFormed) (hf : ∀ a ∈ l, ∀ T', T.GrowsTo T' → Stable (f a) T' W) :
    Stable (l.mapM f) T fun T' bs => ∀ b ∈ bs, W T' b :=
  stableLogic.mapM hW l hT hf

theorem Stable.anyM {p : α → TypeM Bool} (l : List α) (hT : T.WellFormed)
    (hp : ∀ a ∈ l, ∀ T', T.GrowsTo T' → Stable (p a) T' fun _ _ => True) :
    Stable (l.anyM p) T fun _ _ => True :=
  stableLogic.anyM l hT hp

theorem Stable.allM {p : α → TypeM Bool} (l : List α) (hT : T.WellFormed)
    (hp : ∀ a ∈ l, ∀ T', T.GrowsTo T' → Stable (p a) T' fun _ _ => True) :
    Stable (l.allM p) T fun _ _ => True :=
  stableLogic.allM l hT hp

theorem Stable.filterM {p : α → TypeM Bool} (l : List α) (hT : T.WellFormed)
    (hp : ∀ a ∈ l, ∀ T', T.GrowsTo T' → Stable (p a) T' fun _ _ => True) :
    Stable (l.filterM p) T fun _ kept => ∀ a ∈ kept, a ∈ l :=
  stableLogic.filterM l hT hp

theorem Stable.findM? {p : α → TypeM Bool} (l : List α) (hT : T.WellFormed)
    (hp : ∀ a ∈ l, ∀ T', T.GrowsTo T' → Stable (p a) T' fun _ _ => True) :
    Stable (l.findM? p) T fun _ o => ∀ a, o = some a → a ∈ l :=
  stableLogic.findM? l hT hp

theorem Stable.findSomeM? {f : α → TypeM (Option β)} (l : List α) (hT : T.WellFormed)
    (hf : ∀ a ∈ l, ∀ T', T.GrowsTo T' → Stable (f a) T' fun T' o => ∀ b, o = some b → W T' b) :
    Stable (l.findSomeM? f) T fun T' o => ∀ b, o = some b → W T' b :=
  stableLogic.findSomeM? l hT hf

theorem Stable.foldlM {f : β → α → TypeM β} {b : β} (l : List α) (hT : T.WellFormed)
    (hf : ∀ a ∈ l, ∀ T' b, T.GrowsTo T' → W T' b → Stable (f b a) T' W) (hb : W T b) :
    Stable (l.foldlM f b) T W :=
  stableLogic.foldlM l hT hf hb

end ScriptTyping.TypeM
