import Mathlib.Data.List.Forall2
import ScriptTyping.Proofs.Table.Growth

/-!
# Loops over growing tables

Several properties of computations say how the type table grows and what is returned: from the table
`T` the computation leads to a table that `T` grows to, with a result that has a property there.
What such a property has to say about loops over lists follows from what it says about sequences.

## Main definitions

* `TableLogic` — a property of computations that sequencing respects.

## Main results

* `TableLogic.mapM`, `TableLogic.filterM`, `TableLogic.anyM`, `TableLogic.allM`,
  `TableLogic.findM?`, `TableLogic.findSomeM?`, `TableLogic.foldlM` — loops over lists.
* `TableLogic.allM_iff`, `TableLogic.anyM_iff`, `TableLogic.filterM_iff`, `TableLogic.mapM_forall₂`,
  `TableLogic.findM?_iff`, `TableLogic.findM?_none` — loops whose bodies are known to decide
  something.
-/

namespace ScriptTyping

/-- A property of computations, for the table that they start from and a property of the table that
they leave and of their result. -/
structure TableLogic (m : Type → Type) [Monad m] where
  holds : ∀ {α : Type}, m α → TypeTable → (TypeTable → α → Prop) → Prop
  return' : ∀ {α : Type} {T : TypeTable} {V : TypeTable → α → Prop} {a : α},
    T.WellFormed → V T a → holds (pure a) T V
  bind : ∀ {α β : Type} {T : TypeTable} {V : TypeTable → α → Prop} {W : TypeTable → β → Prop}
    {x : m α} {f : α → m β}, holds x T V →
    (∀ a T', T.GrowsTo T' → V T' a → holds (f a) T' W) → holds (x >>= f) T W

namespace TableLogic

variable {m : Type → Type} [Monad m] (L : TableLogic m) {α β : Type} {T : TypeTable}
  {W : TypeTable → β → Prop}

theorem mono [LawfulMonad m] {V V' : TypeTable → α → Prop} {x : m α} (hx : L.holds x T V)
    (h : ∀ T' a, T.GrowsTo T' → V T' a → V' T' a) : L.holds x T V' := by
  rw [← bind_pure x]
  exact L.bind hx fun a T' hg hv => L.return' hg.wellFormed (h T' a hg hv)

theorem mapM [LawfulMonad m] {f : α → m β} (hW : ∀ T T' b, T ≤ T' → W T b → W T' b) (l : List α) :
    ∀ {T}, T.WellFormed → (∀ a ∈ l, ∀ T', T.GrowsTo T' → L.holds (f a) T' W) →
      L.holds (l.mapM f) T fun T' bs => ∀ b ∈ bs, W T' b := by
  induction l with
  | nil =>
    intro T hT _
    rw [List.mapM_nil]
    exact L.return' hT fun _ h => by cases h
  | cons a l ih =>
    intro T hT hf
    rw [List.mapM_cons]
    refine L.bind (hf a (List.mem_cons_self ..) T (.refl hT)) fun b T₁ hg₁ hb => ?_
    refine L.bind (ih hg₁.wellFormed fun a' ha' T' hg =>
      hf a' (List.mem_cons_of_mem _ ha') T' (hg₁.trans hg)) fun bs T₂ hg₂ hbs => ?_
    refine L.return' hg₂.wellFormed fun c hc => ?_
    rcases List.mem_cons.mp hc with rfl | hc
    · exact hW T₁ T₂ c hg₂.le hb
    · exact hbs c hc

theorem anyM {p : α → m Bool} (l : List α) :
    ∀ {T}, T.WellFormed → (∀ a ∈ l, ∀ T', T.GrowsTo T' → L.holds (p a) T' fun _ _ => True) →
      L.holds (l.anyM p) T fun _ _ => True := by
  induction l with
  | nil => exact fun hT _ => L.return' hT trivial
  | cons a l ih =>
    intro T hT hp
    rw [List.anyM_cons]
    refine L.bind (hp a (List.mem_cons_self ..) T (.refl hT)) fun b T₁ hg₁ _ => ?_
    cases b with
    | true => exact L.return' hg₁.wellFormed trivial
    | false =>
      exact ih hg₁.wellFormed fun a' ha' T' hg =>
        hp a' (List.mem_cons_of_mem _ ha') T' (hg₁.trans hg)

theorem allM {p : α → m Bool} (l : List α) :
    ∀ {T}, T.WellFormed → (∀ a ∈ l, ∀ T', T.GrowsTo T' → L.holds (p a) T' fun _ _ => True) →
      L.holds (l.allM p) T fun _ _ => True := by
  induction l with
  | nil => exact fun hT _ => L.return' hT trivial
  | cons a l ih =>
    intro T hT hp
    rw [List.allM_cons]
    refine L.bind (hp a (List.mem_cons_self ..) T (.refl hT)) fun b T₁ hg₁ _ => ?_
    cases b with
    | true =>
      exact ih hg₁.wellFormed fun a' ha' T' hg =>
        hp a' (List.mem_cons_of_mem _ ha') T' (hg₁.trans hg)
    | false => exact L.return' hg₁.wellFormed trivial

/-- The loop of `filterM` keeps what was kept before. -/
private theorem filterAuxM [LawfulMonad m] {p : α → m Bool} (l : List α) : ∀ {T} (kept : List α),
    T.WellFormed → (∀ a ∈ l, ∀ T', T.GrowsTo T' → L.holds (p a) T' fun _ _ => True) →
    L.holds (l.filterAuxM p kept) T fun _ all => ∀ a ∈ all, a ∈ l ∨ a ∈ kept := by
  induction l with
  | nil => exact fun _ hT _ => L.return' hT fun _ h => .inr h
  | cons a l ih =>
    intro T kept hT hp
    rw [List.filterAuxM]
    refine L.bind (hp a (List.mem_cons_self ..) T (.refl hT)) fun b T₁ hg₁ _ => ?_
    refine L.mono (ih _ hg₁.wellFormed fun a' ha' T' hg =>
      hp a' (List.mem_cons_of_mem _ ha') T' (hg₁.trans hg)) fun T₂ all _ hall a' ha' => ?_
    rcases hall a' ha' with hl | hk
    · exact .inl (List.mem_cons_of_mem _ hl)
    · cases b with
      | false => exact .inr hk
      | true =>
        rcases List.mem_cons.mp hk with rfl | hk
        · exact .inl (List.mem_cons_self ..)
        · exact .inr hk

theorem filterM [LawfulMonad m] {p : α → m Bool} (l : List α) (hT : T.WellFormed)
    (hp : ∀ a ∈ l, ∀ T', T.GrowsTo T' → L.holds (p a) T' fun _ _ => True) :
    L.holds (l.filterM p) T fun _ kept => ∀ a ∈ kept, a ∈ l := by
  refine L.bind (L.filterAuxM l [] hT hp) fun kept T₁ hg hkept => L.return' hg.wellFormed ?_
  intro a ha
  rcases hkept a (List.mem_reverse.mp ha) with hl | hnil
  · exact hl
  · cases hnil

theorem findSomeM? {f : α → m (Option β)} (l : List α) : ∀ {T}, T.WellFormed →
    (∀ a ∈ l, ∀ T', T.GrowsTo T' → L.holds (f a) T' fun T' o => ∀ b, o = some b → W T' b) →
    L.holds (l.findSomeM? f) T fun T' o => ∀ b, o = some b → W T' b := by
  induction l with
  | nil => exact fun hT _ => L.return' hT fun _ h => by cases h
  | cons a l ih =>
    intro T hT hf
    rw [List.findSomeM?_cons]
    refine L.bind (hf a (List.mem_cons_self ..) T (.refl hT)) fun o T₁ hg₁ ho => ?_
    cases o with
    | some b => exact L.return' hg₁.wellFormed ho
    | none =>
      exact ih hg₁.wellFormed fun a' ha' T' hg =>
        hf a' (List.mem_cons_of_mem _ ha') T' (hg₁.trans hg)

theorem findM? [LawfulMonad m] {p : α → m Bool} (l : List α) (hT : T.WellFormed)
    (hp : ∀ a ∈ l, ∀ T', T.GrowsTo T' → L.holds (p a) T' fun _ _ => True) :
    L.holds (l.findM? p) T fun _ o => ∀ a, o = some a → a ∈ l := by
  rw [List.findM?_eq_findSomeM?]
  refine L.findSomeM? l hT fun a ha T' hg => ?_
  refine L.bind (hp a ha T' hg) fun b T₁ hg₁ _ => L.return' hg₁.wellFormed fun a' ha' => ?_
  cases b with
  | false => cases ha'
  | true => exact Option.some.inj ha' ▸ ha

/-- A loop with an invariant. -/
theorem foldlM {f : β → α → m β} (l : List α) : ∀ {T b}, T.WellFormed →
    (∀ a ∈ l, ∀ T' b, T.GrowsTo T' → W T' b → L.holds (f b a) T' W) → W T b →
    L.holds (l.foldlM f b) T W := by
  induction l with
  | nil => exact fun hT _ hb => L.return' hT hb
  | cons a l ih =>
    intro T b hT hf hb
    rw [List.foldlM_cons]
    refine L.bind (hf a (List.mem_cons_self ..) T b (.refl hT) hb) fun b' T₁ hg₁ hb' => ?_
    exact ih hg₁.wellFormed (fun a' ha' T' b hg =>
      hf a' (List.mem_cons_of_mem _ ha') T' b (hg₁.trans hg)) hb'

/-! ### Loops over bodies that decide -/

section Decide

variable {p : α → m Bool} {P : α → Prop}

theorem allM_iff (l : List α) : ∀ {T}, T.WellFormed →
    (∀ a ∈ l, ∀ T', T.GrowsTo T' → L.holds (p a) T' fun _ b => b = true ↔ P a) →
    L.holds (l.allM p) T fun _ b => b = true ↔ ∀ a ∈ l, P a := by
  induction l with
  | nil => exact fun hT _ => L.return' hT (by simp)
  | cons a l ih =>
    intro T hT hp
    rw [List.allM_cons]
    refine L.bind (hp a (List.mem_cons_self ..) T (.refl hT)) fun b T₁ hg₁ hb => ?_
    have hrest := ih hg₁.wellFormed fun a' ha' T' hg =>
      hp a' (List.mem_cons_of_mem _ ha') T' (hg₁.trans hg)
    simp only [List.forall_mem_cons]
    cases b with
    | true => simpa only [hb.mp rfl, true_and, if_true] using hrest
    | false =>
      refine L.return' hg₁.wellFormed ?_
      simp only [Bool.false_eq_true, false_iff] at hb ⊢
      exact fun hall => hb hall.1

theorem anyM_iff (l : List α) : ∀ {T}, T.WellFormed →
    (∀ a ∈ l, ∀ T', T.GrowsTo T' → L.holds (p a) T' fun _ b => b = true ↔ P a) →
    L.holds (l.anyM p) T fun _ b => b = true ↔ ∃ a ∈ l, P a := by
  induction l with
  | nil => exact fun hT _ => L.return' hT (by simp)
  | cons a l ih =>
    intro T hT hp
    rw [List.anyM_cons]
    refine L.bind (hp a (List.mem_cons_self ..) T (.refl hT)) fun b T₁ hg₁ hb => ?_
    have hrest := ih hg₁.wellFormed fun a' ha' T' hg =>
      hp a' (List.mem_cons_of_mem _ ha') T' (hg₁.trans hg)
    simp only [List.exists_mem_cons_iff]
    cases b with
    | true => exact L.return' hg₁.wellFormed ⟨fun _ => .inl (hb.mp rfl), fun _ => rfl⟩
    | false =>
      have hnot : ¬P a := fun ha => Bool.false_ne_true (hb.mpr ha)
      simpa only [hnot, false_or, Bool.false_eq_true, if_false] using hrest

/-- The loop of `filterM` puts what it keeps in front, the last one first. -/
private theorem filterAuxM_iff [LawfulMonad m] (l : List α) : ∀ {T} (kept : List α),
    T.WellFormed →
    (∀ a ∈ l, ∀ T', T.GrowsTo T' → L.holds (p a) T' fun _ b => b = true ↔ P a) →
    L.holds (l.filterAuxM p kept) T fun _ all => ∃ more : List α, all = more.reverse ++ kept ∧
      more.Sublist l ∧ ∀ a, a ∈ more ↔ a ∈ l ∧ P a := by
  induction l with
  | nil => exact fun kept hT _ => L.return' hT ⟨[], rfl, .refl _, by simp⟩
  | cons a l ih =>
    intro T kept hT hp
    rw [List.filterAuxM]
    refine L.bind (hp a (List.mem_cons_self ..) T (.refl hT)) fun b T₁ hg₁ hb => ?_
    refine L.mono (ih _ hg₁.wellFormed fun a' ha' T' hg =>
      hp a' (List.mem_cons_of_mem _ ha') T' (hg₁.trans hg)) fun T₂ all _ hall => ?_
    obtain ⟨more, rfl, hsub, hmore⟩ := hall
    cases b with
    | true =>
      refine ⟨a :: more, by simp, hsub.cons_cons a, fun a' => ?_⟩
      have ha := hb.mp rfl
      rw [List.mem_cons, List.mem_cons, hmore]
      grind
    | false =>
      refine ⟨more, rfl, hsub.cons a, fun a' => ?_⟩
      have ha : ¬P a := fun ha => Bool.false_ne_true (hb.mpr ha)
      rw [List.mem_cons, hmore]
      grind

theorem filterM_iff [LawfulMonad m] (l : List α) (hT : T.WellFormed)
    (hp : ∀ a ∈ l, ∀ T', T.GrowsTo T' → L.holds (p a) T' fun _ b => b = true ↔ P a) :
    L.holds (l.filterM p) T fun _ kept => kept.Sublist l ∧ ∀ a, a ∈ kept ↔ a ∈ l ∧ P a := by
  refine L.bind (L.filterAuxM_iff l [] hT hp) fun all T₁ hg hall => L.return' hg.wellFormed ?_
  obtain ⟨more, rfl, hsub, hmore⟩ := hall
  rw [List.append_nil, List.reverse_reverse]
  exact ⟨hsub, hmore⟩

theorem findM?_iff [LawfulMonad m] (l : List α) : ∀ {T}, T.WellFormed →
    (∀ a ∈ l, ∀ T', T.GrowsTo T' → L.holds (p a) T' fun _ b => b = true ↔ P a) →
    L.holds (l.findM? p) T fun _ o =>
      (∀ a, o = some a → a ∈ l ∧ P a) ∧ (o = none → ∀ a ∈ l, ¬P a) := by
  induction l with
  | nil =>
    refine fun hT _ => L.return' hT ⟨fun a h => ?_, fun _ a ha => ?_⟩
    · cases h
    · cases ha
  | cons a l ih =>
    intro T hT hp
    rw [List.findM?]
    refine L.bind (hp a (List.mem_cons_self ..) T (.refl hT)) fun b T₁ hg₁ hb => ?_
    cases b with
    | true =>
      refine L.return' hg₁.wellFormed ⟨fun a' ha' => ?_, fun h => by cases h⟩
      obtain rfl := Option.some.inj ha'
      exact ⟨List.mem_cons_self .., hb.mp rfl⟩
    | false =>
      have ha : ¬P a := fun ha => Bool.false_ne_true (hb.mpr ha)
      refine L.mono (ih hg₁.wellFormed fun a' ha' T' hg =>
        hp a' (List.mem_cons_of_mem _ ha') T' (hg₁.trans hg)) fun T₂ o _ ho => ⟨fun a' ha' => ?_,
          fun hnone => List.forall_mem_cons.mpr ⟨ha, ho.2 hnone⟩⟩
      obtain ⟨hmem, hP⟩ := ho.1 a' ha'
      exact ⟨List.mem_cons_of_mem _ hmem, hP⟩

theorem findM?_none (l : List α) : ∀ {T}, T.WellFormed →
    (∀ a ∈ l, ∀ T', T.GrowsTo T' → L.holds (p a) T' fun _ b => b = false) →
    L.holds (l.findM? p) T fun _ o => o = none := by
  induction l with
  | nil => exact fun hT _ => L.return' hT rfl
  | cons a l ih =>
    intro T hT hp
    rw [List.findM?]
    refine L.bind (hp a (List.mem_cons_self ..) T (.refl hT)) fun b T₁ hg₁ hb => ?_
    subst hb
    exact ih hg₁.wellFormed fun a' ha' T' hg =>
      hp a' (List.mem_cons_of_mem _ ha') T' (hg₁.trans hg)

end Decide

/-- A loop over elements, result by result. -/
theorem mapM_forall₂ [LawfulMonad m] {f : α → m β} {R : TypeTable → α → β → Prop}
    (hR : ∀ T T' a b, T ≤ T' → R T a b → R T' a b) (l : List α) : ∀ {T}, T.WellFormed →
    (∀ a ∈ l, ∀ T', T.GrowsTo T' → L.holds (f a) T' fun T' b => R T' a b) →
    L.holds (l.mapM f) T fun T' bs => List.Forall₂ (R T') l bs := by
  induction l with
  | nil =>
    intro T hT _
    rw [List.mapM_nil]
    exact L.return' hT .nil
  | cons a l ih =>
    intro T hT hf
    rw [List.mapM_cons]
    refine L.bind (hf a (List.mem_cons_self ..) T (.refl hT)) fun b T₁ hg₁ hb => ?_
    refine L.bind (ih hg₁.wellFormed fun a' ha' T' hg =>
      hf a' (List.mem_cons_of_mem _ ha') T' (hg₁.trans hg)) fun bs T₂ hg₂ hbs => ?_
    exact L.return' hg₂.wellFormed (.cons (hR T₁ T₂ a b hg₂.le hb) hbs)

end TableLogic

end ScriptTyping
