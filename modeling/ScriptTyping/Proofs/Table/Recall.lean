import Mathlib.Data.List.Forall2
import ScriptTyping.Proofs.Table.Stable

/-!
# What a computation returns from now on

A stable computation that returned once is *recalled* by every later table: it returns the same
again and stores nothing.  Loops over lists are recalled element by element, so what a loop did can
be taken apart afterwards and put together again in another order.

## Main definitions

* `TypeM.Recalls` — the table and every later one give the result without storing anything.

## Main results

* `TypeM.Stable.mapM_recalls`, `TypeM.Stable.findM?_recalls` — a loop that returned is recalled
  element by element.
* `TypeM.Recalls.mapM`, `TypeM.Recalls.findM?_none` — loops over elements that are recalled.
-/

namespace ScriptTyping.TypeM

variable {α β : Type} {x : TypeM α} {T T' : TypeTable} {V : TypeTable → α → Prop}

theorem ofOption_eq_ok {o : Option α} {a : α} :
    ofOption o T = .ok a T' ↔ o = some a ∧ T = T' := by
  cases o with
  | none =>
    simp only [reduceCtorEq, false_and, iff_false]
    exact fun h => by cases h
  | some b => rw [ofOption, pure_eq_ok, Option.some.injEq]

/-- From the table on, the computation returns `a` and stores nothing. -/
def Recalls (x : TypeM α) (T : TypeTable) (a : α) : Prop := ∀ T', T ≤ T' → x T' = .ok a T'

theorem Recalls.run {a : α} (h : Recalls x T a) : x T = .ok a T := h T le_rfl

theorem Recalls.of_le {a : α} (h : Recalls x T a) (hle : T ≤ T') : Recalls x T' a :=
  fun T'' hle' => h T'' (le_trans hle hle')

theorem Recalls.unique {a b : α} (ha : Recalls x T a) (hb : Recalls x T b) : a = b := by
  have hrun := ha.run
  rw [hb.run] at hrun
  injection hrun with h _
  exact h.symm

theorem Recalls.pure (a : α) : Recalls (Pure.pure a) T a := fun _ _ => rfl

theorem Recalls.bind {f : α → TypeM β} {a : α} {b : β} (hx : Recalls x T a)
    (hf : Recalls (f a) T b) : Recalls (x >>= f) T b :=
  fun T' hle => bind_eq_ok.mpr ⟨a, T', hx T' hle, hf T' hle⟩

/-- The row of a type stays. -/
theorem recalls_lookup {t : TypeId} (ht : T.Has t) : Recalls (lookup t) T (T.lookup t) :=
  fun T' hle => by
    rw [← TypeTable.lookup_of_le hle ht]
    rfl

/-- A value that has a handle is found. -/
theorem intern_of_handle {data : TypeData} {t : TypeId} (h : T.handles[data]? = some t) :
    intern data T = .ok t T := by
  change EStateM.Result.ok (T.intern data).1 (T.intern data).2 = _
  rw [TypeTable.intern_of_handle h]

/-- A new value is stored in the next row. -/
theorem intern_of_new {data : TypeData} (h : T.handles[data]? = none) :
    intern data T = .ok ⟨T.rows.size⟩ (T.store data) := by
  change EStateM.Result.ok (T.intern data).1 (T.intern data).2 = _
  rw [TypeTable.intern_of_new h]

theorem recalls_intern {data : TypeData} {t : TypeId} (h : T.handles[data]? = some t) :
    Recalls (intern data) T t :=
  fun _ hle => intern_of_handle (hle.handles _ _ h)

/-- A value is stored without change of the table only where it has its handle. -/
theorem recalls_intern_iff {data : TypeData} {t : TypeId} :
    Recalls (intern data) T t ↔ T.handles[data]? = some t := by
  refine ⟨fun h => ?_, recalls_intern⟩
  obtain ⟨hhandle, hsame⟩ : (T.intern data).1 = t ∧ (T.intern data).2 = T :=
    EStateM.Result.ok.inj h.run
  have hstored := TypeTable.handles_intern T data
  rwa [hhandle, hsame] at hstored

theorem Stable.recalls (hx : Stable x T V) :
    Stable x T fun T' a => V T' a ∧ Recalls x T' a :=
  hx.replays

/-! ### Loops over lists -/

theorem exists_of_mem_of_forall₂ {R : α → β → Prop} {l : List α} {bs : List β}
    (h : List.Forall₂ R l bs) {a : α} (ha : a ∈ l) : ∃ b ∈ bs, R a b := by
  induction h with
  | nil => cases ha
  | @cons a' b l bs hab _ ih =>
    rcases List.mem_cons.mp ha with rfl | ha
    · exact ⟨b, List.mem_cons_self .., hab⟩
    · obtain ⟨b', hb', hR⟩ := ih ha
      exact ⟨b', List.mem_cons_of_mem _ hb', hR⟩

/-- What every run of the body returns holds of all results of the loop. -/
theorem forall_mem_of_mapM_eq_ok {f : α → TypeM β} {P : β → Prop} {l : List α} :
    (∀ a ∈ l, ∀ T b T', f a T = .ok b T' → P b) →
    ∀ {T bs T'}, l.mapM f T = .ok bs T' → ∀ b ∈ bs, P b := by
  induction l with
  | nil =>
    intro _ T bs T' hrun b hb
    cases hrun
    cases hb
  | cons a l ih =>
    intro h T bs T' hrun
    rw [List.mapM_cons] at hrun
    obtain ⟨b, T₁, hb, hrun⟩ := bind_eq_ok.mp hrun
    obtain ⟨bs', T₂, hbs, hpure⟩ := bind_eq_ok.mp hrun
    obtain ⟨rfl, rfl⟩ := pure_eq_ok.mp hpure
    exact List.forall_mem_cons.mpr ⟨h a (List.mem_cons_self ..) T b T₁ hb,
      ih (fun a' ha' => h a' (List.mem_cons_of_mem _ ha')) hbs⟩

/-- A loop over elements that are recalled. -/
theorem Recalls.mapM {f : α → TypeM β} {l : List α} {bs : List β}
    (h : List.Forall₂ (fun a b => Recalls (f a) T b) l bs) : Recalls (l.mapM f) T bs := by
  induction h with
  | nil => exact .pure []
  | cons ha _ ih =>
    rw [List.mapM_cons]
    exact ha.bind (ih.bind (.pure _))

/-- A loop that returned is recalled element by element. -/
theorem Stable.mapM_recalls {f : α → TypeM β} (l : List α) :
    ∀ {T}, T.WellFormed → (∀ a ∈ l, ∀ T', T.GrowsTo T' → Stable (f a) T' fun _ _ => True) →
      Stable (l.mapM f) T fun T' bs => List.Forall₂ (fun a b => Recalls (f a) T' b) l bs := by
  induction l with
  | nil =>
    intro T hT _
    rw [List.mapM_nil]
    exact .pure hT .nil
  | cons a l ih =>
    intro T hT hf
    rw [List.mapM_cons]
    refine (hf a (List.mem_cons_self ..) T (.refl hT)).recalls.bind fun b T₁ hg₁ hb => ?_
    refine (ih hg₁.wellFormed fun a' ha' T' hg =>
      hf a' (List.mem_cons_of_mem _ ha') T' (hg₁.trans hg)).bind fun bs T₂ hg₂ hbs => ?_
    exact .pure hg₂.wellFormed (.cons (hb.2.of_le hg₂.le) hbs)

/-- A search among elements that are recalled not to be the right one. -/
theorem Recalls.findM?_none {p : α → TypeM Bool} {l : List α}
    (h : ∀ a ∈ l, Recalls (p a) T false) : Recalls (l.findM? p) T none := by
  induction l with
  | nil => exact .pure none
  | cons a l ih =>
    exact (h a (List.mem_cons_self ..)).bind (ih fun a' ha' => h a' (List.mem_cons_of_mem _ ha'))

/-- A search that found nothing is recalled to have seen nothing. -/
theorem Stable.findM?_recalls {p : α → TypeM Bool} (l : List α) :
    ∀ {T}, T.WellFormed → (∀ a ∈ l, ∀ T', T.GrowsTo T' → Stable (p a) T' fun _ _ => True) →
      Stable (l.findM? p) T fun T' o => o = none → ∀ a ∈ l, Recalls (p a) T' false := by
  induction l with
  | nil => exact fun hT _ => .pure hT fun _ _ h => by cases h
  | cons a l ih =>
    intro T hT hp
    rw [List.findM?]
    refine (hp a (List.mem_cons_self ..) T (.refl hT)).recalls.bind fun b T₁ hg₁ hb => ?_
    cases b with
    | true => exact .pure hg₁.wellFormed fun h => by cases h
    | false =>
      refine (ih hg₁.wellFormed fun a' ha' T' hg =>
        hp a' (List.mem_cons_of_mem _ ha') T' (hg₁.trans hg)).mono fun T₂ o hg₂ ho hnone => ?_
      exact List.forall_mem_cons.mpr ⟨hb.2.of_le hg₂.le, ho hnone⟩

end ScriptTyping.TypeM
