import ScriptTyping.Proofs.Stability.Join

/-!
# Short forms and joins under any subtype relation

The short form of a composite and the join of types ask a subtype relation that is handed to them.
Whatever relation that is, if its own answers only add descending rows to the table, so do the short
form and the join.  Nothing is said about what the relation answers, so the results may differ from
one run to the next; each of them is a type of the table.

## Main definitions

* `TypeM.Keeps`, `ReportM.Keeps` — growth and a property of the result, if there is one.
* `TypeRelation.Keeps` — the answers of a relation only add descending rows.

## Main results

* `World.keeps_isSubtype` — the subtype relation of a world is such a relation.
* `TypeRelation.Keeps.simplify`, `TypeRelation.Keeps.join` — short form and join.
-/

namespace ScriptTyping

variable {w : World} {env : Environment} {T T' : TypeTable}

namespace TypeM

variable {α β : Type} {x : TypeM α} {f : α → TypeM β} {V : TypeTable → α → Prop}
  {W : TypeTable → β → Prop}

/-- If the computation returns from `T`, then the table grows and the result has the property. -/
def Keeps (x : TypeM α) (T : TypeTable) (V : TypeTable → α → Prop) : Prop :=
  ∀ a T', x T = .ok a T' → T.GrowsTo T' ∧ V T' a

theorem Stable.keeps (hx : Stable x T V) : Keeps x T V :=
  fun a T' ha => ⟨(hx a T' ha).1, (hx a T' ha).2.1⟩

theorem Keeps.pure {a : α} (hT : T.WellFormed) (h : V T a) : Keeps (pure a) T V :=
  (Stable.pure hT h).keeps

theorem Keeps.bind (hx : Keeps x T V)
    (hf : ∀ a T', T.GrowsTo T' → V T' a → Keeps (f a) T' W) : Keeps (x >>= f) T W := by
  intro b T' hb
  obtain ⟨a, T₁, ha, hfa⟩ := bind_eq_ok.mp hb
  obtain ⟨hg₁, hv⟩ := hx a T₁ ha
  obtain ⟨hg₂, hw⟩ := hf a T₁ hg₁ hv b T' hfa
  exact ⟨hg₁.trans hg₂, hw⟩

/-- The property may be shown of a part of the result. -/
theorem Keeps.of_map {g : α → β} (h : Keeps (g <$> x) T W) :
    Keeps x T fun T' a => W T' (g a) := by
  intro a T' ha
  refine h (g a) T' ?_
  rw [map_eq_pure_bind]
  exact bind_eq_ok.mpr ⟨a, T', ha, rfl⟩

/-- Growth as a property that sequencing respects. -/
def keepsLogic : TableLogic TypeM where
  holds := Keeps
  return' := .pure
  bind := .bind

end TypeM

namespace ReportM

variable {α β : Type} {x : ReportM α} {f : α → ReportM β} {V : TypeTable → α → Prop}
  {W : TypeTable → β → Prop}

/-- If the computation returns from `T`, whatever was collected before, then the table grows and the
result has the property. -/
def Keeps (x : ReportM α) (T : TypeTable) (V : TypeTable → α → Prop) : Prop :=
  ∀ reports, TypeM.Keeps (x reports) T fun T' a => V T' a.1

theorem Keeps.pure {a : α} (hT : T.WellFormed) (h : V T a) : Keeps (pure a) T V :=
  fun reports => TypeM.Keeps.pure (a := (a, reports)) hT h

theorem Keeps.bind (hx : Keeps x T V)
    (hf : ∀ a T', T.GrowsTo T' → V T' a → Keeps (f a) T' W) : Keeps (x >>= f) T W :=
  fun reports => (hx reports).bind fun a T' hg hv => hf a.1 T' hg hv a.2

theorem Keeps.lift {z : TypeM α} (hz : TypeM.Keeps z T V) : Keeps (liftM z) T V :=
  fun _ => hz.bind fun _ _ hg hv => .pure hg.wellFormed hv

theorem Keeps.collect {z : TypeM (α × List Redundancy)} (hz : TypeM.Keeps (Prod.fst <$> z) T V) :
    Keeps (ReportM.collect z) T V :=
  Keeps.bind (.lift hz.of_map) fun _ _ hg hv _ => TypeM.Keeps.pure hg.wellFormed hv

/-- Growth as a property that sequencing respects. -/
def keepsLogic : TableLogic ReportM where
  holds := Keeps
  return' := .pure
  bind := .bind

end ReportM

/-- The answers of a relation about types of the table only add descending rows to it. -/
def TypeRelation.Keeps (rel : TypeRelation) (w : World) (env : Environment) : Prop :=
  ∀ T s t, w.Setting env T → T.Has s → T.Has t →
    ∀ answer T', rel env s t T = .ok answer T' → T.GrowsTo T'

/-- The subtype relation of a world only adds descending rows. -/
theorem World.keeps_isSubtype (w : World) (env : Environment) :
    TypeRelation.Keeps w.isSubtype w env :=
  fun _ _ _ h hs ht answer T' hrun => (h.stable_isSubtype hs ht answer T' hrun).1

namespace TypeRelation.Keeps

variable {rel : TypeRelation} (hrel : rel.Keeps w env)

/-- Growth as a property that the answers of the relation have. -/
def answers (hrel : rel.Keeps w env) : RelationLogic rel w env where
  toTableLogic := TypeM.keepsLogic
  stable hx := hx.keeps
  get _ h := h
  answer h hs ht answer T' hrun := ⟨hrel _ _ _ h hs ht answer T' hrun, trivial⟩

/-- Growth of computations that collect dropped members. -/
def reports (hrel : rel.Keeps w env) : JoinLogic rel w env where
  toTableLogic := ReportM.keepsLogic
  base := hrel.answers
  lift := .lift
  collect := .collect
  get _ h := h

include hrel

theorem simplify (h : w.Setting env T) {t : TypeId} (ht : T.Has t) :
    TypeM.Keeps (ScriptTyping.simplify rel w env t) T fun T' short => T'.Has short.1 :=
  TypeM.Keeps.of_map (hrel.answers.simplify h ht)

theorem join (h : w.Setting env T) {types : List TypeId} (htypes : T.HasAll types) :
    TypeM.Keeps (ScriptTyping.join rel w env types) T fun T' joined => T'.Has joined.1 :=
  hrel.reports.joinFrom _ T types h htypes []

end TypeRelation.Keeps

end ScriptTyping
