import ScriptTyping.Proofs.Table.Recall
import ScriptTyping.Proofs.Stability.Join

/-!
# What a computation over types returns

A stable computation has a property if it returns.  Here it is part of the property that it does:
from the table `T` the computation returns, the table grows, and the result has the property there.
The same is said of computations that collect dropped members, for every collection they start from.

## Main definitions

* `TypeM.Yields`, `ReportM.Yields` — the computation returns something with a property.

## Main results

* `TypeM.yieldsLogic`, `ReportM.yieldsLogic` — sequencing and loops.
-/

namespace ScriptTyping

variable {T : TypeTable}

namespace TypeM

variable {α β : Type} {x : TypeM α} {f : α → TypeM β} {V : TypeTable → α → Prop}
  {W : TypeTable → β → Prop}

/-- From the table the computation returns, the table grows, and the result has the property. -/
def Yields (x : TypeM α) (T : TypeTable) (V : TypeTable → α → Prop) : Prop :=
  ∃ a T', x T = .ok a T' ∧ T.GrowsTo T' ∧ V T' a

theorem Yields.of_eq {y : TypeM α} (heq : x T = y T) (h : Yields y T V) : Yields x T V := by
  rwa [Yields, heq]

theorem Yields.pure {a : α} (hT : T.WellFormed) (h : V T a) : Yields (pure a) T V :=
  ⟨a, T, rfl, .refl hT, h⟩

theorem Yields.bind (hx : Yields x T V)
    (hf : ∀ a T', T.GrowsTo T' → V T' a → Yields (f a) T' W) : Yields (x >>= f) T W := by
  obtain ⟨a, T₁, ha, hg₁, hv⟩ := hx
  obtain ⟨b, T₂, hb, hg₂, hw⟩ := hf a T₁ hg₁ hv
  exact ⟨b, T₂, bind_eq_ok.mpr ⟨a, T₁, ha, hb⟩, hg₁.trans hg₂, hw⟩

/-- Returning something as a property that sequencing respects. -/
def yieldsLogic : TableLogic TypeM where
  holds := Yields
  return' := .pure
  bind := .bind

theorem Yields.mono {V' : TypeTable → α → Prop} (hx : Yields x T V)
    (h : ∀ T' a, T.GrowsTo T' → V T' a → V' T' a) : Yields x T V' :=
  yieldsLogic.mono hx h

theorem Yields.lookup {f : TypeData → TypeM β} {t : TypeId} (h : Yields (f (T.lookup t)) T W) :
    Yields (TypeM.lookup t >>= f) T W := h

theorem Yields.get {f : TypeTable → TypeM β} (h : Yields (f T) T W) :
    Yields (MonadState.get >>= f) T W := h

theorem yields_intern (data : TypeData) (hT : T.WellFormed) (hdata : T.HasAll data.parts) :
    Yields (intern data) T fun T' t => T'.handles[data]? = some t :=
  ⟨(T.intern data).1, (T.intern data).2, rfl, TypeTable.growsTo_intern hT hdata,
    TypeTable.handles_intern T data⟩

end TypeM

namespace ReportM

variable {α β : Type} {x : ReportM α} {f : α → ReportM β} {V : TypeTable → α → Prop}
  {W : TypeTable → β → Prop}

/-- From the table the computation returns, whatever was collected before, the table grows, and the
result has the property. -/
def Yields (x : ReportM α) (T : TypeTable) (V : TypeTable → α → Prop) : Prop :=
  ∀ reports, ∃ a reports' T', x reports T = .ok (a, reports') T' ∧ T.GrowsTo T' ∧ V T' a

theorem Yields.pure {a : α} (hT : T.WellFormed) (h : V T a) : Yields (pure a) T V :=
  fun reports => ⟨a, reports, T, rfl, .refl hT, h⟩

theorem Yields.bind (hx : Yields x T V)
    (hf : ∀ a T', T.GrowsTo T' → V T' a → Yields (f a) T' W) : Yields (x >>= f) T W := by
  intro reports
  obtain ⟨a, reports₁, T₁, ha, hg₁, hv⟩ := hx reports
  obtain ⟨b, reports₂, T₂, hb, hg₂, hw⟩ := hf a T₁ hg₁ hv reports₁
  exact ⟨b, reports₂, T₂, TypeM.bind_eq_ok.mpr ⟨(a, reports₁), T₁, ha, hb⟩, hg₁.trans hg₂, hw⟩

theorem Yields.lift {z : TypeM α} (hz : TypeM.Yields z T V) : Yields (liftM z) T V := by
  intro reports
  obtain ⟨a, T', ha, hg, hv⟩ := hz
  exact ⟨a, reports, T', TypeM.bind_eq_ok.mpr ⟨a, T', ha, rfl⟩, hg, hv⟩

/-- Returning something as a property that sequencing respects. -/
def yieldsLogic : TableLogic ReportM where
  holds := Yields
  return' := .pure
  bind := .bind

theorem Yields.mono {V' : TypeTable → α → Prop} (hx : Yields x T V)
    (h : ∀ T' a, T.GrowsTo T' → V T' a → V' T' a) : Yields x T V' :=
  yieldsLogic.mono hx h

theorem Yields.get {f : TypeTable → ReportM β} (h : Yields (f T) T W) :
    Yields (liftM (MonadState.get : TypeM TypeTable) >>= f) T W := h

end ReportM

end ScriptTyping
