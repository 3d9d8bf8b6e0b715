import ScriptTyping.Proofs.Substitution.Rebuild

/-!
# Stability of substitution

Replacing type variables and `this` inside a type of the table by types of the table is stable and
gives a type of the table.

## Main definitions

* `Traversal.Within`, `Substitution.Within`, `Environment.Within` — the replacements belong to the
  table.

## Main results

* `Traversal.stable_apply` — the traversal.
* `Substitution.stable_instantiate`, `Environment.stable_substitute` — its two uses.
-/

namespace ScriptTyping

variable {T T' : TypeTable}

namespace Traversal

/-- All replacements of the traversal belong to the table. -/
structure Within (r : Traversal) (T : TypeTable) : Prop where
  resolve : ∀ d t, r.resolve d = some t → T.Has t
  thisType : ∀ t, r.thisType = some t → T.Has t

theorem Within.of_le {r : Traversal} (h : T ≤ T') (hr : r.Within T) : r.Within T' :=
  ⟨fun d t hd => (hr.resolve d t hd).of_le h, fun t ht => (hr.thisType t ht).of_le h⟩

theorem stable_bindThis {receiver : TypeId} (hT : T.WellFormed) (hr : T.Has receiver) :
    TypeM.Stable (bindThis receiver) T TypeTable.Has := by
  rw [bindThis]
  refine .lookup hr ?_
  split
  · exact .pure hT hr
  · exact TypeM.stable_intern_has hT (by simpa [TypeTable.HasAll, TypeData.parts] using hr)

variable {r : Traversal}

/-- Replacing inside a type of the table is stable. -/
theorem stable_apply (room : Nat) : ∀ {T : TypeTable} {t : TypeId}, T.WellFormed → r.Within T →
    T.Has t → TypeM.Stable (r.apply room t) T TypeTable.Has := by
  induction room with
  | zero => exact fun hT _ ht => .pure hT ht
  | succ room ih =>
    intro T t hT hr ht
    rw [apply_succ]
    split
    · exact .pure hT ht
    refine .lookup ht ?_
    obtain ⟨d, hd⟩ | hd | hvisit := visit_cases (T.lookup t)
    · rw [hd, visit]
      cases hresolve : r.resolve d with
      | none => exact .pure hT ht
      | some replacement =>
        have hreplacement := hr.resolve d replacement hresolve
        exact .ite (.pure hT ht) (.ite (ih hT hr hreplacement) (.pure hT hreplacement))
    · rw [hd, visit]
      cases hthis : r.thisType with
      | none => exact .pure hT ht
      | some receiver => exact stable_bindThis hT (hr.thisType receiver hthis)
    · rw [hvisit]
      refine (TypeData.stable_rebuild hT _ fun s hs T' hg => ih hg.wellFormed (hr.of_le hg.le)
        ((hT.hasAll_parts t s hs).of_le hg.le)).bind fun data' T' hg hdata => ?_
      exact .ite (.pure hg.wellFormed (ht.of_le hg.le))
        (TypeM.stable_intern_has hg.wellFormed hdata)

theorem stable_run {t : TypeId} (hT : T.WellFormed) (hr : r.Within T) (ht : T.Has t) :
    TypeM.Stable (r.run t) T TypeTable.Has :=
  stable_apply _ hT hr ht

end Traversal

namespace Substitution

/-- All replacements of the substitution belong to the table. -/
structure Within (s : Substitution) (T : TypeTable) : Prop where
  replacements : ∀ entry ∈ s.replacements, T.Has entry.2
  thisType : ∀ t, s.thisType = some t → T.Has t

theorem Within.of_le {s : Substitution} (h : T ≤ T') (hs : s.Within T) : s.Within T' :=
  ⟨fun e he => (hs.replacements e he).of_le h, fun t ht => (hs.thisType t ht).of_le h⟩

theorem Within.insert {s : Substitution} (hs : s.Within T) (d : DeclId) {t : TypeId}
    (ht : T.Has t) : (s.insert d t).Within T := by
  refine ⟨fun e he => ?_, hs.thisType⟩
  rcases List.mem_append.mp he with he | he
  · exact hs.replacements e (List.mem_filter.mp he).1
  · rw [List.mem_singleton.mp he]
    exact ht

theorem within_empty : ({} : Substitution).Within T :=
  ⟨fun _ h => (by cases h), fun _ h => (by cases h)⟩

theorem within_ofArgs (params : List DeclId) {args : List TypeId} (hargs : T.HasAll args) :
    (ofArgs params args).Within T := by
  have hpairs : ∀ p ∈ params.zip args, T.Has p.2 := fun p hp => hargs p.2 (List.of_mem_zip hp).2
  rw [ofArgs]
  generalize params.zip args = pairs at hpairs
  suffices ∀ s : Substitution, s.Within T →
      (pairs.foldl (fun s p => s.insert p.1 p.2) s).Within T from this _ within_empty
  induction pairs with
  | nil => exact fun s hs => hs
  | cons p pairs ih =>
    intro s hs
    exact ih (fun q hq => hpairs q (List.mem_cons_of_mem _ hq)) _
      (hs.insert p.1 (hpairs p (List.mem_cons_self ..)))

private theorem mem_of_lookup_eq_some {α β : Type} [BEq α] [LawfulBEq α] {a : α} {b : β}
    {l : List (α × β)} (h : l.lookup a = some b) : (a, b) ∈ l := by
  induction l with
  | nil => cases h
  | cons e l ih =>
    rw [List.lookup_cons] at h
    split at h
    · rename_i heq
      rw [eq_of_beq heq, ← Option.some.inj h]
      exact List.mem_cons_self ..
    · exact List.mem_cons_of_mem _ (ih h)

theorem Within.traversal {s : Substitution} (hs : s.Within T) : s.traversal.Within T :=
  ⟨fun _ _ h => hs.replacements _ (mem_of_lookup_eq_some h), hs.thisType⟩

/-- Applying a substitution of the table to a type of the table is stable. -/
theorem stable_instantiate {s : Substitution} {t : TypeId} (hT : T.WellFormed) (hs : s.Within T)
    (ht : T.Has t) : TypeM.Stable (s.instantiate t) T TypeTable.Has := by
  rw [instantiate]
  split
  · exact .pure hT ht
  · exact Traversal.stable_run hT hs.traversal ht

end Substitution

namespace Environment

/-- All types that the environment replaces something by belong to the table. -/
structure Within (env : Environment) (T : TypeTable) : Prop where
  substitution : ∀ d t, env.substitution? d = some t → T.Has t
  this : ∀ t, env.this? = some t → T.Has t

theorem Within.of_le {env : Environment} (h : T ≤ T') (he : env.Within T) : env.Within T' :=
  ⟨fun d t hd => (he.substitution d t hd).of_le h, fun t ht => (he.this t ht).of_le h⟩

theorem within_empty : empty.Within T :=
  ⟨fun _ _ h => (by cases h), fun _ h => (by cases h)⟩

/-- Applying an environment of the table to a type of the table is stable. -/
theorem stable_substitute {env : Environment} {t : TypeId} (hT : T.WellFormed)
    (he : env.Within T) (ht : T.Has t) : TypeM.Stable (env.substitute t) T TypeTable.Has := by
  rw [substitute]
  split
  · exact .pure hT ht
  · exact Traversal.stable_run hT ⟨he.substitution, he.this⟩ ht

end Environment

end ScriptTyping
