import ScriptTyping.Proofs.Stability.Hierarchy
import ScriptTyping.Proofs.Table.Total

/-!
# Termination of the walks over the hierarchy

Substitution, the expansion of aliases and the collection of super types return from every table,
whatever circles the declarations run in.  The upper bound of a type exists in every table whose
rows mention earlier rows only.  Whether a type is an object type is decided by a walk that nothing
bounds; more fuel does not change its answer.

## Main results

* `Substitution.total_instantiate`, `World.total_resolveAlias`, `World.total_supertypes` — the
  bounded walks return.
* `World.supertypesFrom_of_le` — the walk over super types ends before its rounds do.
* `TypeTable.exists_upperBound` — upper bounds exist.
* `World.isObjectLikeFrom_mono` — more fuel does not change whether a type is an object type.
-/

namespace ScriptTyping

open TypeM (Total)

/-! ### Substitution -/

namespace Traversal

theorem total_bindThis (receiver : TypeId) : Total (bindThis receiver) := by
  refine (TypeM.total_lookup receiver).bind fun data => ?_
  split
  · exact .pure receiver
  · exact TypeM.total_intern _

theorem total_apply (r : Traversal) (room : Nat) (t : TypeId) : Total (r.apply room t) := by
  induction room generalizing t with
  | zero => exact .pure t
  | succ room ih =>
    rw [apply_succ]
    refine .ite (.pure t) ((TypeM.total_lookup t).bind fun data => ?_)
    obtain ⟨d, rfl⟩ | rfl | hvisit := visit_cases data
    · rw [visit]
      cases r.resolve d with
      | none => exact .pure t
      | some replacement => exact .ite (.pure t) (.ite (ih replacement) (.pure replacement))
    · rw [visit]
      cases r.thisType with
      | none => exact .pure t
      | some receiver => exact total_bindThis receiver
    · rw [hvisit]
      exact (TypeData.total_rebuild ih data).bind fun data' => .ite (.pure t) (TypeM.total_intern _)

end Traversal

theorem Substitution.total_instantiate (s : Substitution) (t : TypeId) :
    Total (s.instantiate t) := by
  rw [instantiate]
  split
  · exact .pure t
  · exact Traversal.total_apply _ _ t

theorem Environment.total_substitute (env : Environment) (t : TypeId) :
    Total (env.substitute t) := by
  rw [substitute]
  split
  · exact .pure t
  · exact Traversal.total_apply _ _ t

namespace World

variable (w : World)

/-! ### Aliases and super types -/

theorem total_expandAlias? (t : TypeId) : Total (w.expandAlias? t) := by
  rw [expandAlias?]
  refine (TypeM.total_lookup t).bind fun data => ?_
  split
  · split
    · split
      · exact (Substitution.total_instantiate _ _).bind fun _ => .pure _
      · exact .pure none
    · exact .pure none
  · exact .pure none

theorem total_resolveAliasFrom (rounds : Nat) (t : TypeId) :
    Total (w.resolveAliasFrom rounds t) := by
  induction rounds generalizing t with
  | zero => exact .pure t
  | succ rounds ih =>
    rw [resolveAliasFrom]
    refine (w.total_expandAlias? t).bind fun o => ?_
    cases o with
    | none => exact .pure t
    | some aliased => exact ih aliased

theorem total_resolveAlias (t : TypeId) : Total (w.resolveAlias t) :=
  w.total_resolveAliasFrom _ t

theorem total_literalBase (value : LiteralValue) : Total (literalBase value) := by
  cases value with
  | enumMember => exact TypeM.total_intern _
  | _ => exact .pure _

theorem total_directSupertypes (t : TypeId) : Total (w.directSupertypes t) := by
  have hclauses (decl : DeclId) (info : Declaration) (args : List TypeId) :
      Total (w.clauseSupertypes decl info args) :=
    (Total.mapM (Substitution.total_instantiate _) _).bind fun _ =>
      (Total.mapM (Substitution.total_instantiate _) _).bind fun _ => .pure _
  rw [directSupertypes]
  refine (TypeM.total_lookup t).bind fun data => ?_
  split
  · split
    · exact .pure []
    · split
      · exact hclauses _ _ _
      · exact hclauses _ _ _
      · exact (TypeM.total_intern _).bind fun _ => .pure _
      · exact (w.total_resolveAlias t).bind fun _ => .pure _
      · exact .pure _
      · exact .pure _
  · exact (total_literalBase _).bind fun _ => .pure _
  all_goals exact .pure _

theorem total_supertypesFrom (rounds : Nat) (visited queue : List TypeId) :
    Total (w.supertypesFrom rounds visited queue) := by
  induction rounds generalizing visited queue with
  | zero => exact .pure _
  | succ rounds ih =>
    cases queue with
    | nil => exact .pure visited
    | cons t queue =>
      rw [supertypesFrom]
      split
      · exact (w.total_directSupertypes t).bind fun _ => ih _ _
      · exact .pure _

theorem total_supertypes (t : TypeId) : Total (w.supertypes t) :=
  w.total_supertypesFrom _ [] [t]

theorem total_findInstantiation? (t : TypeId) (decl : DeclId) :
    Total (w.findInstantiation? t decl) :=
  (w.total_supertypes t).bind fun _ => .get fun _ => .pure _

/-- The walk over super types ends before its rounds do: each round visits one type, and the walk
stops when it has met `supertypeLimit` of them. -/
theorem supertypesFrom_of_le {rounds rounds' : Nat} {visited queue : List TypeId}
    (h : supertypeLimit ≤ visited.length + rounds) (hle : rounds ≤ rounds') :
    w.supertypesFrom rounds' visited queue = w.supertypesFrom rounds visited queue := by
  induction rounds generalizing rounds' visited queue with
  | zero =>
    cases rounds' with
    | zero => rfl
    | succ rounds' =>
      cases queue with
      | nil => simp [supertypesFrom]
      | cons t queue =>
        have hfull : ¬visited.length + queue.length + 1 < supertypeLimit := by omega
        simp only [supertypesFrom, if_neg hfull]
  | succ rounds ih =>
    obtain ⟨k, rfl⟩ : ∃ k, rounds' = k + 1 := ⟨rounds' - 1, by omega⟩
    cases queue with
    | nil => rfl
    | cons t queue =>
      rw [supertypesFrom, supertypesFrom]
      split
      · refine bind_congr fun above => ih ?_ (by omega)
        rw [List.length_append, List.length_singleton]
        omega
      · rfl

end World

/-! ### Upper bounds -/

/-- In a table whose rows mention earlier rows only, the bounds of a type come to an end. -/
theorem TypeTable.exists_boundFrom {T : TypeTable} (hT : T.WellFormed) (hdesc : T.Descending)
    {t : TypeId} (ht : T.Has t) {fuel : Nat} (hfuel : t.index < fuel) :
    ∃ b, T.boundFrom? fuel t = some b := by
  induction fuel generalizing t with
  | zero => omega
  | succ fuel ih =>
    have hstep (bound : TypeId) (hb : bound ∈ (T.lookup t).parts) :
        ∃ b, T.boundFrom? fuel bound = some b := by
      have hlt := hdesc t _ ht.lookup? bound hb
      exact ih (hT.hasAll_parts t bound hb) (by omega)
    rw [boundFrom?]
    split
    · rename_i hd
      exact hstep _ (by simp [hd, TypeData.parts])
    · rename_i hd
      exact hstep _ (by simp [hd, TypeData.parts])
    · exact ⟨_, rfl⟩
    · exact ⟨_, rfl⟩

theorem TypeTable.exists_upperBound {T : TypeTable} (hT : T.WellFormed) (hdesc : T.Descending)
    {t : TypeId} (ht : T.Has t) : ∃ b, T.upperBound? t = some b :=
  exists_boundFrom hT hdesc ht ht

/-! ### Object types -/

/-- More fuel does not change whether a type is an object type. -/
theorem World.isObjectLikeFrom_mono (w : World) {n m : Nat} (hnm : n ≤ m) (t : TypeId) :
    TypeM.Approx (w.isObjectLikeFrom n t) (w.isObjectLikeFrom m t) := by
  induction n generalizing m t with
  | zero => exact TypeM.approx_diverge _
  | succ n ih =>
    obtain ⟨m, rfl⟩ : ∃ k, m = k + 1 := ⟨m - 1, by omega⟩
    have ih := @ih m (by omega)
    rw [isObjectLikeFrom, isObjectLikeFrom]
    refine (TypeM.Approx.refl _).bind fun data => ?_
    split
    · split
      · refine (TypeM.Approx.refl _).bind fun resolved => ?_
        split
        · exact .refl _
        · exact ih resolved
      · exact .refl _
      · exact .refl _
    · exact .refl _
    · exact .refl _
    · exact .refl _
    · exact .refl _
    · dsimp only
      split
      · exact .refl _
      · exact ih _
    · exact .anyM ih _
    · exact .allM ih _
    · exact (TypeM.Approx.refl _).bind ih
    all_goals exact .refl _

namespace World

variable {w : World} {T : TypeTable} {t : TypeId}

/-- The type is a reference to an alias. -/
def IsAliasReference (w : World) (T : TypeTable) (t : TypeId) : Prop :=
  ∃ decl args, T.lookup t = .nominal decl args ∧ w.declarations.kind? decl = some .typeAlias

/-- The same declarations with another depth for the unbounded walks. -/
def withFuel (w : World) (n : Nat) : World := { w with fuel := n }

theorem Within.withFuel (hw : w.Within T) (n : Nat) : (w.withFuel n).Within T :=
  ⟨hw.types, hw.builtins⟩

theorem resolveAlias_withFuel (w : World) (n : Nat) (t : TypeId) :
    (w.withFuel n).resolveAlias t = w.resolveAlias t := by
  suffices ∀ rounds t, (w.withFuel n).resolveAliasFrom rounds t = w.resolveAliasFrom rounds t from
    this _ t
  intro rounds
  induction rounds with
  | zero => exact fun _ => rfl
  | succ rounds ih =>
    intro t
    have hexpand : (w.withFuel n).expandAlias? t = w.expandAlias? t := rfl
    rw [resolveAliasFrom, resolveAliasFrom, hexpand]
    refine bind_congr fun o => ?_
    cases o with
    | none => rfl
    | some aliased => exact ih aliased

theorem directSupertypes_withFuel (w : World) (n : Nat) (t : TypeId) :
    (w.withFuel n).directSupertypes t = w.directSupertypes t := by
  unfold directSupertypes
  simp only [resolveAlias_withFuel]
  rfl

theorem supertypes_withFuel (w : World) (n : Nat) (t : TypeId) :
    (w.withFuel n).supertypes t = w.supertypes t := by
  suffices ∀ rounds visited queue, (w.withFuel n).supertypesFrom rounds visited queue =
      w.supertypesFrom rounds visited queue from this _ [] [t]
  intro rounds
  induction rounds with
  | zero => exact fun _ _ => rfl
  | succ rounds ih =>
    intro visited queue
    cases queue with
    | nil => rfl
    | cons t queue => simp only [supertypesFrom, directSupertypes_withFuel, ih]

theorem findInstantiation?_withFuel (w : World) (n : Nat) (t : TypeId) (decl : DeclId) :
    (w.withFuel n).findInstantiation? t decl = w.findInstantiation? t decl := by
  rw [findInstantiation?, findInstantiation?, supertypes_withFuel]

theorem isObjectLike_withFuel (w : World) (n : Nat) (t : TypeId) :
    (w.withFuel n).isObjectLike t = w.isObjectLikeFrom n t := by
  suffices ∀ fuel t, (w.withFuel n).isObjectLikeFrom fuel t = w.isObjectLikeFrom fuel t from
    this n t
  intro fuel
  induction fuel with
  | zero => exact fun _ => rfl
  | succ fuel ih =>
    intro t
    have ih : (w.withFuel n).isObjectLikeFrom fuel = w.isObjectLikeFrom fuel := funext ih
    simp only [isObjectLikeFrom, resolveAlias_withFuel, ih]
    rfl

end World

end ScriptTyping
