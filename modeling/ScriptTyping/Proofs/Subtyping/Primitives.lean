import ScriptTyping.Proofs.Lattice.NormalForm
import ScriptTyping.Proofs.Subtyping.Regular

/-!
# Primitive types

The primitive types with values of their own are not below one another, whatever the world declares
and the environment replaces.

## Main results

* `World.isSubtype_primitive` — the answer about two such types.
* `World.decides_primitives` — the answers as those of a relation that decides.
-/

namespace ScriptTyping

variable {w : World} {env : Environment} {T : TypeTable}

/-- The primitive types whose values are those of no other type. -/
def Primitive.isDiscrete : Primitive → Bool
  | number | string | boolean | symbol | void => true
  | any | null | undefined => false

theorem Primitive.typeId_injective : Function.Injective Primitive.typeId := by
  intro k l
  cases k <;> cases l <;> decide

/-- The rules refuse two different primitive types with values. -/
theorem Subtyping.plan_primitive (hinitial : .initial ≤ T) {k l : Primitive}
    (hk : k.isDiscrete = true) (hl : l.isDiscrete = true) :
    plan w k.typeId l.typeId T = .ok (.verdict false) T := by
  have hsentinel : sentinel? k.typeId l.typeId = none := by
    cases k <;> cases hk <;> cases l <;> cases hl <;> rfl
  have hreserved (m : Primitive) : w.resolveAlias m.typeId T = .ok m.typeId T :=
    resolveAlias_of_reserved hinitial (by cases m <;> decide)
  rw [plan_of_expansions hsentinel (hreserved k) (hreserved l), lookup_primitive hinitial,
    lookup_primitive hinitial]
  rfl

/-- Nothing is put in place of a primitive type. -/
theorem Environment.substitute_primitive (k : Primitive) (T : TypeTable) :
    env.substitute k.typeId T = .ok k.typeId T := by
  rw [Environment.substitute]
  split
  · rfl
  · cases k <;> rfl

namespace World

/-- Of the primitive types with values each is below itself only. -/
theorem isSubtype_primitive (hinitial : .initial ≤ T) {k l : Primitive} (hk : k.isDiscrete = true)
    (hl : l.isDiscrete = true) :
    w.isSubtype env k.typeId l.typeId T = .ok (decide (k = l)) T := by
  have hrun : ∃ g, Subtyping.run w k.typeId l.typeId T = .ok (decide (k = l), g) T := by
    change ∃ g, Subtyping.check w (RecursionProfile.subtypeCheck.maxDepth + 1) k.typeId l.typeId
      (.ofProfile .subtypeCheck) T = .ok (decide (k = l), g) T
    rw [Subtyping.check_succ]
    by_cases hkl : k = l
    · rw [if_pos (congrArg _ hkl), decide_eq_true hkl]
      exact ⟨_, rfl⟩
    · have hne : k.typeId ≠ l.typeId := fun heq => hkl (Primitive.typeId_injective heq)
      rw [if_neg hne, decide_eq_false hkl]
      have hrules (ask : Subtyping.Query) (g : PairGuard) :
          Subtyping.rules w ask k.typeId l.typeId g T = .ok (false, g) T :=
        Subtyping.rules_eq_ok.mpr ⟨_, T, Subtyping.plan_primitive hinitial hk hl, rfl⟩
      exact ⟨_, TypeM.bind_eq_ok.mpr ⟨(false, _), T, hrules _ _, rfl⟩⟩
  obtain ⟨g, hrun⟩ := hrun
  rw [isSubtype, TypeM.bind_of_ok (Environment.substitute_primitive k T),
    TypeM.bind_of_ok (Environment.substitute_primitive l T), TypeM.bind_of_ok hrun]
  rfl

/-- From every table with the intrinsic types on, the hierarchy decides about them: they are below
themselves only. -/
theorem decides_primitives (hinitial : .initial ≤ T) {ks : List Primitive}
    (hks : ∀ k ∈ ks, k.isDiscrete = true) :
    TypeRelation.Decides w.isSubtype env (ks.map Primitive.typeId) Eq T := by
  intro T₁ hg s hs t ht
  obtain ⟨k, hk, rfl⟩ := List.mem_map.mp hs
  obtain ⟨l, hl, rfl⟩ := List.mem_map.mp ht
  refine ⟨decide (k = l), T₁, isSubtype_primitive (le_trans hinitial hg.le) (hks k hk) (hks l hl),
    .refl hg.wellFormed, ?_⟩
  simp only [decide_eq_true_iff, Primitive.typeId_injective.eq_iff]

end World

end ScriptTyping
