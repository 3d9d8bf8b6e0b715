import ScriptTyping.Proofs.Hierarchy.Nominal
import ScriptTyping.Proofs.Termination.Hierarchy

/-!
# The closure of super types

The walk over super types is breadth first, keeps each type once and stops when it has met
`World.supertypeLimit` types.  As long as it has met fewer, nothing is missing: with a type it has
met everything above it.  This holds for all types and declarations, circles and references that
grow for ever included.

The step up from a type stores the super types with their type arguments applied.  What stands above
a type is therefore said of tables in which the step up stores nothing any more.

## Main definitions

* `World.Above` — the second type stands directly above the first.
* `World.IsClosure` — a list of everything above a type, as far as the limit allows.

## Main results

* `World.stable_supertypes_isClosure` — what the walk returns.
-/

namespace ScriptTyping.World

variable {w : World} {T T' : TypeTable} {s t : TypeId} {visited queue all : List TypeId}

/-- The second type stands directly above the first. -/
def Above (w : World) (T : TypeTable) (t s : TypeId) : Prop :=
  ∃ above, TypeM.Recalls (w.directSupertypes t) T above ∧ s ∈ above

theorem Above.of_le (hle : T ≤ T') (h : w.Above T t s) : w.Above T' t s := by
  obtain ⟨above, habove, hs⟩ := h
  exact ⟨above, habove.of_le hle, hs⟩

/-- All types directly above the type are in the list, and stored. -/
def ClosedAt (w : World) (T : TypeTable) (all : List TypeId) (t : TypeId) : Prop :=
  ∃ above, TypeM.Recalls (w.directSupertypes t) T above ∧ ∀ s ∈ above, s ∈ all

theorem ClosedAt.of_le (hle : T ≤ T') (h : w.ClosedAt T all t) : w.ClosedAt T' all t := by
  obtain ⟨above, habove, hall⟩ := h
  exact ⟨above, habove.of_le hle, hall⟩

theorem ClosedAt.mono {all' : List TypeId} (h : w.ClosedAt T all t) (hsub : ∀ s ∈ all, s ∈ all') :
    w.ClosedAt T all' t := by
  obtain ⟨above, habove, hall⟩ := h
  exact ⟨above, habove, fun s hs => hsub s (hall s hs)⟩

theorem ClosedAt.mem (h : w.ClosedAt T all t) (hs : w.Above T t s) : s ∈ all := by
  obtain ⟨above, habove, hall⟩ := h
  obtain ⟨above', habove', hs⟩ := hs
  have hrun := habove.run
  rw [habove'.run] at hrun
  injection hrun with heq
  exact hall s (heq ▸ hs)

/-- The list begins with the type, holds nothing twice and nothing but what stands above the type,
and misses nothing of it unless it is as long as the walk may get. -/
structure IsClosure (w : World) (T : TypeTable) (t : TypeId) (all : List TypeId) : Prop where
  has : T.HasAll all
  head : ∃ rest, all = t :: rest
  nodup : all.Nodup
  sound : ∀ s ∈ all, Relation.ReflTransGen (w.Above T) t s
  closed : all.length < supertypeLimit → ∀ s ∈ all, w.ClosedAt T all s

theorem IsClosure.of_le (hle : T ≤ T') (h : w.IsClosure T t all) : w.IsClosure T' t all where
  has := h.has.of_le hle
  head := h.head
  nodup := h.nodup
  sound s hs := (h.sound s hs).lift id fun _ _ habove => habove.of_le hle
  closed hlimit s hs := (h.closed hlimit s hs).of_le hle

theorem IsClosure.mem (h : w.IsClosure T t all) : t ∈ all := by
  obtain ⟨rest, rfl⟩ := h.head
  exact List.mem_cons_self ..

/-- Below the limit the list holds everything above the type. -/
theorem IsClosure.complete (h : w.IsClosure T t all) (hlimit : all.length < supertypeLimit)
    (hs : Relation.ReflTransGen (w.Above T) t s) : s ∈ all := by
  induction hs with
  | refl => exact h.mem
  | tail _ hstep ih => exact (h.closed hlimit _ ih).mem hstep

/-- What the walk returns when it goes on from visited and waiting types. -/
private theorem stable_supertypesFrom_closed (rounds : Nat) : ∀ {T : TypeTable}
    {visited queue : List TypeId}, T.WellFormed → w.Within T → T.HasAll (visited ++ queue) →
    (visited ++ queue).Nodup → (∀ t ∈ visited, w.ClosedAt T (visited ++ queue) t) →
    TypeM.Stable (w.supertypesFrom rounds visited queue) T fun T' all =>
      T'.HasAll all ∧ visited ++ queue <+: all ∧ all.Nodup ∧
      (∀ s ∈ all, ∃ t ∈ visited ++ queue, Relation.ReflTransGen (w.Above T') t s) ∧
      (supertypeLimit ≤ visited.length + rounds → all.length < supertypeLimit →
        ∀ s ∈ all, w.ClosedAt T' all s) := by
  induction rounds with
  | zero =>
    intro T visited queue hT _ hhas hnodup _
    refine .pure hT ⟨hhas, List.prefix_refl _, hnodup, fun s hs => ⟨s, hs, .refl⟩, ?_⟩
    intro hrounds hlimit
    rw [List.length_append] at hlimit
    omega
  | succ rounds ih =>
    intro T visited queue hT hw hhas hnodup hclosed
    cases queue with
    | nil =>
      rw [List.append_nil] at hhas hnodup hclosed
      rw [supertypesFrom, List.append_nil]
      exact .pure hT ⟨hhas, List.prefix_refl _, hnodup, fun s hs => ⟨s, hs, .refl⟩,
        fun _ _ => hclosed⟩
    | cons t queue =>
      rw [supertypesFrom]
      have ht : T.Has t := hhas t (List.mem_append_right _ (List.mem_cons_self ..))
      split
      · refine (stable_directSupertypes hT hw ht).recalls.bind fun above T₁ hg₁ habove => ?_
        obtain ⟨new, hfold, hnodup', hmem⟩ := foldl_addNew above (visited ++ t :: queue)
        have hdrop : (above.foldl addNew (visited ++ t :: queue)).drop (visited.length + 1) =
            queue ++ new := by
          rw [hfold, List.append_assoc, List.cons_append, List.append_cons,
            List.drop_left' (by simp)]
        have hsplit : visited ++ [t] ++ (queue ++ new) = visited ++ t :: queue ++ new := by
          simp only [List.append_assoc, List.cons_append, List.nil_append]
        have hall : T₁.HasAll (visited ++ [t] ++ (queue ++ new)) := fun s hs => by
          rw [hsplit] at hs
          rcases (hmem s).mp hs with hs | hs
          · exact (hhas s hs).of_le hg₁.le
          · exact habove.1 s hs
        dsimp only
        rw [hdrop]
        refine (ih hg₁.wellFormed (hw.of_le hg₁.le) hall (hsplit ▸ hnodup' hnodup)
          fun s hs => ?_).mono fun T₂ all hg₂ h => ?_
        · rw [hsplit]
          rcases List.mem_append.mp hs with hs | hs
          · exact ((hclosed s hs).of_le hg₁.le).mono fun u hu => List.mem_append_left _ hu
          · obtain rfl := List.mem_singleton.mp hs
            exact ⟨above, habove.2, fun u hu => (hmem u).mpr (.inr hu)⟩
        · obtain ⟨hhas₂, hprefix, hnodup₂, hsound, hclosed₂⟩ := h
          rw [hsplit] at hprefix hsound
          refine ⟨hhas₂, (List.prefix_append _ new).trans hprefix, hnodup₂, fun s hs => ?_,
            fun hrounds => hclosed₂ (by
              simp only [List.length_append, List.length_singleton]
              omega)⟩
          obtain ⟨u, hu, hreach⟩ := hsound s hs
          rcases (hmem u).mp hu with hu | hu
          · exact ⟨u, hu, hreach⟩
          · refine ⟨t, List.mem_append_right _ (List.mem_cons_self ..), ?_⟩
            exact .head ⟨above, habove.2.of_le hg₂.le, hu⟩ hreach
      · rename_i hfull
        refine .pure hT ⟨hhas, List.prefix_refl _, hnodup, fun s hs => ⟨s, hs, .refl⟩, ?_⟩
        intro _ hlimit
        simp only [List.length_append, List.length_cons] at hlimit
        omega

/-- What the walk over super types returns. -/
theorem stable_supertypes_isClosure (hT : T.WellFormed) (hw : w.Within T) (ht : T.Has t) :
    TypeM.Stable (w.supertypes t) T fun T' all => w.IsClosure T' t all := by
  refine (stable_supertypesFrom_closed supertypeLimit hT hw ht.hasAll (List.nodup_singleton t)
    fun s hs => by cases hs).mono fun T' all _ h => ?_
  obtain ⟨hhas, ⟨rest, hrest⟩, hnodup, hsound, hclosed⟩ := h
  refine ⟨hhas, ⟨rest, hrest.symm⟩, hnodup, fun s hs => ?_, hclosed (by simp)⟩
  obtain ⟨u, hu, hreach⟩ := hsound s hs
  obtain rfl := List.mem_singleton.mp hu
  exact hreach

/-- The walk returns, and from then on it is recalled. -/
theorem yields_supertypes_isClosure (hT : T.WellFormed) (hw : w.Within T) (ht : T.Has t) :
    TypeM.Yields (w.supertypes t) T fun T' all =>
      w.IsClosure T' t all ∧ TypeM.Recalls (w.supertypes t) T' all := by
  obtain ⟨all, T', hrun⟩ := w.total_supertypes t T
  obtain ⟨hg, hall, -⟩ := (stable_supertypes_isClosure hT hw ht).recalls all T' hrun
  exact ⟨all, T', hrun, hg, hall⟩

end ScriptTyping.World
