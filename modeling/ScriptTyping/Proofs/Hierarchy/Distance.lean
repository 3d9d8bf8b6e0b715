import Mathlib.Order.Lattice.Nat
import ScriptTyping.Proofs.Hierarchy.Closure

/-!
# The order of super types

The walk over super types meets nearer types before farther ones.  The distance of a type is the
least number of steps up that lead to it.  The walk counts these steps: a type that is met for the
first time stands one step above the type that is being visited, and the types that wait are never
more than one step apart.  So the count is the distance, also where the walk is cut off.

The order holds in every later table, as the steps up from what was visited stay as they are.

## Main definitions

* `World.Climbs`, `World.distance` — steps up, and the least number of them.
* `World.Leveled` — in the middle of the walk, with the steps counted.

## Main results

* `World.Leveled.distance_eq` — the count is the distance.
* `World.supertypes_breadthFirst` — the walk returns everything above a type in the order of
  distance.
-/

namespace ScriptTyping.World

variable {w : World} {T T' : TypeTable} {s t u : TypeId} {n : Nat} {visited queue all : List TypeId}

/-- So many steps lead up from the first type to the second. -/
inductive Climbs (w : World) (T : TypeTable) (t : TypeId) : Nat → TypeId → Prop
  | refl : Climbs w T t 0 t
  | tail {n : Nat} {u s : TypeId} (hclimb : Climbs w T t n u) (hstep : w.Above T u s) :
      Climbs w T t (n + 1) s

/-- The least number of steps that lead up from the first type to the second. -/
noncomputable def distance (w : World) (T : TypeTable) (t s : TypeId) : Nat :=
  sInf {n | w.Climbs T t n s}

theorem Climbs.of_le (hle : T ≤ T') (h : w.Climbs T t n s) : w.Climbs T' t n s := by
  induction h with
  | refl => exact .refl
  | tail _ hstep ih => exact .tail ih (hstep.of_le hle)

/-- In the middle of the walk, with a count of the steps up to each type that was met: the types
stand in the order of their counts, those that wait are at most one step below the others, and what
stands directly above a visited type was met at most one step later. -/
structure Leveled (w : World) (T : TypeTable) (t : TypeId) (level : TypeId → Nat)
    (visited queue : List TypeId) : Prop where
  start : t ∈ visited ++ queue ∧ level t = 0
  climbs : ∀ s ∈ visited ++ queue, w.Climbs T t (level s) s
  ordered : (visited ++ queue).Pairwise fun s u => level s ≤ level u
  span : ∀ u ∈ queue, ∀ s ∈ visited ++ queue, level s ≤ level u + 1
  closed : ∀ v ∈ visited, ∃ above, TypeM.Recalls (w.directSupertypes v) T above ∧
    ∀ s ∈ above, s ∈ visited ++ queue ∧ level s ≤ level v + 1

variable {level : TypeId → Nat}

theorem Leveled.of_le (hle : T ≤ T') (h : w.Leveled T t level visited queue) :
    w.Leveled T' t level visited queue where
  start := h.start
  climbs s hs := (h.climbs s hs).of_le hle
  ordered := h.ordered
  span := h.span
  closed v hv := by
    obtain ⟨above, habove, hmet⟩ := h.closed v hv
    exact ⟨above, habove.of_le hle, hmet⟩

theorem leveled_start (w : World) (T : TypeTable) (t : TypeId) :
    w.Leveled T t (fun _ => 0) [] [t] where
  start := ⟨List.mem_singleton_self t, rfl⟩
  climbs s hs := List.mem_singleton.mp hs ▸ .refl
  ordered := List.pairwise_singleton ..
  span _ _ _ _ := Nat.zero_le _
  closed _ hv := by cases hv

/-- A way up leads to a type that was met with a count no larger than its length, or it has passed
through a type that waits. -/
theorem Leveled.le_of_climbs (h : w.Leveled T t level visited queue) (hclimb : w.Climbs T t n s) :
    (s ∈ visited ++ queue ∧ level s ≤ n) ∨ ∃ u ∈ queue, level u + 1 ≤ n := by
  induction hclimb with
  | refl => exact .inl ⟨h.start.1, h.start.2.le⟩
  | @tail n u s _ hstep ih =>
    rcases ih with ⟨hu, hle⟩ | ⟨v, hv, hle⟩
    · rcases List.mem_append.mp hu with hu | hu
      · obtain ⟨above, habove, hmet⟩ := h.closed u hu
        obtain ⟨above', habove', hs⟩ := hstep
        obtain ⟨hmem, hlevel⟩ := hmet s (habove'.unique habove ▸ hs)
        exact .inl ⟨hmem, by omega⟩
      · exact .inr ⟨u, hu, by omega⟩
    · exact .inr ⟨v, hv, by omega⟩

/-- The count is the distance. -/
theorem Leveled.distance_eq (h : w.Leveled T t level visited queue) (hs : s ∈ visited ++ queue) :
    w.distance T t s = level s := by
  have hclimb := h.climbs s hs
  refine le_antisymm (Nat.sInf_le hclimb) (le_csInf ⟨_, hclimb⟩ fun n hn => ?_)
  rcases h.le_of_climbs hn with ⟨-, hle⟩ | ⟨u, hu, hle⟩
  · exact hle
  · exact (h.span u hu s hs).trans hle

theorem Leveled.pairwise_distance (h : w.Leveled T t level visited queue) :
    ((visited ++ queue).map (w.distance T t)).Pairwise (· ≤ ·) := by
  rw [List.map_congr_left fun s hs => h.distance_eq hs, List.pairwise_map]
  exact h.ordered

/-- Visiting the first type of the queue: what is new stands one step above it. -/
theorem Leveled.step {above new : List TypeId} (h : w.Leveled T t level visited (u :: queue))
    (habove : TypeM.Recalls (w.directSupertypes u) T above)
    (hnew : ∀ s ∈ new, s ∉ visited ++ u :: queue)
    (hmem : ∀ s, s ∈ visited ++ u :: queue ++ new ↔ s ∈ visited ++ u :: queue ∨ s ∈ above) :
    ∃ level', w.Leveled T t level' (visited ++ [u]) (queue ++ new) := by
  have hsplit : visited ++ [u] ++ (queue ++ new) = visited ++ u :: queue ++ new := by simp
  have hu : u ∈ visited ++ u :: queue := List.mem_append_right _ (List.mem_cons_self ..)
  have hspan (s : TypeId) (hs : s ∈ visited ++ u :: queue) : level s ≤ level u + 1 :=
    h.span u (List.mem_cons_self ..) s hs
  have hqueue (v : TypeId) (hv : v ∈ queue) : level u ≤ level v :=
    List.rel_of_pairwise_cons (List.pairwise_append.mp h.ordered).2.1 hv
  let level' (s : TypeId) : Nat := if s ∈ visited ++ u :: queue then level s else level u + 1
  have hold {s : TypeId} (hs : s ∈ visited ++ u :: queue) : level' s = level s := if_pos hs
  have hfresh {s : TypeId} (hs : s ∈ new) : level' s = level u + 1 := if_neg (hnew s hs)
  have hbound (s : TypeId) (hs : s ∈ visited ++ u :: queue ++ new) : level' s ≤ level u + 1 := by
    rcases List.mem_append.mp hs with hs | hs
    · exact hold hs ▸ hspan s hs
    · exact (hfresh hs).le
  refine ⟨level', ?_⟩
  constructor
  · rw [hsplit, hold h.start.1]
    exact ⟨List.mem_append_left _ h.start.1, h.start.2⟩
  · intro s hs
    rw [hsplit] at hs
    rcases List.mem_append.mp hs with hs' | hs'
    · exact hold hs' ▸ h.climbs s hs'
    · have hup : s ∈ above := ((hmem s).mp hs).resolve_left (hnew s hs')
      exact hfresh hs' ▸ (h.climbs u hu).tail ⟨above, habove, hup⟩
  · rw [hsplit]
    refine List.pairwise_append.mpr ⟨?_, ?_, fun s hs v hv => ?_⟩
    · exact h.ordered.imp_of_mem fun hs hv hle => by rwa [hold hs, hold hv]
    · exact List.pairwise_of_forall_mem_list fun s hs v hv => by rw [hfresh hs, hfresh hv]
    · exact hfresh hv ▸ hbound s (List.mem_append_left _ hs)
  · intro v hv s hs
    rw [hsplit] at hs
    have hlow : level u ≤ level' v := by
      rcases List.mem_append.mp hv with hv | hv
      · rw [hold (List.mem_append_right _ (List.mem_cons_of_mem _ hv))]
        exact hqueue v hv
      · rw [hfresh hv]
        exact Nat.le_succ _
    exact (hbound s hs).trans (Nat.succ_le_succ hlow)
  · intro v hv
    rw [hsplit]
    rcases List.mem_append.mp hv with hv | hv
    · obtain ⟨above', habove', hmet⟩ := h.closed v hv
      refine ⟨above', habove', fun s hs => ⟨List.mem_append_left _ (hmet s hs).1, ?_⟩⟩
      rw [hold (hmet s hs).1, hold (List.mem_append_left _ hv)]
      exact (hmet s hs).2
    · obtain rfl := List.mem_singleton.mp hv
      refine ⟨above, habove, fun s hs => ⟨(hmem s).mpr (.inr hs), ?_⟩⟩
      exact hold hu ▸ hbound s ((hmem s).mpr (.inr hs))

/-- The walk keeps count to its end. -/
theorem stable_supertypesFrom_leveled (rounds : Nat) : ∀ {T : TypeTable} {level : TypeId → Nat}
    {visited queue : List TypeId}, T.WellFormed → w.Within T → T.HasAll (visited ++ queue) →
    (visited ++ queue).Nodup → w.Leveled T t level visited queue →
    TypeM.Stable (w.supertypesFrom rounds visited queue) T fun T' all =>
      ∃ level visited queue, all = visited ++ queue ∧ w.Leveled T' t level visited queue := by
  induction rounds with
  | zero =>
    intro T level visited queue hT _ _ _ h
    exact .pure hT ⟨level, visited, queue, rfl, h⟩
  | succ rounds ih =>
    intro T level visited queue hT hw hhas hnodup h
    cases queue with
    | nil => exact .pure hT ⟨level, visited, [], (List.append_nil _).symm, h⟩
    | cons u queue =>
      rw [supertypesFrom]
      have hu : T.Has u := hhas u (List.mem_append_right _ (List.mem_cons_self ..))
      split
      · refine (stable_directSupertypes hT hw hu).recalls.bind fun above T₁ hg₁ habove => ?_
        obtain ⟨new, hfold, hnodup', hmem⟩ := foldl_addNew above (visited ++ u :: queue)
        have hsplit : visited ++ [u] ++ (queue ++ new) = visited ++ u :: queue ++ new := by simp
        have hdrop : (above.foldl addNew (visited ++ u :: queue)).drop (visited.length + 1) =
            queue ++ new := by
          rw [hfold, ← hsplit, List.drop_left' (by simp)]
        have hnew : ∀ s ∈ new, s ∉ visited ++ u :: queue := fun s hs hs' =>
          List.disjoint_of_nodup_append (hnodup' hnodup) hs' hs
        obtain ⟨level', h'⟩ := (h.of_le hg₁.le).step habove.2 hnew hmem
        have hhas' : T₁.HasAll (visited ++ [u] ++ (queue ++ new)) := fun s hs => by
          rw [hsplit] at hs
          rcases (hmem s).mp hs with hs | hs
          · exact (hhas s hs).of_le hg₁.le
          · exact habove.1 s hs
        dsimp only
        rw [hdrop]
        exact ih hg₁.wellFormed (hw.of_le hg₁.le) hhas' (hsplit ▸ hnodup' hnodup) h'
      · exact .pure hT ⟨level, visited, u :: queue, rfl, h⟩

/-- The walk over super types returns.  What it returns begins with the type and holds no type twice
and only types above it; in every later table these stand in the order of their distance, and if
there are fewer than the limit, nothing above the type is missing. -/
theorem supertypes_breadthFirst (hT : T.WellFormed) (hw : w.Within T) (ht : T.Has t) :
    ∃ all T', w.supertypes t T = .ok all T' ∧ T.GrowsTo T' ∧
      (∃ rest, all = t :: rest) ∧ all.Nodup ∧
      ∀ T'', T' ≤ T'' →
        (∀ s ∈ all, Relation.ReflTransGen (w.Above T'') t s) ∧
        (all.map (w.distance T'' t)).Pairwise (· ≤ ·) ∧
        (all.length < supertypeLimit →
          ∀ s, Relation.ReflTransGen (w.Above T'') t s → s ∈ all) := by
  obtain ⟨all, T', hrun⟩ := w.total_supertypes t T
  obtain ⟨hg, hclosure, -⟩ := stable_supertypes_isClosure hT hw ht all T' hrun
  obtain ⟨-, ⟨level, visited, queue, rfl, hlevel⟩, -⟩ :=
    stable_supertypesFrom_leveled supertypeLimit hT hw ht.hasAll (List.nodup_singleton t)
      (leveled_start w T t) all T' hrun
  refine ⟨_, T', hrun, hg, hclosure.head, hclosure.nodup, fun T'' hle => ?_⟩
  have hclosure' := hclosure.of_le hle
  exact ⟨hclosure'.sound, (hlevel.of_le hle).pairwise_distance,
    fun hlimit s hs => hclosure'.complete hlimit hs⟩

/-! ### A circle and a class that grows -/

/-- Two classes that extend each other, and a class with a type parameter that extends itself with
itself as the argument. -/
def circleWorld : World where
  declarations := ⟨#[
    { kind := .classType, name := .none, superType := some ⟨17⟩ },
    { kind := .classType, name := .none, superType := some ⟨16⟩ },
    { kind := .typeVariable, name := .none },
    { kind := .classType, name := .none, typeParams := [⟨3⟩], superType := some ⟨20⟩ }]⟩
  builtins := default
  fuel := 0

/-- The two classes, the type variable, and the class with one and with two layers around it. -/
def circleTable : TypeTable :=
  ((((TypeTable.initial.store (.nominal ⟨1⟩ [])).store (.nominal ⟨2⟩ [])).store
    (.typeVariable ⟨3⟩)).store (.nominal ⟨4⟩ [⟨18⟩])).store (.nominal ⟨4⟩ [⟨19⟩])

/-- The walk round the circle ends and misses nothing, and the walk up the class that grows ends. -/
theorem supertypes_breadthFirst_circle :
    circleWorld.supertypes ⟨16⟩ circleTable = .ok [⟨16⟩, ⟨17⟩] circleTable ∧
    (∀ s, Relation.ReflTransGen (circleWorld.Above circleTable) ⟨16⟩ s → s ∈ [⟨16⟩, ⟨17⟩]) ∧
    ∃ all T', circleWorld.supertypes ⟨19⟩ circleTable = .ok all T' ∧ all.Nodup ∧
      (all.map (circleWorld.distance T' ⟨19⟩)).Pairwise (· ≤ ·) := by
  have hT : circleTable.WellFormed := by
    rw [circleTable]
    iterate 5 refine TypeTable.wellFormed_store ?_ (by decide)
    exact TypeTable.wellFormed_initial
  have hw : circleWorld.Within circleTable := within_of_entries (by decide) (by decide)
  have hrun : circleWorld.supertypes ⟨16⟩ circleTable = .ok [⟨16⟩, ⟨17⟩] circleTable := rfl
  obtain ⟨all, T₁, hrun₁, -, -, -, h⟩ := supertypes_breadthFirst hT hw (t := ⟨16⟩) (by decide)
  obtain ⟨rfl, rfl⟩ := EStateM.Result.ok.inj (hrun.symm.trans hrun₁)
  obtain ⟨all, T₂, hrun₂, -, -, hnodup, h₂⟩ := supertypes_breadthFirst hT hw (t := ⟨19⟩) (by decide)
  exact ⟨hrun, (h _ le_rfl).2.2 (by decide), all, T₂, hrun₂, hnodup, (h₂ _ le_rfl).2.1⟩

end ScriptTyping.World
