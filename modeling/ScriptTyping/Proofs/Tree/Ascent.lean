import ScriptTyping.Tree.Navigation
import ScriptTyping.Tree.Pattern

/-!
# Walking up a tree

The walks from a node to the nodes around it are given as many steps as the tree has nodes.  In a
tree whose parent links climb, they never use them up, so each walk satisfies the equation that one
expects of it: it looks at the parent, and goes on from there or stops.

A tree that is put together by adding nodes is *proper*: the parent of a node is a later one that
has the node among its children.

## Main definitions

* `Tree.Proper` — parent links lead to later nodes that hold the node.
* `Tree.Climbs` — parent links climb in a bounded rank.

## Main results

* `Tree.Proper.add` — adding a node keeps a tree proper.
* `Tree.Climbs.upward` — induction along parent links.
* `Tree.Climbs.findAncestor?_eq`, `Tree.Climbs.skipParensUp_eq`, `Tree.Climbs.patternPathFrom_eq` —
  the walks, one step at a time.
-/

namespace ScriptTyping.Tree

/-- The parent of a node is a later node that has the node among its children. -/
structure Proper (tree : Tree) : Prop where
  later : ∀ {n m}, tree.parent? n = some m → n.index < m.index
  holds : ∀ {n m}, tree.parent? n = some m → ∃ c, tree.content? m = some c ∧ some n ∈ c.slots

/-- Parent links climb in a rank that stays below the number of nodes. -/
structure Climbs (tree : Tree) (rank : NodeId → Nat) : Prop where
  step : ∀ {n m}, tree.parent? n = some m → rank n < rank m ∧ rank m < tree.size

variable {tree : Tree} {rank : NodeId → Nat}

/-- A node with a payload has a place in the tree. -/
theorem index_lt_of_content? {n : NodeId} {c : Content} (h : tree.content? n = some c) :
    n.index < tree.size := by
  obtain ⟨node, hnode, -⟩ := Option.map_eq_some_iff.mp h
  exact (Array.getElem?_eq_some_iff.mp hnode).choose

theorem Proper.climbs (h : tree.Proper) : tree.Climbs NodeId.index where
  step hm := by
    obtain ⟨c, hc, -⟩ := h.holds hm
    exact ⟨h.later hm, index_lt_of_content? hc⟩

/-! ### Trees put together by adding nodes -/

theorem proper_empty : Tree.empty.Proper where
  later h := by simp [parent?, get?, Tree.empty] at h
  holds h := by simp [parent?, get?, Tree.empty] at h

/-- Adopting sets the parents of the children that exist, and changes nothing else. -/
theorem getElem?_foldl_adopt (parent : NodeId) (children : List NodeId) (nodes : Array Node)
    (i : Nat) : (children.foldl (adopt parent) nodes)[i]? = nodes[i]?.map fun node =>
      if ⟨i⟩ ∈ children then { node with parent := some parent } else node := by
  induction children generalizing nodes with
  | nil => simp
  | cons child children ih =>
    rw [List.foldl_cons, ih, adopt, Array.getElem?_modify]
    by_cases hchild : child.index = i
    · have hself : (⟨i⟩ : NodeId) = child := hchild ▸ rfl
      rw [if_pos hchild, Option.map_map]
      congr 1
      funext node
      simp [hself]
    · have hother : (⟨i⟩ : NodeId) ≠ child := fun h => hchild (h ▸ rfl)
      rw [if_neg hchild]
      simp [hother]

theorem size_foldl_adopt (parent : NodeId) (children : List NodeId) (nodes : Array Node) :
    (children.foldl (adopt parent) nodes).size = nodes.size := by
  induction children generalizing nodes with
  | nil => rfl
  | cons child children ih => rw [List.foldl_cons, ih, adopt, Array.size_modify]

/-- The nodes after adding one. -/
theorem get?_add (tree : Tree) (content : Content) (n : NodeId) :
    (tree.add content).2.get? n =
      if n.index = tree.size then some ⟨content, none⟩
      else (tree.get? n).map fun node =>
        if n ∈ content.children then { node with parent := some ⟨tree.size⟩ } else node := by
  have hget : (tree.add content).2.get? n =
      ((content.children.foldl (adopt ⟨tree.size⟩) tree.nodes).push ⟨content, none⟩)[n.index]? :=
    rfl
  rw [hget, Array.getElem?_push, size_foldl_adopt, getElem?_foldl_adopt]
  rfl

/-- Adding a node keeps a tree proper. -/
theorem Proper.add (h : tree.Proper) (content : Content) : (tree.add content).2.Proper := by
  have hcontent {m : NodeId} {c : Content} (hm : tree.content? m = some c) :
      (tree.add content).2.content? m = some c := by
    have hlt := index_lt_of_content? hm
    rw [content?, get?_add, if_neg (Nat.ne_of_lt hlt), Option.map_map]
    rw [content?] at hm
    rw [← hm]
    congr 1
    funext node
    dsimp only [Function.comp_apply]
    split <;> rfl
  -- A parent link is one of the old ones, or that of a child to the new node.
  have hparent {n m : NodeId} (hm : (tree.add content).2.parent? n = some m) :
      tree.parent? n = some m ∨ n.index < tree.size ∧ n ∈ content.children ∧ m = ⟨tree.size⟩ := by
    rw [parent?, get?_add] at hm
    split at hm
    · cases hm
    · obtain ⟨_, hnode, hm⟩ := Option.bind_eq_some_iff.mp hm
      obtain ⟨node, hget, rfl⟩ := Option.map_eq_some_iff.mp hnode
      split at hm
      · refine .inr ⟨?_, ‹_›, (Option.some.inj hm).symm⟩
        exact (Array.getElem?_eq_some_iff.mp hget).choose
      · exact .inl (by rw [parent?, hget]; exact hm)
  constructor
  · intro n m hm
    rcases hparent hm with hold | ⟨hlt, -, rfl⟩
    · exact h.later hold
    · exact hlt
  · intro n m hm
    rcases hparent hm with hold | ⟨-, hchild, rfl⟩
    · obtain ⟨c, hc, hslot⟩ := h.holds hold
      exact ⟨c, hcontent hc, hslot⟩
    · refine ⟨content, ?_, ?_⟩
      · rw [content?, get?_add, if_pos rfl, Option.map_some]
      · obtain ⟨_, hslot, rfl⟩ := List.mem_filterMap.mp hchild
        exact hslot

/-! ### Walks -/

/-- A walk up from an element of a pattern ends at a binding. -/
theorem binding_of_patternPathFrom {fuel : Nat} {element : NodeId} {steps : List PatternStep}
    {path : PatternPath} (h : tree.patternPathFrom fuel element steps = some path) :
    ∃ pattern initializer,
      tree.content? path.binding = some (.variableBinding pattern initializer) := by
  induction fuel generalizing element steps with
  | zero => cases h
  | succ fuel ih =>
    obtain ⟨⟨step, pattern⟩, -, h⟩ := Option.bind_eq_some_iff.mp h
    obtain ⟨owner, -, h⟩ := Option.bind_eq_some_iff.mp h
    obtain ⟨c, hc, h⟩ := Option.bind_eq_some_iff.mp h
    cases c with
    | bindingElement => exact ih h
    | variableBinding pattern initializer =>
      cases h
      exact ⟨pattern, initializer, hc⟩
    | _ => cases h

namespace Climbs

/-- What holds of a node once it holds of its parent holds of all nodes. -/
theorem upward (h : tree.Climbs rank) {P : NodeId → Prop}
    (step : ∀ n, (∀ m, tree.parent? n = some m → P m) → P n) (n : NodeId) : P n := by
  -- By induction on how far the rank of the node is from its bound.
  induction hroom : tree.size - rank n using Nat.strongRecOn generalizing n with
  | ind room ih =>
    refine step n fun m hm => ih (tree.size - rank m) ?_ m rfl
    obtain ⟨hlt, hbound⟩ := h.step hm
    omega

/-- A node of the highest rank has no parent. -/
theorem parent?_eq_none (h : tree.Climbs rank) {n : NodeId} (hn : tree.size ≤ rank n + 1) :
    tree.parent? n = none := by
  cases hm : tree.parent? n with
  | none => rfl
  | some m =>
    obtain ⟨hlt, hbound⟩ := h.step hm
    omega

theorem ancestorsFrom_succ (h : tree.Climbs rank) {fuel : Nat} {n : NodeId}
    (hfuel : tree.size ≤ rank n + fuel + 1) :
    tree.ancestorsFrom (fuel + 1) n = tree.ancestorsFrom fuel n := by
  induction fuel generalizing n with
  | zero =>
    rw [ancestorsFrom, ancestorsFrom, h.parent?_eq_none hfuel]
  | succ fuel ih =>
    rw [ancestorsFrom]
    conv => rhs; rw [ancestorsFrom]
    cases hm : tree.parent? n with
    | none => rfl
    | some m =>
      obtain ⟨hlt, -⟩ := h.step hm
      exact congrArg (m :: ·) (ih (by omega))

/-- The innermost node of a kind is the parent, or is around the parent. -/
theorem findAncestor?_eq (h : tree.Climbs rank) (n : NodeId) (P : Content → Bool) :
    tree.findAncestor? n P = (tree.parent? n).bind fun m =>
      if (tree.content? m).any P then some m else tree.findAncestor? m P := by
  have hfuel : tree.size ≤ rank n + tree.size + 1 := by omega
  rw [findAncestor?, ancestors, ← h.ancestorsFrom_succ hfuel, ancestorsFrom]
  cases tree.parent? n with
  | none => rfl
  | some m =>
    rw [Option.bind_some, List.find?_cons]
    cases (tree.content? m).any P <;> rfl

theorem skipParensFrom_succ (h : tree.Climbs rank) {fuel : Nat} {n : NodeId}
    (hfuel : tree.size ≤ rank n + fuel + 1) :
    tree.skipParensFrom (fuel + 1) n = tree.skipParensFrom fuel n := by
  induction fuel generalizing n with
  | zero => rw [skipParensFrom, h.parent?_eq_none hfuel, skipParensFrom, h.parent?_eq_none hfuel]
  | succ fuel ih =>
    rw [skipParensFrom]
    conv => rhs; rw [skipParensFrom]
    cases hm : tree.parent? n with
    | none => rfl
    | some m =>
      obtain ⟨hlt, -⟩ := h.step hm
      dsimp only
      rw [ih (by omega)]

/-- The first parent that is no pair of parentheses is the parent, or that of the parent. -/
theorem skipParensUp_eq (h : tree.Climbs rank) (n : NodeId) :
    tree.skipParensUp n = (tree.parent? n).elim (none, n) fun m =>
      if (tree.content? m).any Content.isParen then tree.skipParensUp m else (some m, n) := by
  have hfuel : tree.size ≤ rank n + tree.size + 1 := by omega
  rw [skipParensUp, ← h.skipParensFrom_succ hfuel, skipParensFrom]
  cases tree.parent? n with
  | none => rfl
  | some m => rfl

/-- The node around the pattern of an element climbs. -/
theorem rank_lt_of_patternStep? (h : tree.Climbs rank) {element pattern owner : NodeId}
    {step : PatternStep} (hstep : tree.patternStep? element = some (step, pattern))
    (howner : tree.parent? pattern = some owner) : rank element < rank owner := by
  obtain ⟨hpattern, -⟩ := h.step howner
  obtain ⟨container, hcontainer, hstep⟩ := Option.bind_eq_some_iff.mp hstep
  obtain ⟨helement, -⟩ := h.step hcontainer
  obtain ⟨c, -, hstep⟩ := Option.bind_eq_some_iff.mp hstep
  cases c with
  | arrayPattern =>
    cases hstep
    omega
  | bindingProperty =>
    obtain ⟨q, hq, hstep⟩ := Option.bind_eq_some_iff.mp hstep
    obtain ⟨hcontainer, -⟩ := h.step hq
    obtain ⟨c, -, hstep⟩ := Option.bind_eq_some_iff.mp hstep
    cases c with
    | objectPattern =>
      cases hstep
      omega
    | _ => cases hstep
  | _ => cases hstep

theorem patternPathFrom_succ (h : tree.Climbs rank) {fuel : Nat} {element : NodeId}
    {steps : List PatternStep} (hfuel : tree.size ≤ rank element + fuel + 1) :
    tree.patternPathFrom (fuel + 1) element steps = tree.patternPathFrom fuel element steps := by
  induction fuel generalizing element steps with
  | zero =>
    have hnone : tree.patternStep? element = none := by
      simp only [patternStep?, h.parent?_eq_none hfuel, Option.bind_eq_bind, Option.bind_none]
    simp only [patternPathFrom, hnone, Option.bind_eq_bind, Option.bind_none]
  | succ fuel ih =>
    rw [patternPathFrom]
    conv => rhs; rw [patternPathFrom]
    refine Option.bind_congr fun found hfound => Option.bind_congr fun owner howner => ?_
    have hlt := h.rank_lt_of_patternStep? hfound howner
    refine Option.bind_congr fun c _ => ?_
    cases c with
    | bindingElement => exact ih (by omega)
    | _ => rfl

end Climbs

end ScriptTyping.Tree
