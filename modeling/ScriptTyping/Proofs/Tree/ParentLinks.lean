import Mathlib.Data.List.Induction
import Mathlib.Data.Nat.SuccPred
import ScriptTyping.Proofs.Tree.Adoption
import ScriptTyping.Proofs.Tree.Loop

/-!
# Parent links and the walks along them

A tree is put together by adding nodes whose children are arbitrary: they may dangle, come later or
be held by several nodes.  In the end the parent of a node is the last one of the later nodes that
hold it.  So parent links climb, and no loop along them goes on for more rounds than there are later
nodes, although nothing in the loops limits them.

## Main definitions

* `Tree.laterHolders` — the positions of the later nodes that hold a node.
* `Tree.ancestorsLoop`, `Tree.findAncestorLoop`, `Tree.skipParensLoop`, `Tree.patternPathLoop` — the
  walks as loops without a limit.
* `Tree.PastParens` — a parent and a child that stand past the parentheses around a node.

## Main results

* `Tree.parent?_ofContents`, `Tree.parent?_ofContents_eq_none` — parent links of any sequence of
  nodes.
* `Tree.Climbs.ancestors_pairwise` — chains of parents climb.
* `Tree.Climbs.returns_ancestors`, `Tree.Climbs.returns_findAncestor?`,
  `Tree.Climbs.returns_skipParensUp`, `Tree.Climbs.returns_patternPathFrom` — the loops stop.
* `Tree.Proper.pastParens` — what is found past parentheses.
* `Tree.upward_ofContents` — all of this for any sequence of nodes.
-/

namespace ScriptTyping.Tree

/-! ### Links -/

/-- The positions of the nodes that are added after a node and hold it. -/
def laterHolders (contents : List Content) (n : NodeId) : Set Nat :=
  {i | n.index < i ∧ ∃ content, contents[i]? = some content ∧ n ∈ content.children}

theorem ofContents_append_singleton (contents : List Content) (content : Content) :
    ofContents (contents ++ [content]) = ((ofContents contents).add content).2 :=
  List.foldl_append ..

theorem size_add (tree : Tree) (content : Content) : (tree.add content).2.size = tree.size + 1 := by
  rw [size, add, Array.size_push, size_foldl_adopt]
  rfl

@[simp] theorem size_ofContents (contents : List Content) :
    (ofContents contents).size = contents.length := by
  induction contents using List.reverseRecOn with
  | nil => rfl
  | append_singleton contents content ih =>
    rw [ofContents_append_singleton, size_add, ih, List.length_append, List.length_singleton]

/-- The nodes of a tree are those that were added, in this order. -/
theorem content?_ofContents (contents : List Content) (n : NodeId) :
    (ofContents contents).content? n = contents[n.index]? := by
  induction contents using List.reverseRecOn with
  | nil => rfl
  | append_singleton contents content ih =>
    rw [ofContents_append_singleton, content?_add, size_ofContents, ih, List.getElem?_append]
    split
    · rename_i hn
      rw [if_neg (by omega), hn, Nat.sub_self]
      rfl
    · split
      · rfl
      · rw [List.getElem?_eq_none (by omega), List.getElem?_eq_none]
        simp only [List.length_singleton]
        omega

theorem mem_laterHolders (contents : List Content) (n m : NodeId) :
    m.index ∈ laterHolders contents n ↔
      n.index < m.index ∧ n ∈ (ofContents contents).children m := by
  have hchildren : n ∈ (ofContents contents).children m ↔
      ∃ content, contents[m.index]? = some content ∧ n ∈ content.children := by
    rw [children, content?_ofContents]
    cases contents[m.index]? <;> simp
  rw [hchildren]
  rfl

/-- The parent of a node is the last one of the later nodes that hold it. -/
theorem parent?_ofContents (contents : List Content) (n m : NodeId) :
    (ofContents contents).parent? n = some m ↔
      IsGreatest (laterHolders contents n) m.index := by
  rw [(built_ofContents contents).parent?_eq_some_iff]
  constructor
  · rintro ⟨hmem, hlt, hlast⟩
    refine ⟨(mem_laterHolders ..).mpr ⟨hlt, hmem⟩, fun i hi => ?_⟩
    obtain ⟨hi, hmem⟩ := (mem_laterHolders contents n ⟨i⟩).mp hi
    exact hlast ⟨i⟩ hmem hi
  · rintro ⟨hmem, hlast⟩
    obtain ⟨hlt, hmem⟩ := (mem_laterHolders ..).mp hmem
    exact ⟨hmem, hlt, fun m' hmem' hlt' => hlast ((mem_laterHolders ..).mpr ⟨hlt', hmem'⟩)⟩

/-- A node has no parent if no later node holds it. -/
theorem parent?_ofContents_eq_none (contents : List Content) (n : NodeId) :
    (ofContents contents).parent? n = none ↔ laterHolders contents n = ∅ := by
  rw [Option.eq_none_iff_forall_ne_some]
  constructor
  · intro hnone
    by_contra hholders
    have hbound : BddAbove (laterHolders contents n) := by
      refine ⟨contents.length, ?_⟩
      rintro i ⟨-, content, hcontent, -⟩
      exact Nat.le_of_lt (List.getElem?_eq_some_iff.mp hcontent).choose
    obtain ⟨i, hi⟩ :=
      hbound.exists_isGreatest_of_nonempty (Set.nonempty_iff_ne_empty.mpr hholders)
    exact hnone ⟨i⟩ ((parent?_ofContents contents n ⟨i⟩).mpr hi)
  · intro hholders m hm
    have hmem := ((parent?_ofContents contents n m).mp hm).1
    rw [hholders] at hmem
    exact hmem

/-! ### Loops along the links -/

section Loops

variable (tree : Tree)

/-- Collects the nodes around a node. -/
def ancestorsLoop : Loop (List NodeId × NodeId) (List NodeId)
  | (found, n) =>
    match tree.parent? n with
    | some m => .inl (found ++ [m], m)
    | none => .inr found

/-- Looks for a node around a node. -/
def findAncestorLoop (P : Content → Bool) : Loop NodeId (Option NodeId)
  | n =>
    match tree.parent? n with
    | some m => if (tree.content? m).any P then .inr (some m) else .inl m
    | none => .inr none

/-- Goes up as long as the parent is a pair of parentheses. -/
def skipParensLoop : Loop NodeId (Option NodeId × NodeId)
  | child =>
    match tree.parent? child with
    | some m => if (tree.content? m).any Content.isParen then .inl m else .inr (some m, child)
    | none => .inr (none, child)

/-- Goes up from an element of a pattern to the binding, with the steps that lead down. -/
def patternPathLoop : Loop (NodeId × List PatternStep) (Option PatternPath)
  | (element, steps) =>
    match tree.patternStep? element with
    | none => .inr none
    | some (step, pattern) =>
      match (tree.parent? pattern).bind fun owner => (tree.content? owner).map (owner, ·) with
      | some (owner, .bindingElement ..) => .inl (owner, step :: steps)
      | some (owner, .variableBinding _ initializer) =>
        .inr (some ⟨owner, initializer, step :: steps⟩)
      | _ => .inr none

end Loops

variable {tree : Tree} {rank : NodeId → Nat}

namespace Climbs

/-- The nodes around a node are the parent and the nodes around it. -/
theorem ancestors_eq (h : tree.Climbs rank) (n : NodeId) :
    tree.ancestors n = (tree.parent? n).elim [] fun m => m :: tree.ancestors m := by
  rw [ancestors, ← h.ancestorsFrom_succ (by omega), ancestorsFrom]
  cases tree.parent? n with
  | none => rfl
  | some m => rfl

/-- The nodes around a node stand in the order of their ranks, above the node. -/
theorem ancestors_pairwise (h : tree.Climbs rank) (n : NodeId) :
    (n :: tree.ancestors n).Pairwise fun a b => rank a < rank b := by
  induction n using h.upward with
  | step n ih =>
    rw [h.ancestors_eq]
    cases hm : tree.parent? n with
    | none => exact List.pairwise_singleton _ n
    | some m =>
      have hlt := (h.step hm).1
      have hpairwise := ih m hm
      refine List.pairwise_cons.mpr ⟨fun a ha => ?_, hpairwise⟩
      rcases List.mem_cons.mp ha with rfl | ha
      · exact hlt
      · exact Nat.lt_trans hlt (List.rel_of_pairwise_cons hpairwise ha)

theorem returns_ancestors (h : tree.Climbs rank) (n : NodeId) :
    ∃ rounds ≤ tree.size - 1 - rank n,
      Loop.Returns tree.ancestorsLoop rounds ([], n) (tree.ancestors n) := by
  refine Loop.returns_of_climbs tree.ancestorsLoop (fun s => s.1 ++ tree.ancestors s.2)
    (fun s => rank s.2) ?_ ?_ ([], n)
  · rintro ⟨found, n⟩ s' hs'
    rw [ancestorsLoop] at hs'
    split at hs'
    · cases hs'
      exact h.step ‹_›
    · cases hs'
  · rintro ⟨found, n⟩
    dsimp only
    rw [ancestorsLoop, h.ancestors_eq]
    cases tree.parent? n with
    | none => exact List.append_nil found
    | some m => exact (List.append_assoc found [m] _).symm

theorem returns_findAncestor? (h : tree.Climbs rank) (P : Content → Bool) (n : NodeId) :
    ∃ rounds ≤ tree.size - 1 - rank n,
      Loop.Returns (tree.findAncestorLoop P) rounds n (tree.findAncestor? n P) := by
  refine Loop.returns_of_climbs (tree.findAncestorLoop P) (tree.findAncestor? · P) rank ?_ ?_ n
  · intro n m hm
    rw [findAncestorLoop] at hm
    split at hm
    · split at hm
      · cases hm
      · cases hm
        exact h.step ‹_›
    · cases hm
  · intro n
    rw [h.findAncestor?_eq, findAncestorLoop]
    cases tree.parent? n with
    | none => rfl
    | some m =>
      dsimp only [Option.bind_some]
      split <;> rfl

theorem returns_skipParensUp (h : tree.Climbs rank) (n : NodeId) :
    ∃ rounds ≤ tree.size - 1 - rank n,
      Loop.Returns tree.skipParensLoop rounds n (tree.skipParensUp n) := by
  refine Loop.returns_of_climbs tree.skipParensLoop tree.skipParensUp rank ?_ ?_ n
  · intro n m hm
    rw [skipParensLoop] at hm
    split at hm
    · split at hm
      · cases hm
        exact h.step ‹_›
      · cases hm
    · cases hm
  · intro n
    rw [h.skipParensUp_eq, skipParensLoop]
    cases tree.parent? n with
    | none => rfl
    | some m =>
      dsimp only [Option.elim_some]
      split <;> rfl

theorem returns_patternPathFrom (h : tree.Climbs rank) (element : NodeId)
    (steps : List PatternStep) :
    ∃ rounds ≤ tree.size - 1 - rank element,
      Loop.Returns tree.patternPathLoop rounds (element, steps)
        (tree.patternPathFrom tree.size element steps) := by
  refine Loop.returns_of_climbs tree.patternPathLoop
    (fun s => tree.patternPathFrom tree.size s.1 s.2) (fun s => rank s.1) ?_ ?_ (element, steps)
  · rintro ⟨element, steps⟩ s' hs'
    rw [patternPathLoop] at hs'
    split at hs'
    · cases hs'
    · rename_i step pattern hstep
      split at hs'
      · cases hs'
        rename_i howner
        obtain ⟨owner, hparent, hcontent⟩ := Option.bind_eq_some_iff.mp howner
        obtain ⟨c, -, hc⟩ := Option.map_eq_some_iff.mp hcontent
        cases hc
        exact ⟨h.rank_lt_of_patternStep? hstep hparent, (h.step hparent).2⟩
      · cases hs'
      · cases hs'
  · rintro ⟨element, steps⟩
    dsimp only
    rw [← h.patternPathFrom_succ (by omega), patternPathFrom, patternPathLoop]
    cases tree.patternStep? element with
    | none => rfl
    | some found =>
      obtain ⟨step, pattern⟩ := found
      simp only [Option.bind_eq_bind, Option.bind_some]
      cases tree.parent? pattern with
      | none => rfl
      | some owner =>
        simp only [Option.bind_some]
        cases tree.content? owner with
        | none => rfl
        | some c => cases c <;> rfl

end Climbs

/-! ### Past parentheses -/

/-- A parent and a child that stand past the parentheses around a node: the child is the node or a
pair of parentheses around it, the parent is that of the child and no pair of parentheses, and all
that stands between the node and the parent are parentheses. -/
structure PastParens (tree : Tree) (n : NodeId) (parent : Option NodeId) (child : NodeId) :
    Prop where
  inside : child = n ∨ child ∈ tree.ancestors n ∧ (tree.content? child).any Content.isParen = true
  adopted : parent = tree.parent? child
  outside : (tree.contentAt? parent).any Content.isParen = false
  between : ∀ m ∈ tree.ancestors n, (∀ p, parent = some p → m.index < p.index) →
    (tree.content? m).any Content.isParen = true

theorem Proper.pastParens (h : tree.Proper) (n : NodeId) :
    tree.PastParens n (tree.skipParensUp n).1 (tree.skipParensUp n).2 := by
  induction n using h.climbs.upward with
  | step n ih =>
    have hancestors := h.climbs.ancestors_eq n
    rw [h.climbs.skipParensUp_eq]
    cases hm : tree.parent? n with
    | none =>
      rw [hm, Option.elim_none] at hancestors
      refine ⟨.inl rfl, hm.symm, rfl, fun m hmem => ?_⟩
      rw [hancestors] at hmem
      cases hmem
    | some m =>
      rw [hm, Option.elim_some] at hancestors
      rw [Option.elim_some]
      split
      · rename_i hparen
        have hpast := ih m hm
        refine ⟨.inr ?_, hpast.adopted, hpast.outside, fun a ha hbetween => ?_⟩
        · rw [hancestors]
          rcases hpast.inside with hchild | ⟨hmem, hchild⟩
          · rw [hchild]
            exact ⟨List.mem_cons_self, hparen⟩
          · exact ⟨List.mem_cons_of_mem m hmem, hchild⟩
        · rw [hancestors] at ha
          rcases List.mem_cons.mp ha with rfl | ha
          · exact hparen
          · exact hpast.between a ha hbetween
      · rename_i hparen
        refine ⟨.inl rfl, hm.symm, Bool.eq_false_iff.mpr hparen, fun a ha hbetween => ?_⟩
        -- Nothing around the node is below its parent.
        rw [hancestors] at ha
        have hlt := hbetween m rfl
        rcases List.mem_cons.mp ha with rfl | ha
        · exact absurd hlt (Nat.lt_irrefl _)
        · have hgt := List.rel_of_pairwise_cons (h.climbs.ancestors_pairwise m) ha
          omega

/-! ### Any sequence of nodes -/

/-- Whatever nodes are added to the empty tree, the parent of a node is the last one of the later
nodes that hold it, and the node has none if there are none.  So chains of parents climb, and the
walks up from a node, as loops without a limit, stop after no more rounds than there are later
nodes.  Past the parentheses around a node are found the parent and the child that are meant. -/
theorem upward_ofContents (contents : List Content) (n : NodeId) :
    let tree := ofContents contents
    (∀ m, tree.parent? n = some m ↔ IsGreatest (laterHolders contents n) m.index) ∧
    (tree.parent? n = none ↔ laterHolders contents n = ∅) ∧
    (n :: tree.ancestors n).Pairwise (fun a b => a.index < b.index) ∧
    (∃ rounds ≤ contents.length - 1 - n.index,
      Loop.Returns tree.ancestorsLoop rounds ([], n) (tree.ancestors n)) ∧
    (∀ P, ∃ rounds ≤ contents.length - 1 - n.index,
      Loop.Returns (tree.findAncestorLoop P) rounds n (tree.findAncestor? n P)) ∧
    (∃ rounds ≤ contents.length - 1 - n.index,
      Loop.Returns tree.skipParensLoop rounds n (tree.skipParensUp n)) ∧
    (∀ element, tree.parent? n = some element → ∃ rounds ≤ contents.length - 1 - element.index,
      Loop.Returns tree.patternPathLoop rounds (element, []) (tree.patternPath? n)) ∧
    tree.PastParens n (tree.skipParensUp n).1 (tree.skipParensUp n).2 := by
  have hproper := (built_ofContents contents).proper
  have hclimbs := hproper.climbs
  rw [← size_ofContents contents]
  intro tree
  refine ⟨parent?_ofContents contents n, parent?_ofContents_eq_none contents n,
    hclimbs.ancestors_pairwise n, hclimbs.returns_ancestors n,
    fun P => hclimbs.returns_findAncestor? P n, hclimbs.returns_skipParensUp n,
    fun element helement => ?_, hproper.pastParens n⟩
  rw [patternPath?, helement]
  exact hclimbs.returns_patternPathFrom element []

/-- A pattern that is bound twice and holds its only element twice, beside a missing one. -/
def sharedPattern : List Content :=
  [.variableDecl none none none false, .bindingElement (some ⟨0⟩) false,
    .arrayPattern [some ⟨1⟩, some ⟨9⟩, some ⟨1⟩], .variableBinding (some ⟨2⟩) (some ⟨3⟩),
    .variableBinding (some ⟨2⟩) none]

/-- The walk up from the variable of a shared pattern stops at the second one of its bindings. -/
theorem upward_ofContents_sharedPattern :
    (ofContents sharedPattern).parent? ⟨0⟩ = some ⟨1⟩ ∧
    IsGreatest (laterHolders sharedPattern ⟨0⟩) 1 ∧
    ∃ rounds ≤ 3, Loop.Returns (ofContents sharedPattern).patternPathLoop rounds (⟨1⟩, [])
      (some ⟨⟨4⟩, none, [.element false]⟩) := by
  have hparent : (ofContents sharedPattern).parent? ⟨0⟩ = some ⟨1⟩ := by decide
  have hpath : (ofContents sharedPattern).patternPath? ⟨0⟩ =
      some ⟨⟨4⟩, none, [.element false]⟩ := by decide
  obtain ⟨hlast, -, -, -, -, -, hreturns, -⟩ := upward_ofContents sharedPattern ⟨0⟩
  rw [← hpath]
  exact ⟨hparent, (hlast ⟨1⟩).mp hparent, hreturns ⟨1⟩ hparent⟩

end ScriptTyping.Tree
