import ScriptTyping.Proofs.Tree.Ascent

/-!
# Adoption

A tree is put together by adding nodes, and a new node adopts those of its children that are there.
Children that come later are never adopted, and a child that is named again changes hands.  So the
parent of a node is the last one of the later nodes that hold it.

## Main definitions

* `Tree.Built`, `Tree.ofContents` — trees that are put together by adding nodes.
* `Tree.BottomUp` — every node comes after its children.
* `Tree.Adopts` — a node is held by one node only.

## Main results

* `Tree.Built.parent?_eq_some_iff` — what a parent link says about children.
* `Tree.Built.parent?_of_adopts` — a node that is held once has the holder as its parent.
-/

namespace ScriptTyping.Tree

/-- Trees that are put together by adding nodes. -/
inductive Built : Tree → Prop
  | empty : Built .empty
  | add {tree : Tree} (h : Built tree) (content : Content) : Built (tree.add content).2

/-- The tree of nodes that are added one after the other. -/
def ofContents (contents : List Content) : Tree :=
  contents.foldl (fun tree content => (tree.add content).2) .empty

/-- Every node comes after its children. -/
def BottomUp (tree : Tree) : Prop := ∀ n, ∀ child ∈ tree.children n, child.index < n.index

/-- The first node holds the second one among its children, and no other node does. -/
def Adopts (tree : Tree) (m n : NodeId) : Prop :=
  n ∈ tree.children m ∧ ∀ m', n ∈ tree.children m' → m' = m

variable {tree : Tree} {content : Content} {m n : NodeId}

theorem mem_children_iff :
    n ∈ tree.children m ↔ ∃ c, tree.content? m = some c ∧ some n ∈ c.slots := by
  rw [children]
  cases tree.content? m with
  | none => simp
  | some c => simp [Content.children]

theorem index_lt_of_mem_children (h : n ∈ tree.children m) : m.index < tree.size := by
  obtain ⟨c, hc, -⟩ := mem_children_iff.mp h
  exact index_lt_of_content? hc

/-- Whether all children come before their nodes can be read off the nodes. -/
theorem bottomUp_iff :
    tree.BottomUp ↔ ∀ i < tree.size, ∀ child ∈ tree.children ⟨i⟩, child.index < i :=
  ⟨fun h i _ => h ⟨i⟩, fun h m child hm => h m.index (index_lt_of_mem_children hm) child hm⟩

instance (tree : Tree) : Decidable tree.BottomUp := decidable_of_iff' _ bottomUp_iff

theorem adopts_iff : tree.Adopts m n ↔
    n ∈ tree.children m ∧ ∀ i < tree.size, n ∈ tree.children ⟨i⟩ → ⟨i⟩ = m :=
  and_congr_right fun _ =>
    ⟨fun h i _ => h ⟨i⟩, fun h m' hm' => h m'.index (index_lt_of_mem_children hm') hm'⟩

instance (tree : Tree) (m n : NodeId) : Decidable (tree.Adopts m n) :=
  decidable_of_iff' _ adopts_iff

/-! ### Adding a node -/

theorem content?_add (tree : Tree) (content : Content) (m : NodeId) :
    (tree.add content).2.content? m =
      if m.index = tree.size then some content else tree.content? m := by
  rw [content?, get?_add]
  split
  · rfl
  · rw [content?, Option.map_map]
    congr 1
    funext node
    dsimp only [Function.comp_apply]
    split <;> rfl

theorem children_add (tree : Tree) (content : Content) (m : NodeId) :
    (tree.add content).2.children m =
      if m.index = tree.size then content.children else tree.children m := by
  rw [children, content?_add]
  split <;> rfl

theorem parent?_add (tree : Tree) (content : Content) (n : NodeId) :
    (tree.add content).2.parent? n =
      if n.index < tree.size ∧ n ∈ content.children then some ⟨tree.size⟩ else tree.parent? n := by
  rw [parent?, parent?, get?_add]
  cases hn : tree.get? n with
  | none =>
    have hge : tree.size ≤ n.index := Array.getElem?_eq_none_iff.mp hn
    have hnot : ¬ (n.index < tree.size ∧ n ∈ content.children) := fun h => by omega
    rw [if_neg hnot]
    split <;> rfl
  | some node =>
    have hlt : n.index < tree.size := (Array.getElem?_eq_some_iff.mp hn).choose
    rw [if_neg (Nat.ne_of_lt hlt)]
    by_cases hmem : n ∈ content.children <;> simp [hlt, hmem]

theorem built_ofContents (contents : List Content) : (ofContents contents).Built := by
  have hfold (tree : Tree) (h : tree.Built) :
      (contents.foldl (fun tree content => (tree.add content).2) tree).Built := by
    induction contents generalizing tree with
    | nil => exact h
    | cons content contents ih => exact ih _ (h.add content)
  exact hfold _ .empty

theorem Built.proper (h : tree.Built) : tree.Proper := by
  induction h with
  | empty => exact proper_empty
  | add _ content ih => exact ih.add content

/-- The parent of a node is the last one of the later nodes that hold it. -/
theorem Built.parent?_eq_some_iff (h : tree.Built) :
    tree.parent? n = some m ↔ n ∈ tree.children m ∧ n.index < m.index ∧
      ∀ m', n ∈ tree.children m' → n.index < m'.index → m'.index ≤ m.index := by
  induction h generalizing n m with
  | empty =>
    have hchildren (m : NodeId) : Tree.empty.children m = [] := rfl
    have hparent : Tree.empty.parent? n = none := rfl
    simp [hchildren, hparent]
  | @add tree _ content ih =>
    have hbound {m' : NodeId} (hm' : n ∈ (tree.add content).2.children m') :
        m'.index ≤ tree.size := by
      rw [children_add] at hm'
      split at hm'
      · omega
      · exact Nat.le_of_lt (index_lt_of_mem_children hm')
    have hnew : (tree.add content).2.children ⟨tree.size⟩ = content.children := by
      rw [children_add, if_pos rfl]
    rw [parent?_add]
    split
    · -- The new node holds the node, and it is the last one of all.
      rename_i hadopted
      rw [Option.some.injEq]
      constructor
      · rintro rfl
        exact ⟨hnew ▸ hadopted.2, hadopted.1, fun m' hm' _ => hbound hm'⟩
      · rintro ⟨hm, -, hlast⟩
        have hge := hlast ⟨tree.size⟩ (hnew ▸ hadopted.2) hadopted.1
        have hle := hbound hm
        obtain ⟨i⟩ := m
        exact congrArg NodeId.mk (Nat.le_antisymm hge hle)
    · -- The nodes that come after the node and hold it are the old ones.
      rename_i hnot
      have hold {m' : NodeId} (hlt : n.index < m'.index) :
          n ∈ (tree.add content).2.children m' ↔ n ∈ tree.children m' := by
        rw [children_add]
        split
        · rename_i hm'
          refine ⟨fun hmem => absurd ⟨hm' ▸ hlt, hmem⟩ hnot, fun hmem => ?_⟩
          exact absurd (index_lt_of_mem_children hmem) (by omega)
        · rfl
      rw [ih]
      constructor
      · rintro ⟨hm, hlt, hlast⟩
        exact ⟨(hold hlt).mpr hm, hlt, fun m' hm' hlt' => hlast m' ((hold hlt').mp hm') hlt'⟩
      · rintro ⟨hm, hlt, hlast⟩
        exact ⟨(hold hlt).mp hm, hlt, fun m' hm' hlt' => hlast m' ((hold hlt').mpr hm') hlt'⟩

/-- A node that is held by one earlier-built node only has it as its parent. -/
theorem Built.parent?_of_adopts (h : tree.Built) (hup : tree.BottomUp) (hm : tree.Adopts m n) :
    tree.parent? n = some m :=
  h.parent?_eq_some_iff.mpr
    ⟨hm.1, hup m n hm.1, fun m' hm' _ => Nat.le_of_eq (congrArg NodeId.index (hm.2 m' hm'))⟩

end ScriptTyping.Tree
