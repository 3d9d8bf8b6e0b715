import ScriptTyping.Constant
import ScriptTyping.Proofs.Tree.Ascent
import ScriptTyping.Proofs.Tree.Reading
import ScriptTyping.Tree.Exits

/-!
# Putting a node into parentheses

A new pair of parentheses takes the place of a node among the children of the nodes that hold it,
and holds the node itself.  Walks up the tree and walks down the tree see the same as before, as far
as the nodes that hold the node do not look at its shape: the search for what is around a node, past
parentheses and along patterns, and the search for exits, what stands inside parentheses, and the
values of constants.

## Main definitions

* `Content.isExpression` — expressions, and the arguments and elements that hold them.
* `Tree.parenthesize` — the tree with a node in parentheses.
* `Tree.Wraps` — a node that parentheses can be put around.

## Main results

* `Tree.Wraps.findAncestor?`, `Tree.Wraps.isWriteAccess`, `Tree.Wraps.patternPath?` — walks up.
* `Tree.Wraps.stripParensFrom`, `Tree.Wraps.exitsFrom`, `Tree.Wraps.evalFrom` — walks down.
-/

namespace ScriptTyping

/-- Expressions, and the arguments and elements that hold them. -/
def Content.isExpression : Content → Bool
  | classDecl _ isExpression _ => isExpression
  | functionDecl _ isExpression isArrow _ _ => isExpression || isArrow
  | objectLiteral _ | nullLiteral | booleanLiteral _ | numericLiteral _ | stringLiteral _
  | regularExpression | template _ | taggedTemplate .. | arrayLiteral _ | arrayElement ..
  | identifier .. | thisExpr | superExpr | paren _ | propertyAccess .. | indexedAccess ..
  | call .. | argument .. | newExpr .. | newTarget | yieldExpr .. | awaitExpr _ | promisify _
  | postfixExpr .. | unary .. | binary .. | conditional .. | assignment .. | comma _ | cast ..
  | jsxElement .. | jsxFragment .. => true
  | _ => false

/-- The children of a node at other places. -/
theorem Content.children_relocate (f : NodeId → NodeId) (c : Content) :
    (c.relocate f).children = c.children.map f := by
  rw [children, slots_relocate, children, List.filterMap_map, List.map_filterMap]
  rfl

namespace Exits

/-- The exits of a body, with the returned expressions at other places. -/
def relocate (f : NodeId → NodeId) (exits : Exits) : Exits :=
  { exits with returns := exits.returns.map f }

theorem isBoundary_relocate (f : NodeId → NodeId) (c : Content) :
    isBoundary (c.relocate f) = isBoundary c := by
  cases c <;> rfl

theorem push_relocate (f : NodeId → NodeId) (exits : Exits) (n : NodeId) (c : Content) :
    (exits.relocate f).push n (c.relocate f) = (exits.push n c).relocate f := by
  cases c with
  | returnStatement expression =>
    cases expression with
    | none => rfl
    | some expression => simp [push, relocate, Content.relocate]
  | _ => rfl

end Exits

namespace Constant

variable {α β : Type} {x y : ConstM α} {f g : α → ConstM β}

/-- Two evaluations give the same value, or none, if both come to an end. -/
def Coincide (x y : ConstM α) : Prop :=
  ∀ value value', x.run = .ok value → y.run = .ok value' → value' = value

theorem Coincide.refl (x : ConstM α) : Coincide x x :=
  fun _ _ hvalue hvalue' => Except.ok.inj (hvalue'.symm.trans hvalue)

theorem Coincide.bind (h : Coincide x y) (hf : ∀ a, Coincide (f a) (g a)) :
    Coincide (x >>= f) (y >>= g) := by
  intro value value' hvalue hvalue'
  rw [OptionT.run_bind] at hvalue hvalue'
  cases ha : x.run with
  | error =>
    rw [ha] at hvalue
    cases hvalue
  | ok a =>
    cases hb : y.run with
    | error =>
      rw [hb] at hvalue'
      cases hvalue'
    | ok b =>
      obtain rfl := h a b ha hb
      rw [ha] at hvalue
      rw [hb] at hvalue'
      cases b with
      | none => exact Except.ok.inj (hvalue'.symm.trans hvalue)
      | some b => exact hf b _ _ hvalue hvalue'

end Constant

namespace Tree

/-- The handle of the next node. -/
def next (tree : Tree) : NodeId := ⟨tree.size⟩

/-- Where a node is found once another one stands in parentheses. -/
def moved (tree : Tree) (child n : NodeId) : NodeId := if n = child then tree.next else n

/-- The tree with a node in parentheses, which take its place wherever it is held. -/
def parenthesize (tree : Tree) (child : NodeId) : Tree :=
  ⟨(tree.nodes.mapIdx fun i node =>
    { content := node.content.relocate (tree.moved child)
      parent := if i = child.index then some tree.next else node.parent }).push
    ⟨.paren (some child), tree.parent? child⟩⟩

/-- Parentheses can be put around a node: it is an expression in a tree that is put together
properly, the nodes that hold it are expressions that do not look at its shape, and the next handle
is free. -/
structure Wraps (tree : Tree) (child : NodeId) (d : Content) : Prop where
  proper : tree.Proper
  content : tree.content? child = some d
  expression : d.isExpression = true
  notSuper : d ≠ .superExpr
  holders : ∀ {n c}, tree.content? n = some c → some child ∈ c.slots →
    c.isExpression = true ∧ c.inspects d = false
  fresh : ∀ {n c}, tree.content? n = some c → some tree.next ∉ c.slots

variable {tree : Tree} {child : NodeId} {d : Content}

/-! ### The nodes -/

@[simp] theorem moved_self (tree : Tree) (child : NodeId) : tree.moved child child = tree.next :=
  if_pos rfl

theorem moved_of_ne {n : NodeId} (h : n ≠ child) : tree.moved child n = n := if_neg h

/-- No other node is moved to the place of a node. -/
theorem moved_inj (child : NodeId) {m n : NodeId} (hm : m ≠ tree.next) (hn : n ≠ tree.next) :
    tree.moved child m = tree.moved child n ↔ m = n := by
  unfold moved
  split
  · split
    · simp [*]
    · exact ⟨fun h => absurd h.symm hn, fun h => by subst h; contradiction⟩
  · split
    · exact ⟨fun h => absurd h hm, fun h => by subst h; contradiction⟩
    · exact .rfl

/-- A slot that holds another node than the one in parentheses, or the next one. -/
theorem map_moved_eq_some {n : NodeId} (slot : Slot) (hn : n ≠ tree.next) (hchild : n ≠ child) :
    slot.map (tree.moved child) = some n ↔ slot = some n := by
  cases slot with
  | none => rfl
  | some m =>
    simp only [Option.map_some, Option.some.injEq, moved]
    split
    · exact ⟨fun h => absurd h.symm hn, fun h => absurd (h.symm.trans ‹_›) hchild⟩
    · rfl

/-- What is found around a node is of the kind that was searched. -/
theorem content?_of_findAncestor? {n m : NodeId} {P : Content → Bool}
    (h : tree.findAncestor? n P = some m) : ∃ c, tree.content? m = some c ∧ P c = true := by
  have hany := @List.find?_some _ (fun a => (tree.content? a).any P) _ _ h
  exact (Option.any_eq_true _ _).mp hany

theorem ne_next_of_content? {n : NodeId} {c : Content} (h : tree.content? n = some c) :
    n ≠ tree.next := by
  rintro rfl
  exact Nat.lt_irrefl _ (index_lt_of_content? h)

theorem size_parenthesize (tree : Tree) (child : NodeId) :
    (tree.parenthesize child).size = tree.size + 1 := by
  simp [size, parenthesize]

theorem get?_parenthesize_next (tree : Tree) (child : NodeId) :
    (tree.parenthesize child).get? tree.next =
      some ⟨.paren (some child), tree.parent? child⟩ := by
  simp only [get?, parenthesize, next, size, Array.getElem?_push, Array.size_mapIdx, if_true]

theorem get?_parenthesize {n : NodeId} (hn : n ≠ tree.next) :
    (tree.parenthesize child).get? n = (tree.get? n).map fun node =>
      ⟨node.content.relocate (tree.moved child),
        if n = child then some tree.next else node.parent⟩ := by
  have hindex : n.index ≠ tree.nodes.size := fun h => hn (congrArg NodeId.mk h)
  have hchild : n.index = child.index ↔ n = child :=
    ⟨fun h => congrArg NodeId.mk h, fun h => congrArg NodeId.index h⟩
  simp [get?, parenthesize, Array.getElem?_push, hindex, hchild]

@[simp] theorem content?_parenthesize_next (tree : Tree) (child : NodeId) :
    (tree.parenthesize child).content? tree.next = some (.paren (some child)) := by
  rw [content?, get?_parenthesize_next, Option.map_some]

theorem content?_parenthesize {n : NodeId} (hn : n ≠ tree.next) :
    (tree.parenthesize child).content? n =
      (tree.content? n).map (Content.relocate (tree.moved child)) := by
  rw [content?, get?_parenthesize hn, content?, Option.map_map, Option.map_map]
  rfl

@[simp] theorem content?_next (tree : Tree) : tree.content? tree.next = none := by
  simp [content?, get?, next, size]

/-- A predicate that tells nodes apart from parentheses. -/
theorem any_content?_parenthesize {P : Content → Bool}
    (hparen : ∀ expression, P (.paren expression) = false)
    (hmoved : ∀ c, P (c.relocate (tree.moved child)) = P c) (n : NodeId) :
    ((tree.parenthesize child).content? n).any P = (tree.content? n).any P := by
  by_cases hn : n = tree.next
  · rw [hn, content?_parenthesize_next, content?_next, Option.any_some, hparen, Option.any_none]
  · rw [content?_parenthesize hn, Option.any_map]
    congr 1
    funext c
    exact hmoved c

@[simp] theorem parent?_parenthesize_next (tree : Tree) (child : NodeId) :
    (tree.parenthesize child).parent? tree.next = tree.parent? child := by
  rw [parent?, get?_parenthesize_next, Option.bind_some]

theorem parent?_parenthesize {n : NodeId} (hn : n ≠ tree.next) (hchild : n ≠ child) :
    (tree.parenthesize child).parent? n = tree.parent? n := by
  rw [parent?, get?_parenthesize hn, Option.bind_map, parent?]
  simp only [if_neg hchild, Function.comp_def]

/-- A walk ends at what is no pair of parentheses. -/
theorem stripParensFrom_of_not_paren {fuel : Nat} (slot : Slot)
    (h : (tree.contentAt? slot).any Content.isParen = false) :
    tree.stripParensFrom fuel slot = some slot := by
  cases fuel with
  | zero => simp [stripParensFrom, h]
  | succ fuel =>
    rw [stripParensFrom]
    split
    · rw [‹tree.contentAt? slot = _›] at h
      cases h
    · rfl

/-- A walk through parentheses goes on inside. -/
theorem stripParensFrom_paren {fuel : Nat} {n : NodeId} {expression inner : Slot}
    (hc : tree.content? n = some (.paren expression))
    (h : tree.stripParensFrom fuel (some n) = some inner) :
    ∃ rest, fuel = rest + 1 ∧ tree.stripParensFrom rest expression = some inner := by
  cases fuel with
  | zero => simp [stripParensFrom, contentAt?, hc, Content.isParen] at h
  | succ rest =>
    simp only [stripParensFrom, contentAt?, Option.bind_some, hc] at h
    exact ⟨rest, rfl, h⟩

/-- A rank of the nodes, with the parentheses right behind the node that they hold. -/
def wrappedRank (tree : Tree) (child n : NodeId) : Nat :=
  if n = tree.next then child.index + 1
  else if n.index ≤ child.index then n.index else n.index + 1

theorem wrappedRank_next (tree : Tree) (child : NodeId) :
    tree.wrappedRank child tree.next = child.index + 1 := if_pos rfl

theorem wrappedRank_of_ne {n : NodeId} (hn : n ≠ tree.next) :
    tree.wrappedRank child n = if n.index ≤ child.index then n.index else n.index + 1 :=
  if_neg hn

namespace Wraps

variable (h : tree.Wraps child d)

include h

theorem child_ne_next : child ≠ tree.next := ne_next_of_content? h.content

theorem parent?_child : (tree.parenthesize child).parent? child = some tree.next := by
  obtain ⟨node, hnode, -⟩ := Option.map_eq_some_iff.mp h.content
  rw [parent?, get?_parenthesize h.child_ne_next, hnode]
  simp

theorem parent_ne_next {n m : NodeId} (hm : tree.parent? n = some m) : m ≠ tree.next := by
  obtain ⟨c, hc, -⟩ := h.proper.holds hm
  exact ne_next_of_content? hc

/-- A child of a node is not the next one. -/
theorem slot_ne_next {n m : NodeId} {c : Content} (hc : tree.content? n = some c)
    (hm : some m ∈ c.slots) : m ≠ tree.next := by
  rintro rfl
  exact h.fresh hc hm

/-- The content of a node that is known to have another shape than the node in parentheses. -/
theorem ne_child {n : NodeId} {c : Content} (hc : tree.content? n = some c)
    (hshape : c.isExpression = false) : n ≠ child := by
  rintro rfl
  obtain rfl := Option.some.inj (hc.symm.trans h.content)
  rw [h.expression] at hshape
  cases hshape

/-- Parent links still climb. -/
theorem climbs : (tree.parenthesize child).Climbs (tree.wrappedRank child) := by
  have hchild := index_lt_of_content? h.content
  refine ⟨fun {n m} hm => ?_⟩
  rw [size_parenthesize]
  by_cases hn : n = tree.next
  · subst hn
    rw [parent?_parenthesize_next] at hm
    have hlt := h.proper.later hm
    have hbound := (h.proper.climbs.step hm).2
    rw [wrappedRank_next, wrappedRank_of_ne (h.parent_ne_next hm), if_neg (Nat.not_le_of_lt hlt)]
    omega
  · by_cases hnode : n = child
    · subst hnode
      rw [h.parent?_child] at hm
      cases hm
      rw [wrappedRank_next, wrappedRank_of_ne hn, if_pos (Nat.le_refl _)]
      omega
    · rw [parent?_parenthesize hn hnode] at hm
      have hlt := h.proper.later hm
      have hbound := (h.proper.climbs.step hm).2
      rw [wrappedRank_of_ne hn, wrappedRank_of_ne (h.parent_ne_next hm)]
      split
      · split <;> omega
      · rw [if_neg (by omega)]
        omega

/-! ### Walks up -/

/-- What is around a node is found as before, if it is told apart from parentheses. -/
theorem findAncestor? {P : Content → Bool} (hparen : ∀ expression, P (.paren expression) = false)
    (hmoved : ∀ c, P (c.relocate (tree.moved child)) = P c) {n : NodeId} (hn : n ≠ tree.next) :
    (tree.parenthesize child).findAncestor? n P = tree.findAncestor? n P := by
  induction n using h.proper.climbs.upward with | step n ih => ?_
  -- One step from the node, once the parentheses are passed.
  have hstep : ((tree.parent? n).bind fun m =>
        if ((tree.parenthesize child).content? m).any P then some m
        else (tree.parenthesize child).findAncestor? m P) =
      (tree.parent? n).bind fun m =>
        if (tree.content? m).any P then some m else tree.findAncestor? m P := by
    refine Option.bind_congr fun m hm => ?_
    rw [any_content?_parenthesize hparen hmoved, ih m hm (h.parent_ne_next hm)]
  rw [h.climbs.findAncestor?_eq n, h.proper.climbs.findAncestor?_eq n]
  by_cases hnode : n = child
  · subst hnode
    rw [h.parent?_child, Option.bind_some, content?_parenthesize_next, Option.any_some, hparen,
      if_neg Bool.false_ne_true, h.climbs.findAncestor?_eq, parent?_parenthesize_next]
    exact hstep
  · rw [parent?_parenthesize hn hnode]
    exact hstep

/-- The first parent that is no pair of parentheses stays the same; the way to it may lead through
the new ones. -/
theorem skipParensUp {n : NodeId} (hn : n ≠ tree.next) :
    (tree.parenthesize child).skipParensUp n =
      ((tree.skipParensUp n).1, tree.moved child (tree.skipParensUp n).2) := by
  induction n using h.proper.climbs.upward with | step n ih => ?_
  have hparen {m : NodeId} (hm : m ≠ tree.next) :
      ((tree.parenthesize child).content? m).any Content.isParen =
        (tree.content? m).any Content.isParen := by
    rw [content?_parenthesize hm]
    cases tree.content? m with
    | none => rfl
    | some c => exact Content.isParen_relocate _ c
  have hstep : ((tree.parent? n).elim (none, tree.moved child n) fun m =>
        if ((tree.parenthesize child).content? m).any Content.isParen then
          (tree.parenthesize child).skipParensUp m
        else (some m, tree.moved child n)) =
      ((tree.skipParensUp n).1, tree.moved child (tree.skipParensUp n).2) := by
    rw [h.proper.climbs.skipParensUp_eq n]
    cases hm : tree.parent? n with
    | none => rfl
    | some m =>
      have hm' := h.parent_ne_next hm
      rw [Option.elim_some, Option.elim_some, hparen hm']
      split
      · exact ih m hm hm'
      · rfl
  rw [h.climbs.skipParensUp_eq n]
  by_cases hnode : n = child
  · subst hnode
    rw [h.parent?_child, Option.elim_some, content?_parenthesize_next, Option.any_some,
      Content.isParen, if_pos rfl, h.climbs.skipParensUp_eq, parent?_parenthesize_next]
    rw [moved_self] at hstep
    exact hstep
  · rw [parent?_parenthesize hn hnode]
    rw [moved_of_ne hnode] at hstep
    exact hstep

/-- Past parentheses one comes to the parent of the node that is reached. -/
theorem skipParensUp_parent (n : NodeId) :
    (tree.skipParensUp n).1 = tree.parent? (tree.skipParensUp n).2 ∧
      ((tree.skipParensUp n).2 = n ∨ ∃ m, tree.parent? m = some (tree.skipParensUp n).2) := by
  induction n using h.proper.climbs.upward with | step n ih => ?_
  rw [h.proper.climbs.skipParensUp_eq n]
  cases hm : tree.parent? n with
  | none => exact ⟨hm.symm, .inl rfl⟩
  | some m =>
    rw [Option.elim_some]
    split
    · obtain ⟨hparent, hself | hsome⟩ := ih m hm
      · exact ⟨hparent, .inr ⟨n, hm.trans (congrArg some hself.symm)⟩⟩
      · exact ⟨hparent, .inr hsome⟩
    · exact ⟨hm.symm, .inl rfl⟩

/-- An expression is written to as before. -/
theorem isWriteAccess {n : NodeId} (hn : n ≠ tree.next) :
    (tree.parenthesize child).isWriteAccess n = tree.isWriteAccess n := by
  obtain ⟨hparent, hreached⟩ := h.skipParensUp_parent n
  have hmid : (tree.skipParensUp n).2 ≠ tree.next := by
    rcases hreached with hself | ⟨m, hm⟩
    · rw [hself]
      exact hn
    · exact h.parent_ne_next hm
  simp only [Tree.isWriteAccess, h.skipParensUp hn]
  cases ho : (tree.skipParensUp n).1 with
  | none => rfl
  | some m =>
    obtain ⟨c, hc, -⟩ := h.proper.holds (hparent.symm.trans ho)
    have hm := ne_next_of_content? hc
    simp only [contentAt?, Option.bind_some, content?_parenthesize hm, hc, Option.map_some]
    cases c with
    | assignment op left right =>
      simp only [Content.relocate]
      cases left with
      | none => rfl
      | some left =>
        have hleft : left ≠ tree.next := h.slot_ne_next hc (List.mem_cons_self ..)
        have hinj := moved_inj child hleft hmid
        rw [Option.map_some, Option.some_beq_some, Option.some_beq_some, Bool.eq_iff_iff,
          beq_iff_eq, beq_iff_eq]
        exact hinj
    | _ => rfl

/-- The step from a pattern to one of its elements. -/
theorem patternStep? {element : NodeId} (helement : element ≠ tree.next) :
    (tree.parenthesize child).patternStep? element = tree.patternStep? element := by
  have hrest : (tree.parenthesize child).isRestElement element = tree.isRestElement element := by
    rw [isRestElement, content?_parenthesize helement, isRestElement]
    cases tree.content? element with
    | none => rfl
    | some c => cases c <;> rfl
  unfold Tree.patternStep?
  by_cases hnode : element = child
  · subst hnode
    rw [h.parent?_child]
    cases hm : tree.parent? element with
    | none => simp
    | some m =>
      -- What holds the node is an expression and no pattern.
      obtain ⟨c, hc, hslot⟩ := h.proper.holds hm
      have hexpression := (h.holders hc hslot).1
      simp only [Option.bind_eq_bind, Option.bind_some, content?_parenthesize_next, hc]
      cases c with
      | arrayPattern | bindingProperty => cases hexpression
      | _ => rfl
  · rw [parent?_parenthesize helement hnode]
    refine Option.bind_congr fun container hcontainer => ?_
    obtain ⟨c, hc, -⟩ := h.proper.holds hcontainer
    have hnext := ne_next_of_content? hc
    rw [content?_parenthesize hnext, hc]
    simp only [Option.map_some, Option.bind_eq_bind, Option.bind_some]
    cases c with
    | arrayPattern => simp only [Content.relocate, hrest]
    | bindingProperty name value =>
      simp only [Content.relocate]
      rw [parent?_parenthesize hnext (h.ne_child hc rfl)]
      refine Option.bind_congr fun pattern hpattern => ?_
      rw [content?_parenthesize (h.parent_ne_next hpattern)]
      cases tree.content? pattern with
      | none => rfl
      | some c => cases c <;> rfl
    | _ => rfl

/-- The pattern of an element is a pattern. -/
private theorem pattern_ne_child {element pattern : NodeId} {step : PatternStep}
    (hstep : tree.patternStep? element = some (step, pattern)) :
    pattern ≠ tree.next ∧ pattern ≠ child := by
  obtain ⟨container, hcontainer, hstep⟩ := Option.bind_eq_some_iff.mp hstep
  obtain ⟨c, hc, hstep⟩ := Option.bind_eq_some_iff.mp hstep
  cases c with
  | arrayPattern =>
    cases hstep
    exact ⟨ne_next_of_content? hc, h.ne_child hc rfl⟩
  | bindingProperty =>
    obtain ⟨q, -, hstep⟩ := Option.bind_eq_some_iff.mp hstep
    obtain ⟨c, hc, hstep⟩ := Option.bind_eq_some_iff.mp hstep
    cases c with
    | objectPattern =>
      cases hstep
      exact ⟨ne_next_of_content? hc, h.ne_child hc rfl⟩
    | _ => cases hstep
  | _ => cases hstep

/-- The way from a binding to one of its elements, the value that is taken apart moved. -/
theorem patternPathFrom (fuel : Nat) {element : NodeId} (helement : element ≠ tree.next)
    (steps : List PatternStep) :
    (tree.parenthesize child).patternPathFrom fuel element steps =
      (tree.patternPathFrom fuel element steps).map fun path =>
        { path with initializer := path.initializer.map (tree.moved child) } := by
  induction fuel generalizing element steps with
  | zero => rfl
  | succ fuel ih =>
    simp only [Tree.patternPathFrom, Option.bind_eq_bind, h.patternStep? helement]
    cases hfound : tree.patternStep? element with
    | none => rfl
    | some found =>
      obtain ⟨hnext, hnode⟩ := h.pattern_ne_child hfound
      simp only [Option.bind_some, parent?_parenthesize hnext hnode]
      cases howner : tree.parent? found.2 with
      | none => rfl
      | some owner =>
        have hne := h.parent_ne_next howner
        simp only [Option.bind_some, content?_parenthesize hne]
        cases tree.content? owner with
        | none => rfl
        | some c =>
          cases c with
          | bindingElement => exact ih hne _
          | _ => rfl

/-- The way from a binding to one of its variables. -/
theorem patternPath? {n : NodeId} {c : Content} (hc : tree.content? n = some c)
    (hshape : c.isExpression = false) :
    (tree.parenthesize child).patternPath? n = (tree.patternPath? n).map fun path =>
      { path with initializer := path.initializer.map (tree.moved child) } := by
  unfold Tree.patternPath?
  rw [parent?_parenthesize (ne_next_of_content? hc) (h.ne_child hc hshape), size_parenthesize]
  cases helement : tree.parent? n with
  | none => rfl
  | some element =>
    have hfuel : tree.size ≤ element.index + tree.size + 1 := by omega
    simp only [Option.bind_eq_bind, Option.bind_some]
    rw [h.patternPathFrom _ (h.parent_ne_next helement),
      h.proper.climbs.patternPathFrom_succ hfuel]

/-! ### Walks down

Each walk meets the nodes of the first tree, with the parentheses in between.  Where it comes to a
child it may meet the parentheses first; they lead to the node itself, at the cost of one step. -/

/-- The payload at the place of a child: moved, or the parentheses around a node whose shape does
not matter. -/
theorem contentAt?_moved {n : NodeId} {c : Content} {slot : Slot}
    (hc : tree.content? n = some c) (hslot : slot ∈ c.slots) :
    (tree.parenthesize child).contentAt? (slot.map (tree.moved child)) =
        (tree.contentAt? slot).map (Content.relocate (tree.moved child)) ∨
      tree.contentAt? slot = some d ∧ c.inspects d = false ∧
        (tree.parenthesize child).contentAt? (slot.map (tree.moved child)) =
          some (.paren (some child)) := by
  cases slot with
  | none => exact .inl rfl
  | some m =>
    rw [Option.map_some, contentAt?, contentAt?, Option.bind_some, Option.bind_some]
    by_cases hm : m = child
    · subst hm
      rw [moved_self]
      exact .inr ⟨h.content, (h.holders hc hslot).2, content?_parenthesize_next tree m⟩
    · rw [moved_of_ne hm, content?_parenthesize (h.slot_ne_next hc hslot)]
      exact .inl rfl

/-- What stands inside parentheses, from the place of a child, once it is known for the nodes
themselves. -/
private theorem stripParensFrom_moved {fuel : Nat}
    (hdirect : ∀ {fuel' : Nat} {n : NodeId} {inner inner' : Slot}, n ≠ tree.next →
      tree.stripParensFrom fuel (some n) = some inner →
      (tree.parenthesize child).stripParensFrom fuel' (some n) = some inner' → inner' = inner)
    {fuel' : Nat} {slot inner inner' : Slot} (hslot : slot ≠ some tree.next)
    (hinner : tree.stripParensFrom fuel slot = some inner)
    (hinner' : (tree.parenthesize child).stripParensFrom fuel' (slot.map (tree.moved child)) =
      some inner') : inner' = inner := by
  cases slot with
  | none =>
    rw [stripParensFrom_of_not_paren none rfl] at hinner
    rw [Option.map_none, stripParensFrom_of_not_paren none rfl] at hinner'
    exact Option.some.inj (hinner'.symm.trans hinner)
  | some n =>
    rw [Option.map_some] at hinner'
    by_cases hn : n = child
    · subst hn
      rw [moved_self] at hinner'
      obtain ⟨rest, -, hrest⟩ := stripParensFrom_paren (content?_parenthesize_next tree n) hinner'
      exact hdirect h.child_ne_next hinner hrest
    · rw [moved_of_ne hn] at hinner'
      exact hdirect (fun hnext => hslot (congrArg some hnext)) hinner hinner'

/-- What stands inside parentheses is not the next node. -/
theorem stripped_ne_next {fuel : Nat} {slot inner : Slot} (hslot : slot ≠ some tree.next)
    (hinner : tree.stripParensFrom fuel slot = some inner) : inner ≠ some tree.next := by
  induction fuel generalizing slot with
  | zero =>
    simp only [Tree.stripParensFrom] at hinner
    split at hinner
    · cases hinner
    · exact Option.some.inj hinner ▸ hslot
  | succ fuel ih =>
    simp only [Tree.stripParensFrom] at hinner
    split at hinner
    · rename_i expression hparen
      obtain ⟨n, rfl, hc⟩ := Option.bind_eq_some_iff.mp hparen
      refine ih ?_ hinner
      rintro rfl
      exact h.fresh hc (List.mem_singleton_self _)
    · exact Option.some.inj hinner ▸ hslot

/-- What stands inside parentheses is the same, if both walks come to an end. -/
theorem stripParensFrom {fuel fuel' : Nat} {slot inner inner' : Slot}
    (hslot : slot ≠ some tree.next) (hinner : tree.stripParensFrom fuel slot = some inner)
    (hinner' : (tree.parenthesize child).stripParensFrom fuel' (slot.map (tree.moved child)) =
      some inner') : inner' = inner := by
  refine h.stripParensFrom_moved ?_ hslot hinner hinner'
  clear hslot hinner hinner'
  -- By induction on the steps of the first walk, which go down from one node of it to the next.
  induction fuel using Nat.strongRecOn with | ind fuel ih => ?_
  intro fuel' n inner inner' hn hinner hinner'
  have hn' : (tree.parenthesize child).content? n = _ := content?_parenthesize hn
  cases hparen : (tree.content? n).any Content.isParen with
  | false =>
    have hparen' : ((tree.parenthesize child).content? n).any Content.isParen = false := by
      rw [hn', Option.any_map, ← hparen]
      congr 1
      funext c
      exact Content.isParen_relocate _ c
    rw [stripParensFrom_of_not_paren (some n) hparen] at hinner
    rw [stripParensFrom_of_not_paren (some n) hparen'] at hinner'
    exact Option.some.inj (hinner'.symm.trans hinner)
  | true =>
    obtain ⟨c, hc, hparen⟩ := (Option.any_eq_true _ _).mp hparen
    cases c with
    | paren expression =>
      have hexpression : expression ≠ some tree.next := by
        rintro rfl
        exact h.fresh hc (List.mem_singleton_self _)
      rw [hc] at hn'
      obtain ⟨rest, rfl, hrest⟩ := stripParensFrom_paren hc hinner
      obtain ⟨rest', -, hrest'⟩ := stripParensFrom_paren hn' hinner'
      exact h.stripParensFrom_moved (ih rest (Nat.lt_succ_self rest)) hexpression hrest hrest'
    | _ => cases hparen

/-- The exits below nodes at the places of children, once they are known below the nodes
themselves. -/
private theorem exitsFrom_moved {fuel : Nat}
    (hdirect : ∀ {fuel' : Nat} {n : NodeId} {stack : List NodeId} {found exits exits' : Exits},
      n ≠ tree.next → tree.next ∉ stack →
      tree.exitsFrom fuel (n :: stack) found = some exits →
      (tree.parenthesize child).exitsFrom fuel' (n :: stack.map (tree.moved child))
        (found.relocate (tree.moved child)) = some exits' →
      exits' = exits.relocate (tree.moved child))
    {fuel' : Nat} {stack : List NodeId} {found exits exits' : Exits} (hstack : tree.next ∉ stack)
    (hexits : tree.exitsFrom fuel stack found = some exits)
    (hexits' : (tree.parenthesize child).exitsFrom fuel' (stack.map (tree.moved child))
      (found.relocate (tree.moved child)) = some exits') :
    exits' = exits.relocate (tree.moved child) := by
  cases stack with
  | nil =>
    rw [Tree.exitsFrom] at hexits
    rw [List.map_nil, Tree.exitsFrom] at hexits'
    cases hexits
    exact (Option.some.inj hexits').symm
  | cons n stack =>
    obtain ⟨hn, hstack⟩ := not_or.mp (mt List.mem_cons.mpr hstack)
    rw [List.map_cons] at hexits'
    by_cases hnode : n = child
    · subst hnode
      rw [moved_self] at hexits'
      cases fuel' with
      | zero => cases hexits'
      | succ fuel' =>
        rw [Tree.exitsFrom, content?_parenthesize_next] at hexits'
        exact hdirect h.child_ne_next hstack hexits hexits'
    · rw [moved_of_ne hnode] at hexits'
      exact hdirect (Ne.symm hn) hstack hexits hexits'

/-- The exits of a body are the same, with what is returned moved, if both searches come to an
end. -/
theorem exitsFrom {fuel fuel' : Nat} {stack : List NodeId} {found exits exits' : Exits}
    (hstack : tree.next ∉ stack) (hexits : tree.exitsFrom fuel stack found = some exits)
    (hexits' : (tree.parenthesize child).exitsFrom fuel' (stack.map (tree.moved child))
      (found.relocate (tree.moved child)) = some exits') :
    exits' = exits.relocate (tree.moved child) := by
  refine h.exitsFrom_moved ?_ hstack hexits hexits'
  clear hstack hexits hexits'
  induction fuel with
  | zero => exact fun _ _ hexits => by cases hexits
  | succ fuel ih =>
    intro fuel' n stack found exits exits' hn hstack hexits hexits'
    cases fuel' with
    | zero => cases hexits'
    | succ fuel' =>
      have hn' : (tree.parenthesize child).content? n = _ := content?_parenthesize hn
      cases hc : tree.content? n with
      | none =>
        rw [hc] at hn'
        rw [Tree.exitsFrom, hc] at hexits
        rw [Tree.exitsFrom, hn'] at hexits'
        exact h.exitsFrom_moved ih hstack hexits hexits'
      | some c =>
        rw [hc] at hn'
        rw [Tree.exitsFrom, hc] at hexits
        rw [Tree.exitsFrom, hn'] at hexits'
        dsimp only [Option.map_some] at hexits hexits'
        rw [Exits.isBoundary_relocate] at hexits'
        split at hexits
        · rw [if_pos ‹_›] at hexits'
          exact h.exitsFrom_moved ih hstack hexits hexits'
        · rw [if_neg ‹_›, Content.children_relocate, Exits.push_relocate, ← List.map_append]
            at hexits'
          refine h.exitsFrom_moved ih ?_ hexits hexits'
          intro hmem
          rcases List.mem_append.mp hmem with hmem | hmem
          · obtain ⟨_, hslot, rfl⟩ := List.mem_filterMap.mp hmem
            exact h.fresh hc hslot
          · exact hstack hmem

omit h in
/-- Evaluation with the parentheses in place, one step into them. -/
private theorem evalFrom_next (declarations : Declarations) (symbols : SymbolTable) (fuel : Nat)
    (visiting : List DeclId) :
    Constant.evalFrom ⟨tree.parenthesize child, declarations, symbols⟩ (fuel + 1) visiting
      (some tree.next) =
    Constant.evalFrom ⟨tree.parenthesize child, declarations, symbols⟩ fuel visiting
      (some child) := by
  simp only [Constant.evalFrom, contentAt?, Option.bind_some, content?_parenthesize_next]

variable {declarations : Declarations} {symbols : SymbolTable}

/-- The value of an expression at the place of a child, once it is known for the nodes
themselves. -/
private theorem evalFrom_moved {fuel : Nat}
    (hdirect : ∀ {fuel' : Nat} {visiting : List DeclId} {n : NodeId}, n ≠ tree.next →
      Constant.Coincide
        (Constant.evalFrom ⟨tree, declarations, symbols⟩ fuel visiting (some n))
        (Constant.evalFrom ⟨tree.parenthesize child, declarations, symbols⟩ fuel' visiting
          (some n)))
    {fuel' : Nat} {visiting : List DeclId} {slot : Slot} (hslot : slot ≠ some tree.next) :
    Constant.Coincide
      (Constant.evalFrom ⟨tree, declarations, symbols⟩ fuel visiting slot)
      (Constant.evalFrom ⟨tree.parenthesize child, declarations, symbols⟩ fuel' visiting
        (slot.map (tree.moved child))) := by
  cases slot with
  | none =>
    cases fuel with
    | zero => exact fun _ _ hvalue => by cases hvalue
    | succ fuel =>
      cases fuel' with
      | zero => exact fun _ _ _ hvalue' => by cases hvalue'
      | succ fuel' => exact .refl _
  | some n =>
    rw [Option.map_some]
    by_cases hn : n = child
    · subst hn
      rw [moved_self]
      cases fuel' with
      | zero => exact fun _ _ _ hvalue' => by cases hvalue'
      | succ fuel' =>
        rw [evalFrom_next]
        exact hdirect h.child_ne_next
    · rw [moved_of_ne hn]
      exact hdirect fun hnext => hslot (congrArg some hnext)

/-- A segment of a template. -/
private theorem segment? {n : NodeId} {parts : List Slot}
    (hc : tree.content? n = some (.template parts)) {part : Slot} (hpart : part ∈ parts) :
    Constant.segment? ⟨tree.parenthesize child, declarations, symbols⟩
      (part.map (tree.moved child)) = Constant.segment? ⟨tree, declarations, symbols⟩ part := by
  simp only [Constant.segment?]
  rcases h.contentAt?_moved hc hpart with hmoved | ⟨hd, hinspects, hparen⟩
  · rw [hmoved]
    cases tree.contentAt? part with
    | none => rfl
    | some c => cases c <;> rfl
  · rw [hd, hparen]
    cases d with
    | templateSegment => cases hinspects
    | _ => rfl

/-- The segments of a template. -/
private theorem segments? {n : NodeId} {parts rest : List Slot}
    (hc : tree.content? n = some (.template parts)) (hrest : rest ⊆ parts) :
    (rest.map (·.map (tree.moved child))).mapM
        (Constant.segment? ⟨tree.parenthesize child, declarations, symbols⟩) =
      rest.mapM (Constant.segment? ⟨tree, declarations, symbols⟩) := by
  induction rest with
  | nil => rfl
  | cons part rest ih =>
    obtain ⟨hpart, hrest⟩ := List.cons_subset.mp hrest
    rw [List.map_cons, List.mapM_cons, List.mapM_cons, h.segment? hc hpart, ih hrest]

omit h in
/-- The initializer of a constant, moved. -/
private theorem initializer? (hnodes : ∀ {decl info}, declarations.get? decl = some info →
    info.node ≠ some tree.next) (decl : DeclId) :
    Constant.initializer? ⟨tree.parenthesize child, declarations, symbols⟩ decl =
      (Constant.initializer? ⟨tree, declarations, symbols⟩ decl).map
        (·.map (tree.moved child)) := by
  simp only [Constant.initializer?, Option.bind_eq_bind]
  cases hinfo : declarations.get? decl with
  | none => rfl
  | some info =>
    simp only [Option.bind_some]
    split
    · rfl
    · cases hn : info.node with
      | none => rfl
      | some n =>
        have hne : n ≠ tree.next := fun h => hnodes hinfo (h ▸ hn)
        simp only [Option.bind_some, content?_parenthesize hne]
        cases tree.content? n with
        | none => rfl
        | some c => cases c <;> rfl

/-- The initializer of a constant is not the next node. -/
private theorem initializer_ne_next {decl : DeclId} {initializer : Slot}
    (hinitializer : Constant.initializer? ⟨tree, declarations, symbols⟩ decl = some initializer) :
    initializer ≠ some tree.next := by
  rintro rfl
  obtain ⟨info, -, hinitializer⟩ := Option.bind_eq_some_iff.mp hinitializer
  split at hinitializer
  · cases hinitializer
  · obtain ⟨n, -, hinitializer⟩ := Option.bind_eq_some_iff.mp hinitializer
    obtain ⟨c, hc, hinitializer⟩ := Option.bind_eq_some_iff.mp hinitializer
    cases c with
    | variableDecl | field =>
      cases hinitializer
      exact h.fresh hc (List.mem_singleton_self _)
    | _ => cases hinitializer

/-- The value of a constant is the same, if both evaluations come to an end. -/
theorem evalFrom (hnodes : ∀ {decl info}, declarations.get? decl = some info →
      info.node ≠ some tree.next)
    {fuel fuel' : Nat} {visiting : List DeclId} {slot : Slot} (hslot : slot ≠ some tree.next) :
    Constant.Coincide
      (Constant.evalFrom ⟨tree, declarations, symbols⟩ fuel visiting slot)
      (Constant.evalFrom ⟨tree.parenthesize child, declarations, symbols⟩ fuel' visiting
        (slot.map (tree.moved child))) := by
  refine h.evalFrom_moved ?_ hslot
  clear hslot
  induction fuel with
  | zero => exact fun _ _ _ hvalue => by cases hvalue
  | succ fuel ih =>
    intro fuel' visiting n hn
    cases fuel' with
    | zero => exact fun _ _ _ hvalue' => by cases hvalue'
    | succ fuel' =>
      have hinner {visiting : List DeclId} {slot : Slot} (hslot : slot ≠ some tree.next) :
          Constant.Coincide
            (Constant.evalFrom ⟨tree, declarations, symbols⟩ fuel visiting slot)
            (Constant.evalFrom ⟨tree.parenthesize child, declarations, symbols⟩ fuel' visiting
              (slot.map (tree.moved child))) :=
        h.evalFrom_moved ih hslot
      have hn' : (tree.parenthesize child).content? n = _ := content?_parenthesize hn
      simp only [Constant.evalFrom, contentAt?, Option.bind_some, hn']
      cases hc : tree.content? n with
      | none => exact .refl _
      | some c =>
        have hchild {slot : Slot} (hslot : slot ∈ c.slots) : slot ≠ some tree.next := by
          rintro rfl
          exact h.fresh hc hslot
        cases c with
        | template parts =>
          simp only [Option.map_some, Content.relocate, h.segments? hc fun _ => id]
          exact .refl _
        | paren expression => exact hinner (hchild (List.mem_singleton_self _))
        | unary op operand =>
          simp only [Option.map_some, Content.relocate]
          split
          · exact .bind (hinner (hchild (List.mem_singleton_self _))) fun _ => .refl _
          · exact .refl _
        | binary op left right =>
          cases op with
          | add =>
            simp only [Option.map_some, Content.relocate]
            refine .bind (hinner (hchild (List.mem_cons_self ..))) fun left => ?_
            refine .bind (hinner (hchild (List.mem_cons_of_mem _ (List.mem_singleton_self _)))) ?_
            exact fun _ => .refl _
          | _ => exact .refl _
        | identifier name target =>
          cases target with
          | none => exact .refl _
          | some target =>
            simp only [Option.map_some, Content.relocate]
            split
            · exact .refl _
            · rw [initializer? hnodes]
              cases hinitializer : Constant.initializer? ⟨tree, declarations, symbols⟩
                  (declarations.canonical target) with
              | none => exact .refl _
              | some initializer => exact hinner (h.initializer_ne_next hinitializer)
        | _ => exact .refl _

end Wraps

end Tree

end ScriptTyping
