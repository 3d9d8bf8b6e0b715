import ScriptTyping.Proofs.Tree.Adoption
import ScriptTyping.Proofs.Tree.Parentheses

/-!
# Putting the promise form of a call under its `await`

An `await` that holds a call can be made to hold the promise form of the call instead.  A new node
comes between the two: the `await` holds it, and it holds the call.  What the other nodes see of the
tree stays the same: the search for what is around a node, past parentheses and along patterns, what
stands inside parentheses, the exits of a body and the values of constants.

The new node is passed by searches of its own tree only, so that they take a step more.  They are
given as many steps as there are nodes below, which is enough in a tree without a node inside
itself.

## Main definitions

* `Tree.promisify` — the tree with the promise form of a call in its place.
* `Tree.Awaits` — an `await` that holds a call, which nothing else holds.
* `Tree.Descends` — children come before their nodes in a rank.

## Main results

* `Tree.Descends.exits?_ends` — the search for exits ends.
* `Tree.Awaits.findAncestor?`, `Tree.Awaits.isWriteAccess`, `Tree.Awaits.patternPath?` — walks up.
* `Tree.Awaits.stripParensFrom`, `Tree.Awaits.exits?`, `Tree.Awaits.evalFrom` — walks down.
-/

namespace ScriptTyping

namespace Constant

variable {α β : Type} {x y : ConstM α} {f g : α → ConstM β}

/-- The second evaluation comes to the same end as the first one, if that ends. -/
def Extends (x y : ConstM α) : Prop := ∀ value, x.run = .ok value → y.run = .ok value

theorem Extends.refl (x : ConstM α) : Extends x x := fun _ hvalue => hvalue

theorem Extends.bind (h : Extends x y) (hf : ∀ a, Extends (f a) (g a)) :
    Extends (x >>= f) (y >>= g) := by
  intro value hvalue
  rw [OptionT.run_bind] at hvalue ⊢
  cases ha : x.run with
  | error =>
    rw [ha] at hvalue
    cases hvalue
  | ok a =>
    rw [h a ha]
    rw [ha] at hvalue
    cases a with
    | none => exact hvalue
    | some a => exact hf a value hvalue

end Constant

namespace Tree

/-! ### Searches that end -/

/-- Children come before their nodes in a rank. -/
def Descends (tree : Tree) (rank : NodeId → Nat) : Prop :=
  ∀ n, ∀ child ∈ tree.children n, rank child < rank n

namespace Descends

variable {tree : Tree} {rank : NodeId → Nat} {n : NodeId} {c : Content}

theorem lt_of_mem (h : tree.Descends rank) (hc : tree.content? n = some c) {child : NodeId}
    (hchild : child ∈ c.children) : rank child < rank n := by
  refine h n child ?_
  rw [children, hc]
  exact hchild

/-- What is counted at a node covers the node and what is counted at its children. -/
theorem searchSize_children (h : tree.Descends rank) (hc : tree.content? n = some c)
    (hboundary : Exits.isBoundary c = false) {depth : Nat} (hdepth : rank n ≤ depth) :
    ∃ rest, (∀ child ∈ c.children, rank child ≤ rest) ∧
      tree.searchSize depth n = 1 + (c.children.map (tree.searchSize rest)).foldr (· + ·) 0 := by
  cases depth with
  | zero =>
    have hnone : c.children = [] := List.eq_nil_iff_forall_not_mem.mpr fun child hchild => by
      have hlt := h.lt_of_mem hc hchild
      omega
    refine ⟨0, fun child hchild => ?_, ?_⟩
    · rw [hnone] at hchild
      cases hchild
    · rw [hnone]
      rfl
  | succ rest =>
    refine ⟨rest, fun child hchild => ?_, ?_⟩
    · have hlt := h.lt_of_mem hc hchild
      omega
    · rw [searchSize, hc]
      dsimp only
      rw [if_neg (by rw [hboundary]; decide)]

theorem searchSize_pos (tree : Tree) (depth : Nat) (n : NodeId) : 0 < tree.searchSize depth n := by
  cases depth with
  | zero => exact Nat.one_pos
  | succ depth =>
    rw [searchSize]
    split
    · exact Nat.one_pos
    · split
      · exact Nat.one_pos
      · omega

/-- A search ends that may take as many nodes as are counted at those on the stack, each to a depth
that its rank does not exceed. -/
theorem exitsFrom_ends (h : tree.Descends rank) {fuel : Nat} {stack : List (NodeId × Nat)}
    (hstack : ∀ entry ∈ stack, rank entry.1 ≤ entry.2)
    (hfuel : (stack.map fun entry => tree.searchSize entry.2 entry.1).foldr (· + ·) 0 ≤ fuel)
    (found : Exits) :
    ∃ exits, tree.exitsFrom fuel (stack.map Prod.fst) found = some exits := by
  induction fuel generalizing stack found with
  | zero =>
    cases stack with
    | nil => exact ⟨found, rfl⟩
    | cons entry stack =>
      have hpos := searchSize_pos tree entry.2 entry.1
      rw [List.map_cons, List.foldr_cons] at hfuel
      omega
  | succ fuel ih =>
    cases stack with
    | nil => exact ⟨found, rfl⟩
    | cons entry stack =>
      obtain ⟨n, depth⟩ := entry
      obtain ⟨hn, hstack⟩ := List.forall_mem_cons.mp hstack
      have hpos := searchSize_pos tree depth n
      rw [List.map_cons, List.foldr_cons] at hfuel
      dsimp only at hfuel hn
      have hskip (found : Exits) : ∃ exits,
          tree.exitsFrom fuel (stack.map Prod.fst) found = some exits :=
        ih hstack (by omega) found
      rw [List.map_cons, exitsFrom]
      cases hc : tree.content? n with
      | none => exact hskip found
      | some c =>
        dsimp only
        cases hboundary : Exits.isBoundary c with
        | true => exact hskip found
        | false =>
          obtain ⟨rest, hchildren, hsize⟩ := h.searchSize_children hc hboundary hn
          have hstack' : ∀ entry ∈ c.children.map (·, rest) ++ stack, rank entry.1 ≤ entry.2 := by
            intro entry hentry
            rcases List.mem_append.mp hentry with hentry | hentry
            · obtain ⟨child, hchild, rfl⟩ := List.mem_map.mp hentry
              exact hchildren child hchild
            · exact hstack entry hentry
          have hfuel' : ((c.children.map (·, rest) ++ stack).map fun entry =>
              tree.searchSize entry.2 entry.1).foldr (· + ·) 0 ≤ fuel := by
            rw [List.map_append, List.foldr_append, List.map_map,
              ← Nat.zero_add (List.foldr _ 0 (stack.map _)), List.foldr_assoc]
            change (c.children.map (tree.searchSize rest)).foldr (· + ·) 0 + _ ≤ fuel
            omega
          have hends := ih hstack' hfuel' (found.push n c)
          rw [List.map_append, List.map_map, Function.comp_def, List.map_id'] at hends
          exact hends

/-- The search for the exits of a body ends, if the depth to which nodes are counted covers the
ranks of what it starts from. -/
theorem exits?_ends (h : tree.Descends rank) {owner : NodeId}
    (howner : ∀ child ∈ tree.children owner, rank child ≤ tree.size) :
    ∃ exits, tree.exits? owner = some exits := by
  have hstack : ∀ entry ∈ (tree.children owner).map (·, tree.size), rank entry.1 ≤ entry.2 := by
    intro entry hentry
    obtain ⟨child, hchild, rfl⟩ := List.mem_map.mp hentry
    exact howner child hchild
  have hends := h.exitsFrom_ends hstack (Nat.le_refl _) .none
  simp only [List.map_map, Function.comp_def, List.map_id'] at hends
  exact hends

end Descends

/-- The tree in which an `await` holds the promise form of a call in place of the call: a new node
stands between the two. -/
def promisify (tree : Tree) (await call : NodeId) : Tree :=
  ⟨(tree.nodes.mapIdx fun i node =>
    { content := if i = await.index then .awaitExpr (some tree.next) else node.content
      parent := if i = call.index then some tree.next else node.parent }).push
    ⟨.promisify (some call), some await⟩⟩

/-- An `await` holds a call, which no other node holds, in a tree that is put together from the
children upwards. -/
structure Awaits (tree : Tree) (await call : NodeId) : Prop where
  built : tree.Built
  bottomUp : tree.BottomUp
  holds : tree.content? await = some (.awaitExpr (some call))
  isCall : ∃ target typeArgs args, tree.content? call = some (.call target typeArgs args)
  adopts : tree.Adopts await call

variable {tree : Tree} {await call : NodeId}

/-! ### The nodes -/

theorem size_promisify (tree : Tree) (await call : NodeId) :
    (tree.promisify await call).size = tree.size + 1 := by
  simp [size, promisify]

theorem get?_promisify_next (tree : Tree) (await call : NodeId) :
    (tree.promisify await call).get? tree.next = some ⟨.promisify (some call), some await⟩ := by
  simp only [get?, promisify, next, size, Array.getElem?_push, Array.size_mapIdx, if_true]

theorem get?_promisify {n : NodeId} (hn : n ≠ tree.next) :
    (tree.promisify await call).get? n = (tree.get? n).map fun node =>
      ⟨if n = await then .awaitExpr (some tree.next) else node.content,
        if n = call then some tree.next else node.parent⟩ := by
  have hindex : n.index ≠ tree.nodes.size := fun h => hn (congrArg NodeId.mk h)
  have hsame (m : NodeId) : n.index = m.index ↔ n = m :=
    ⟨fun h => congrArg NodeId.mk h, fun h => congrArg NodeId.index h⟩
  simp [get?, promisify, Array.getElem?_push, hindex, hsame]

@[simp] theorem content?_promisify_next (tree : Tree) (await call : NodeId) :
    (tree.promisify await call).content? tree.next = some (.promisify (some call)) := by
  rw [content?, get?_promisify_next, Option.map_some]

theorem content?_promisify {n : NodeId} (hn : n ≠ tree.next) (hawait : n ≠ await) :
    (tree.promisify await call).content? n = tree.content? n := by
  rw [content?, get?_promisify hn, content?, Option.map_map]
  simp only [if_neg hawait, Function.comp_def]

theorem parent?_promisify_next (tree : Tree) (await call : NodeId) :
    (tree.promisify await call).parent? tree.next = some await := by
  rw [parent?, get?_promisify_next, Option.bind_some]

theorem parent?_promisify {n : NodeId} (hn : n ≠ tree.next) (hcall : n ≠ call) :
    (tree.promisify await call).parent? n = tree.parent? n := by
  rw [parent?, get?_promisify hn, Option.bind_map, parent?]
  simp only [if_neg hcall, Function.comp_def]

namespace Awaits

variable (h : tree.Awaits await call)

include h

theorem proper : tree.Proper := h.built.proper

theorem parent?_call : tree.parent? call = some await :=
  h.built.parent?_of_adopts h.bottomUp h.adopts

theorem index_call_lt : call.index < await.index := h.bottomUp await call h.adopts.1

theorem call_ne_next : call ≠ tree.next := by
  obtain ⟨target, typeArgs, args, hc⟩ := h.isCall
  exact ne_next_of_content? hc

/-- A child of a node is not the next one. -/
theorem slot_ne_next {n m : NodeId} {c : Content} (hc : tree.content? n = some c)
    (hm : some m ∈ c.slots) : m ≠ tree.next := by
  rintro rfl
  have hchild := h.bottomUp n tree.next (mem_children_iff.mpr ⟨c, hc, hm⟩)
  exact Nat.lt_asymm hchild (index_lt_of_content? hc)

/-- A node of another kind is not the call. -/
theorem ne_call {n : NodeId} {c : Content} (hc : tree.content? n = some c)
    (hkind : ∀ target typeArgs args, c ≠ .call target typeArgs args) : n ≠ call := by
  rintro rfl
  obtain ⟨target, typeArgs, args, hcall⟩ := h.isCall
  exact hkind _ _ _ (Option.some.inj (hc.symm.trans hcall))

theorem parent_ne_next {n m : NodeId} (hm : tree.parent? n = some m) : m ≠ tree.next := by
  obtain ⟨c, hc, -⟩ := h.proper.holds hm
  exact ne_next_of_content? hc

theorem content?_await :
    (tree.promisify await call).content? await = some (.awaitExpr (some tree.next)) := by
  obtain ⟨node, hnode, -⟩ := Option.map_eq_some_iff.mp h.holds
  rw [content?, get?_promisify (ne_next_of_content? h.holds), hnode]
  simp

theorem parent?_promisify_call :
    (tree.promisify await call).parent? call = some tree.next := by
  obtain ⟨target, typeArgs, args, hc⟩ := h.isCall
  obtain ⟨node, hnode, -⟩ := Option.map_eq_some_iff.mp hc
  rw [parent?, get?_promisify h.call_ne_next, hnode]
  simp

/-- Another node than an `await` stays as it is. -/
theorem content?_eq {n : NodeId} {c : Content} (hc : tree.content? n = some c)
    (hkind : ∀ slot, c ≠ .awaitExpr slot) :
    (tree.promisify await call).content? n = some c := by
  rw [content?_promisify (ne_next_of_content? hc), hc]
  rintro rfl
  exact hkind _ (Option.some.inj (hc.symm.trans h.holds))

/-- Under a handle both trees have the same node, except for the new node and the `await`. -/
theorem content?_cases (n : NodeId) :
    (tree.promisify await call).content? n = tree.content? n ∨
    (tree.content? n = none ∧
      (tree.promisify await call).content? n = some (.promisify (some call))) ∨
    (tree.content? n = some (.awaitExpr (some call)) ∧
      (tree.promisify await call).content? n = some (.awaitExpr (some tree.next))) := by
  by_cases hn : n = tree.next
  · subst hn
    exact .inr (.inl ⟨content?_next tree, content?_promisify_next tree await call⟩)
  · by_cases hawait : n = await
    · subst hawait
      exact .inr (.inr ⟨h.holds, h.content?_await⟩)
    · exact .inl (content?_promisify hn hawait)

/-- The same for the node in a slot. -/
theorem contentAt?_cases (slot : Slot) :
    (tree.promisify await call).contentAt? slot = tree.contentAt? slot ∨
    (tree.contentAt? slot = none ∧
      (tree.promisify await call).contentAt? slot = some (.promisify (some call))) ∨
    (tree.contentAt? slot = some (.awaitExpr (some call)) ∧
      (tree.promisify await call).contentAt? slot = some (.awaitExpr (some tree.next))) := by
  cases slot with
  | none => exact .inl rfl
  | some n => exact h.content?_cases n

/-- A predicate that holds of neither `await` nor `promisify`. -/
theorem any_contentAt? {P : Content → Bool} (hawait : ∀ slot, P (.awaitExpr slot) = false)
    (hpromisify : ∀ slot, P (.promisify slot) = false) (slot : Slot) :
    ((tree.promisify await call).contentAt? slot).any P = (tree.contentAt? slot).any P := by
  rcases h.contentAt?_cases slot with hsame | ⟨hc, hc'⟩ | ⟨hc, hc'⟩
  · rw [hsame]
  · rw [hc, hc', Option.any_some, hpromisify, Option.any_none]
  · rw [hc, hc', Option.any_some, Option.any_some, hawait, hawait]

theorem any_content? {P : Content → Bool} (hawait : ∀ slot, P (.awaitExpr slot) = false)
    (hpromisify : ∀ slot, P (.promisify slot) = false) (n : NodeId) :
    ((tree.promisify await call).content? n).any P = (tree.content? n).any P :=
  h.any_contentAt? hawait hpromisify (some n)

/-- Parent links still climb. -/
theorem climbs : (tree.promisify await call).Climbs (tree.wrappedRank call) := by
  have hcall := h.index_call_lt
  refine ⟨fun {n m} hm => ?_⟩
  rw [size_promisify]
  by_cases hn : n = tree.next
  · subst hn
    rw [parent?_promisify_next] at hm
    cases hm
    have hsize := index_lt_of_content? h.holds
    rw [wrappedRank_next, wrappedRank_of_ne (ne_next_of_content? h.holds), if_neg (by omega)]
    omega
  · by_cases hnode : n = call
    · subst hnode
      rw [h.parent?_promisify_call] at hm
      cases hm
      have hsize := index_lt_of_content? h.holds
      rw [wrappedRank_next, wrappedRank_of_ne hn, if_pos (Nat.le_refl _)]
      omega
    · rw [parent?_promisify hn hnode] at hm
      have hlt := h.proper.later hm
      have hbound := (h.proper.climbs.step hm).2
      rw [wrappedRank_of_ne hn, wrappedRank_of_ne (h.parent_ne_next hm)]
      split
      · split <;> omega
      · rw [if_neg (by omega)]
        omega

/-! ### Walks up -/

/-- What is around a node is found as before, if it is told apart from `await` and `promisify`. -/
theorem findAncestor? {P : Content → Bool} (hawait : ∀ slot, P (.awaitExpr slot) = false)
    (hpromisify : ∀ slot, P (.promisify slot) = false) {n : NodeId} (hn : n ≠ tree.next) :
    (tree.promisify await call).findAncestor? n P = tree.findAncestor? n P := by
  induction n using h.proper.climbs.upward with | step n ih => ?_
  -- One step from a node of the first tree.
  have hstep : ((tree.parent? n).bind fun m =>
        if ((tree.promisify await call).content? m).any P then some m
        else (tree.promisify await call).findAncestor? m P) = tree.findAncestor? n P := by
    rw [h.proper.climbs.findAncestor?_eq n]
    refine Option.bind_congr fun m hm => ?_
    rw [h.any_content? hawait hpromisify, ih m hm (h.parent_ne_next hm)]
  by_cases hnode : n = call
  · subst hnode
    rw [h.climbs.findAncestor?_eq, h.parent?_promisify_call, Option.bind_some,
      content?_promisify_next, Option.any_some, hpromisify, if_neg Bool.false_ne_true,
      h.climbs.findAncestor?_eq, parent?_promisify_next, ← h.parent?_call]
    exact hstep
  · rw [h.climbs.findAncestor?_eq, parent?_promisify hn hnode]
    exact hstep

/-- The first parent that is no pair of parentheses stays the same, except for the call. -/
theorem skipParensUp {n : NodeId} (hn : n ≠ tree.next) (hcall : n ≠ call) :
    (tree.promisify await call).skipParensUp n = tree.skipParensUp n := by
  induction n using h.proper.climbs.upward with | step n ih => ?_
  rw [h.climbs.skipParensUp_eq n, h.proper.climbs.skipParensUp_eq n, parent?_promisify hn hcall]
  cases hm : tree.parent? n with
  | none => rfl
  | some m =>
    have hnext := h.parent_ne_next hm
    rw [Option.elim_some, Option.elim_some, h.any_content? (fun _ => rfl) fun _ => rfl]
    split
    · rename_i hisParen
      refine ih m hm hnext ?_
      rintro rfl
      obtain ⟨target, typeArgs, args, hc⟩ := h.isCall
      rw [hc] at hisParen
      cases hisParen
    · rfl

/-- An expression is written to as before. -/
theorem isWriteAccess {n : NodeId} (hn : n ≠ tree.next) (hcall : n ≠ call) :
    (tree.promisify await call).isWriteAccess n = tree.isWriteAccess n := by
  simp only [Tree.isWriteAccess, h.skipParensUp hn hcall]
  rcases h.contentAt?_cases (tree.skipParensUp n).1 with hsame | ⟨hc, hc'⟩ | ⟨hc, hc'⟩
  · rw [hsame]
  · rw [hc, hc']
  · rw [hc, hc']

/-- The step from a pattern to one of its elements. -/
theorem patternStep? {element : NodeId} (helement : element ≠ tree.next) :
    (tree.promisify await call).patternStep? element = tree.patternStep? element := by
  have hrest : (tree.promisify await call).isRestElement element =
      tree.isRestElement element := by
    unfold Tree.isRestElement
    rcases h.content?_cases element with hsame | ⟨hc, hc'⟩ | ⟨hc, hc'⟩
    · rw [hsame]
    · rw [hc, hc']
    · rw [hc, hc']
  unfold Tree.patternStep?
  by_cases hcall : element = call
  · simp only [hcall, h.parent?_promisify_call, h.parent?_call, content?_promisify_next, h.holds,
      Option.bind_eq_bind, Option.bind_some]
  rw [parent?_promisify helement hcall, hrest]
  refine Option.bind_congr fun container hcontainer => ?_
  obtain ⟨c, hc, -⟩ := h.proper.holds hcontainer
  have hnext := ne_next_of_content? hc
  by_cases hnode : container = await
  · simp only [hnode, h.content?_await, h.holds, Option.bind_eq_bind, Option.bind_some]
  · rw [content?_promisify hnext hnode, hc]
    simp only [Option.bind_eq_bind, Option.bind_some]
    cases c with
    | bindingProperty name value =>
      dsimp only
      rw [parent?_promisify hnext (h.ne_call hc nofun)]
      refine Option.bind_congr fun pattern _ => ?_
      rcases h.content?_cases pattern with hsame | ⟨hc, hc'⟩ | ⟨hc, hc'⟩
      · rw [hsame]
      · rw [hc, hc']
        rfl
      · rw [hc, hc']
        rfl
    | _ => rfl

/-- The pattern of an element is a pattern. -/
private theorem pattern_ne_call {element pattern : NodeId} {step : PatternStep}
    (hstep : tree.patternStep? element = some (step, pattern)) :
    pattern ≠ tree.next ∧ pattern ≠ call := by
  obtain ⟨container, hcontainer, hstep⟩ := Option.bind_eq_some_iff.mp hstep
  obtain ⟨c, hc, hstep⟩ := Option.bind_eq_some_iff.mp hstep
  cases c with
  | arrayPattern =>
    cases hstep
    exact ⟨ne_next_of_content? hc, h.ne_call hc nofun⟩
  | bindingProperty =>
    obtain ⟨q, -, hstep⟩ := Option.bind_eq_some_iff.mp hstep
    obtain ⟨c, hc, hstep⟩ := Option.bind_eq_some_iff.mp hstep
    cases c with
    | objectPattern =>
      cases hstep
      exact ⟨ne_next_of_content? hc, h.ne_call hc nofun⟩
    | _ => cases hstep
  | _ => cases hstep

/-- The way from a binding to one of its elements. -/
theorem patternPathFrom (fuel : Nat) {element : NodeId} (helement : element ≠ tree.next)
    (steps : List PatternStep) :
    (tree.promisify await call).patternPathFrom fuel element steps =
      tree.patternPathFrom fuel element steps := by
  induction fuel generalizing element steps with
  | zero => rfl
  | succ fuel ih =>
    simp only [Tree.patternPathFrom, Option.bind_eq_bind, h.patternStep? helement]
    refine Option.bind_congr fun found hfound => ?_
    obtain ⟨hnext, hnode⟩ := h.pattern_ne_call hfound
    rw [parent?_promisify hnext hnode]
    refine Option.bind_congr fun owner howner => ?_
    obtain ⟨c, hc, -⟩ := h.proper.holds howner
    have hne := ne_next_of_content? hc
    by_cases hawait : owner = await
    · simp only [hawait, h.content?_await, h.holds, Option.bind_some]
    · rw [content?_promisify hne hawait, hc, Option.bind_some, Option.bind_some]
      cases c with
      | bindingElement => exact ih hne _
      | _ => rfl

/-- The way from a binding to one of its variables. -/
theorem patternPath? {n : NodeId} {c : Content} (hc : tree.content? n = some c)
    (hkind : ∀ target typeArgs args, c ≠ .call target typeArgs args) :
    (tree.promisify await call).patternPath? n = tree.patternPath? n := by
  unfold Tree.patternPath?
  rw [parent?_promisify (ne_next_of_content? hc) (h.ne_call hc hkind), size_promisify]
  refine Option.bind_congr fun element helement => ?_
  have hfuel : tree.size ≤ element.index + tree.size + 1 := by omega
  rw [h.patternPathFrom _ (h.parent_ne_next helement), h.proper.climbs.patternPathFrom_succ hfuel]

/-! ### Walks down -/

/-- What stands inside parentheses is the same. -/
theorem stripParensFrom {fuel fuel' : Nat} (hle : fuel ≤ fuel') {slot inner : Slot}
    (hinner : tree.stripParensFrom fuel slot = some inner) :
    (tree.promisify await call).stripParensFrom fuel' slot = some inner := by
  induction fuel using Nat.strongRecOn generalizing fuel' slot with | ind fuel ih => ?_
  cases hparen : (tree.contentAt? slot).any Content.isParen with
  | false =>
    have hparen' : ((tree.promisify await call).contentAt? slot).any Content.isParen = false :=
      (h.any_contentAt? (fun _ => rfl) (fun _ => rfl) slot).trans hparen
    rw [stripParensFrom_of_not_paren slot hparen] at hinner
    rw [stripParensFrom_of_not_paren slot hparen', hinner]
  | true =>
    obtain ⟨c, hc, hparen⟩ := (Option.any_eq_true _ _).mp hparen
    cases c with
    | paren expression =>
      obtain ⟨n, rfl, hn⟩ := Option.bind_eq_some_iff.mp hc
      obtain ⟨rest, rfl, hrest⟩ := stripParensFrom_paren hn hinner
      obtain ⟨rest', rfl⟩ : ∃ k, fuel' = k + 1 := ⟨fuel' - 1, by omega⟩
      have hn' : (tree.promisify await call).contentAt? (some n) = some (.paren expression) :=
        h.content?_eq hn nofun
      rw [Tree.stripParensFrom, hn']
      exact ih rest (Nat.lt_succ_self rest) (Nat.le_of_succ_le_succ hle) hrest
    | _ => cases hparen

/-- Children come before their nodes in the rank in which parent links climb. -/
theorem descends : (tree.promisify await call).Descends (tree.wrappedRank call) := by
  intro n child hchild
  have hcall := h.index_call_lt
  obtain ⟨c, hc, hslot⟩ := mem_children_iff.mp hchild
  by_cases hn : n = tree.next
  · subst hn
    rw [content?_promisify_next] at hc
    obtain rfl := Option.some.inj hc
    obtain rfl := Option.some.inj (List.mem_singleton.mp hslot)
    rw [wrappedRank_next, wrappedRank_of_ne h.call_ne_next, if_pos (Nat.le_refl _)]
    omega
  · by_cases hawait : n = await
    · subst hawait
      rw [h.content?_await] at hc
      obtain rfl := Option.some.inj hc
      obtain rfl := Option.some.inj (List.mem_singleton.mp hslot)
      rw [wrappedRank_next, wrappedRank_of_ne hn, if_neg (by omega)]
      omega
    · rw [content?_promisify hn hawait] at hc
      have hlt := h.bottomUp n child (mem_children_iff.mpr ⟨c, hc, hslot⟩)
      rw [wrappedRank_of_ne hn, wrappedRank_of_ne (h.slot_ne_next hc hslot)]
      split <;> split <;> omega

omit h in
/-- A search takes the new node, and goes on with the call. -/
private theorem exitsFrom_next (fuel : Nat) (stack : List NodeId) (found : Exits) :
    (tree.promisify await call).exitsFrom (fuel + 1) (tree.next :: stack) found =
      (tree.promisify await call).exitsFrom fuel (call :: stack) found := by
  rw [Tree.exitsFrom, content?_promisify_next]
  rfl

/-- The exits of a body are the same, if both searches come to an end. -/
theorem exitsFrom {fuel fuel' : Nat} {stack : List NodeId} {found exits exits' : Exits}
    (hstack : tree.next ∉ stack) (hexits : tree.exitsFrom fuel stack found = some exits)
    (hexits' : (tree.promisify await call).exitsFrom fuel' stack found = some exits') :
    exits' = exits := by
  induction fuel generalizing fuel' stack found with
  | zero =>
    cases stack with
    | nil =>
      rw [Tree.exitsFrom] at hexits hexits'
      exact Option.some.inj (hexits'.symm.trans hexits)
    | cons n stack => cases hexits
  | succ fuel ih =>
    cases stack with
    | nil =>
      rw [Tree.exitsFrom] at hexits hexits'
      exact Option.some.inj (hexits'.symm.trans hexits)
    | cons n stack =>
      obtain ⟨hn, hstack⟩ := not_or.mp (mt List.mem_cons.mpr hstack)
      cases fuel' with
      | zero => cases hexits'
      | succ fuel' =>
        by_cases hawait : n = await
        · subst hawait
          rw [Tree.exitsFrom, h.holds] at hexits
          rw [Tree.exitsFrom, h.content?_await] at hexits'
          cases fuel' with
          | zero => cases hexits'
          | succ fuel' =>
            have hexits' := (exitsFrom_next fuel' stack found).symm.trans hexits'
            refine ih (fun hmem => ?_) hexits hexits'
            exact (List.mem_cons.mp hmem).elim (fun he => h.call_ne_next he.symm) hstack
        · have hn' : (tree.promisify await call).content? n = tree.content? n :=
            content?_promisify (Ne.symm hn) hawait
          cases hc : tree.content? n with
          | none =>
            rw [Tree.exitsFrom, hc] at hexits
            rw [Tree.exitsFrom, hn', hc] at hexits'
            exact ih hstack hexits hexits'
          | some c =>
            rw [Tree.exitsFrom, hc] at hexits
            rw [Tree.exitsFrom, hn', hc] at hexits'
            dsimp only at hexits hexits'
            split at hexits
            · rw [if_pos ‹_›] at hexits'
              exact ih hstack hexits hexits'
            · rw [if_neg ‹_›] at hexits'
              refine ih (fun hmem => ?_) hexits hexits'
              rcases List.mem_append.mp hmem with hmem | hmem
              · obtain ⟨_, hslot, rfl⟩ := List.mem_filterMap.mp hmem
                exact h.slot_ne_next hc hslot rfl
              · exact hstack hmem

/-- The exits of a body are the same. -/
theorem exits? {owner : NodeId} (howner : owner ≠ tree.next) {exits : Exits}
    (hexits : tree.exits? owner = some exits) :
    (tree.promisify await call).exits? owner = some exits := by
  obtain ⟨exits', hexits'⟩ : ∃ exits', (tree.promisify await call).exits? owner = some exits' := by
    refine h.descends.exits?_ends fun child hchild => ?_
    have hlt := h.descends owner child hchild
    have hsize := index_lt_of_mem_children hchild
    have hcall := index_lt_of_content? h.holds
    have hindex := h.index_call_lt
    rw [wrappedRank_of_ne howner] at hlt
    rw [size_promisify] at hsize ⊢
    split at hlt <;> omega
  rw [hexits', Option.some.injEq]
  unfold Tree.exits? at hexits hexits'
  by_cases hawait : owner = await
  · subst hawait
    have hchildren : tree.children owner = [call] := by rw [children, h.holds]; rfl
    have hchildren' : (tree.promisify owner call).children owner = [tree.next] := by
      rw [children, h.content?_await]
      rfl
    rw [hchildren] at hexits
    rw [hchildren'] at hexits'
    dsimp only at hexits'
    generalize (([tree.next].map ((tree.promisify owner call).searchSize
      (tree.promisify owner call).size)).foldr (· + ·) 0) = fuel at hexits'
    cases fuel with
    | zero => cases hexits'
    | succ fuel =>
      rw [exitsFrom_next] at hexits'
      exact h.exitsFrom (by simpa using h.call_ne_next.symm) hexits hexits'
  · have hchildren : (tree.promisify await call).children owner = tree.children owner := by
      rw [children, content?_promisify howner hawait, children]
    rw [hchildren] at hexits'
    refine h.exitsFrom (fun hmem => ?_) hexits hexits'
    obtain ⟨c, hc, hslot⟩ := mem_children_iff.mp hmem
    exact h.slot_ne_next hc hslot rfl

variable {declarations : Declarations} {symbols : SymbolTable}

/-- The initializer of a constant. -/
private theorem initializer? (decl : DeclId) :
    Constant.initializer? ⟨tree.promisify await call, declarations, symbols⟩ decl =
      Constant.initializer? ⟨tree, declarations, symbols⟩ decl := by
  simp only [Constant.initializer?, Option.bind_eq_bind]
  refine Option.bind_congr fun info _ => ?_
  split
  · rfl
  · refine Option.bind_congr fun n _ => ?_
    rcases h.content?_cases n with hsame | ⟨hc, hc'⟩ | ⟨hc, hc'⟩
    · rw [hsame]
    · rw [hc, hc']
      rfl
    · rw [hc, hc']
      rfl

/-- A segment of a template. -/
private theorem segment? (part : Slot) :
    Constant.segment? ⟨tree.promisify await call, declarations, symbols⟩ part =
      Constant.segment? ⟨tree, declarations, symbols⟩ part := by
  unfold Constant.segment?
  rcases h.contentAt?_cases part with hsame | ⟨hc, hc'⟩ | ⟨hc, hc'⟩
  · rw [hsame]
  · rw [hc, hc']
  · rw [hc, hc']

/-- The value of a constant is the same. -/
theorem evalFrom {fuel fuel' : Nat} (hle : fuel ≤ fuel') (visiting : List DeclId) (slot : Slot) :
    Constant.Extends
      (Constant.evalFrom ⟨tree, declarations, symbols⟩ fuel visiting slot)
      (Constant.evalFrom ⟨tree.promisify await call, declarations, symbols⟩ fuel' visiting
        slot) := by
  induction fuel generalizing fuel' visiting slot with
  | zero => exact fun _ hvalue => by cases hvalue
  | succ fuel ih =>
    obtain ⟨fuel', rfl⟩ : ∃ k, fuel' = k + 1 := ⟨fuel' - 1, by omega⟩
    have hle := Nat.le_of_succ_le_succ hle
    have hsegment : Constant.segment? ⟨tree.promisify await call, declarations, symbols⟩ =
        Constant.segment? ⟨tree, declarations, symbols⟩ := funext h.segment?
    simp only [Constant.evalFrom, hsegment, h.initializer?]
    cases slot with
    | none => exact .refl _
    | some n =>
      simp only [contentAt?, Option.bind_some]
      by_cases hn : n = tree.next
      · rw [hn, content?_promisify_next, content?_next]
        exact .refl _
      by_cases hawait : n = await
      · rw [hawait, h.content?_await, h.holds]
        exact .refl _
      rw [content?_promisify hn hawait]
      cases tree.content? n with
      | none => exact .refl _
      | some c =>
        cases c with
        | paren expression => exact ih hle visiting expression
        | unary op operand =>
          dsimp only
          split
          · exact .bind (ih hle visiting operand) fun _ => .refl _
          · exact .refl _
        | binary op left right =>
          cases op with
          | add =>
            refine .bind (ih hle visiting left) fun left => ?_
            exact .bind (ih hle visiting right) fun _ => .refl _
          | _ => exact .refl _
        | identifier name target =>
          cases target with
          | none => exact .refl _
          | some target =>
            dsimp only
            split
            · exact .refl _
            · refine .bind (.refl _) fun initializer => ?_
              exact ih hle _ initializer
        | _ => exact .refl _

end Awaits

end Tree

end ScriptTyping
