import ScriptTyping.Proofs.Tree.Loop
import ScriptTyping.Proofs.Tree.Promisification

/-!
# The nodes of a body in order

The body of a function consists of the nodes below the function that are not in a body of their own.
In a tree in which children come before their nodes, a recursive walk lists them, each before what
is below it; a node that is held twice is listed twice.  The search for exits keeps a stack instead:
it takes the last node from the stack and puts the children of the node there in reverse.  It ends,
and what it has found are the returned expressions and the yields of the list, in the same order.

## Main definitions

* `Tree.preorder`, `Tree.bodyNodes` — the nodes of a body from a node down, and below an owner.
* `Tree.exitsAmong` — the exits among listed nodes.
* `Tree.exitsLoop` — the search as a loop over a stack, without a limit.

## Main results

* `Tree.exitsFrom_eq` — what a search finds for the nodes on its stack.
* `Tree.returns_exitsFrom` — a search that ends is a run of the loop.
* `Tree.child_mem_bodyNodes` — the list goes on below all its nodes.
* `Tree.exits?_eq_bodyNodes` — the exits of a body.
-/

namespace ScriptTyping

namespace Content

/-- The expression that a node returns. -/
def returned? : Content → Slot
  | returnStatement expression => expression
  | _ => none

/-- Whether a node yields. -/
def isYield : Content → Bool
  | yieldExpr .. => true
  | _ => false

end Content

/-- A node adds what it returns and, if it yields, itself. -/
theorem Exits.push_eq (exits : Exits) (n : NodeId) (c : Content) : exits.push n c =
    ⟨exits.returns ++ c.returned?.toList, exits.yields ++ if c.isYield then [n] else []⟩ := by
  have hother : exits = ⟨exits.returns ++ [], exits.yields ++ []⟩ := by
    rw [List.append_nil, List.append_nil]
  cases c with
  | returnStatement expression =>
    cases expression with
    | none => exact hother
    | some expression => exact congrArg (Exits.mk _) (List.append_nil _).symm
  | yieldExpr => exact congrArg (Exits.mk · _) (List.append_nil _).symm
  | _ => exact hother

namespace Tree

/-- The nodes of the body that a node belongs to, from the node down.  Every node comes before what
is below it.  Functions, classes and members with code are left out, as bodies of their own. -/
def preorder (tree : Tree) (hup : tree.BottomUp) (n : NodeId) : List NodeId :=
  match _hcontent : tree.content? n with
  | none => []
  | some content =>
    if Exits.isBoundary content then []
    else n :: content.children.attach.flatMap fun child => tree.preorder hup child.1
termination_by n.index
decreasing_by
  refine hup n child.1 ?_
  rw [children, _hcontent]
  exact child.2

/-- The nodes of the body of an owner. -/
def bodyNodes (tree : Tree) (hup : tree.BottomUp) (owner : NodeId) : List NodeId :=
  (tree.children owner).flatMap (tree.preorder hup)

variable (tree : Tree)

/-- The expression that a node returns. -/
def returned? (n : NodeId) : Option NodeId := (tree.content? n).bind Content.returned?

/-- Whether a node yields. -/
def isYield (n : NodeId) : Bool := (tree.content? n).any Content.isYield

/-- The exits among nodes, in their order. -/
def exitsAmong (nodes : List NodeId) : Exits :=
  ⟨nodes.filterMap tree.returned?, nodes.filter tree.isYield⟩

/-- The search for exits as a loop: the next node is the last one on the stack. -/
def exitsLoop : Loop (List NodeId × Exits) Exits
  | (stack, found) =>
    match stack.getLast? with
    | none => .inr found
    | some n =>
      match tree.content? n with
      | none => .inl (stack.dropLast, found)
      | some content =>
        if Exits.isBoundary content then .inl (stack.dropLast, found)
        else .inl (stack.dropLast ++ content.children.reverse, found.push n content)

variable {tree} {hup : tree.BottomUp} {n child owner : NodeId} {content : Content}

/-! ### The walk -/

theorem preorder_eq_nil (hskip : (tree.content? n).all Exits.isBoundary = true) :
    tree.preorder hup n = [] := by
  rw [preorder]
  split
  · rfl
  · rename_i content hcontent
    rw [hcontent] at hskip
    exact if_pos hskip

theorem preorder_eq_cons (hcontent : tree.content? n = some content)
    (hboundary : Exits.isBoundary content = false) :
    tree.preorder hup n = n :: content.children.flatMap (tree.preorder hup) := by
  rw [preorder]
  split
  · rename_i hnone
    cases hcontent.symm.trans hnone
  · rename_i content' hcontent'
    cases hcontent.symm.trans hcontent'
    rw [if_neg (Bool.eq_false_iff.mp hboundary), List.flatMap_subtype fun _ _ => rfl,
      List.unattach_attach]

theorem mem_preorder_iff {m : NodeId} : n ∈ tree.preorder hup m ↔
    ∃ c, tree.content? m = some c ∧ Exits.isBoundary c = false ∧
      (n = m ∨ ∃ next ∈ c.children, n ∈ tree.preorder hup next) := by
  cases hcontent : tree.content? m with
  | none =>
    rw [preorder_eq_nil (by rw [hcontent]; rfl)]
    simp
  | some c =>
    cases hboundary : Exits.isBoundary c with
    | true =>
      rw [preorder_eq_nil (by rw [hcontent]; exact hboundary)]
      simp [hboundary]
    | false =>
      rw [preorder_eq_cons hcontent hboundary]
      simp [hboundary]

/-- The list of a body goes on below all its nodes, what is returned and yielded included, except
into bodies of their own. -/
theorem child_mem_bodyNodes (hn : n ∈ tree.bodyNodes hup owner) (hchild : child ∈ tree.children n)
    (hcontent : tree.content? child = some content)
    (hboundary : Exits.isBoundary content = false) : child ∈ tree.bodyNodes hup owner := by
  have hdescends : tree.Descends NodeId.index := hup
  have hself : child ∈ tree.preorder hup child :=
    mem_preorder_iff.mpr ⟨content, hcontent, hboundary, .inl rfl⟩
  -- By induction on where the walk starts, which comes after all that it lists.
  have hbelow (start : NodeId) (hn : n ∈ tree.preorder hup start) :
      child ∈ tree.preorder hup start := by
    induction hindex : start.index using Nat.strongRecOn generalizing start with
    | ind index ih =>
      obtain ⟨c, hc, hc', hn⟩ := mem_preorder_iff.mp hn
      refine mem_preorder_iff.mpr ⟨c, hc, hc', .inr ?_⟩
      rcases hn with rfl | ⟨next, hnext, hn⟩
      · rw [children, hc] at hchild
        exact ⟨child, hchild, hself⟩
      · have hlt : next.index < start.index :=
          hdescends.lt_of_mem hc hnext
        exact ⟨next, hnext, ih next.index (hindex ▸ hlt) next hn rfl⟩
  obtain ⟨start, hstart, hn⟩ := List.mem_flatMap.mp hn
  exact List.mem_flatMap.mpr ⟨start, hstart, hbelow start hn⟩

/-! ### The search -/

/-- What is found before, and the exits among nodes. -/
def exitsAfter (tree : Tree) (found : Exits) (nodes : List NodeId) : Exits :=
  ⟨found.returns ++ (tree.exitsAmong nodes).returns, found.yields ++ (tree.exitsAmong nodes).yields⟩

theorem exitsAfter_nil (found : Exits) : tree.exitsAfter found [] = found := by
  rw [exitsAfter, exitsAmong, List.filterMap_nil, List.filter_nil, List.append_nil, List.append_nil]

/-- A node that is met is an exit, or is not one. -/
theorem exitsAfter_cons (hcontent : tree.content? n = some content) (found : Exits)
    (nodes : List NodeId) :
    tree.exitsAfter found (n :: nodes) = tree.exitsAfter (found.push n content) nodes := by
  have hreturned : tree.returned? n = content.returned? := by
    rw [returned?, hcontent, Option.bind_some]
  have hyield : tree.isYield n = content.isYield := by rw [isYield, hcontent, Option.any_some]
  rw [exitsAfter, exitsAfter, exitsAmong, exitsAmong, Exits.push_eq, List.filterMap_cons,
    List.filter_cons, hreturned, hyield]
  cases content.returned? <;> cases content.isYield <;> simp

/-- A search that ends has found the exits among the nodes below those on its stack. -/
theorem exitsFrom_eq (hup : tree.BottomUp) {fuel : Nat} {stack : List NodeId}
    {found exits : Exits} (h : tree.exitsFrom fuel stack found = some exits) :
    exits = tree.exitsAfter found (stack.flatMap (tree.preorder hup)) := by
  induction fuel generalizing stack found with
  | zero =>
    cases stack with
    | nil =>
      cases h
      exact (exitsAfter_nil _).symm
    | cons n stack => cases h
  | succ fuel ih =>
    cases stack with
    | nil =>
      cases h
      exact (exitsAfter_nil _).symm
    | cons n stack =>
      rw [exitsFrom] at h
      rw [List.flatMap_cons]
      cases hcontent : tree.content? n with
      | none =>
        rw [hcontent] at h
        rw [preorder_eq_nil (by rw [hcontent]; rfl), List.nil_append]
        exact ih h
      | some content =>
        rw [hcontent] at h
        dsimp only at h
        cases hboundary : Exits.isBoundary content with
        | true =>
          rw [if_pos hboundary] at h
          rw [preorder_eq_nil (by rw [hcontent]; exact hboundary), List.nil_append]
          exact ih h
        | false =>
          rw [if_neg (Bool.eq_false_iff.mp hboundary)] at h
          rw [preorder_eq_cons hcontent hboundary, List.cons_append, exitsAfter_cons hcontent,
            ← List.flatMap_append]
          exact ih h

/-- A search that ends is a run of the loop, which keeps the stack the other way round. -/
theorem returns_exitsFrom {fuel : Nat} {stack : List NodeId} {found exits : Exits}
    (h : tree.exitsFrom fuel stack found = some exits) :
    ∃ rounds ≤ fuel, Loop.Returns tree.exitsLoop rounds (stack.reverse, found) exits := by
  induction fuel generalizing stack found with
  | zero =>
    cases stack with
    | nil =>
      cases h
      exact ⟨0, Nat.le_refl 0, .stop rfl⟩
    | cons n stack => cases h
  | succ fuel ih =>
    cases stack with
    | nil =>
      cases h
      exact ⟨0, Nat.zero_le _, .stop rfl⟩
    | cons n stack =>
      rw [exitsFrom] at h
      have hround : tree.exitsLoop ((n :: stack).reverse, found) =
          match tree.content? n with
          | none => .inl (stack.reverse, found)
          | some content =>
            if Exits.isBoundary content then .inl (stack.reverse, found)
            else .inl ((content.children ++ stack).reverse, found.push n content) := by
        rw [exitsLoop, List.reverse_cons, List.getLast?_concat, List.dropLast_concat]
        simp only [List.reverse_append]
      have hgoOn {stack' : List NodeId} {found' : Exits}
          (hnext : tree.exitsLoop ((n :: stack).reverse, found) = .inl (stack'.reverse, found'))
          (hrest : tree.exitsFrom fuel stack' found' = some exits) :
          ∃ rounds ≤ fuel + 1,
            Loop.Returns tree.exitsLoop rounds ((n :: stack).reverse, found) exits := by
        obtain ⟨rounds, hle, hreturns⟩ := ih hrest
        exact ⟨rounds + 1, Nat.succ_le_succ hle, .goOn hnext hreturns⟩
      cases hcontent : tree.content? n with
      | none =>
        rw [hcontent] at h hround
        exact hgoOn hround h
      | some content =>
        rw [hcontent] at h hround
        dsimp only at h hround
        split at h
        · rw [if_pos ‹_›] at hround
          exact hgoOn hround h
        · rw [if_neg ‹_›] at hround
          exact hgoOn hround h

/-! ### The exits of a body -/

/-- In a tree in which children come before their nodes, the search for the exits of a body ends,
also as a loop without a limit, and finds the returned expressions and the yields among the nodes of
the body, in the order of the recursive walk.  The walk goes on below what is returned and
yielded. -/
theorem exits?_eq_bodyNodes (tree : Tree) (hup : tree.BottomUp) (owner : NodeId) :
    tree.exits? owner = some (tree.exitsAmong (tree.bodyNodes hup owner)) ∧
    (∃ rounds, Loop.Returns tree.exitsLoop rounds ((tree.children owner).reverse, .none)
      (tree.exitsAmong (tree.bodyNodes hup owner))) ∧
    ∀ n ∈ tree.bodyNodes hup owner, ∀ child ∈ tree.children n, ∀ content,
      tree.content? child = some content → Exits.isBoundary content = false →
        child ∈ tree.bodyNodes hup owner := by
  have hdescends : tree.Descends NodeId.index := hup
  have hchildren : ∀ child ∈ tree.children owner, child.index ≤ tree.size := by
    intro child hchild
    have hlt := hup owner child hchild
    have howner := index_lt_of_mem_children hchild
    omega
  obtain ⟨exits, hexits⟩ := hdescends.exits?_ends hchildren
  have hfound : exits = tree.exitsAmong (tree.bodyNodes hup owner) := by
    rw [exitsFrom_eq hup hexits]
    rfl
  obtain ⟨rounds, -, hreturns⟩ := returns_exitsFrom hexits
  rw [hfound] at hexits hreturns
  exact ⟨hexits, ⟨rounds, hreturns⟩, fun n hn child hchild content hcontent hboundary =>
    child_mem_bodyNodes hn hchild hcontent hboundary⟩

/-- A function whose body holds one statement twice, which returns what it yields, and between the
two an arrow function, a class with a field, and an object literal with a method, a getter and a
setter, all of which yield. -/
def sharedStatement : Tree :=
  ofContents [.nullLiteral, .yieldExpr (some ⟨0⟩) false, .returnStatement (some ⟨1⟩),
    .functionDecl none true true [] [some ⟨2⟩], .method none false false [] [some ⟨2⟩],
    .getter none none false [some ⟨2⟩], .setter none none false none [some ⟨2⟩],
    .field none none (some ⟨1⟩) false false, .classDecl none false [some ⟨7⟩],
    .objectLiteral [some ⟨4⟩, some ⟨5⟩, some ⟨6⟩],
    .block [some ⟨2⟩, some ⟨3⟩, some ⟨8⟩, some ⟨9⟩, none, some ⟨2⟩],
    .functionDecl none false false [] [some ⟨10⟩]]

/-- A shared statement counts where the body holds it, and not in a function, a class or a member
with code of its own. -/
theorem exits?_eq_bodyNodes_sharedStatement : ∃ hup : sharedStatement.BottomUp,
    sharedStatement.exits? ⟨11⟩ = some ⟨[⟨1⟩, ⟨1⟩], [⟨1⟩, ⟨1⟩]⟩ ∧
    sharedStatement.exitsAmong (sharedStatement.bodyNodes hup ⟨11⟩) =
      ⟨[⟨1⟩, ⟨1⟩], [⟨1⟩, ⟨1⟩]⟩ := by
  have hup : sharedStatement.BottomUp := by decide
  have hexits : sharedStatement.exits? ⟨11⟩ = some ⟨[⟨1⟩, ⟨1⟩], [⟨1⟩, ⟨1⟩]⟩ := by decide
  have heq := (exits?_eq_bodyNodes sharedStatement hup ⟨11⟩).1
  exact ⟨hup, hexits, Option.some.inj (heq.symm.trans hexits)⟩

end Tree

end ScriptTyping
