import ScriptTyping.Tree.Basic

/-!
# Navigation in trees

Walking from a node to the nodes around it.  A parent is always added later than its children, so a
chain of parents is no longer than the tree; this is the fuel of all upward walks.

## Main definitions

* `Tree.ancestors`, `Tree.findAncestor?` — the nodes around a node, innermost first.
* `Tree.skipParensUp`, `Tree.stripParens?` — past enclosing and enclosed parentheses.
* `Tree.enclosingMember?`, `Tree.enclosingClass?`, `Tree.enclosingFunction?` — what a node is in.
* `Tree.isWriteAccess` — whether an expression is written to.
-/

namespace ScriptTyping.Tree

variable (tree : Tree)

/-- At most `fuel` ancestors of a node. -/
def ancestorsFrom : Nat → NodeId → List NodeId
  | 0, _ => []
  | fuel + 1, n =>
    match tree.parent? n with
    | some parent => parent :: ancestorsFrom fuel parent
    | none => []

/-- The nodes around a node, innermost first. -/
def ancestors (n : NodeId) : List NodeId := tree.ancestorsFrom tree.size n

/-- The innermost node around a node whose payload satisfies a condition. -/
def findAncestor? (n : NodeId) (p : Content → Bool) : Option NodeId :=
  (tree.ancestors n).find? fun a => (tree.content? a).any p

/-- Walks up to the first parent that is no pair of parentheses, over at most `fuel` of them.
Returns the parent and the child on the way to it. -/
def skipParensFrom : Nat → NodeId → Option NodeId × NodeId
  | 0, child => (tree.parent? child, child)
  | fuel + 1, child =>
    match tree.parent? child with
    | some parent =>
      if (tree.content? parent).any Content.isParen then skipParensFrom fuel parent
      else (some parent, child)
    | none => (none, child)

/-- The first parent that is no pair of parentheses, and the child on the way to it. -/
def skipParensUp (n : NodeId) : Option NodeId × NodeId := tree.skipParensFrom tree.size n

/-- Walks down to what stands inside parentheses, through at most `fuel` of them. -/
def stripParensFrom : Nat → Slot → Option Slot
  | 0, slot => if (tree.contentAt? slot).any Content.isParen then none else some slot
  | fuel + 1, slot =>
    match tree.contentAt? slot with
    | some (.paren expression) => stripParensFrom fuel expression
    | _ => some slot

/-- What stands inside parentheses; nothing when they contain themselves. -/
def stripParens? (slot : Slot) : Option Slot := tree.stripParensFrom tree.size slot

/-- The innermost member declaration around a node. -/
def enclosingMember? (n : NodeId) : Option NodeId := tree.findAncestor? n Content.isMember

/-- The class that directly owns the innermost member around a node. -/
def enclosingClass? (n : NodeId) : Option NodeId := do
  let member ← tree.enclosingMember? n
  let owner ← tree.parent? member
  match tree.content? owner with
  | some (.classDecl ..) => some owner
  | _ => none

/-- The innermost function whose body a node is in; arrow functions are skipped on demand. -/
def enclosingFunction? (n : NodeId) (skipArrows : Bool) : Option NodeId :=
  tree.findAncestor? n (Content.hasBody skipArrows)

/-- Whether an expression is written to: it stands on the left of an assignment or is incremented or
decremented, parentheses aside. -/
def isWriteAccess (n : NodeId) : Bool :=
  let (parent, child) := tree.skipParensUp n
  match tree.contentAt? parent with
  | some (.assignment _ left _) => left == some child
  | some (.unary op _) => op == .increment || op == .decrement
  | some (.postfixExpr ..) => true
  | _ => false

end ScriptTyping.Tree
