import ScriptTyping.Tree.Basic

/-!
# Exits of a body

Where a function body returns or yields, in source order.  Bodies of nested functions, classes and
members are not searched; expressions inside a returned or yielded one are.

## Main definitions

* `Exits` — returned expressions and yield nodes.
* `Tree.exits?` — the exits of the body of a node.
-/

namespace ScriptTyping

/-- Exits of a body, in source order. -/
structure Exits where
  /-- The returned expressions; a return without expression has none. -/
  returns : List NodeId
  /-- The nodes that yield. -/
  yields : List NodeId
  deriving DecidableEq, Repr

namespace Exits

/-- No exit. -/
def none : Exits := ⟨[], []⟩

/-- Whether the body of a node is not part of the body around it. -/
def isBoundary : Content → Bool
  | .functionDecl .. | .classDecl .. | .method .. | .getter .. | .setter .. => true
  | _ => false

/-- Adds a node if it is an exit. -/
def push (exits : Exits) (n : NodeId) : Content → Exits
  | .returnStatement (some expression) => { exits with returns := exits.returns ++ [expression] }
  | .yieldExpr .. => { exits with yields := exits.yields ++ [n] }
  | _ => exits

end Exits

namespace Tree

/-- Searches the nodes on a stack, the next one first, with at most `fuel` nodes taken from it. -/
def exitsFrom (tree : Tree) : Nat → List NodeId → Exits → Option Exits
  | _, [], found => some found
  | 0, _ :: _, _ => none
  | fuel + 1, n :: stack, found =>
    match tree.content? n with
    | none => tree.exitsFrom fuel stack found
    | some content =>
      if Exits.isBoundary content then tree.exitsFrom fuel stack found
      else tree.exitsFrom fuel (content.children ++ stack) (found.push n content)

/-- How many nodes the search takes at and below a node, counted to the given depth. -/
def searchSize (tree : Tree) : Nat → NodeId → Nat
  | 0, _ => 1
  | depth + 1, n =>
    match tree.content? n with
    | none => 1
    | some content =>
      if Exits.isBoundary content then 1
      else 1 + (content.children.map (tree.searchSize depth)).foldr (· + ·) 0

/-- The exits in the body of a node.  The search is given as many steps as there are nodes below
the owner, to a depth that is reached only if a node contains itself; nothing when they do not
suffice. -/
def exits? (tree : Tree) (owner : NodeId) : Option Exits :=
  let start := tree.children owner
  tree.exitsFrom ((start.map (tree.searchSize tree.size)).foldr (· + ·) 0) start .none

end Tree

end ScriptTyping
