import ScriptTyping.Tree.Node

/-!
# Syntax trees

A tree is a list of nodes, children before their parents.  Adding a node makes it the parent of its
children; a child that has a parent already gets the new one.

## Main definitions

* `Node`, `Tree` — payload with parent link, and all nodes of a program.
* `Tree.add` — appending a node and adopting its children.
* `Tree.get?`, `Tree.content?`, `Tree.parent?`, `Tree.children` — reading.
-/

namespace ScriptTyping

/-- A node: payload and parent. -/
structure Node where
  content : Content
  parent : Option NodeId
  deriving DecidableEq, Repr

/-- All nodes, by position. -/
structure Tree where
  nodes : Array Node
  deriving Inhabited

namespace Tree

/-- The tree without nodes. -/
def empty : Tree := ⟨#[]⟩

/-- Number of nodes. -/
def size (tree : Tree) : Nat := tree.nodes.size

/-- A node. -/
def get? (tree : Tree) (n : NodeId) : Option Node := tree.nodes[n.index]?

/-- Payload of a node. -/
def content? (tree : Tree) (n : NodeId) : Option Content := (tree.get? n).map (·.content)

/-- Payload of the node in a slot. -/
def contentAt? (tree : Tree) (slot : Slot) : Option Content := slot.bind tree.content?

/-- Parent of a node; none for roots and for nodes that do not exist. -/
def parent? (tree : Tree) (n : NodeId) : Option NodeId := (tree.get? n).bind (·.parent)

/-- Children of a node. -/
def children (tree : Tree) (n : NodeId) : List NodeId :=
  ((tree.content? n).map Content.children).getD []

/-- Sets the parent of a node that exists. -/
def adopt (parent : NodeId) (nodes : Array Node) (child : NodeId) : Array Node :=
  nodes.modify child.index fun node => { node with parent := some parent }

/-- Appends a node and makes it the parent of its children. -/
def add (tree : Tree) (content : Content) : NodeId × Tree :=
  let n : NodeId := ⟨tree.nodes.size⟩
  (n, ⟨(content.children.foldl (adopt n) tree.nodes).push ⟨content, none⟩⟩)

/-- Appends a property access without type arguments. -/
def addPropertyAccess (tree : Tree) (target : Slot) (name : Symbol) (property : Option DeclId) :
    NodeId × Tree :=
  tree.add (.propertyAccess target name property [])

/-- Appends one plain argument for each expression and then a call of them. -/
def addCall (tree : Tree) (target : Slot) (args : List Slot) : NodeId × Tree :=
  let (args, tree) := args.foldl (fun (done, tree) expression =>
    let (n, tree) := Tree.add tree (.argument expression false)
    (done ++ [some n], tree)) ([], tree)
  tree.add (.call target [] args)

/-- All handles in order. -/
def handles (tree : Tree) : List NodeId := (List.range tree.size).map NodeId.mk

end Tree

end ScriptTyping
