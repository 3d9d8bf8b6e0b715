import ScriptTyping.Tree.Basic

/-!
# Paths through patterns

The way from the value that a pattern takes apart down to one of the pattern's variables.

## Main definitions

* `PatternStep` — one level of a pattern.
* `PatternPath` — the binding and the steps from it to a variable.
* `Tree.patternPath?` — the path to a variable.
-/

namespace ScriptTyping

/-- One level of a pattern. -/
inductive PatternStep where
  /-- An element of an array pattern, or all further elements. -/
  | element (isRest : Bool)
  /-- A property of an object pattern. -/
  | property (name : Symbol)
  deriving DecidableEq, Repr

/-- The binding that a variable belongs to, with the steps down to the variable. -/
structure PatternPath where
  /-- The binding with the whole pattern. -/
  binding : NodeId
  /-- The value that the binding takes apart, if it is written there. -/
  initializer : Slot
  /-- The steps, outermost first. -/
  steps : List PatternStep
  deriving DecidableEq, Repr

namespace Tree

variable (tree : Tree)

/-- Whether a node is an element that takes all further elements. -/
def isRestElement (n : NodeId) : Bool :=
  match tree.content? n with
  | some (.bindingElement _ isRest) => isRest
  | _ => false

/-- The step from the pattern around an element to the element, with the pattern. -/
def patternStep? (element : NodeId) : Option (PatternStep × NodeId) := do
  let container ← tree.parent? element
  match ← tree.content? container with
  | .arrayPattern _ => some (.element (tree.isRestElement element), container)
  | .bindingProperty name _ =>
    let pattern ← tree.parent? container
    match ← tree.content? pattern with
    | .objectPattern _ => some (.property name, pattern)
    | _ => none
  | _ => none

/-- Walks from a binding element up to its binding, through at most `fuel` patterns; `steps` lead
from the element to the variable. -/
def patternPathFrom : Nat → NodeId → List PatternStep → Option PatternPath
  | 0, _, _ => none
  | fuel + 1, element, steps => do
    let (step, pattern) ← tree.patternStep? element
    let owner ← tree.parent? pattern
    match ← tree.content? owner with
    | .bindingElement .. => patternPathFrom fuel owner (step :: steps)
    | .variableBinding _ initializer => some ⟨owner, initializer, step :: steps⟩
    | _ => none

/-- The path to a variable that is the target of a binding element; nothing when the nodes above it
do not form a pattern. -/
def patternPath? (target : NodeId) : Option PatternPath := do
  tree.patternPathFrom tree.size (← tree.parent? target) []

end Tree

end ScriptTyping
