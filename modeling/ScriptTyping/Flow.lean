import ScriptTyping.Lattice.Narrowing

/-!
# Flow facts

Outcomes of type tests that hold at a reference.  They come from an analysis of control flow and are
only read here.

## Main definitions

* `InstanceofGuard` — a test of a declaration against types, with its outcome.
* `FlowFacts` — the tests recorded for each reference.
-/

namespace ScriptTyping

/-- A test of a declaration against one or more types, with its outcome at a reference. -/
structure InstanceofGuard where
  /-- The tested declaration. -/
  subject : DeclId
  /-- The expressions that name the types; several of them form a union. -/
  typeRefs : List NodeId
  /-- The outcome. -/
  assertion : Assertion
  deriving DecidableEq, Repr

/-- Recorded tests in order of recording, each with its reference. -/
structure FlowFacts where
  entries : List (NodeId × InstanceofGuard)
  deriving Inhabited

namespace FlowFacts

/-- No test anywhere. -/
def empty : FlowFacts := ⟨[]⟩

/-- Records a test at a reference. -/
def record (facts : FlowFacts) (reference : NodeId) (guard : InstanceofGuard) : FlowFacts :=
  ⟨facts.entries ++ [(reference, guard)]⟩

/-- Number of recorded tests. -/
def size (facts : FlowFacts) : Nat := facts.entries.length

/-- The tests recorded at a reference. -/
def guardsAt (facts : FlowFacts) (reference : NodeId) : List InstanceofGuard :=
  (facts.entries.filter fun entry => entry.1 == reference).map (·.2)

end FlowFacts

end ScriptTyping
