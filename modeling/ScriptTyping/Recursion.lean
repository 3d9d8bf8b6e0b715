/-!
# Recursion limits

Computations over type values have no syntax node to key on, so they are bounded by counters.  A
`RecursionGuard` watches the keys that are being visited, the depth and the number of entries; a
`DepthCounter` watches the depth only.  Both are plain values: an operation returns the next one.

## Main definitions

* `RecursionProfile` — named limits.
* `RecursionGuard.enter`, `RecursionGuard.leave`, `RecursionGuard.scope` — the guard's moves.
* `DepthCounter.enter`, `DepthCounter.leave` — the counter's moves.
-/

namespace ScriptTyping

/-- Largest number that a counter of entries reaches; it stays there. -/
def counterLimit : Nat := 4294967295

/-- Named limits. -/
inductive RecursionProfile where
  /-- Subtype queries over recursive generic types. -/
  | subtypeCheck
  /-- Substitution that follows chains of replacements. -/
  | substitution
  /-- Walks over the clauses of classifiers. -/
  | hierarchy
  /-- Join of generic type arguments. -/
  | join
  /-- Nested rules of the type judgment. -/
  | inference
  deriving DecidableEq, Repr

namespace RecursionProfile

/-- How deep a computation may nest. -/
def maxDepth : RecursionProfile → Nat
  | subtypeCheck => 100
  | substitution => 50
  | hierarchy => 64
  | join => 20
  | inference => 500

/-- How often a computation may enter. -/
def maxIterations : RecursionProfile → Nat
  | subtypeCheck => 100000
  | substitution => 10000
  | hierarchy => 10000
  | join => 1000
  | inference => 1000000

end RecursionProfile

/-- Answer to an attempt to enter. -/
inductive EntryResult where
  | entered
  /-- The key is being visited already. -/
  | cycle
  | depthExceeded
  | iterationExceeded
  deriving DecidableEq, Repr

namespace EntryResult

/-- The attempt succeeded. -/
def isEntered (r : EntryResult) : Bool := r == .entered

/-- The attempt met a key that is being visited. -/
def isCycle (r : EntryResult) : Bool := r == .cycle

/-- The attempt met a limit. -/
def isExceeded (r : EntryResult) : Bool := r == .depthExceeded || r == .iterationExceeded

end EntryResult

/-- The way in which a guard or counter can be misused. -/
inductive GuardMisuse where
  /-- A key was left that is not being visited. -/
  | unmatchedLeave
  /-- A guard was given up with keys still being visited. -/
  | activeEntries (count : Nat)
  /-- A counter was left at depth zero. -/
  | counterAtZero
  deriving DecidableEq, Repr

/-- The text of a misuse. -/
def GuardMisuse.message : GuardMisuse → String
  | unmatchedLeave => "RecursionGuard::leave() without a matching enter()"
  | activeEntries count => s!"RecursionGuard dropped with {count} active entries"
  | counterAtZero => "DepthCounter::leave() at depth 0"

/-- Cycle detection with a depth limit and a budget of entries. -/
structure RecursionGuard (K : Type) where
  /-- The keys that are being visited, the latest first. -/
  visiting : List K
  /-- How many entries are open. -/
  depth : Nat
  /-- How many entries were attempted. -/
  iterations : Nat
  /-- The depth limit. -/
  maxDepth : Nat
  /-- The budget of entries. -/
  maxIterations : Nat
  /-- Whether a limit was ever met. -/
  exceeded : Bool
  deriving Repr

namespace RecursionGuard

variable {K : Type}

/-- A guard with the given limits that nothing has entered. -/
def fresh (maxDepth maxIterations : Nat) : RecursionGuard K where
  visiting := []
  depth := 0
  iterations := 0
  maxDepth := maxDepth
  maxIterations := maxIterations
  exceeded := false

/-- A guard with the limits of a profile. -/
def ofProfile (profile : RecursionProfile) : RecursionGuard K :=
  fresh profile.maxDepth profile.maxIterations

variable [DecidableEq K]

/-- Whether the key is being visited. -/
def isVisiting (g : RecursionGuard K) (key : K) : Bool := g.visiting.contains key

/-- Attempts to enter with a key: the budget is tested first, then the depth, then the key. -/
def enter (g : RecursionGuard K) (key : K) : EntryResult × RecursionGuard K :=
  let g := { g with iterations := min (g.iterations + 1) counterLimit }
  if g.maxIterations < g.iterations then
    (.iterationExceeded, { g with exceeded := true })
  else if g.maxDepth ≤ g.depth then
    (.depthExceeded, { g with exceeded := true })
  else if g.isVisiting key then
    (.cycle, g)
  else
    (.entered, { g with visiting := key :: g.visiting, depth := g.depth + 1 })

/-- Leaves a key.  A key that is not being visited is a misuse and changes nothing. -/
def leave (g : RecursionGuard K) (key : K) : Except GuardMisuse (RecursionGuard K) :=
  if g.isVisiting key then
    .ok { g with visiting := g.visiting.erase key, depth := g.depth - 1 }
  else
    .error .unmatchedLeave

/-- Enters and, if that succeeds, leaves at once with the given value; otherwise the denial. -/
def scope {α : Type} (g : RecursionGuard K) (key : K) (value : α) :
    Except EntryResult α × RecursionGuard K :=
  match g.enter key with
  | (.entered, g) => (.ok value, (g.leave key).toOption.getD g)
  | (denied, g) => (.error denied, g)

/-- One attempt to enter, left again if it succeeded. -/
def touch (g : RecursionGuard K) (key : K) : EntryResult × RecursionGuard K :=
  match g.enter key with
  | (.entered, g) => (.entered, (g.leave key).toOption.getD g)
  | other => other

/-- Repeats `touch`; the answer is that of the last attempt, if there was one. -/
def churn (key : K) : Nat → Option EntryResult → RecursionGuard K →
    Option EntryResult × RecursionGuard K
  | 0, last, g => (last, g)
  | times + 1, _, g =>
    let (result, g) := g.touch key
    churn key times (some result) g

/-- Gives the guard up, which is a misuse while keys are being visited. -/
def finish (g : RecursionGuard K) : Except GuardMisuse Unit :=
  if g.visiting.isEmpty then .ok () else .error (.activeEntries g.visiting.length)

end RecursionGuard

/-- A limit on depth for computations that may meet a key again. -/
structure DepthCounter where
  /-- How many entries are open. -/
  depth : Nat
  /-- The limit. -/
  maxDepth : Nat
  /-- Whether the limit was ever met. -/
  exceeded : Bool
  deriving DecidableEq, Repr

namespace DepthCounter

/-- A counter with the given limit at depth zero. -/
def fresh (maxDepth : Nat) : DepthCounter := ⟨0, maxDepth, false⟩

/-- A counter with the depth limit of a profile. -/
def ofProfile (profile : RecursionProfile) : DepthCounter := fresh profile.maxDepth

/-- Goes one level deeper, unless the limit is reached, which is recorded. -/
def enter (c : DepthCounter) : Bool × DepthCounter :=
  if c.maxDepth ≤ c.depth then (false, { c with exceeded := true })
  else (true, { c with depth := c.depth + 1 })

/-- Comes one level back; a misuse at depth zero. -/
def leave (c : DepthCounter) : Except GuardMisuse DepthCounter :=
  if 0 < c.depth then .ok { c with depth := c.depth - 1 } else .error .counterAtZero

/-- Repeats `enter`; the answer is that of the last attempt, if there was one. -/
def enterMany : Nat → Option Bool → DepthCounter → Option Bool × DepthCounter
  | 0, last, c => (last, c)
  | times + 1, _, c =>
    let (entered, c) := c.enter
    enterMany times (some entered) c

/-- Repeats `leave` until a misuse, returning the counter as the last good step left it. -/
def leaveMany : Nat → DepthCounter → Option GuardMisuse × DepthCounter
  | 0, c => (none, c)
  | times + 1, c =>
    match c.leave with
    | .ok c => leaveMany times c
    | .error misuse => (some misuse, c)

end DepthCounter

end ScriptTyping
