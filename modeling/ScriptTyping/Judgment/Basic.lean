import ScriptTyping.Flow
import ScriptTyping.Options.Basic
import ScriptTyping.Signature.Arguments
import ScriptTyping.Signature.Resolution
import ScriptTyping.Tree.Exits
import ScriptTyping.Tree.Navigation
import ScriptTyping.Tree.Pattern

/-!
# The setting of the type judgment

Inference reads a program and extends a memory: the type table, the memo cells of declarations, and
the number of times it had to fall back on a guard or the depth limit.  The rules are written
against a `Judge` that answers for the parts; the rules and the judge are tied together elsewhere.

## Main definitions

* `Program` — what inference reads.
* `Memo` — types of declarations that are inferred already; the first one written stays.
* `Memory`, `InferM`, `Fault` — what inference extends, and how it can fail.
* `Judge` — answers for nodes and declarations.
-/

namespace ScriptTyping

/-- A program. -/
structure Program where
  world : World
  tree : Tree
  flow : FlowFacts
  options : Options

/-- Types inferred for declarations. -/
structure Memo where
  cells : Std.HashMap DeclId TypeId

namespace Memo

/-- No type yet. -/
def empty : Memo := ⟨∅⟩

instance : Inhabited Memo := ⟨empty⟩

/-- The type written for a declaration. -/
def get? (memo : Memo) (d : DeclId) : Option TypeId := memo.cells[d]?

/-- Writes the type of a declaration, unless there is one. -/
def write (memo : Memo) (d : DeclId) (t : TypeId) : Memo := ⟨memo.cells.insertIfNew d t⟩

end Memo

/-- What inference extends. -/
structure Memory where
  types : TypeTable
  memo : Memo
  /-- How often a guard or the depth limit cut an inference short. -/
  fallbacks : Nat

/-- How inference can fail. -/
inductive Fault where
  /-- A recursion that nothing bounds does not come to an end. -/
  | outOfFuel
  /-- A statement or pattern was asked for its type. -/
  | noJudgment (kind : NodeKind) (node : NodeId)
  deriving DecidableEq, Repr

/-- The text of a failure. -/
def Fault.message : Fault → String
  | outOfFuel => "inference does not come to an end"
  | noJudgment kind node =>
    "no type judgment for " ++ kind.name ++ " node " ++ Nat.repr node.index

/-- Inference: a failed one keeps what it stored. -/
abbrev InferM := EStateM Fault Memory

namespace InferM

/-- Runs a computation over types. -/
def ofTypes {α : Type} (x : TypeM α) : InferM α := fun memory =>
  match memory with
  | ⟨types, memo, fallbacks⟩ =>
    match x types with
    | .ok a types => .ok a ⟨types, memo, fallbacks⟩
    | .error _ types => .error .outOfFuel ⟨types, memo, fallbacks⟩

instance : MonadLift TypeM InferM := ⟨ofTypes⟩

/-- Records that a guard or the depth limit cut an inference short. -/
def noteFallback : InferM Unit := modify fun memory =>
  { memory with fallbacks := memory.fallbacks + 1 }

/-- How often inference was cut short so far. -/
def fallbackCount : InferM Nat := return (← get).fallbacks

/-- The type written for a declaration. -/
def memoized? (d : DeclId) : InferM (Option TypeId) := return (← get).memo.get? d

/-- Writes the type of a declaration, unless there is one. -/
def memoize (d : DeclId) (t : TypeId) : InferM Unit := modify fun memory =>
  match memory with
  | ⟨types, memo, fallbacks⟩ => ⟨types, memo.write d t, fallbacks⟩

end InferM

/-- Answers for the parts of what is being judged. -/
structure Judge where
  /-- The type of a node. -/
  node : Environment → NodeId → InferM TypeId
  /-- The type of a declaration. -/
  decl : Environment → DeclId → InferM TypeId

/-- The type of the node in a slot; an empty slot is unknown. -/
def Judge.slot (judge : Judge) (env : Environment) : Slot → InferM TypeId
  | some n => judge.node env n
  | none => pure .unknown

namespace Program

variable (p : Program)

/-- Payload of a node. -/
def content? (n : NodeId) : Option Content := p.tree.content? n

/-- Payload of the node in a slot. -/
def contentAt? (slot : Slot) : Option Content := p.tree.contentAt? slot

/-- A declaration. -/
def decl? (d : DeclId) : Option Declaration := p.world.decl? d

/-- The subtype relation of the program. -/
def relation : TypeRelation := p.world.isSubtype

/-- The short form of a union. -/
def union (env : Environment) (members : List TypeId) : TypeM TypeId :=
  createUnion p.relation p.world env members

/-- The least upper bound of types. -/
def join (env : Environment) (types : List TypeId) : TypeM TypeId :=
  joinTypes p.relation p.world env types

/-- A type with its literals widened. -/
def widen (env : Environment) (t : TypeId) : TypeM TypeId :=
  widenLiterals p.relation p.world env t

/-- The type that a declaration receives from an initializer. -/
def sanitize (env : Environment) (t : TypeId) (widen : Bool) : TypeM TypeId :=
  sanitizeDeclared p.relation p.world env t widen

/-- The type of elements without annotation and initializer. -/
def untypedElement : TypeId := if p.options.isDynamic then .dynamicAny else .any

/-- Reading a value of a wildcard type yields its upper bound. -/
def capture (t : TypeId) : TypeM TypeId := do
  if (← TypeM.lookup t).isWildcard then TypeM.upperBound t else return t

/-- The signature of a function type. -/
def signature? (t : TypeId) : TypeM (Option Signature) := return (← TypeM.lookup t).signature?

end Program

end ScriptTyping
