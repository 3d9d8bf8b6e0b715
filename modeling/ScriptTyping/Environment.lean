import ScriptTyping.Handle

/-!
# Typing environments

An environment is a stack of frames.  Reading walks outward from the newest frame, writing touches
the newest frame only, and a child shares all frames of its parent.  Three kinds of entries live in
an environment: replacements of type variables, the current `this`, and recursion guards.

## Main definitions

* `Environment` — the stack of frames.
* `Environment.wrap`, `Environment.put`, `Environment.get?` — opening a frame, writing, reading.
* `GuardKey`, `GuardState` — recursion guards and what is seen of them.
-/

namespace ScriptTyping

/-- Purpose of a recursion guard; guards of different purpose never meet. -/
inductive GuardKind where
  /-- Initializer of a variable, field or property. -/
  | variableInitializer
  /-- Pattern that is replayed against its initializer. -/
  | destructuringPattern
  /-- Iterated expression of a loop. -/
  | forOfIteration
  /-- Receiver of a property access. -/
  | propertyAccess
  /-- Call whose return type is being resolved. -/
  | callExpression
  /-- Body whose return type is being inferred. -/
  | functionReturn
  deriving DecidableEq, Repr

/-- A recursion guard: its purpose and its node. -/
structure GuardKey where
  kind : GuardKind
  node : NodeId
  deriving DecidableEq, Repr

/-- What is seen of a guard. -/
inductive GuardState where
  | absent
  /-- Set without a preliminary result. -/
  | active
  /-- Set with a result for calls that come back. -/
  | provisional (type : TypeId)
  deriving DecidableEq, Repr

/-- Key of an entry. -/
inductive EnvKey where
  | substitution (param : DeclId)
  | thisBinding
  | guard (key : GuardKey)
  deriving DecidableEq, Repr

/-- Value of an entry. -/
inductive EnvValue where
  | type (type : TypeId)
  | marker
  deriving DecidableEq, Repr

/-- The type that an entry holds. -/
def EnvValue.type? : EnvValue → Option TypeId
  | type t => some t
  | marker => none

/-- Whether the key is that of a replacement. -/
def EnvKey.isSubstitution : EnvKey → Bool
  | substitution _ => true
  | _ => false

/-- Entries of one frame, at most one for each key. -/
abbrev Frame := List (EnvKey × EnvValue)

/-- Writes an entry: over the one with the same key, or at the end. -/
def Frame.put (key : EnvKey) (value : EnvValue) : Frame → Frame
  | [] => [(key, value)]
  | entry :: frame =>
    if entry.1 = key then (key, value) :: frame else entry :: Frame.put key value frame

/-- A stack of frames, the newest first. -/
structure Environment where
  frames : List Frame
  deriving DecidableEq, Repr

namespace Environment

/-- The environment without frames. -/
def empty : Environment := ⟨[]⟩

instance : Inhabited Environment := ⟨empty⟩

/-- A child environment with a new frame. -/
def wrap (env : Environment) : Environment := ⟨[] :: env.frames⟩

/-- Writes into the newest frame, which is opened if there is none. -/
def put (env : Environment) (key : EnvKey) (value : EnvValue) : Environment :=
  match env.frames with
  | [] => ⟨[Frame.put key value []]⟩
  | frame :: frames => ⟨Frame.put key value frame :: frames⟩

/-- The innermost value for a key. -/
def get? (env : Environment) (key : EnvKey) : Option EnvValue :=
  env.frames.findSome? (·.lookup key)

/-- Number of frames. -/
def depth (env : Environment) : Nat := env.frames.length

/-- Replaces a type variable. -/
def addSubstitution (env : Environment) (param : DeclId) (replacement : TypeId) : Environment :=
  env.put (.substitution param) (.type replacement)

/-- The replacement of a type variable. -/
def substitution? (env : Environment) (param : DeclId) : Option TypeId :=
  (env.get? (.substitution param)).bind EnvValue.type?

/-- Whether any frame has an entry for a type variable. -/
def hasSubstitutions (env : Environment) : Bool :=
  env.frames.any fun frame => frame.any fun entry => entry.1.isSubstitution

/-- Binds `this`. -/
def setThis (env : Environment) (type : TypeId) : Environment := env.put .thisBinding (.type type)

/-- The type that `this` is bound to. -/
def this? (env : Environment) : Option TypeId := (env.get? .thisBinding).bind EnvValue.type?

/-- What is seen of a guard. -/
def guardState (env : Environment) (key : GuardKey) : GuardState :=
  match env.get? (.guard key) with
  | none => .absent
  | some .marker => .active
  | some (.type t) => .provisional t

/-- Whether a guard is set. -/
def isGuarded (env : Environment) (key : GuardKey) : Bool := env.guardState key != .absent

/-- A child environment with a guard set. -/
def withGuard (env : Environment) (key : GuardKey) : Environment :=
  env.wrap.put (.guard key) .marker

/-- A child environment with a guard set to a preliminary result. -/
def withProvisional (env : Environment) (key : GuardKey) (preliminary : TypeId) : Environment :=
  env.wrap.put (.guard key) (.type preliminary)

end Environment

end ScriptTyping
