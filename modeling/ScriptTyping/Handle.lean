/-!
# Handles

Types, declarations and syntax nodes are kept in tables and referred to by their position.  A
handle may dangle: every table answers a handle outside it with a stated default.

## Main definitions

* `TypeId` — a type value; the first sixteen handles are reserved for the intrinsic types.
* `DeclId` — a declaration; handle `0` belongs to none.
* `NodeId` — a syntax node.
-/

namespace ScriptTyping

/-- Handle of a type value. -/
structure TypeId where
  /-- Position in the type table. -/
  index : Nat
  deriving DecidableEq, Hashable, Repr, Inhabited

/-- Handle of a declaration. -/
structure DeclId where
  /-- Number of the declaration, counted from one. -/
  index : Nat
  deriving DecidableEq, Hashable, Repr, Inhabited

/-- Handle of a syntax node. -/
structure NodeId where
  /-- Position in the tree. -/
  index : Nat
  deriving DecidableEq, Hashable, Repr, Inhabited

/-- Whether the number can belong to a declaration: they are counted from one. -/
def DeclId.isValid (d : DeclId) : Bool := 1 ≤ d.index

namespace TypeId

/-- Inference failed; nothing computed from this type should be reported. -/
def unknown : TypeId := ⟨0⟩
/-- Deliberately untyped. -/
def dynamicAny : TypeId := ⟨1⟩
/-- The top type `any`. -/
def any : TypeId := ⟨2⟩
/-- The type `number`. -/
def number : TypeId := ⟨3⟩
/-- The type `string`. -/
def string : TypeId := ⟨4⟩
/-- The type `boolean`. -/
def boolean : TypeId := ⟨5⟩
/-- The type `symbol`. -/
def symbol : TypeId := ⟨6⟩
/-- The type `null`. -/
def null : TypeId := ⟨7⟩
/-- The type `undefined`. -/
def undefined : TypeId := ⟨8⟩
/-- The type `void`. -/
def void : TypeId := ⟨9⟩

/-- The first handle given to a type that is not intrinsic. -/
def firstDynamic : Nat := 16

/-- The failed type. -/
def isUnknown (t : TypeId) : Bool := t == unknown

/-- `any` in its typed or its dynamic flavour. -/
def isAny (t : TypeId) : Bool := t == any || t == dynamicAny

/-- `null` or `undefined`. -/
def isNullish (t : TypeId) : Bool := t == null || t == undefined

/-- The handle lies in the reserved range. -/
def isIntrinsic (t : TypeId) : Bool := t.index < firstDynamic

end TypeId

end ScriptTyping
