import ScriptTyping.Declarations.Basic

/-!
# The declaration store

Declarations are numbered from one in order of registration and are never removed.

## Main definitions

* `Declarations` — the registered declarations.
* `Declarations.register`, `Declarations.update`, `Declarations.addMember` — assembling.
* `Declarations.canonical` — through merge links.
* `Declarations.ownedMember?` — a member by name.
-/

namespace ScriptTyping

/-- The registered declarations. -/
structure Declarations where
  /-- The declaration numbered `i + 1` stands at position `i`. -/
  entries : Array Declaration
  deriving Inhabited

namespace Declarations

/-- No declaration. -/
def empty : Declarations := ⟨#[]⟩

/-- Number of declarations. -/
def size (ds : Declarations) : Nat := ds.entries.size

/-- The declaration with the given number. -/
def get? (ds : Declarations) (d : DeclId) : Option Declaration :=
  match d.index with
  | 0 => none
  | i + 1 => ds.entries[i]?

/-- Kind of a declaration. -/
def kind? (ds : Declarations) (d : DeclId) : Option DeclKind := (ds.get? d).map (·.kind)

/-- Name of a declaration. -/
def name? (ds : Declarations) (d : DeclId) : Option Symbol := (ds.get? d).map (·.name)

/-- Whether the number belongs to a declaration. -/
def contains (ds : Declarations) (d : DeclId) : Bool := (ds.get? d).isSome

/-- Whether a declaration exists and satisfies a condition. -/
def holds (ds : Declarations) (d : DeclId) (p : Declaration → Bool) : Bool := (ds.get? d).any p

/-- Adds a declaration under the next number. -/
def register (ds : Declarations) (decl : Declaration) : DeclId × Declarations :=
  (⟨ds.entries.size + 1⟩, ⟨ds.entries.push decl⟩)

/-- Changes a declaration; a number that belongs to none changes nothing. -/
def update (ds : Declarations) (d : DeclId) (f : Declaration → Declaration) : Declarations :=
  match d.index with
  | 0 => ds
  | i + 1 => ⟨ds.entries.modify i f⟩

/-- Attaches a member to its owner and links it back. -/
def addMember (ds : Declarations) (owner member : DeclId) : Declarations :=
  (ds.update owner fun decl => { decl with members := decl.members ++ [member] }).update member
    fun decl => { decl with owner := some owner }

/-- How many merge links are followed, which stops circles of them. -/
def mergeLimit : Nat := 16

/-- Follows at most `links` merge links. -/
def canonicalFrom (ds : Declarations) : Nat → DeclId → DeclId
  | 0, d => d
  | links + 1, d =>
    match (ds.get? d).bind (·.mergedInto) with
    | some next => if next = d then d else ds.canonicalFrom links next
    | none => d

/-- The declaration that partial declarations are merged into. -/
def canonical (ds : Declarations) (d : DeclId) : DeclId := ds.canonicalFrom mergeLimit d

/-- The first member of `owner` with the given name that is static or not as asked. -/
def ownedMember? (ds : Declarations) (owner : DeclId) (name : Symbol) (isStatic : Bool) :
    Option DeclId := do
  let decl ← ds.get? owner
  decl.members.find? fun member =>
    ds.holds member fun m => m.name == name && m.isStatic == isStatic

/-- The bound of a type variable, `any` if there is none. -/
def variableBound (ds : Declarations) (d : DeclId) : TypeId :=
  ((ds.get? d).bind (·.declaredType)).getD .any

/-- Variance of a type parameter; one that is not declared is invariant. -/
def variance (ds : Declarations) (param : DeclId) : Variance :=
  ((ds.get? param).map (·.variance)).getD .invariant

end Declarations

end ScriptTyping
