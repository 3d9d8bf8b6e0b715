import ScriptTyping.Judgment.Iteration

/-!
# Literals with parts

Types of object and array literals, templates and markup elements.

## Main definitions

* `Program.objectLiteralType`, `Program.arrayLiteralType` — the shapes of literals.
* `Program.templateType`, `Program.taggedTemplateType` — templates.
* `Program.elementClassType` — markup elements.
-/

namespace ScriptTyping.Program

variable (p : Program) (judge : Judge) (env : Environment)

/-- The members of an object literal that are written as a name with a value. -/
def objectLiteralMembers : List Slot → InferM (List Property)
  | [] => pure []
  | none :: slots => objectLiteralMembers slots
  | some n :: slots => do
    match p.content? n with
    | some (.propertyAssignment decl name _ _) =>
      let type ← judge.node env n
      return ⟨name, type, false, decl⟩ :: (← objectLiteralMembers slots)
    | _ => objectLiteralMembers slots

/-- The type of an object literal: the shape of its named members. -/
def objectLiteralType (properties : List Slot) : InferM TypeId := do
  TypeM.structural (← p.objectLiteralMembers judge env properties)

/-- The type that an element contributes to an array literal: holes contribute none, and a spread
contributes the elements of what is spread. -/
def arrayItemType? (slot : Slot) : InferM (Option TypeId) := do
  match p.contentAt? slot with
  | none | some .arrayPadding => return none
  | some (.arrayElement expression true) =>
    let spread ← judge.slot env expression
    let element := (← p.iterableElement? env spread false).getD .any
    return some (← p.widen env element)
  | some _ => return some (← p.widen env (← judge.slot env slot))

/-- The type of an array literal: an array of the join of its widened elements, of `any` if there
are none. -/
def arrayLiteralType (elements : List Slot) : InferM TypeId := do
  let types ← elements.mapM (p.arrayItemType? judge env)
  let types := types.filterMap id
  let element ← if types.isEmpty then pure .any else p.join env types
  p.world.builtins.arrayOf element

/-- The type of a template: a template of one segment is a string literal. -/
def templateType (parts : List Slot) : TypeM TypeId := do
  match parts with
  | [only] =>
    match p.contentAt? only with
    | some (.templateSegment text) => TypeM.stringLiteral text
    | _ => return .string
  | _ => return .string

/-- The type of a tagged template: what the tag returns. -/
def taggedTemplateType (tag : Slot) : InferM TypeId := do
  let t ← judge.slot env tag
  return ((← signature? t).map (·.returnType)).getD .unknown

/-- The type of a markup element: its class, with the type of its properties if it is generic. -/
def elementClassType (elementClass : Option DeclId) (props : Option TypeId) : TypeM TypeId := do
  match elementClass with
  | none => return .unknown
  | some decl =>
    let args := if p.world.declarations.holds decl (·.isGeneric) then props.toList else []
    TypeM.nominal decl args

end ScriptTyping.Program
