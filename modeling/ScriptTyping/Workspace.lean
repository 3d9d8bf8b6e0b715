import ScriptTyping.EnumUsage
import ScriptTyping.Judgment.Infer

/-!
# Workspaces

A workspace holds everything that belongs to one program while it is assembled and queried: types,
declarations, syntax tree, flow facts, options and memo cells.  Queries may store types and memo
cells, so they return the workspace that follows; a failed query keeps what it stored.

## Main definitions

* `Workspace`, `Workspace.initial` — the state, with the built-in declarations only.
* `Workspace.declare`, `Workspace.update`, `Workspace.addMember`, `Workspace.addNode` — assembling.
* `Workspace.runTypes`, `Workspace.runInfer` — queries.
* `Workspace.infer`, `Workspace.simplify` — the two main ones.
-/

namespace ScriptTyping

/-- The state of a program that is assembled and queried. -/
structure Workspace where
  types : TypeTable
  declarations : Declarations
  builtins : Builtins
  memo : Memo
  tree : Tree
  flow : FlowFacts
  options : Options

namespace Workspace

/-- Depth of the recursions that nothing bounds. -/
def fuel : Nat := 10000

/-- The workspace with the built-in declarations only. -/
def initial : Workspace :=
  let (builtins, draft) := Builtins.install
  { types := draft.types, declarations := draft.declarations, builtins, memo := .empty
    tree := .empty, flow := .empty, options := {} }

/-- What computations over types read. -/
def world (ws : Workspace) : World := ⟨ws.declarations, ws.builtins, fuel⟩

/-- What inference reads. -/
def program (ws : Workspace) : Program := ⟨ws.world, ws.tree, ws.flow, ws.options⟩

/-- Runs a computation over types. -/
def runTypes {α : Type} (ws : Workspace) (x : World → TypeM α) : Except Fault α × Workspace :=
  let w := ws.world
  match ws with
  | ⟨types, declarations, builtins, memo, tree, flow, options⟩ =>
    match x w types with
    | .ok a types => (.ok a, ⟨types, declarations, builtins, memo, tree, flow, options⟩)
    | .error _ types =>
      (.error .outOfFuel, ⟨types, declarations, builtins, memo, tree, flow, options⟩)

/-- Runs an inference; fallbacks are counted from zero. -/
def runInfer {α : Type} (ws : Workspace) (x : Program → InferM α) : Except Fault α × Workspace :=
  let p := ws.program
  match ws with
  | ⟨types, declarations, builtins, memo, tree, flow, options⟩ =>
    match x p ⟨types, memo, 0⟩ with
    | .ok a ⟨types, memo, _⟩ =>
      (.ok a, ⟨types, declarations, builtins, memo, tree, flow, options⟩)
    | .error fault ⟨types, memo, _⟩ =>
      (.error fault, ⟨types, declarations, builtins, memo, tree, flow, options⟩)

/-- The symbol of a text. -/
def internSymbol (ws : Workspace) (text : String) : Symbol × Workspace :=
  match ws with
  | ⟨types, declarations, builtins, memo, tree, flow, options⟩ =>
    let (s, types) := types.internSymbol text
    (s, ⟨types, declarations, builtins, memo, tree, flow, options⟩)

/-- The text of a symbol. -/
def text (ws : Workspace) (s : Symbol) : String := ws.types.text s

/-- The text of a type. -/
def render (ws : Workspace) (t : TypeId) : String := Rendering.type ws.types ws.declarations t

/-- Changes a declaration; its memo cell stays. -/
def update (ws : Workspace) (d : DeclId) (f : Declaration → Declaration) : Workspace :=
  { ws with declarations := ws.declarations.update d f }

/-- Registers a declaration and makes it the owner of its type parameters. -/
def declare (ws : Workspace) (decl : Declaration) : DeclId × Workspace :=
  let (d, declarations) := ws.declarations.register decl
  let declarations := decl.typeParams.foldl (fun declarations param =>
    declarations.update param fun info => { info with owner := some d }) declarations
  (d, { ws with declarations })

/-- Attaches a member to its owner. -/
def addMember (ws : Workspace) (owner member : DeclId) : Workspace :=
  { ws with declarations := ws.declarations.addMember owner member }

/-- Appends a node to the tree. -/
def addNode (ws : Workspace) (content : Content) : NodeId × Workspace :=
  let (n, tree) := ws.tree.add content
  (n, { ws with tree })

/-- Appends a property access without type arguments. -/
def addPropertyAccess (ws : Workspace) (target : Slot) (name : Symbol)
    (property : Option DeclId) : NodeId × Workspace :=
  let (n, tree) := ws.tree.addPropertyAccess target name property
  (n, { ws with tree })

/-- Appends a call with plain arguments. -/
def addCall (ws : Workspace) (target : Slot) (args : List Slot) : NodeId × Workspace :=
  let (n, tree) := ws.tree.addCall target args
  (n, { ws with tree })

/-- Records the node that declares an entity. -/
def linkNode (ws : Workspace) (d : DeclId) (n : NodeId) : Workspace :=
  ws.update d fun decl => { decl with node := some n }

/-- Removes all nodes. -/
def clearTree (ws : Workspace) : Workspace := { ws with tree := .empty }

/-- Records a type test at a reference. -/
def recordGuard (ws : Workspace) (reference : NodeId) (guard : InstanceofGuard) : Workspace :=
  { ws with flow := ws.flow.record reference guard }

/-- The type in the memo cell of a declaration. -/
def cached? (ws : Workspace) (d : DeclId) : Option TypeId := ws.memo.get? d

/-- Writes the memo cell of a declaration that exists, unless it is written already. -/
def cache (ws : Workspace) (d : DeclId) (t : TypeId) : Workspace :=
  if ws.declarations.contains d then { ws with memo := ws.memo.write d t } else ws

/-- The type of a node or declaration. -/
def infer (ws : Workspace) (env : Environment) (target : Typable) :
    Except Fault TypeId × Workspace :=
  ws.runInfer fun p => p.infer env target

/-- The short form of a type with the notices about it at a node, unless the options turn notices
off. -/
def simplify (ws : Workspace) (env : Environment) (t : TypeId) (node : Option NodeId) :
    Except Fault (TypeId × List Notice) × Workspace :=
  let reports := ws.options.reportRedundantMembers
  ws.runTypes fun w => do
    let (result, dropped) ← ScriptTyping.simplify w.isSubtype w env t
    return (result, if reports then dropped.map (·.notice node) else [])

/-- The two notices that dropping one type for another makes at a node. -/
def redundancyNotices (ws : Workspace) (node : Option NodeId) (removed witness : TypeId) :
    Notice × Notice :=
  let names := [ws.render removed, ws.render witness]
  ((Redundancy.mk .union removed witness names).notice node,
    (Redundancy.mk .intersection removed witness names).notice node)

/-- The value of an expression, if it is constant. -/
def constant? (ws : Workspace) (slot : Slot) : Except Fault (Option ConstValue) :=
  (Constant.evaluate ⟨ws.tree, ws.declarations, ws.types.symbols⟩ slot).mapError
    fun _ => .outOfFuel

end Workspace

end ScriptTyping
