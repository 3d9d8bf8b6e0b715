import ScriptTyping.Workspace

/-!
# Sessions

A session is a workspace whose types, declarations, nodes and environments are known by labels.  A
step of a session may fail; the state that it reached is kept, so that later steps see what it
stored.

## Main definitions

* `Session`, `Session.initial` — the state, with labels for the built-in declarations.
* `SessionM` — steps over a session.
* `Session.query` — a computation over types as a step.
-/

namespace ScriptTyping

/-- Things known by labels, each label once. -/
abbrev Labels (α : Type) := List (String × α)

/-- Gives a label to a thing; what had the label before loses it. -/
def Labels.set {α : Type} (labels : Labels α) (label : String) (a : α) : Labels α :=
  (label, a) :: labels.filter fun entry => entry.1 != label

/-- A workspace with labels. -/
structure Session where
  workspace : Workspace
  types : Labels TypeId
  declarations : Labels DeclId
  nodes : Labels NodeId
  environments : Labels Environment

/-- Why a step fails. -/
inductive SessionError where
  /-- A query over the workspace failed. -/
  | query (fault : Fault)
  /-- Nothing has the label. -/
  | unknownLabel (label : String)
  /-- The step cannot be read. -/
  | malformed (reason : String)

/-- Steps over a session; a step that fails keeps the state it reached. -/
abbrev SessionM := EStateM SessionError Session

/-- The built-in declarations by name, and their type parameters as `Name#position`. -/
def Workspace.builtinLabels (ws : Workspace) : Labels DeclId :=
  let b := ws.builtins
  let known : Labels DeclId :=
    [("Object", b.object), ("Function", b.function), ("Array", b.array), ("Iterable", b.iterable),
      ("AsyncIterable", b.asyncIterable), ("Generator", b.generator),
      ("AsyncGenerator", b.asyncGenerator), ("Promise", b.promise), ("RegExp", b.regexp),
      ("Error", b.error), ("N4Enum", b.enumBase), ("N4NumberBasedEnum", b.numberEnumBase),
      ("N4StringBasedEnum", b.stringEnumBase),
      ("N4NumberBasedEnum.literals", b.numberEnumLiterals),
      ("N4StringBasedEnum.literals", b.stringEnumLiterals)]
  let paramsOf (d : DeclId) : List DeclId :=
    ((ws.declarations.get? d).map (·.typeParams)).getD []
  known ++ known.flatMap fun (name, d) =>
    (paramsOf d).zipIdx.map fun (param, i) => (name ++ "#" ++ toString i, param)

namespace Session

/-- The session over the initial workspace. -/
def initial : Session where
  workspace := .initial
  types := []
  declarations := Workspace.initial.builtinLabels
  nodes := []
  environments := []

/-- Fails because a step cannot be read. -/
def malformed {α : Type} (reason : String) : SessionM α := throw (.malformed reason)

/-- The thing with a label. -/
def find {α : Type} (labels : Labels α) (label : String) : SessionM α :=
  match labels.lookup label with
  | some a => pure a
  | none => throw (.unknownLabel label)

/-- The type with a label. -/
def typeOf (label : String) : SessionM TypeId := do find (← get).types label

/-- The declaration with a label. -/
def declOf (label : String) : SessionM DeclId := do find (← get).declarations label

/-- The node with a label. -/
def nodeOf (label : String) : SessionM NodeId := do find (← get).nodes label

/-- The environment with a label. -/
def environmentOf (label : String) : SessionM Environment := do find (← get).environments label

/-- Gives a label to a type. -/
def setType (label : String) (t : TypeId) : SessionM Unit :=
  modify fun s => { s with types := s.types.set label t }

/-- Gives a label to a declaration. -/
def setDecl (label : String) (d : DeclId) : SessionM Unit :=
  modify fun s => { s with declarations := s.declarations.set label d }

/-- Gives a label to a node. -/
def setNode (label : String) (n : NodeId) : SessionM Unit :=
  modify fun s => { s with nodes := s.nodes.set label n }

/-- Gives a label to an environment. -/
def setEnvironment (label : String) (env : Environment) : SessionM Unit :=
  modify fun s => { s with environments := s.environments.set label env }

/-- The workspace as it stands. -/
def getWorkspace : SessionM Workspace := return (← get).workspace

/-- Changes the workspace and returns what the change returns. -/
def withWorkspace {α : Type} (f : Workspace → α × Workspace) : SessionM α :=
  modifyGet fun ⟨workspace, types, declarations, nodes, environments⟩ =>
    let (a, workspace) := f workspace
    (a, ⟨workspace, types, declarations, nodes, environments⟩)

/-- Changes the workspace. -/
def modifyWorkspace (f : Workspace → Workspace) : SessionM Unit :=
  withWorkspace fun ws => ((), f ws)

/-- A query over the workspace. -/
def attempt {α : Type} (f : Workspace → Except Fault α × Workspace) : SessionM α := do
  match ← withWorkspace f with
  | .ok a => return a
  | .error fault => throw (.query fault)

/-- A query over types. -/
def query {α : Type} (x : World → TypeM α) : SessionM α := attempt (·.runTypes x)

/-- Stores a type. -/
def make (x : TypeM TypeId) : SessionM TypeId := query fun _ => x

/-- The symbol of a text. -/
def symbol (text : String) : SessionM Symbol := withWorkspace (·.internSymbol text)

/-- The text of a type. -/
def render (t : TypeId) : SessionM String := return (← getWorkspace).render t

end Session

end ScriptTyping
