import ScriptTyping.Options.Document
import ScriptTyping.Recursion

/-!
# Inference options

Options are read from a document: an object with any of the known fields, or an array of their
values in a fixed order.  A field that is left out keeps its default.

## Main definitions

* `Options` — the options.
* `Options.ofText`, `Options.ofFile` — reading them.
* `OptionsError`, `OptionsError.message` — why they cannot be read.
-/

namespace ScriptTyping

/-- Typing discipline of the code. -/
inductive SourceMode where
  | typed
  /-- Elements without annotation are dynamic `any`. -/
  | dynamic
  deriving DecidableEq, Repr

/-- The name of a typing discipline. -/
def SourceMode.name : SourceMode → String
  | typed => "typed"
  | dynamic => "dynamic"

/-- Options of inference. -/
structure Options where
  /-- Typing discipline. -/
  sourceMode : SourceMode := .typed
  /-- Nesting of rules beyond which the answer is unknown. -/
  maxInferenceDepth : Nat := RecursionProfile.inference.maxDepth
  /-- Whether dropped members of unions and intersections are reported. -/
  reportRedundantMembers : Bool := true
  deriving DecidableEq, Repr, Inhabited

/-- Why options cannot be read. -/
inductive OptionsError where
  /-- The text is no document of options. -/
  | invalid
  /-- The file cannot be read. -/
  | unreadable (path : String)
  /-- The text of the file is no document of options. -/
  | invalidFile (path : String)
  deriving DecidableEq, Repr

/-- The text of an error. -/
def OptionsError.message : OptionsError → String
  | invalid => "invalid inference options"
  | unreadable path => "failed to read inference options from " ++ path
  | invalidFile path => "in " ++ path

namespace Options

/-- Whether the code is untyped. -/
def isDynamic (o : Options) : Bool := o.sourceMode == .dynamic

/-- The discipline with a given name. -/
def modeOfName? (name : String) : Option SourceMode :=
  if name = "typed" then some .typed
  else if name = "dynamic" then some .dynamic
  else none

/-- A discipline: its name, or an object whose only key is the name and whose value is `null`. -/
def mode? : Document → Option SourceMode
  | .string (some name) => modeOfName? name
  | .object [(some name, .null)] => modeOfName? name
  | _ => none

/-- The largest depth that can be asked for. -/
def depthLimit : Nat := 4294967295

/-- A depth: plain digits that denote a number up to the limit. -/
def depth? : Document → Option Nat
  | .number digits =>
    if digits.all Char.isDigit then
      let value := digits.foldl (fun n c => 10 * n + (c.toNat - '0'.toNat)) 0
      if value ≤ depthLimit then some value else none
    else none
  | _ => none

/-- A truth value. -/
def boolean? : Document → Option Bool
  | .boolean value => some value
  | _ => none

/-- The fields of the options. -/
inductive Field where
  | sourceMode
  | maxInferenceDepth
  | reportRedundantMembers
  deriving DecidableEq, Repr

/-- The fields in order. -/
def Field.all : List Field := [sourceMode, maxInferenceDepth, reportRedundantMembers]

/-- The key of a field. -/
def Field.key : Field → String
  | sourceMode => "sourceMode"
  | maxInferenceDepth => "maxInferenceDepth"
  | reportRedundantMembers => "reportRedundantMembers"

/-- Sets a field. -/
def set? (o : Options) (field : Field) (value : Document) : Option Options :=
  match field with
  | .sourceMode => (mode? value).map fun mode => { o with sourceMode := mode }
  | .maxInferenceDepth => (depth? value).map fun depth => { o with maxInferenceDepth := depth }
  | .reportRedundantMembers => (boolean? value).map fun b => { o with reportRedundantMembers := b }

/-- Sets fields from the entries of an object: keys that are not known are ignored, and a known key
stands once at most. -/
def ofEntries? : List Field → Options → List (Option String × Document) → Option Options
  | _, o, [] => some o
  | done, o, (key, value) :: entries => do
    match Field.all.find? (·.key == (← key)) with
    | some field =>
      if done.contains field then none
      else ofEntries? (field :: done) (← o.set? field value) entries
    | none => ofEntries? done o entries

/-- Sets the first fields from the items of an array. -/
def ofItems? : List Field → Options → List Document → Option Options
  | _, o, [] => some o
  | [], _, _ :: _ => none
  | field :: fields, o, item :: items => do ofItems? fields (← o.set? field item) items

/-- Options from a document. -/
def ofDocument? : Document → Option Options
  | .object entries => ofEntries? [] {} entries
  | .array items => ofItems? Field.all {} items
  | _ => none

/-- Options from a text. -/
def ofText (text : String) : Except OptionsError Options :=
  match (Document.parse? text).bind ofDocument? with
  | some o => .ok o
  | none => .error .invalid

/-- Options from the content of a file, if it can be read. -/
def ofFile (path : String) (content : Option String) : Except OptionsError Options :=
  match content with
  | none => .error (.unreadable path)
  | some text => (ofText text).mapError fun _ => .invalidFile path

end Options

end ScriptTyping
