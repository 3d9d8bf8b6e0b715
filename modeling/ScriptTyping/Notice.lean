import ScriptTyping.Handle
import ScriptTyping.Text.Template

/-!
# Notices

A notice is what the analyses report: a category, a code, a text and the node it concerns, if any.
The catalogue lists every message with its code.

## Main definitions

* `Message`, `Message.catalogue`, `Message.ofCode?` — the known messages.
* `Notice`, `Notice.ofMessage` — a message with its arguments at a node.
-/

namespace ScriptTyping

/-- How serious a notice is. -/
inductive Category where
  | warning
  | error
  | suggestion
  | message
  deriving DecidableEq, Repr

/-- A message of the catalogue. -/
structure Message where
  /-- Number under which the message is known. -/
  code : Nat
  /-- Category of every notice made from the message. -/
  category : Category
  /-- Text with numbered places. -/
  template : String
  deriving DecidableEq, Repr

namespace Message

/-- A union member stands below another one. -/
def redundantInUnion : Message where
  code := 9001
  category := .warning
  template := "Type \x7b0\x7d is redundant in the union since it is a subtype of \x7b1\x7d."

/-- An intersection member stands above another one. -/
def redundantInIntersection : Message where
  code := 9002
  category := .warning
  template := "Type \x7b0\x7d is redundant in the intersection " ++
    "since it is a supertype of \x7b1\x7d."

/-- A number- or string-based enum is used as a value. -/
def invalidEnumUse : Message where
  code := 9003
  category := .error
  template := "A number-based or string-based enum may only be used to access its literals " ++
    "or the static getter 'literals'."

/-- Every message, by code. -/
def catalogue : List Message := [redundantInUnion, redundantInIntersection, invalidEnumUse]

/-- The message with the given code. -/
def ofCode? (code : Nat) : Option Message := catalogue.find? (·.code == code)

end Message

/-- A reported finding. -/
structure Notice where
  /-- The node concerned; none for a notice that belongs to no node. -/
  node : Option NodeId
  /-- Code of the message. -/
  code : Nat
  /-- Category of the message. -/
  category : Category
  /-- The message with its arguments. -/
  text : String
  deriving DecidableEq, Repr

namespace Notice

/-- The notice that a message makes at a node. -/
def ofMessage (node : Option NodeId) (message : Message) (args : List String) : Notice where
  node := node
  code := message.code
  category := message.category
  text := Template.fill message.template args

/-- Whether the notice is an error. -/
def isError (n : Notice) : Bool := n.category == .error

end Notice

end ScriptTyping
