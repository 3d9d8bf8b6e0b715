import Std.Data.HashMap

/-!
# Symbols

Names and string values are stored once and compared by position.  Position `0` holds the empty
text and stands for "no name".

## Main definitions

* `Symbol` — position of a stored text.
* `SymbolTable` — the stored texts with their reverse index.
* `SymbolTable.intern`, `SymbolTable.resolve` — from text to symbol and back.
-/

namespace ScriptTyping

/-- Position of a stored text. -/
structure Symbol where
  /-- Position in the symbol table. -/
  index : Nat
  deriving DecidableEq, Hashable, Repr, Inhabited

/-- The symbol of the empty text, read as "no name". -/
def Symbol.none : Symbol := ⟨0⟩

/-- Whether the symbol is the one that stands for "no name". -/
def Symbol.isNone (s : Symbol) : Bool := s == Symbol.none

/-- Stored texts in order of arrival, with the position of each. -/
structure SymbolTable where
  /-- The texts, by position. -/
  texts : Array String
  /-- The position of each text. -/
  positions : Std.HashMap String Symbol

namespace SymbolTable

/-- The table that holds the empty text only. -/
def initial : SymbolTable := ⟨#[""], (∅ : Std.HashMap String Symbol).insert "" Symbol.none⟩

instance : Inhabited SymbolTable := ⟨initial⟩

/-- The symbol of `text`, which is stored at the next free position if it is new. -/
def intern (table : SymbolTable) (text : String) : Symbol × SymbolTable :=
  match table with
  | ⟨texts, positions⟩ =>
    match positions[text]? with
    | some s => (s, ⟨texts, positions⟩)
    | none =>
      let s : Symbol := ⟨texts.size⟩
      (s, ⟨texts.push text, positions.insert text s⟩)

/-- The text of a symbol; a symbol outside the table reads as the empty text. -/
def resolve (table : SymbolTable) (s : Symbol) : String := table.texts[s.index]?.getD ""

/-- Number of stored texts, the reserved empty one included. -/
def size (table : SymbolTable) : Nat := table.texts.size

/-- Whether nothing but the reserved empty text is stored. -/
def isEmpty (table : SymbolTable) : Bool := table.size ≤ 1

end SymbolTable

end ScriptTyping
