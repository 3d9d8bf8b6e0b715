/-!
# Log formats

The format of log output is named by a text: `json` in any case, with blanks around it, asks for
one object per event, and everything else for plain text.

## Main definitions

* `isBlank` — the characters with the property White_Space.
* `LogFormat.parse` — the format that a text names.
-/

namespace ScriptTyping

/-- The characters with the property White_Space. -/
def isBlank (c : Char) : Bool :=
  let n := c.toNat
  (0x09 ≤ n && n ≤ 0x0d) || n == 0x20 || n == 0x85 || n == 0xa0 || n == 0x1680 ||
    (0x2000 ≤ n && n ≤ 0x200a) || n == 0x2028 || n == 0x2029 || n == 0x202f || n == 0x205f ||
    n == 0x3000

/-- Format of log output. -/
inductive LogFormat where
  | text
  | json
  deriving DecidableEq, Repr

/-- Removes the blanks on both sides. -/
def trimBlanks (text : List Char) : List Char :=
  ((text.dropWhile isBlank).reverse.dropWhile isBlank).reverse

/-- The format named by a text; a name that is not known means plain text.  The letters of the one
known name have no other capital than the one in ASCII. -/
def LogFormat.parse (value : String) : LogFormat :=
  if (trimBlanks value.toList).map Char.toLower = ['j', 's', 'o', 'n'] then .json else .text

end ScriptTyping
