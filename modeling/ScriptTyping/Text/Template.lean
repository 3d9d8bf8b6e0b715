/-!
# Message templates

A template holds numbered places, a number between braces.  The arguments are filled in one after
the other, each into the whole text that the earlier ones left; so a place that an earlier argument
brings into the text is filled by a later one.

## Main definitions

* `Template.replaceAll` — every occurrence of a pattern, from the left, without overlap.
* `Template.fill` — a template with its arguments.
-/

namespace ScriptTyping.Template

/-- Replaces the occurrences of `pattern`, searching from the left; the first `skip` characters
belong to an occurrence that is already replaced. -/
def replaceFrom (pattern replacement : List Char) : Nat → List Char → List Char
  | _, [] => []
  | skip + 1, _ :: text => replaceFrom pattern replacement skip text
  | 0, c :: text =>
    if pattern.isPrefixOf (c :: text) then
      replacement ++ replaceFrom pattern replacement (pattern.length - 1) text
    else
      c :: replaceFrom pattern replacement 0 text

/-- Replaces every occurrence of `pattern`, going on behind each occurrence. -/
def replaceAll (pattern replacement text : List Char) : List Char :=
  replaceFrom pattern replacement 0 text

/-- The place with number `i`: its decimal digits between braces. -/
def place (i : Nat) : List Char := '\x7b' :: (Nat.toDigits 10 i ++ ['\x7d'])

/-- Fills the arguments, numbered from `i`, into the text. -/
def fillFrom : Nat → List (List Char) → List Char → List Char
  | _, [], text => text
  | i, arg :: args, text => fillFrom (i + 1) args (replaceAll (place i) arg text)

/-- The template with its arguments filled in, one argument after the other. -/
def fill (template : String) (args : List String) : String :=
  String.ofList (fillFrom 0 (args.map String.toList) template.toList)

end ScriptTyping.Template
