import PathGlob.Unicode.Classes
import PathGlob.Unicode.CaseFold

/-!
# `PathGlob.Regex.CharSet`: sets of characters

What a character class denotes. A set is built from spans and the three shorthand
classes by union, intersection, difference and complement. Membership can be blind to
case: then a span holds every character that agrees up to case with one inside it.
-/

set_option autoImplicit false

namespace PathGlob.Regex

/-- The classes that have a letter of their own: `\d`, `\s` and `\w`. -/
inductive Shorthand where
  | digit
  | space
  | word
  deriving DecidableEq, Repr

/-- The character belongs to the shorthand class. -/
def Shorthand.has : Shorthand → Char → Bool
  | .digit, c => Unicode.isDigit c
  | .space, c => Unicode.isSpace c
  | .word, c => Unicode.isWord c

/-- The characters are the same, or with `blind` the same up to case. -/
def sameChar (blind : Bool) (c d : Char) : Bool :=
  d = c || (blind && Unicode.fold d = Unicode.fold c)

/-- A set of characters. -/
inductive CharSet where
  /-- No character. -/
  | none
  /-- The characters from `low` to `high`, both included. -/
  | span (low high : Char)
  | shorthand (kind : Shorthand)
  | union (a b : CharSet)
  | inter (a b : CharSet)
  | diff (a b : CharSet)
  | compl (a : CharSet)
  deriving DecidableEq, Repr

namespace CharSet

/-- The set of one character. -/
def single (c : Char) : CharSet := .span c c

/-- The characters in exactly one of two sets. -/
def symmDiff (a b : CharSet) : CharSet := .union (.diff a b) (.diff b a)

/-- The character belongs to the set. With `blind`, spans ignore case. -/
def has (blind : Bool) : CharSet → Char → Bool
  | .none, _ => false
  | .span low high, c =>
    if blind then (Unicode.sameFold c).any fun d => low ≤ d && d ≤ high
    else low ≤ c && c ≤ high
  | .shorthand kind, c => kind.has c
  | .union a b, c => a.has blind c || b.has blind c
  | .inter a b, c => a.has blind c && b.has blind c
  | .diff a b, c => a.has blind c && !b.has blind c
  | .compl a, c => !a.has blind c

end CharSet

end PathGlob.Regex
