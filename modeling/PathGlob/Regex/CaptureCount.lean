/-!
# `PathGlob.Regex.CaptureCount`: counting groups in a source text

Counts the capturing groups of a source without reading it as a tree. A backslash hides
the next character, and a class hides its parentheses.
-/

set_option autoImplicit false

namespace PathGlob.Regex

/-- The opening parenthesis before the given text begins a capturing group: either no
question mark follows it, or the group is named. -/
def opensCapture : List Char → Bool
  | '?' :: 'P' :: '<' :: _ => true
  | '?' :: '<' :: c :: _ => c ≠ '=' && c ≠ '!'
  | '?' :: _ => false
  | _ => true

/-- The number of capturing groups; `inClass` tells whether the text begins within a
character class. -/
def countCaptures (inClass : Bool) : List Char → Nat
  | [] => 0
  | '\\' :: rest => match rest with
    | [] => 0
    | _ :: rest => countCaptures inClass rest
  | '[' :: rest => countCaptures true rest
  | ']' :: rest => countCaptures false rest
  | '(' :: rest =>
    if inClass then countCaptures inClass rest
    else (if opensCapture rest then 1 else 0) + countCaptures inClass rest
  | _ :: rest => countCaptures inClass rest

/-- The number of capturing groups of a source text. -/
def captureCount (source : List Char) : Nat := countCaptures false source

end PathGlob.Regex
