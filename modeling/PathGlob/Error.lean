/-!
# `PathGlob.Error`: what can be wrong with a pattern

A pattern can be empty, too long or, if that is asked for, unbalanced. If it is asked
for, a source that no dialect accepts is an error as well.
-/

set_option autoImplicit false

namespace PathGlob

/-- A delimiter that is missing from a pattern. -/
inductive Delimiter where
  /-- Something is closed that was never opened. -/
  | opening (c : Char)
  /-- Something is opened and never closed. -/
  | closing (c : Char)
  deriving DecidableEq, Repr

namespace Delimiter

/-- The missing character. -/
def char : Delimiter → Char
  | .opening c | .closing c => c

/-- The delimiter in words. -/
def text : Delimiter → String
  | .opening c => "opening `" ++ c.toString ++ "`"
  | .closing c => "closing `" ++ c.toString ++ "`"

end Delimiter

/-- What is wrong with a pattern. -/
inductive Error where
  /-- There is no pattern, or it is empty. -/
  | empty
  | tooLong (length limit : Nat)
  /-- The missing delimiter, and the byte offset at which that was noticed. -/
  | unbalanced (pattern : List Char) (missing : Delimiter) (offset : Nat)
  /-- No dialect accepts the source. -/
  | refused (source : List Char)
  deriving DecidableEq, Repr

namespace Error

/-- The error in words. -/
def message : Error → String
  | .empty => "invalid glob expression: expected a non-empty pattern"
  | .tooLong length limit =>
    "glob expression of " ++ toString length ++ " bytes exceeds maximum length of " ++
      toString limit ++ " bytes"
  | .unbalanced _ missing _ => "malformed glob expression: missing " ++ missing.text
  | .refused source =>
    "failed to compile regular expression `" ++ String.ofList source ++ "`"

/-- What a report points out at the offset of a missing delimiter. -/
def label? : Error → Option String
  | .unbalanced _ missing _ => some ("expected " ++ missing.text)
  | _ => none

end Error

end PathGlob
