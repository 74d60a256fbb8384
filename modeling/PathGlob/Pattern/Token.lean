/-!
# `PathGlob.Pattern.Token`: the tokens of a pattern

A token is a piece of pattern text together with the source it is translated into. A
token without a source of its own is its own source.
-/

set_option autoImplicit false

namespace PathGlob.Pattern

/-- The operators that open an extended group. -/
inductive ExtglobKind where
  /-- `!(...)`: anything but the alternatives. -/
  | negate
  /-- `?(...)`: one of the alternatives, or nothing. -/
  | zeroOrOne
  /-- `+(...)`: one alternative after the other, at least one. -/
  | oneOrMore
  /-- `*(...)`: one alternative after the other, perhaps none. -/
  | zeroOrMore
  /-- `@(...)`: one of the alternatives. -/
  | exactlyOne
  deriving DecidableEq, Repr

namespace ExtglobKind

/-- The source that opens the group. -/
def opening : ExtglobKind → List Char
  | .negate => ['(', '?', ':', '(', '?', '!', '(', '?', ':']
  | _ => ['(', '?', ':']

/-- The source that closes the group; a negation is followed by the given star. -/
def closing (star : List Char) : ExtglobKind → List Char
  | .negate => [')', ')'] ++ star ++ [')']
  | .zeroOrOne => [')', '?']
  | .oneOrMore => [')', '+']
  | .zeroOrMore => [')', '*']
  | .exactlyOne => [')']

/-- The group may match nothing at all. -/
def isOptional : ExtglobKind → Bool
  | .zeroOrOne | .zeroOrMore => true
  | _ => false

end ExtglobKind

/-- The kinds of tokens. -/
inductive TokenKind where
  /-- The beginning of the pattern. -/
  | bos
  | text
  | slash
  | dot
  /-- The two dots of a brace range. -/
  | dots
  | star
  | globstar
  | qmark
  | plus
  | bracket
  | brace
  | comma
  | paren
  /-- The operator of an extended group. -/
  | extglob (kind : ExtglobKind)
  /-- A separator at the end that may be missing. -/
  | maybeSlash
  deriving DecidableEq, Repr

namespace TokenKind

/-- What follows a token of this kind begins a segment. -/
def beginsSegment : TokenKind → Bool
  | .bos | .slash => true
  | _ => false

end TokenKind

/-- A token. -/
structure Token where
  kind : TokenKind
  /-- The pattern text. -/
  value : List Char
  /-- The source, where it differs from the pattern text. -/
  source? : Option (List Char) := none
  /-- The place of the token before it. -/
  previous : Option Nat := none
  /-- A parenthesis of an extended group. -/
  isExtglob : Bool := false
  /-- More than two stars in a row. -/
  isStarRun : Bool := false
  /-- A bracket with the beginning of a named class in it. -/
  isPosix : Bool := false
  deriving DecidableEq, Repr

namespace Token

/-- A token with a source of its own. -/
def ofSource (kind : TokenKind) (value source : List Char) : Token :=
  { kind, value, source? := some source }

/-- A text token. -/
def text (value source : List Char) : Token := ofSource .text value source

/-- The token that every pattern begins with. -/
def bos : Token := ofSource .bos [] []

/-- The source of the token. -/
def source (token : Token) : List Char := token.source?.getD token.value

end Token

end PathGlob.Pattern
