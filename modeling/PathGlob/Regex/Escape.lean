/-!
# `PathGlob.Regex.Escape`: characters with a meaning in regular expressions

Which characters need a backslash to stand for themselves, outside and inside a
character class, and which characters gain a meaning from a backslash. `escape` is the
source text that matches exactly the given text.
-/

set_option autoImplicit false

namespace PathGlob.Regex

/-- Characters that carry meaning outside a character class. -/
def isMeta (c : Char) : Bool :=
  ['\\', '.', '+', '*', '?', '(', ')', '|', '[', ']', '{', '}', '^', '$'].contains c

/-- Characters that carry meaning within a character class. -/
def isClassMeta (c : Char) : Bool :=
  ['\\', '[', ']', '^', '-', '&', '~'].contains c

/-- Characters that a backslash turns into a class, an assertion, a control character or
a back-reference. -/
def isEscapeLetter (c : Char) : Bool :=
  ['b', 'B', 'd', 'D', 'w', 'W', 's', 'S', 'n', 'r', 't', 'f',
    '1', '2', '3', '4', '5', '6', '7', '8', '9'].contains c

/-- Characters that keep their backslash within a character class because it gives them
the meaning of a class or a control character. -/
def isClassEscapeLetter (c : Char) : Bool :=
  ['d', 'D', 'w', 'W', 's', 'S', 'n', 'r', 't', 'f'].contains c

/-- The source of a single character. -/
def escapeChar (c : Char) : List Char := if isMeta c then ['\\', c] else [c]

/-- The source of a single character within a character class. -/
def escapeClassChar (c : Char) : List Char := if isClassMeta c then ['\\', c] else [c]

/-- The source that matches exactly the given text. -/
def escape (text : List Char) : List Char := text.flatMap escapeChar

/-- The text has a character with a meaning in regular expressions, or a dash. -/
def hasMeta (text : List Char) : Bool := text.any fun c => c == '-' || isMeta c

end PathGlob.Regex
