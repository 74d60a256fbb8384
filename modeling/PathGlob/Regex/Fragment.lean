/-!
# `PathGlob.Regex.Fragment`: the fragments of emitted sources

The pieces of source text that patterns are translated into. Each is written for both
conventions of separator: paths separated by `/` alone, and, with `windows`, paths in
which a backslash separates as well.
-/

set_option autoImplicit false

namespace PathGlob.Regex.Fragment

/-- A separator. -/
def slash (windows : Bool) : List Char :=
  if windows then ['[', '\\', '\\', '/', ']'] else ['/']

/-- The separators as they stand within a character class. -/
def slashClass (windows : Bool) : List Char :=
  if windows then ['\\', '\\', '/'] else ['/']

/-- A dot. -/
def dot : List Char := ['\\', '.']

/-- A plus sign. -/
def plus : List Char := ['\\', '+']

/-- One more character must follow. -/
def oneChar : List Char := ['(', '?', '=', '.', ')']

/-- One character that is no separator. -/
def anyChar (windows : Bool) : List Char := ['[', '^'] ++ slashClass windows ++ [']']

/-- One character that is neither a separator nor a dot. -/
def anyCharNoDot (windows : Bool) : List Char := ['[', '^', '.'] ++ slashClass windows ++ [']']

/-- One or two dots that fill the rest of a segment. -/
def dotsSegment (windows : Bool) : List Char :=
  ['\\', '.', '{', '1', ',', '2', '}', '(', '?', ':'] ++ slash windows ++ ['|', '$', ')']

/-- No dot may follow. -/
def noDot : List Char := ['(', '?', '!', '\\', '.', ')']

/-- The rest of the segment, less one optional dot, may not be empty. -/
def noDotSegment (windows : Bool) : List Char :=
  ['(', '?', '!', '\\', '.', '{', '0', ',', '1', '}', '(', '?', ':'] ++ slash windows ++
    ['|', '$', ')', ')']

/-- The segments `.` and `..` may not follow. -/
def noDotsSegment (windows : Bool) : List Char :=
  ['(', '?', '!'] ++ dotsSegment windows ++ [')']

/-- Any run of characters without a separator, as short as possible. -/
def star (windows : Bool) : List Char := anyChar windows ++ ['*', '?']

/-- Any run of characters, as short as possible. -/
def anything : List Char := ['.', '*', '?']

/-- The start of the text or a separator. -/
def segmentStart (windows : Bool) : List Char :=
  ['(', '?', ':', '^', '|'] ++ slash windows ++ [')']

/-- What may not stand at the start of a segment: a dot, or with `dots` allowed only the
segments `.` and `..`. -/
def dotGuard (windows dots : Bool) : List Char :=
  if dots then noDotsSegment windows else noDot

/-- The opening of a group. -/
def openGroup (capture : Bool) : List Char := if capture then ['('] else ['(', '?', ':']

/-- Any run of characters in which no segment begins with a dot or, with `dots` allowed,
is `.` or `..`. -/
def globstar (windows dots capture : Bool) : List Char :=
  openGroup capture ++ ['(', '?', ':', '(', '?', '!'] ++ segmentStart windows ++
    (if dots then dotsSegment windows else dot) ++ [')', '.', ')', '*', '?', ')']

end PathGlob.Regex.Fragment
