/-!
# `PathGlob.Separator`: separators and backslashes

Where a backslash separates, it still escapes the characters that have a meaning in
patterns. `normalize` settles which backslashes of a pattern are separators, and
`toSlashes` turns every backslash of a path into a slash.
-/

set_option autoImplicit false

namespace PathGlob.Separator

/-- Characters that a backslash escapes even where it separates. -/
def isGlobMeta (c : Char) : Bool :=
  ['*', '?', '[', ']', '{', '}', '(', ')', '!', '@', '+', '|', ',', '^', '$', '"'].contains c

/-- A text in which each backslash that does not escape has become a slash; `escaped`
tells whether the first character is escaped. -/
def normalizeFrom : Bool → List Char → List Char
  | _, [] => []
  | true, c :: rest => c :: normalizeFrom false rest
  | false, c :: rest =>
    if c ≠ '\\' then c :: normalizeFrom false rest
    else if rest.head?.any isGlobMeta then c :: normalizeFrom true rest
    else '/' :: normalizeFrom false rest

/-- A pattern in which each backslash that does not escape has become a slash. -/
def normalize (pattern : List Char) : List Char := normalizeFrom false pattern

/-- A path in which every backslash has become a slash. -/
def toSlashes (path : List Char) : List Char := path.map fun c => if c = '\\' then '/' else c

end PathGlob.Separator
