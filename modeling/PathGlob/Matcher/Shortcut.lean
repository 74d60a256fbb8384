import PathGlob.Options
import PathGlob.Text.Split

/-!
# `PathGlob.Matcher.Shortcut`: simple patterns decided on the text itself

Plain text, `*`, `**` and plain text followed by `/**` are matched without a regular
expression, under options that leave the meaning of these patterns simple.
-/

set_option autoImplicit false

namespace PathGlob

/-- The patterns that are matched on the text itself. -/
inductive Shortcut where
  | literal
  | star
  | globstar
  /-- Plain text followed by `/**`. -/
  | literalGlobstar
  deriving DecidableEq, Repr

namespace Shortcut

/-- The options leave the simple patterns simple. -/
def isEnabled (options : Options) : Bool :=
  options.fastPaths &&
    !(options.windows || options.noCase || options.contains || options.capture || options.bash)

/-- Characters that a plain text does not have. -/
def isReserved (c : Char) : Bool :=
  ['*', '?', '[', ']', '{', '}', '(', ')', '|', '\\', '"', '\x00'].contains c

/-- The pattern is plain text. -/
def isLiteral (glob : List Char) : Bool :=
  glob.head? ≠ some '!' && (Text.after? ['.', '/'] glob).isNone && !glob.any isReserved

/-- The text before a final `/**`. -/
def beforeGlobstar? (glob : List Char) : Option (List Char) := Text.before? ['/', '*', '*'] glob

/-- The shortcut for a pattern, if there is one. -/
def ofGlob? (options : Options) (glob : List Char) : Option Shortcut :=
  if !isEnabled options then none
  else if isLiteral glob then some .literal
  else if glob = ['*'] then some .star
  else if glob = ['*', '*'] && !options.noGlobstar then some .globstar
  else if !options.noGlobstar && (Text.after? ['.', '/'] glob).isNone &&
      (beforeGlobstar? glob).any fun text => !text.isEmpty && isLiteral text then
    some .literalGlobstar
  else none

/-- The text begins with the segment `.` or `..`, or at all with a dot if dots are not
allowed. -/
def beginsWithDot (dots : Bool) (text : List Char) : Bool :=
  if dots then
    text = ['.'] || text = ['.', '.'] || (Text.after? ['.', '/'] text).isSome ||
      (Text.after? ['.', '.', '/'] text).isSome
  else text.head? = some '.'

/-- A globstar matches the whole text: no segment begins with a dot or, if dots are
allowed, is `.` or `..`. -/
def isGlobstarText (dots : Bool) (text : List Char) : Bool :=
  (Text.pieces '/' text).all fun segment =>
    if dots then segment ≠ ['.'] && segment ≠ ['.', '.'] else segment.head? ≠ some '.'

/-- A star matches the whole text. -/
def isStarText (options : Options) (text : List Char) : Bool :=
  !text.isEmpty && !beginsWithDot options.dot text &&
    !(if options.strictSlashes then text else Text.dropTrailingSlash text).contains '/'

/-- Plain text followed by `/**` matches the whole text. -/
def isLiteralGlobstarText (options : Options) (glob text : List Char) : Bool :=
  match beforeGlobstar? glob with
  | none => false
  | some lead =>
    if text = lead then !options.strictSlashes
    else (Text.after? (lead ++ ['/']) text).any (isGlobstarText options.dot)

/-- The pattern matches the text. -/
def accepts (options : Options) (glob text : List Char) : Shortcut → Bool
  | .literal => glob = text
  | .star => isStarText options text
  | .globstar => isGlobstarText options.dot text
  | .literalGlobstar => isLiteralGlobstarText options glob text

end Shortcut

end PathGlob
