import PathGlob.Range.Expand
import PathGlob.Text.Quoted

/-!
# `PathGlob.Options`: the options of patterns and matchers

Every stage reads the same options. Hooks are functions on texts; observers are only
named here, since what they are told is part of a matcher's answer and never changes it.
-/

set_option autoImplicit false

namespace PathGlob

/-- The greatest length of a pattern in bytes; options can only lower it. -/
def lengthLimit : Nat := 65536

/-- Which outcomes a matcher reports. -/
structure Observers where
  /-- Every comparison with a pattern. -/
  results : Bool := false
  /-- Every text that matches. -/
  matched : Bool := false
  /-- Every text that an ignore pattern vetoes. -/
  ignored : Bool := false
  deriving DecidableEq, Repr

/-- The options. -/
structure Options where
  /-- Wildcards match segments that begin with a dot. -/
  dot : Bool := false
  /-- A star also crosses separators. -/
  bash : Bool := false
  /-- Bracket classes such as `[[:alpha:]]` are understood. -/
  posix : Bool := false
  /-- A backslash separates as well. -/
  windows : Bool := false
  /-- Two stars are like one. -/
  noGlobstar : Bool := false
  /-- Groups such as `+(a|b)` have no meaning. -/
  noExtglob : Bool := false
  /-- Braces have no meaning. -/
  noBrace : Bool := false
  /-- Brackets have no meaning. -/
  noBracket : Bool := false
  /-- A leading `!` has no meaning. -/
  noNegate : Bool := false
  /-- Case is ignored. -/
  noCase : Bool := false
  /-- A trailing separator is not forgiven. -/
  strictSlashes : Bool := false
  /-- Unbalanced delimiters are errors. -/
  strictBrackets : Bool := false
  /-- A match anywhere within the text counts. -/
  contains : Bool := false
  /-- Patterns without separators are compared with the last segment. -/
  baseName : Bool := false
  /-- Wildcards and groups capture. -/
  capture : Bool := false
  /-- The greatest length of a pattern in bytes. -/
  maxLength : Nat := lengthLimit
  /-- Whether brackets with an ordinary body are text (`some true`), a class
  (`some false`) or either. -/
  literalBrackets : Option Bool := none
  /-- Simple patterns may take a shortcut. -/
  fastPaths : Bool := true
  /-- Backslashes are dropped and escape nothing. -/
  unescape : Bool := false
  /-- Double quotes are kept. -/
  keepQuotes : Bool := false
  /-- A refused source is an error. -/
  debug : Bool := false
  /-- Scanning goes on after the first construct. -/
  scanToEnd : Bool := false
  /-- Scanning also reports segments. -/
  parts : Bool := false
  /-- Patterns that veto a match. -/
  ignore : List (List Char) := []
  /-- Rewrites a text before it is matched. -/
  format : Option (List Char → List Char) := none
  /-- Replaces the expansion of brace ranges. -/
  expandRange : Option (Range.Operands → List Char) := none
  observers : Observers := {}

namespace Options

/-- The limit on the length of a pattern that is in force. -/
def effectiveMaxLength (options : Options) : Nat := min options.maxLength lengthLimit

/-- The options for ignore patterns: nothing is ignored in turn, and nothing is observed. -/
def forIgnore (options : Options) : Options :=
  { options with ignore := [], observers := {} }

/-- The source of a brace range, by the hook if there is one. -/
def rangeSource (options : Options) (operands : Range.Operands) : List Char :=
  match options.expandRange with
  | some expandRange => expandRange operands
  | none => Range.expand operands options.capture

/-! ### The textual form -/

/-- A truth value in words. -/
def boolText (b : Bool) : String := if b then "true" else "false"

/-- Whether a hook is present, as a quoted text. -/
def presenceText (isPresent : Bool) : String := if isPresent then "\"Some(..)\"" else "\"None\""

/-- Three-valued options in words. -/
def choiceText : Option Bool → String
  | none => "None"
  | some b => "Some(" ++ boolText b ++ ")"

/-- Quoted texts between brackets. -/
def listText (texts : List (List Char)) : String :=
  "[" ++ ", ".intercalate (texts.map fun text => String.ofList (Text.quoted text)) ++ "]"

/-- The fields in order, each with the text of its value. -/
def fieldTexts (options : Options) : List (String × String) :=
  [("dot", boolText options.dot),
    ("bash", boolText options.bash),
    ("posix", boolText options.posix),
    ("windows", boolText options.windows),
    ("no_globstar", boolText options.noGlobstar),
    ("no_extglob", boolText options.noExtglob),
    ("no_brace", boolText options.noBrace),
    ("no_bracket", boolText options.noBracket),
    ("no_negate", boolText options.noNegate),
    ("no_case", boolText options.noCase),
    ("strict_slashes", boolText options.strictSlashes),
    ("strict_brackets", boolText options.strictBrackets),
    ("contains", boolText options.contains),
    ("base_name", boolText options.baseName),
    ("capture", boolText options.capture),
    ("max_length", toString options.maxLength),
    ("literal_brackets", choiceText options.literalBrackets),
    ("fast_paths", boolText options.fastPaths),
    ("unescape", boolText options.unescape),
    ("keep_quotes", boolText options.keepQuotes),
    ("debug", boolText options.debug),
    ("scan_to_end", boolText options.scanToEnd),
    ("parts", boolText options.parts),
    ("ignore", listText options.ignore),
    ("format", presenceText options.format.isSome),
    ("expand_range", presenceText options.expandRange.isSome),
    ("on_match", presenceText options.observers.matched),
    ("on_ignore", presenceText options.observers.ignored),
    ("on_result", presenceText options.observers.results)]

/-- The options as a text, one field after the other. -/
def text (options : Options) : String :=
  "Options \x7b " ++
    ", ".intercalate (options.fieldTexts.map fun (name, value) => name ++ ": " ++ value) ++
    " \x7d"

end Options

end PathGlob
