import PathGlob.Options
import PathGlob.Text.Split

/-!
# `PathGlob.Pattern.Shortcut`: simple patterns translated directly

Two kinds of patterns are translated without tokens. A pattern of a known shape, such as
`*.js` or `**/*`, has a known source; a pattern without separators, groups or other
structure is translated character by character. In both cases the source is the one that
the tokenizer would produce.
-/

set_option autoImplicit false

namespace PathGlob.Pattern

open Regex

/-- Whole patterns that stand for a simpler one. -/
def simplify (pattern : List Char) : List Char :=
  if pattern = ['*', '*', '*'] then ['*']
  else if pattern = ['*', '*', '/', '*', '*'] then ['*', '*']
  else if pattern = ['*', '*', '/', '*', '*', '/', '*', '*'] then ['*', '*']
  else pattern

/-- There are two stars side by side. -/
def hasTwoStars : List Char → Bool
  | '*' :: '*' :: _ => true
  | _ :: rest => hasTwoStars rest
  | [] => false

/-- A text cut at its last dot. -/
def splitExtension? (text : List Char) : Option (List Char × List Char) :=
  if text.contains '.' then
    some ((text.reverse.dropWhile (· ≠ '.')).tail.reverse,
      (text.reverse.takeWhile (· ≠ '.')).reverse)
  else none

/-- The source of a shape. -/
def shapeSource? (options : Options) (shape : List Char) : Option (List Char) :=
  let windows := options.windows
  let slash := Fragment.slash windows
  let guard := Fragment.dotGuard windows options.dot
  let star := match options.bash, options.capture with
    | true, true => '(' :: Fragment.anything ++ [')']
    | true, false => Fragment.anything
    | false, true => '(' :: Fragment.star windows ++ [')']
    | false, false => Fragment.star windows
  let globstar := Fragment.globstar windows options.dot options.capture
  let leading := guard ++ ['(', '?', ':', '^', '|'] ++ slash ++ '|' :: globstar ++ slash ++ [')']
  let starSegment := guard ++ Fragment.oneChar ++ star
  let dotSegment := Fragment.dot ++ Fragment.noDotSegment windows ++ Fragment.oneChar ++ star
  if options.noGlobstar && hasTwoStars shape then none
  else match shape with
    | ['*'] => some starSegment
    | ['.', '*'] => some dotSegment
    | ['*', '.', '*'] => some (starSegment ++ Fragment.dot ++ star)
    | ['*', '/', '*'] => some (starSegment ++ slash ++ starSegment)
    | ['*', '*'] => some (guard ++ globstar)
    | ['*', '*', '/', '*'] => some (leading ++ starSegment)
    | ['*', '*', '/', '*', '.', '*'] => some (leading ++ starSegment ++ Fragment.dot ++ star)
    | ['*', '*', '/', '.', '*'] => some (leading ++ dotSegment)
    | _ => none

/-- A word of ASCII letters, digits and underscores. -/
def isExtensionWord (text : List Char) : Bool :=
  !text.isEmpty && text.all fun c => c.isAlphanum || c = '_'

/-- The source of a shape followed by extensions. The first argument bounds the number of
extensions; `extensions` is the source of those already cut off. -/
def extendedShape? (options : Options) : Nat → List Char → List Char → Option (List Char)
  | 0, _, _ => none
  | n + 1, extensions, shape =>
    match shapeSource? options shape with
    | some source =>
      if extensions.isEmpty then
        -- Only a star at the end allows a separator after it.
        if shape ≠ ['*', '*'] && !options.strictSlashes then
          some (source ++ Fragment.slash options.windows ++ ['?'])
        else some source
      -- Two stars before an extension are no globstar.
      else if shape = ['*', '*'] then none
      else some (source ++ extensions)
    | none =>
      match splitExtension? shape with
      | some (shape, extension) =>
        if isExtensionWord extension then
          extendedShape? options n (Fragment.dot ++ extension ++ extensions) shape
        else none
      | none => none

/-- A pattern without its leading `./`, and whether it had one. -/
def dropDotSlash (pattern : List Char) : Bool × List Char :=
  match pattern with
  | '.' :: '/' :: rest => (true, rest)
  | _ => (false, pattern)

/-- What the shape shortcut yields. -/
structure Shape where
  output : List Char
  dotSlash : Bool
  globstar : Bool
  deriving DecidableEq, Repr

/-- The shape shortcut. -/
def shape? (options : Options) (pattern : List Char) : Option Shape :=
  let begins := match pattern with
    | '*' :: _ | '.' :: _ => true
    | _ => false
  if !begins || (options.windows && pattern.contains '\\') then none
  else
    let (dotSlash, body) := dropDotSlash (simplify pattern)
    (extendedShape? options (body.length + 1) [] body).map fun output =>
      { output, dotSlash, globstar := hasTwoStars body && !options.noGlobstar }

/-- Characters that give a pattern structure. -/
def isStructural (c : Char) : Bool :=
  ['/', '\\', '(', ')', '[', ']', '{', '}', '"', '|', '\x00'].contains c

/-- The pattern can be translated character by character. -/
def isFlat (options : Options) (body : List Char) : Bool :=
  let begins := match body with
    | '*' :: _ | '!' :: _ => true
    | '.' :: '*' :: _ => true
    | _ => false
  !options.bash && !begins && !body.any isStructural

/-- The source of a flat pattern, given the character before it. -/
def flatSource (options : Options) (star : List Char) : Option Char → List Char → List Char
  | _, [] => []
  | previous, c :: rest =>
    let source :=
      if c = '?' then
        if previous.isSome then Fragment.anyChar options.windows
        else if options.dot then
          Fragment.noDotsSegment options.windows ++ Fragment.anyChar options.windows
        else Fragment.anyCharNoDot options.windows
      else if c = '.' then Fragment.dot
      else if c = '*' then if previous = some '*' then [] else star
      else Regex.escapeChar c
    source ++ flatSource options star (some c) rest

/-- The literal shortcut. -/
def flat? (options : Options) (star body : List Char) : Option (List Char) :=
  if isFlat options body then
    let slash :=
      if body.getLast? = some '*' && !options.strictSlashes then
        Fragment.slash options.windows ++ ['?']
      else []
    some (flatSource options star none body ++ slash)
  else none

end PathGlob.Pattern
