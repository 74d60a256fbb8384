import PathGlob.Pattern.Finish
import PathGlob.Pattern.Shortcut
import PathGlob.Regex.CaptureCount
import PathGlob.Separator

/-!
# `PathGlob.Pattern.Parse`: translating a pattern

`parse` checks the length of a pattern, tries the shortcuts if they are allowed, and
otherwise runs the tokenizer. The result is the source without anchors, together with
what is known about the pattern.

The extension after a negated group is a pattern of its own, which is translated in the
same way. It is shorter than the pattern it stands in, so the length of the pattern
bounds how deep this can go.
-/

set_option autoImplicit false

namespace PathGlob.Pattern

/-- A translated pattern. -/
structure Translation where
  /-- The pattern as given. -/
  input : List Char
  /-- The source, without anchors. -/
  output : List Char
  /-- A leading `./` was removed. -/
  dotSlash : Bool
  /-- An odd number of exclamation marks leads the pattern. -/
  negated : Bool
  /-- The pattern begins with a negated group. -/
  negatedExtglob : Bool
  /-- The pattern has a globstar. -/
  globstar : Bool
  /-- A shortcut was taken. -/
  fastPath : Bool
  tokens : List Token
  deriving DecidableEq, Repr

namespace Translation

/-- The leading text that was removed from the pattern. -/
def lead (translation : Translation) : List Char :=
  if translation.dotSlash then ['.', '/'] else []

/-- The number of capturing groups of the source. -/
def captureGroups (translation : Translation) : Nat := Regex.captureCount translation.output

end Translation

/-- A backslash with a digit from 1 to 9 after it occurs in the text. -/
def refersBack : List Char → Bool
  | [] => false
  | c :: rest =>
    (c = '\\' && rest.head?.any fun d => '1' ≤ d && d ≤ '9') || refersBack rest

/-- The source of a star. -/
def starSource (options : Options) : List Char :=
  let star :=
    if options.bash then Regex.Fragment.globstar options.windows options.dot options.capture
    else Regex.Fragment.star options.windows
  if options.capture then '(' :: star ++ [')'] else star

/-- What stays the same while the pattern is translated. -/
def Context.ofPattern (options : Options) (pattern : List Char) : Context :=
  let simple := simplify pattern
  let normal := if options.windows then Separator.normalize simple else simple
  let (dotSlash, body) := dropDotSlash normal
  { options, pattern, body, dotSlash, star := starSource options
    hasReference := refersBack body }

/-- The translation that the tokenizer arrives at. -/
def Context.tokenize (ctx : Context) (tail : List Char → Except Error (List Char)) :
    Except Error Translation := do
  let t ← Tokenizer.run ctx tail ctx.body.length { rest := ctx.body }
  let t ← t.finish ctx
  return {
    input := ctx.pattern
    output := t.output
    dotSlash := ctx.dotSlash
    negated := t.negated
    negatedExtglob := t.negatedExtglob
    globstar := t.globstar
    fastPath := false
    tokens := t.tokens }

/-- A translation by a shortcut. -/
def Translation.ofShortcut (input output : List Char) (dotSlash globstar : Bool)
    (tokens : List Token) : Translation :=
  { input, output, dotSlash, negated := false, negatedExtglob := false, globstar,
    fastPath := true, tokens }

/-- Translates a pattern of admissible length, given how to translate the extension after a
negated group. -/
def translate (options : Options) (tail : List Char → Except Error (List Char))
    (pattern : List Char) : Except Error Translation :=
  let ctx := Context.ofPattern options pattern
  let shape := if options.fastPaths then shape? options pattern else none
  match shape with
  | some shape =>
    .ok (.ofShortcut pattern shape.output shape.dotSlash shape.globstar [])
  | none =>
    let flat := if options.fastPaths then flat? options ctx.star ctx.body else none
    match flat with
    | some output => .ok (.ofShortcut pattern output ctx.dotSlash false [.bos])
    | none => ctx.tokenize tail

/-- Translates a pattern. The first argument bounds how deep extensions may nest. -/
def parseWithin : Nat → Options → List Char → Except Error Translation
  | depth, options, pattern =>
    let limit := options.effectiveMaxLength
    if limit < Text.byteSize pattern then .error (.tooLong (Text.byteSize pattern) limit)
    else if pattern.isEmpty then .error .empty
    else
      let tail := match depth with
        | 0 => fun _ => .error .empty
        | depth + 1 => fun tail =>
          (parseWithin depth { options with fastPaths := false } tail).map Translation.output
      translate options tail pattern

end Pattern

open Pattern

/-- Translates a pattern. -/
def parse (pattern : List Char) (options : Options) : Except Error Translation :=
  parseWithin pattern.length options pattern

/-- Translates patterns, of which there has to be at least one. -/
def parseAll (patterns : List (List Char)) (options : Options) :
    Except Error (List Translation) :=
  if patterns.isEmpty then .error .empty
  else patterns.mapM fun pattern => parse pattern options

end PathGlob
