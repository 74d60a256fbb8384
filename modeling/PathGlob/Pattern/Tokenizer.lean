import PathGlob.Error
import PathGlob.Options
import PathGlob.Pattern.Token
import PathGlob.Text.Size

/-!
# `PathGlob.Pattern.Tokenizer`: the state of translating a pattern

The tokenizer keeps the tokens so far, the source so far, and the groups that are open.
The source is edited along with the tokens; where that would be too much trouble,
`rebuild` asks for putting it together from the tokens at the end.

An open group is a frame that points at the token that opened it. Groups may cross, so a
frame is closed wherever it stands on the stack.
-/

set_option autoImplicit false

namespace PathGlob.Pattern

/-- What stays the same while a pattern is translated. -/
structure Context where
  options : Options
  /-- The pattern as given. -/
  pattern : List Char
  /-- The text that is read: normalised, and without a leading `./`. -/
  body : List Char
  /-- A leading `./` was removed. -/
  dotSlash : Bool
  /-- The source of a star. -/
  star : List Char
  /-- The text has a backslash followed by a digit from 1 to 9. -/
  hasReference : Bool

namespace Context

/-- A backslash separates. -/
def windows (ctx : Context) : Bool := ctx.options.windows

/-- What no wildcard may match at the start of a segment. -/
def dotGuard (ctx : Context) : List Char :=
  Regex.Fragment.dotGuard ctx.options.windows ctx.options.dot

/-- The source of a globstar. -/
def globstar (ctx : Context) : List Char :=
  Regex.Fragment.globstar ctx.options.windows ctx.options.dot ctx.options.capture

/-- The error for a delimiter that was found missing at a place of the text. -/
def unbalanced (ctx : Context) (missing : Delimiter) (place : Nat) : Error :=
  .unbalanced ctx.pattern missing
    ((if ctx.dotSlash then 2 else 0) + Text.byteSize (ctx.body.take place))

end Context

/-- An open extended group. -/
structure ExtglobFrame where
  kind : ExtglobKind
  /-- The kind of the token before the operator. -/
  before : TokenKind
  /-- The place of the operator among the tokens. -/
  operator : Nat
  /-- The pattern text within the group so far. -/
  inner : List Char
  deriving DecidableEq, Repr

/-- An open brace group. -/
structure BraceFrame where
  /-- The length of the source before the group, in bytes. -/
  outputSize : Nat
  /-- The place of the brace among the tokens. -/
  token : Nat
  /-- There was a comma. -/
  comma : Bool
  /-- There were two dots. -/
  dots : Bool
  /-- The places of the commas among the tokens, in order. -/
  commas : List Nat
  deriving DecidableEq, Repr

/-- An open group. -/
inductive Frame where
  | paren (token : Nat)
  | extglob (frame : ExtglobFrame)
  | brace (frame : BraceFrame)
  deriving DecidableEq, Repr

namespace Frame

/-- The frame of a brace group. -/
def isBrace : Frame → Bool
  | .brace _ => true
  | _ => false

/-- The frame of an extended group. -/
def isExtglob : Frame → Bool
  | .extglob _ => true
  | _ => false

end Frame

/-- The state of the tokenizer. -/
structure Tokenizer where
  /-- The characters not read yet. -/
  rest : List Char
  /-- The number of characters read. -/
  position : Nat := 0
  /-- The place where the pattern proper begins, after negation and `./`. -/
  start : Nat := 0
  output : List Char := []
  tokens : List Token := [.bos]
  /-- The open groups, innermost first. -/
  frames : List Frame := []
  /-- Within brackets. -/
  inClass : Bool := false
  /-- Between double quotes. -/
  quoted : Bool := false
  /-- The source has to be put together from the tokens. -/
  rebuild : Bool := false
  negated : Bool := false
  negatedExtglob : Bool := false
  globstar : Bool := false
  /-- The closing token of an optional group at the start of a segment. -/
  optionalGroup : Option Nat := none
  deriving DecidableEq, Repr

namespace Tokenizer

/-- The place of the character that is being read. -/
def place (t : Tokenizer) : Nat := t.position - 1

/-- The `n`-th character after the one that is being read, from zero. -/
def ahead (t : Tokenizer) (n : Nat) : Option Char := t.rest[n]?

/-- Reads over characters. -/
def skip (t : Tokenizer) (n : Nat) : Tokenizer :=
  { t with rest := t.rest.drop n, position := t.position + n }

/-- The last token. -/
def last (t : Tokenizer) : Token := t.tokens.getLast?.getD .bos

/-- The place of the last token. -/
def lastPlace (t : Tokenizer) : Nat := t.tokens.length - 1

/-- Changes the token at a place, if there is one. -/
def modify (t : Tokenizer) (place : Nat) (change : Token → Token) : Tokenizer :=
  { t with tokens := t.tokens.modify place change }

/-- Changes the last token. -/
def modifyLast (t : Tokenizer) (change : Token → Token) : Tokenizer :=
  t.modify t.lastPlace change

/-- Gives the token at a place a source. -/
def setSource (t : Tokenizer) (place : Nat) (source : List Char) : Tokenizer :=
  t.modify place fun token => { token with source? := some source }

/-- A brace group is open. -/
def inBrace (t : Tokenizer) : Bool := t.frames.any Frame.isBrace

/-- A group other than a brace group is open. -/
def inParen (t : Tokenizer) : Bool := t.frames.any fun frame => !frame.isBrace

/-- An extended group is open. -/
def inExtglob (t : Tokenizer) : Bool := t.frames.any Frame.isExtglob

/-- Cuts bytes off the end of the source. -/
def cutOutput (t : Tokenizer) (bytes : Nat) : Tokenizer :=
  { t with output := Text.dropLastBytes bytes t.output }

/-- Adds to the source. -/
def emit (t : Tokenizer) (source : List Char) : Tokenizer :=
  { t with output := t.output ++ source }

/-- Asks for putting the source together from the tokens. -/
def needRebuild (t : Tokenizer) : Tokenizer := { t with rebuild := true }

/-- Changes the first frame that the function applies to. -/
def modifyFrame (change : Frame → Option Frame) : List Frame → List Frame
  | [] => []
  | frame :: frames =>
    match change frame with
    | some frame => frame :: frames
    | none => frame :: modifyFrame change frames

/-- Takes the first frame that passes the test off the stack. -/
def takeFrame? (test : Frame → Bool) : List Frame → Option (Frame × List Frame)
  | [] => none
  | frame :: frames =>
    if test frame then some (frame, frames)
    else (takeFrame? test frames).map fun (found, others) => (found, frame :: others)

/-- Notes pattern text in the innermost extended group. -/
def noteInner (t : Tokenizer) (value : List Char) : Tokenizer :=
  { t with frames := modifyFrame (fun
      | .extglob frame => some (.extglob { frame with inner := frame.inner ++ value })
      | _ => none) t.frames }

/-- A globstar stays one before this token: before a separator or a parenthesis, at a
comma or brace within braces, and at the parts of an extended group. -/
def keepsGlobstar (t : Tokenizer) (token : Token) : Bool :=
  token.kind = .slash || token.kind = .paren ||
    (t.inBrace && (token.kind = .comma || token.kind = .brace)) || token.isExtglob

/-- Turns a globstar that is last into a star. -/
def demoteGlobstar (ctx : Context) (t : Tokenizer) : Tokenizer :=
  ((t.cutOutput (Text.byteSize t.last.source)).emit ctx.star).modifyLast fun token =>
    { token with kind := .star, value := ['*'], source? := some ctx.star }

/-- Adds a token. Text after text is merged into one token. -/
def push (ctx : Context) (t : Tokenizer) (token : Token) : Tokenizer :=
  let t := if t.last.kind = .globstar && !t.keepsGlobstar token then t.demoteGlobstar ctx else t
  let t := if token.kind = .paren then t else t.noteInner token.value
  let t := t.emit token.source
  if t.last.kind = .text && token.kind = .text then
    t.modifyLast fun last => { last with
      value := last.value ++ token.value
      source? := some (last.source ++ token.source) }
  else { t with tokens := t.tokens ++ [{ token with previous := some t.lastPlace }] }

/-- Adds a text token. -/
def pushText (ctx : Context) (t : Tokenizer) (value source : List Char) : Tokenizer :=
  t.push ctx (.text value source)

end Tokenizer

end PathGlob.Pattern
