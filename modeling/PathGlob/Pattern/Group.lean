import PathGlob.Pattern.Tokenizer
import PathGlob.Text.Split

/-!
# `PathGlob.Pattern.Group`: braces, parentheses and extended groups

A brace group with a comma is an alternation, one with a valid range is replaced by the
source of the range, and any other is text. An extended group is an operator and a
parenthesis; at the start of a segment it is guarded against leading dots unless one of
its alternatives begins with a dot.

A negated group excludes its alternatives up to the end of the pattern. If the text
after it is a plain extension, that is translated on its own to take part in what is
excluded. The function that does so is a parameter here.
-/

set_option autoImplicit false

namespace PathGlob.Pattern

/-- A dot, and then at least one character, none of which is a backslash, a separator or
a dot. -/
def isExtension (text : List Char) : Bool :=
  match text with
  | '.' :: extension =>
    !extension.isEmpty && !extension.any fun c => c = '\\' || c = '/' || c = '.'
  | _ => false

/-- The texts of range operands among the tokens within braces: text and dots take
turns, beginning and ending with text. -/
def operandTexts? (expectText : Bool) : List Token → Option (List (List Char))
  | [] => if expectText then none else some []
  | token :: tokens =>
    if token.kind = .dots && !expectText then operandTexts? true tokens
    else if token.kind = .text && expectText then
      (operandTexts? false tokens).map (token.value :: ·)
    else none

namespace Tokenizer

/-- An opening brace. -/
def openBrace (ctx : Context) (t : Tokenizer) : Tokenizer :=
  let frame : BraceFrame := ⟨Text.byteSize t.output, t.tokens.length, false, false, []⟩
  { t with frames := .brace frame :: t.frames }.push ctx
    (.ofSource .brace ['{'] (Regex.Fragment.openGroup ctx.options.capture))

/-- The source of the range within a brace group, if it is one. -/
def rangeSource? (ctx : Context) (t : Tokenizer) (frame : BraceFrame) : Option (List Char) := do
  let texts ← operandTexts? true (t.tokens.drop (frame.token + 1))
  let operands ← Range.Operands.ofTexts? texts
  return ctx.options.rangeSource operands

/-- A brace group that is only text: its source is put together anew. -/
def literalBrace (ctx : Context) (t : Tokenizer) (frame : BraceFrame) : Tokenizer :=
  let t := { t with output := Text.takeBytes frame.outputSize t.output }
  let t := t.modify frame.token fun token =>
    { token with value := ['\\', '{'], source? := some ['\\', '{'] }
  let t := t.emit ((t.tokens.drop frame.token).flatMap Token.source)
  t.push ctx (.ofSource .brace ['\\', '}'] ['\\', '}'])

/-- A closing brace. -/
def closeBrace (ctx : Context) (t : Tokenizer) : Tokenizer :=
  match takeFrame? Frame.isBrace t.frames with
  | some (.brace frame, frames) =>
    let t := { t with frames }
    let range? := if frame.dots && !frame.comma then t.rangeSource? ctx frame else none
    match range? with
    | some source =>
      { t with tokens := t.tokens.take frame.token, rebuild := true }.push ctx
        (.ofSource .brace ['}'] source)
    | none =>
      if frame.comma then t.push ctx (.ofSource .brace ['}'] [')'])
      else t.literalBrace ctx frame
  | _ => t.pushText ctx ['}'] ['\\', '}']

/-- A comma. It separates alternatives if the innermost open group is a brace group. -/
def comma (ctx : Context) (t : Tokenizer) : Tokenizer :=
  match t.frames with
  | .brace frame :: frames =>
    let frame := { frame with comma := true, commas := frame.commas ++ [t.tokens.length] }
    { t with frames := .brace frame :: frames }.push ctx (.ofSource .comma [','] ['|'])
  | _ => t.push ctx (.ofSource .comma [','] [','])

/-- An opening parenthesis without an operator. It captures if that is asked for, if
something may refer to it, or if it begins a construct of the source language. -/
def openParen (ctx : Context) (t : Tokenizer) : Tokenizer :=
  let captures := ctx.options.capture || ctx.hasReference || t.ahead 0 = some '?'
  { t with frames := .paren t.tokens.length :: t.frames }.push ctx
    (.ofSource .paren ['('] (Regex.Fragment.openGroup captures))

/-- An operator before an opening parenthesis opens a group, unless a question mark
follows the parenthesis. -/
def opensExtglob (ctx : Context) (t : Tokenizer) : Bool :=
  !ctx.options.noExtglob && t.ahead 0 = some '(' && t.ahead 1 ≠ some '?'

/-- An operator that opens an extended group. -/
def openExtglob (ctx : Context) (t : Tokenizer) (kind : ExtglobKind) (operator : Char) :
    Tokenizer :=
  let before := t.last.kind
  let guard := if t.output.isEmpty then Regex.Fragment.oneChar else []
  let opening := (if ctx.options.capture then ['('] else []) ++ kind.opening
  let place := t.tokens.length
  let t := (t.push ctx (.ofSource (.extglob kind) [operator] guard)).skip 1
  let t := t.push ctx { Token.ofSource .paren ['('] opening with isExtglob := true }
  { t with frames := .extglob ⟨kind, before, place, []⟩ :: t.frames }

/-- The source that closes a negated group. -/
def negateClosing (ctx : Context) (t : Tokenizer) (tail : List Char → Except Error (List Char))
    (frame : ExtglobFrame) : Except Error (List Char) := do
  let crosses := 1 < Text.byteSize frame.inner && frame.inner.contains '/'
  let star := if crosses then ctx.globstar else ctx.star
  if frame.inner.contains '*' && isExtension t.rest then
    let extension ← tail t.rest
    return ')' :: extension ++ ')' :: star ++ [')']
  else if star ≠ ctx.star || t.rest.all (· = ')') then
    return [')', '$', ')', ')'] ++ star
  else return ExtglobKind.negate.closing (Regex.Fragment.star ctx.windows)

/-- The closing parenthesis of an extended group. -/
def closeExtglob (ctx : Context) (t : Tokenizer) (tail : List Char → Except Error (List Char))
    (frame : ExtglobFrame) : Except Error Tokenizer := do
  let closing ←
    if frame.kind = .negate then t.negateClosing ctx tail frame
    else pure (frame.kind.closing [])
  let t := { t with
    negatedExtglob := t.negatedExtglob ||
      (frame.kind = ExtglobKind.negate && frame.before = TokenKind.bos) }
  let closing := if ctx.options.capture then closing ++ [')'] else closing
  let beginsSegment := frame.before.beginsSegment
  let hasDot := frame.kind ≠ .negate &&
    (Text.pieces '|' frame.inner).any fun alternative => alternative.head? = some '.'
  let t :=
    if beginsSegment && !hasDot && frame.operator < t.tokens.length then
      (t.modify frame.operator fun token =>
        { token with source? := some (ctx.dotGuard ++ token.source) }).needRebuild
    else t
  let t := t.push ctx { Token.ofSource .paren [')'] closing with isExtglob := true }
  return if beginsSegment && frame.kind.isOptional then
    { t with optionalGroup := some t.lastPlace }
  else t

/-- A closing parenthesis. -/
def closeParen (ctx : Context) (t : Tokenizer) (tail : List Char → Except Error (List Char)) :
    Except Error Tokenizer :=
  match takeFrame? (fun frame => !frame.isBrace) t.frames with
  | some (.extglob frame, frames) => { t with frames }.closeExtglob ctx tail frame
  | some (_, frames) => .ok ({ t with frames }.push ctx { kind := .paren, value := [')'] })
  | none =>
    if ctx.options.strictBrackets then .error (ctx.unbalanced (.opening '(') t.place)
    else .ok (t.push ctx (.ofSource .paren [')'] ['\\', ')']))

end Tokenizer

end PathGlob.Pattern
