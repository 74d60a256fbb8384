import PathGlob.Pattern.Step

/-!
# `PathGlob.Pattern.Finish`: the end of a pattern

What is still open at the end is text: its tokens get the source of their own text. With
strict brackets it is an error instead. A pattern that ends in a star or a bracket also
allows a separator after it, and last the source is put together anew if need be.
-/

set_option autoImplicit false

namespace PathGlob.Pattern

/-- Applies a change to the last element that passes a test. -/
def modifyLastWhere {α : Type} (test : α → Bool) (change : α → α) (items : List α) : List α :=
  let rec go : List α → List α
    | [] => []
    | item :: items => if test item then change item :: items else item :: go items
  (go items.reverse).reverse

namespace Tokenizer

/-- A bracket that is still open. -/
def endBracket (ctx : Context) (t : Tokenizer) : Except Error Tokenizer :=
  if !t.inClass then .ok t
  else if ctx.options.strictBrackets then
    .error (ctx.unbalanced (.closing ']') ctx.body.length)
  else .ok { t with
    tokens := modifyLastWhere (fun token => token.kind = .bracket)
      (fun token => { token with value := Regex.escape token.value }) t.tokens
    inClass := false
    rebuild := true }

/-- The delimiter that closes a frame. -/
def closingOf : Frame → Char
  | .brace _ => '}'
  | _ => ')'

/-- Turns the opening of a frame, and its commas, into text. -/
def endFrame (t : Tokenizer) : Frame → Tokenizer
  | .paren place => t.setSource place ['\\', '(']
  | .extglob frame =>
    (t.modify frame.operator fun token =>
      { token with source? := some (Regex.escape token.value) }).setSource
        (frame.operator + 1) ['\\', '(']
  | .brace frame =>
    frame.commas.foldl (fun t place => t.setSource place [','])
      (t.setSource frame.token ['\\', '{'])

/-- The groups that are still open, innermost first. -/
def endFrames (ctx : Context) (t : Tokenizer) : Except Error Tokenizer :=
  match t.frames with
  | [] => .ok t
  | frame :: _ =>
    if ctx.options.strictBrackets then
      .error (ctx.unbalanced (.closing (closingOf frame)) ctx.body.length)
    else .ok { t.frames.foldl endFrame t with frames := [], rebuild := true }

/-- Allows a separator at the end. -/
def allowSlash (ctx : Context) (t : Tokenizer) : Tokenizer :=
  if !ctx.options.strictSlashes && (t.last.kind = .star || t.last.kind = .bracket) then
    t.push ctx (.ofSource .maybeSlash [] (Regex.Fragment.slash ctx.windows ++ ['?']))
  else t

/-- The source put together from the tokens. -/
def joinSources (t : Tokenizer) : List Char := t.tokens.flatMap Token.source

/-- The end of the pattern. -/
def finish (ctx : Context) (t : Tokenizer) : Except Error Tokenizer := do
  let t ← t.endBracket ctx
  let t ← t.endFrames ctx
  let t := t.allowSlash ctx
  return if t.rebuild then { t with output := t.joinSources } else t

end Tokenizer

end PathGlob.Pattern
