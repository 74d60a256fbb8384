import PathGlob.Pattern.Tokenizer

/-!
# `PathGlob.Pattern.Bracket`: brackets

The body of a bracket expression becomes the body of a character class. A negated class
does not match a separator, and at the start of a segment no leading dot. A body without
characters of any meaning may also be meant literally, brackets included.

With the option for it, a class name such as `[:alpha:]` within the body is replaced by
the characters of the class.
-/

set_option autoImplicit false

namespace PathGlob.Pattern

/-- The class names, each with the class body that it stands for. -/
def posixClasses : List (List Char × List Char) :=
  [(['a', 'l', 'n', 'u', 'm'], ['a', '-', 'z', 'A', '-', 'Z', '0', '-', '9']),
    (['a', 'l', 'p', 'h', 'a'], ['a', '-', 'z', 'A', '-', 'Z']),
    (['a', 's', 'c', 'i', 'i'], ['\\', 'x', '0', '0', '-', '\\', 'x', '7', 'F']),
    (['b', 'l', 'a', 'n', 'k'], [' ', '\\', 't']),
    (['c', 'n', 't', 'r', 'l'],
      ['\\', 'x', '0', '0', '-', '\\', 'x', '1', 'F', '\\', 'x', '7', 'F']),
    (['d', 'i', 'g', 'i', 't'], ['0', '-', '9']),
    (['g', 'r', 'a', 'p', 'h'], ['\\', 'x', '2', '1', '-', '\\', 'x', '7', 'E']),
    (['l', 'o', 'w', 'e', 'r'], ['a', '-', 'z']),
    (['p', 'r', 'i', 'n', 't'], ['\\', 'x', '2', '0', '-', '\\', 'x', '7', 'E']),
    (['p', 'u', 'n', 'c', 't'],
      ['!', '-', '/', ':', '-', '@', '\\', '[', '-', '\x60', '{', '-', '~']),
    (['s', 'p', 'a', 'c', 'e'],
      [' ', '\\', 't', '\\', 'r', '\\', 'n', '\\', 'x', '0', 'B', '\\', 'f']),
    (['u', 'p', 'p', 'e', 'r'], ['A', '-', 'Z']),
    (['w', 'o', 'r', 'd'], ['A', '-', 'Z', 'a', '-', 'z', '0', '-', '9', '_']),
    (['x', 'd', 'i', 'g', 'i', 't'], ['A', '-', 'F', 'a', '-', 'f', '0', '-', '9'])]

/-- The class body that a class name stands for. -/
def posixClass? (name : List Char) : Option (List Char) := posixClasses.lookup name

/-- A class body cut before its last opening bracket, and the name in what was cut off:
everything but the bracket and the colon after it. -/
def lastClassName? (value : List Char) : Option (List Char × List Char) :=
  let name := (value.reverse.takeWhile (· ≠ '[')).reverse
  let before := (value.reverse.dropWhile (· ≠ '[')).tail.reverse
  match name with
  | c :: name => if c.utf8Size = 1 then some (before, name) else none
  | [] => none

namespace Tokenizer

/-- Adds to the body of the bracket that is open. -/
def appendClass (t : Tokenizer) (body : List Char) : Tokenizer :=
  (t.emit body).modifyLast fun token => { token with value := token.value ++ body }

/-- A colon within a bracket, if it ends a class name: the name is replaced by its
characters. The second component tells whether that happened. -/
def posixName (t : Tokenizer) : Tokenizer × Bool :=
  let inner := t.last.value.drop 1
  if !inner.contains '[' then (t, false)
  else
    let isFirst := t.tokens.length = 2
    let t := t.modifyLast fun token => { token with isPosix := true }
    if !inner.contains ':' then (t, false)
    else match lastClassName? t.last.value with
      | none => (t, false)
      | some (before, name) =>
        match posixClass? name with
        | none => (t, false)
        | some members =>
          let t := (t.modifyLast fun token => { token with value := before ++ members }).needRebuild
          let t := if t.ahead 0 = some ']' then t.skip 1 else t
          let needsChar := isFirst && (t.tokens.head?.any fun token => token.source.isEmpty)
          (if needsChar then t.setSource 0 Regex.Fragment.oneChar else t, true)

/-- The class body that a character of a bracket stands for. -/
def classChar (ctx : Context) (t : Tokenizer) (c : Char) : List Char :=
  let isFirst := t.last.value = ['[']
  if c = '[' then
    if ctx.options.posix && t.ahead 0 = some ':' then ['['] else ['\\', '[']
  else if c = '-' then
    if t.ahead 0 = some ']' then ['\\', '-'] else ['-']
  else if c = ']' then ['\\', ']']
  else if c = '!' && isFirst then ['^']
  else if c = '^' && isFirst then ['^']
  else Regex.escapeClassChar c

/-- A character within a bracket. -/
def inBracket (ctx : Context) (t : Tokenizer) (c : Char) : Tokenizer :=
  if c = ':' && ctx.options.posix then
    let (t, replaced) := t.posixName
    if replaced then t else t.appendClass (t.classChar ctx c)
  else t.appendClass (t.classChar ctx c)

/-- An opening bracket. -/
def openBracket (ctx : Context) (t : Tokenizer) : Except Error Tokenizer :=
  if ctx.options.noBracket || !t.rest.contains ']' then
    if !ctx.options.noBracket && ctx.options.strictBrackets then
      .error (ctx.unbalanced (.closing ']') ctx.body.length)
    else .ok (t.push ctx { kind := .bracket, value := ['\\', '['] })
  else .ok ({ t with inClass := true }.push ctx { kind := .bracket, value := ['['] })

/-- The open bracket with its closing bracket, which is already part of it. The body is
the text between the two. -/
def finishBracket (ctx : Context) (t : Tokenizer) (body : List Char) (isPosix : Bool) :
    Tokenizer :=
  let bracket := t.last
  let beginsSegment := match bracket.previous.bind (t.tokens[·]?) with
    | some token => token.kind.beginsSegment
    | none => false
  if body.head? = some '^' && beginsSegment then
    (t.modifyLast fun token => { token with value := ctx.dotGuard ++ token.value }).needRebuild
  else if ctx.options.literalBrackets = some false || isPosix || Regex.hasMeta body then t
  else
    let escaped := Regex.escape bracket.value
    let value :=
      if ctx.options.literalBrackets = some true then escaped
      else Regex.Fragment.openGroup ctx.options.capture ++ escaped ++ '|' :: bracket.value ++ [')']
    ((t.cutOutput (Text.byteSize bracket.value)).emit value).modifyLast fun token =>
      { token with value }

/-- A closing bracket. -/
def closeBracket (ctx : Context) (t : Tokenizer) : Except Error Tokenizer :=
  if ctx.options.noBracket then .ok (t.pushText ctx [']'] ['\\', ']'])
  else if !t.inClass then
    if ctx.options.strictBrackets then .error (ctx.unbalanced (.opening '[') t.place)
    else .ok (t.pushText ctx [']'] ['\\', ']'])
  else
    let body := t.last.value.drop 1
    let isPosix := t.last.isPosix
    let closing :=
      if !isPosix && body.head? = some '^' && !body.contains '/' then
        Regex.Fragment.slashClass ctx.windows ++ [']']
      else [']']
    .ok (({ t with inClass := false }.appendClass closing).finishBracket ctx body isPosix)

end Tokenizer

end PathGlob.Pattern
