import PathGlob.Pattern.Group
import PathGlob.Unicode.Classes

/-!
# `PathGlob.Pattern.Wildcard`: dots, question marks and stars

A wildcard at the start of a segment gets a guard, so that it matches no leading dot or,
with the option for that, only not the segments `.` and `..`. Two stars that fill a
segment are a globstar, which takes the separators around it into its own source, since
it may match no segment at all.
-/

set_option autoImplicit false

namespace PathGlob.Pattern

open Regex

/-- What follows a question mark, itself `<`, opens a lookbehind or a named group. -/
def opensLookbehindOrName (rest : List Char) : Bool :=
  match rest with
  | '<' :: '!' :: _ => true
  | '<' :: '=' :: _ => true
  | '<' :: rest =>
    let isNameChar (c : Char) := Unicode.isAlphanumeric c || c = '_'
    match rest.dropWhile isNameChar with
    | '>' :: _ => rest.head?.any isNameChar
    | _ => false
  | _ => false

/-- The text without further `/**` segments at its start, and the number of characters
they take. The first argument bounds their number. -/
def redundantGlobstars (rest : List Char) : Nat → Nat
  | 0 => 0
  | n + 1 =>
    match rest with
    | '/' :: '*' :: '*' :: [] => 3
    | '/' :: '*' :: '*' :: '/' :: more => 3 + redundantGlobstars ('/' :: more) n
    | _ => 0

namespace Tokenizer

/-- Marks the innermost brace group as having dots. -/
def noteDots (t : Tokenizer) : Tokenizer :=
  { t with frames := modifyFrame (fun
      | .brace frame => some (.brace { frame with dots := true })
      | _ => none) t.frames }

/-- A dot. Within braces a second dot makes the first one a pair. -/
def dot (ctx : Context) (t : Tokenizer) : Tokenizer :=
  if t.inBrace && t.last.kind = .dot then
    ((t.modifyLast fun token => { token with
        kind := .dots, value := ['.', '.'], source? := some (Fragment.dot ++ Fragment.dot) }).emit
      Fragment.dot).noteDots
  else
    let kind := if t.frames.isEmpty && !t.last.kind.beginsSegment then .text else .dot
    t.push ctx (.ofSource kind ['.'] Fragment.dot)

/-- A question mark. After a parenthesis it belongs to the source language, unless it is
the first character of a group that it does not open in a known way. -/
def qmark (ctx : Context) (t : Tokenizer) : Tokenizer :=
  let inGroup := t.last.value = ['(']
  let next := t.ahead 0
  if !inGroup && t.opensExtglob ctx then t.openExtglob ctx .zeroOrOne '?'
  else if t.last.kind = .paren then
    let opensKnown := next = some '!' || next = some '=' || next = some '<' || next = some ':'
    let isEscaped := (inGroup && !opensKnown) ||
      (next = some '<' && !opensLookbehindOrName t.rest)
    t.pushText ctx ['?'] (if isEscaped then ['\\', '?'] else ['?'])
  else
    let source :=
      if !t.last.kind.beginsSegment then Fragment.anyChar ctx.windows
      else if ctx.options.dot then
        Fragment.noDotsSegment ctx.windows ++ Fragment.anyChar ctx.windows
      else Fragment.anyCharNoDot ctx.windows
    t.push ctx (.ofSource .qmark ['?'] source)

/-- Puts a guard behind the last token. -/
def guardLast (t : Tokenizer) (guard : List Char) : Tokenizer :=
  (t.emit guard).modifyLast fun token => { token with source? := some (token.source ++ guard) }

/-- Makes the star at a place a globstar. -/
def promote (t : Tokenizer) (place : Nat) (source : List Char) : Tokenizer :=
  t.modify place fun token =>
    { token with kind := .globstar, value := token.value ++ ['*'], source? := some source }

/-- A slash that the globstar before it has taken into its source. -/
def absorbSlash (ctx : Context) (t : Tokenizer) : Tokenizer :=
  (t.skip 1).push ctx (.ofSource .slash ['/'] [])

/-- A globstar after a separator: the separator and the star are replaced by a group that
begins with the separator. -/
def globstarAfterSlash (t : Tokenizer) (slashPlace starPlace : Nat) (slash star : Token)
    (source : List Char) : Tokenizer :=
  let opening := ['(', '?', ':'] ++ slash.source
  let t := t.cutOutput (Text.byteSize slash.source + Text.byteSize star.source)
  ((t.emit (opening ++ source)).setSource slashPlace opening).promote starPlace source

/-- The second of two stars that may form a globstar, given the first one and the token
before it. -/
def globstarAt (ctx : Context) (t : Tokenizer) (star : Token) (priorPlace : Nat) (prior : Token)
    (beforePrior : Option TokenKind) : Tokenizer :=
  let place := t.lastPlace
  let skipped := redundantGlobstars t.rest t.rest.length
  let t : Tokenizer := { t.skip skipped with globstar := true }
  let globstar := ctx.globstar
  let slash := Fragment.slash ctx.windows
  let afterBos := beforePrior = some .bos
  let afterStar := beforePrior = some .star || beforePrior = some .globstar
  let bosSource := (t.tokens.head?.getD .bos).source
  if prior.kind = .bos && t.rest.isEmpty then
    { t with output := bosSource ++ globstar }.promote place globstar
  else if prior.kind = .slash && !afterBos && !afterStar && t.rest.isEmpty then
    let closing := if ctx.options.strictSlashes then [')'] else ['|', '$', ')']
    t.globstarAfterSlash priorPlace place prior star (globstar ++ closing)
  else if prior.kind = .slash && !afterBos && t.rest.head? = some '/' then
    let closing := if 1 < t.rest.length then ['|', '$', ')'] else [')']
    (t.globstarAfterSlash priorPlace place prior star
      (globstar ++ slash ++ '|' :: slash ++ closing)).absorbSlash ctx
  else if prior.kind = .bos && t.rest.head? = some '/' then
    let source := ['(', '?', ':', '^', '|'] ++ slash ++ '|' :: globstar ++ slash ++ [')']
    ({ t with output := bosSource ++ source }.promote place source).absorbSlash ctx
  else
    ((t.cutOutput (Text.byteSize star.source)).emit globstar).promote place globstar

/-- A star after a star. Unless the two may form a globstar, the second one adds
nothing. -/
def secondStar (ctx : Context) (t : Tokenizer) : Tokenizer :=
  if ctx.options.noGlobstar then t
  else
    let star := t.last
    let priorPlace := star.previous.getD 0
    let prior := t.tokens[priorPlace]?.getD .bos
    let beforePrior := prior.previous.map fun place => (t.tokens[place]?.getD .bos).kind
    let next := t.ahead 0
    let inAlternative := t.inBrace && (prior.kind = .comma || prior.kind = .brace)
    if (ctx.options.bash && (!prior.kind.beginsSegment || next.any (· ≠ '/'))) ||
        (!prior.kind.beginsSegment && prior.kind ≠ .paren && !inAlternative) then
      t.push ctx (.ofSource .star ['*'] [])
    else t.globstarAt ctx star priorPlace prior beforePrior

/-- The guard of a star, if it needs one: at the start of a segment, after a dot there,
or after an optional group there. -/
def starGuard? (ctx : Context) (t : Tokenizer) : Option (List Char) :=
  let kind := t.last.kind
  if t.place = t.start || kind = .slash || kind = .dot then
    let guard := if kind = .dot then Fragment.noDotSegment ctx.windows else ctx.dotGuard
    some (if t.ahead 0 = some '*' then guard else guard ++ Fragment.oneChar)
  else if t.optionalGroup = some t.lastPlace then some ctx.dotGuard
  else none

/-- A star. -/
def star (ctx : Context) (t : Tokenizer) : Tokenizer :=
  if t.last.kind = .globstar || t.last.isStarRun then
    -- A third star makes the run a single star again.
    { (t.modifyLast fun token => { token with
        kind := .star, isStarRun := true, value := token.value ++ ['*'],
        source? := some ctx.star }).needRebuild with globstar := true }
  else if !ctx.options.noExtglob && t.ahead 0 = some '(' && (t.ahead 1).any (· ≠ '?') then
    t.openExtglob ctx .zeroOrMore '*'
  else if t.last.kind = .star then t.secondStar ctx
  else
    let t := match t.starGuard? ctx with
      | some guard => t.guardLast guard
      | none => t
    let source :=
      if ctx.options.bash then
        if ctx.options.capture then '(' :: Fragment.anything ++ [')'] else Fragment.anything
      else ctx.star
    t.push ctx (.ofSource .star ['*'] source)

end Tokenizer

end PathGlob.Pattern
