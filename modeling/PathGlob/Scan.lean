import PathGlob.Options
import PathGlob.Separator
import PathGlob.Text.Size

/-!
# `PathGlob.Scan`: the literal base of a pattern

Scanning is one pass that finds the first construct with a meaning and splits the
pattern before it: a leading part that belongs to no path, a base path that is literal,
and the rest. Groups are only looked through for their closing delimiter. Asked to, the
pass goes on to the end, so that later constructs are reported too.

Places are counted in characters here. The one place that is reported is turned into
bytes at the end.
-/

set_option autoImplicit false

namespace PathGlob.Scan

open PathGlob.Separator

/-- What scanning finds out about a pattern. -/
structure Result where
  input : List Char
  /-- Leading negation and `./`, which belong to no path. -/
  lead : List Char
  /-- The longest literal path at the start; it never ends within a segment. -/
  base : List Char
  /-- What follows the base, without the separator between them. -/
  glob : List Char
  /-- The byte offset of the first construct, or the length of the input. -/
  start : Nat
  isGlob : Bool
  isBrace : Bool
  isBracket : Bool
  isExtglob : Bool
  isGlobstar : Bool
  negated : Bool
  negatedExtglob : Bool
  /-- The segments after the leading part, if they were asked for. -/
  parts : Option (List (List Char))
  deriving DecidableEq, Repr

/-- A backslash before the given character, if any, escapes it. -/
def escapes (windows : Bool) (next : Option Char) : Bool := !windows || next.any isGlobMeta

/-- The character separates segments, given the one after it. -/
def separates (windows : Bool) (c : Char) (next : Option Char) : Bool :=
  c = '/' || (c = '\\' && !escapes windows next)

/-- A text cut after the delimiter that closes it, if there is one. -/
abbrev Closed := Option (List Char × List Char)

/-- Puts characters in front of what is cut off. -/
def Closed.onto (chars : List Char) (closed : Closed) : Closed :=
  closed.map fun (inside, rest) => (chars ++ inside, rest)

/-- Cuts after the delimiter that closes the given number of open ones. A backslash hides
the character after it. -/
def closeNested (opening closing : Char) : Nat → List Char → Closed
  | _, [] => none
  | _, '\\' :: [] => none
  | depth, '\\' :: d :: rest => Closed.onto ['\\', d] (closeNested opening closing depth rest)
  | depth, c :: rest =>
    if c = opening then Closed.onto [c] (closeNested opening closing (depth + 1) rest)
    else if c = closing then
      if depth ≤ 1 then some ([c], rest)
      else Closed.onto [c] (closeNested opening closing (depth - 1) rest)
    else Closed.onto [c] (closeNested opening closing depth rest)

/-- Cuts after the next closing bracket. A backslash hides the character after it. -/
def closeClassBody : List Char → Closed
  | [] => none
  | '\\' :: [] => none
  | '\\' :: d :: rest => Closed.onto ['\\', d] (closeClassBody rest)
  | c :: rest => if c = ']' then some ([c], rest) else Closed.onto [c] (closeClassBody rest)

/-- Cuts the text after an opening bracket behind the bracket that closes it. A closing
bracket at the very beginning, or after `!` or `^` there, is part of the class. -/
def closeClass (text : List Char) : Closed :=
  let (sign, text) := match text with
    | '!' :: rest => (['!'], rest)
    | '^' :: rest => (['^'], rest)
    | _ => ([], text)
  let (member, text) := match text with
    | ']' :: rest => ([']'], rest)
    | _ => ([], text)
  Closed.onto (sign ++ member) (closeClassBody text)

/-- A brace group has alternatives or dots: some comma, or some `..`, that no backslash
hides. The text ends with the group. -/
def hasAlternatives : List Char → Bool
  | [] => false
  | '\\' :: rest => match rest with
    | [] => false
    | _ :: rest => hasAlternatives rest
  | ',' :: _ => true
  | '.' :: '.' :: _ => true
  | _ :: rest => hasAlternatives rest

/-- The state of the pass. -/
structure Scanner where
  /-- The characters ahead. -/
  rest : List Char
  /-- The number of characters behind. -/
  index : Nat := 0
  /-- The last character behind. -/
  previous : Option Char := none
  /-- The length of the leading part. -/
  start : Nat := 0
  /-- The place after the last separator before the first construct. -/
  lastSeparator : Nat := 0
  /-- The place of the first construct. -/
  first : Option Nat := none
  isBrace : Bool := false
  isBracket : Bool := false
  isExtglob : Bool := false
  isGlobstar : Bool := false
  negated : Bool := false
  negatedExtglob : Bool := false
  /-- The pass has come upon a backslash that escapes. -/
  hasEscapes : Bool := false
  deriving DecidableEq, Repr

namespace Scanner

/-- Moves past characters. -/
def past (scanner : Scanner) (chars rest : List Char) : Scanner :=
  { scanner with
    rest
    index := scanner.index + chars.length
    previous := (chars.getLast?).or scanner.previous }

/-- Moves past a closed group, if it is closed. -/
def pastClosed (scanner : Scanner) (closed : Closed) : Scanner :=
  match closed with
  | some (inside, rest) => scanner.past inside rest
  | none => scanner

/-- Notes the place of a construct unless there was one before. -/
def mark (scanner : Scanner) (place : Nat) : Scanner :=
  { scanner with first := scanner.first.or (some place) }

/-- Notes the backslashes that looking for a closing delimiter came upon. -/
def noteEscapes (scanner : Scanner) (closed : Closed) : Scanner :=
  let seen := match closed with
    | some (inside, _) => inside
    | none => scanner.rest
  { scanner with hasEscapes := scanner.hasEscapes || seen.contains '\\' }

/-- Constructs at this place count: there was none before, or all are wanted. -/
def counts (scanner : Scanner) (options : Options) : Bool :=
  scanner.first.isNone || options.scanToEnd

/-- A separator at the given place. The scanner is already past it. -/
def separator (scanner : Scanner) (place : Nat) (previous : Option Char) : Scanner :=
  if scanner.first.isSome then scanner
  else if place = scanner.start + 1 && previous = some '.' then
    { scanner with start := scanner.start + 2 }
  else { scanner with lastSeparator := place + 1 }

/-- An operator with an opening parenthesis after it. The scanner is past the operator. -/
def extglob (scanner : Scanner) (c : Char) (place : Nat) : Scanner :=
  let scanner := { scanner with
    negatedExtglob := scanner.negatedExtglob || (c = '!' && place = scanner.start)
    isExtglob := true }
  let scanner := scanner.mark place
  let closed := closeNested '(' ')' 0 scanner.rest
  (scanner.noteEscapes closed).pastClosed closed

/-- A star. The scanner is past it. -/
def star (scanner : Scanner) (options : Options) (place : Nat) (previous : Option Char) :
    Scanner :=
  let atStart := place = scanner.start ||
    previous.any fun c => separates options.windows c (some '*')
  let standsAlone := match scanner.rest with
    | '*' :: [] => atStart
    | '*' :: c :: rest => atStart && separates options.windows c rest.head?
    | _ => false
  let isGlobstar := scanner.isGlobstar || (standsAlone && scanner.counts options)
  let stars := scanner.rest.takeWhile (· = '*')
  ({ scanner with isGlobstar }.mark place).past stars (scanner.rest.dropWhile (· = '*'))

/-- An opening bracket. The scanner is past it. -/
def bracket (scanner : Scanner) (options : Options) (place : Nat) : Scanner :=
  let closed := closeClass scanner.rest
  let noted := scanner.noteEscapes closed
  if closed.isNone then noted
  else
    let isBracket := noted.isBracket || scanner.counts options
    ({ noted with isBracket }.mark place).pastClosed closed

/-- An opening brace. The scanner is past it. -/
def brace (scanner : Scanner) (options : Options) (place : Nat) : Scanner :=
  let closed := closeNested '{' '}' 1 scanner.rest
  let noted := scanner.noteEscapes closed
  let inside := match closed with
    | some (inside, _) => inside
    | none => scanner.rest
  let marked :=
    if hasAlternatives inside then
      { noted with isBrace := noted.isBrace || scanner.counts options }.mark place
    else noted
  marked.pastClosed closed

/-- Reads the next character. -/
def step (options : Options) (scanner : Scanner) (c : Char) (rest : List Char) : Scanner :=
  let place := scanner.index
  let previous := scanner.previous
  let windows := options.windows
  let ahead := scanner.past [c] rest
  if c = '\\' && escapes windows rest.head? then
    let escaping := { ahead with hasEscapes := true }
    match rest with
    | [] => escaping
    | d :: rest => escaping.past [d] rest
  else if separates windows c rest.head? then ahead.separator place previous
  else if !options.noExtglob && ['!', '@', '*', '+', '?'].contains c && rest.head? = some '(' then
    ahead.extglob c place
  else if c = '*' then ahead.star options place previous
  else if c = '?' then ahead.mark place
  else if c = '[' && !options.noBracket then ahead.bracket options place
  else if c = '{' && !options.noBrace then ahead.brace options place
  else if c = '!' && !options.noNegate && place = scanner.start && scanner.first.isNone then
    { ahead with negated := true, start := scanner.start + 1 }
  else ahead

/-- The pass from the given state on. The first argument bounds the number of steps, each
of which consumes a character. -/
def run (options : Options) : Nat → Scanner → Scanner
  | 0, scanner => scanner
  | n + 1, scanner =>
    match scanner.rest with
    | [] => scanner
    | c :: rest =>
      if scanner.counts options then run options n (scanner.step options c rest) else scanner

end Scanner

/-- A text without its escaping backslashes. -/
def unescape : List Char → List Char
  | [] => []
  | '\\' :: rest => match rest with
    | [] => []
    | c :: rest => c :: unescape rest
  | c :: rest => c :: unescape rest

/-- Puts characters in front of the first text of a list. -/
def ontoFirst (chars : List Char) : List (List Char) → List (List Char)
  | [] => [chars]
  | text :: texts => (chars ++ text) :: texts

/-- The pieces of a text between its separators. -/
def segments (windows : Bool) : List Char → List (List Char)
  | [] => [[]]
  | c :: rest =>
    if c = '\\' && escapes windows rest.head? then
      match rest with
      | [] => [[c]]
      | d :: rest => ontoFirst [c, d] (segments windows rest)
    else if separates windows c rest.head? then [] :: segments windows rest
    else ontoFirst [c] (segments windows rest)

/-- A list without its first text if that is empty and not the only one. -/
def dropFirstEmpty : List (List Char) → List (List Char)
  | [] :: text :: texts => text :: texts
  | texts => texts

/-- The segments of a path, without the empty ones that a separator at the start or at
the end makes. -/
def parts (windows : Bool) (text : List Char) : List (List Char) :=
  (dropFirstEmpty (dropFirstEmpty (segments windows text)).reverse).reverse

/-- The base without the separator at its end, unless it is the root or everything. -/
def trimBase (windows : Bool) (base whole : List Char) : List Char :=
  if base.isEmpty || base = ['/'] || base.length = whole.length then base
  else match base.getLast? with
    | some c => if c = '/' || (c = '\\' && windows) then base.dropLast else base
    | none => base

end Scan

/-- Scans a pattern. -/
def scan (input : List Char) (options : Options) : Scan.Result :=
  let scanner := Scan.Scanner.run options input.length { rest := input }
  let whole := input.drop scanner.start
  let isGlob := scanner.first.isSome
  let split := if isGlob then scanner.lastSeparator - scanner.start else whole.length
  let base := Scan.trimBase options.windows (whole.take split) whole
  let glob := whole.drop split
  let clean (text : List Char) :=
    if options.unescape && scanner.hasEscapes then Scan.unescape text else text
  { input
    lead := input.take scanner.start
    base := clean base
    glob := clean glob
    start := Text.byteSize (match scanner.first with
      | some place => input.take place
      | none => input)
    isGlob
    isBrace := scanner.isBrace
    isBracket := scanner.isBracket
    isExtglob := scanner.isExtglob
    isGlobstar := scanner.isGlobstar
    negated := scanner.negated
    negatedExtglob := scanner.negatedExtglob
    parts := if options.parts then some (Scan.parts options.windows whole) else none }

end PathGlob
