import PathGlob.Pattern.Bracket
import PathGlob.Pattern.Wildcard

/-!
# `PathGlob.Pattern.Step`: reading a pattern character by character

`Tokenizer.step` reads one character and whatever belongs to it; it never gives
characters back. `Tokenizer.run` does so until none are left.
-/

set_option autoImplicit false

namespace PathGlob.Pattern

/-- Characters that end a run of plain text. -/
def isSpecial (c : Char) : Bool :=
  ['@', '!', '[', ']', '.', ',', '$', '*', '+', '?', '^', '{', '}', '(', ')', '|', '\\', '/',
    '"', '\x00'].contains c

namespace Tokenizer

/-- Plain text: the character and the plain characters after it. -/
def plainText (ctx : Context) (t : Tokenizer) (c : Char) : Tokenizer :=
  let run := t.rest.takeWhile fun d => !isSpecial d
  let source := if c = '$' || c = '^' || c = '{' then ['\\', c] else [c]
  (t.skip run.length).pushText ctx (c :: run) (source ++ run)

/-- A backslash. Before a separator, a dot or a semicolon it has no effect. Otherwise it
takes the next character with it, either as that very character or, where the source
language gives it a meaning, with that meaning. -/
def escape (ctx : Context) (t : Tokenizer) : Tokenizer :=
  match t.rest with
  | [] => t.pushText ctx ['\\'] ['\\', '\\']
  | next :: _ =>
    if (next = '/' && !ctx.options.bash) || next = '.' || next = ';' then t
    else
      let t := t.skip 1
      if t.inClass then
        let keeps := Regex.isClassMeta next || Regex.isClassEscapeLetter next
        t.appendClass (if !ctx.options.unescape && keeps then ['\\', next]
          else Regex.escapeClassChar next)
      else if ctx.options.unescape || !Regex.isEscapeLetter next then
        t.pushText ctx ['\\', next] (Regex.escapeChar next)
      else t.pushText ctx ['\\', next] ['\\', next]

/-- A slash. A leading `./` is no part of the pattern. -/
def slash (ctx : Context) (t : Tokenizer) : Tokenizer :=
  if t.last.kind = .dot && t.place = t.start + 1 then
    { t with start := t.place + 1, output := [], tokens := t.tokens.dropLast }
  else t.push ctx (.ofSource .slash ['/'] (Regex.Fragment.slash ctx.windows))

/-- A leading run of exclamation marks. Each one negates what the next one yields. An
exclamation mark that opens a group does not belong to the run. -/
def negations : List Char → Nat
  | '!' :: rest =>
    if rest.head? ≠ some '(' || rest[1]? = some '?' then 1 + negations rest else 0
  | _ => 0

/-- An exclamation mark. -/
def bang (ctx : Context) (t : Tokenizer) : Tokenizer :=
  let third := t.ahead 2
  let opensRaw := t.ahead 1 = some '?' &&
    (third = some '!' || third = some '=' || third = some '<' || third = some ':')
  if !ctx.options.noExtglob && t.ahead 0 = some '(' && !opensRaw then
    t.openExtglob ctx .negate '!'
  else if !ctx.options.noNegate && t.place = 0 then
    let more := negations t.rest
    { t.skip more with start := more + 1, negated := (more + 1) % 2 = 1 }
  else t.plainText ctx '!'

/-- An operator that opens a group if a parenthesis follows it. -/
def operator (ctx : Context) (t : Tokenizer) (kind : ExtglobKind) (c : Char) (other : Token) :
    Tokenizer :=
  if t.opensExtglob ctx then t.openExtglob ctx kind c else t.push ctx other

/-- Reads one character, which is already taken off the rest. -/
def step (ctx : Context) (tail : List Char → Except Error (List Char)) (t : Tokenizer)
    (c : Char) : Except Error Tokenizer :=
  if c = '\x00' then .ok t
  else if c = '\\' then .ok (t.escape ctx)
  else if t.inClass && (c ≠ ']' || t.last.value = ['['] || t.last.value = ['[', '^']) then
    .ok (t.inBracket ctx c)
  else if t.quoted && c ≠ '"' then .ok (t.pushText ctx [c] (Regex.escapeChar c))
  else match c with
    | '"' =>
      let t := { t with quoted := !t.quoted }
      .ok (if ctx.options.keepQuotes then t.pushText ctx ['"'] ['"'] else t)
    | '(' => .ok (t.openParen ctx)
    | ')' => t.closeParen ctx tail
    | '[' => t.openBracket ctx
    | ']' => t.closeBracket ctx
    | '{' => .ok (if ctx.options.noBrace then t.plainText ctx '{' else t.openBrace ctx)
    | '}' => .ok (t.closeBrace ctx)
    | '|' => .ok (t.pushText ctx ['|'] (if t.inParen then ['|'] else ['\\', '|']))
    | ',' => .ok (t.comma ctx)
    | '/' => .ok (t.slash ctx)
    | '.' => .ok (t.dot ctx)
    | '?' => .ok (t.qmark ctx)
    | '!' => .ok (t.bang ctx)
    | '+' => .ok (t.operator ctx .oneOrMore '+' (.ofSource .plus ['+'] Regex.Fragment.plus))
    | '@' => .ok (t.operator ctx .exactlyOne '@' (.text ['@'] ['@']))
    | '*' => .ok (t.star ctx)
    | c => .ok (t.plainText ctx c)

/-- Reads the characters that are left. The first argument bounds the number of steps,
each of which reads at least one character. -/
def run (ctx : Context) (tail : List Char → Except Error (List Char)) :
    Nat → Tokenizer → Except Error Tokenizer
  | 0, t => .ok t
  | n + 1, t =>
    match t.rest with
    | [] => .ok t
    | c :: rest => do
      let t ← step ctx tail { t with rest, position := t.position + 1 } c
      run ctx tail n t

end Tokenizer

end PathGlob.Pattern
