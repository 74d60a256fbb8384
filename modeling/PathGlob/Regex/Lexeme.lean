import PathGlob.Regex.CharSet

/-!
# `PathGlob.Regex.Lexeme`: source text with its escapes resolved

Before structure is read, every escape is turned into the one thing it stands for, so
that the reader sees a stream of lexemes in which a character is either plain, and may
be an operator, or literal, and is only itself.

An escape spans up to four characters, a back-reference any number of digits. `Pending`
is the part read so far, and `Pending.next` consumes one more character. Reading is a
fold over the characters, so it can be cut anywhere.
-/

set_option autoImplicit false

namespace PathGlob.Regex

/-- A unit of source text. -/
inductive Lexeme where
  /-- A character without a backslash. -/
  | plain (c : Char)
  /-- A character that stands for itself. -/
  | literal (c : Char)
  | shorthand (kind : Shorthand) (negated : Bool)
  /-- A word edge, `\b`, or its absence, `\B`. -/
  | edge (negated : Bool)
  /-- A back-reference. -/
  | ref (index : Nat)
  /-- A backslash without a meaning. -/
  | bad
  deriving DecidableEq, Repr

/-- An escape of which only a part has been read. -/
inductive Pending where
  | nothing
  /-- A backslash. -/
  | backslash
  /-- `\x`. -/
  | hex
  /-- `\x` and the value of one digit. -/
  | hexDigit (high : Nat)
  /-- A back-reference, which may go on. -/
  | ref (index : Nat)
  deriving DecidableEq, Repr

/-- The value of a hexadecimal digit. -/
def hexValue? (c : Char) : Option Nat :=
  if '0' ≤ c && c ≤ '9' then some (c.toNat - '0'.toNat)
  else if 'a' ≤ c && c ≤ 'f' then some (c.toNat - 'a'.toNat + 10)
  else if 'A' ≤ c && c ≤ 'F' then some (c.toNat - 'A'.toNat + 10)
  else none

namespace Lexeme

/-- A backslash before punctuation makes a literal. Letters, digits and angle brackets
have no meaning unless they are listed in `ofEscape`. -/
def ofPunctuation (c : Char) : Lexeme :=
  if c.toNat < 128 && !c.isAlphanum && c ≠ '<' && c ≠ '>' then .literal c else .bad

/-- What a backslash and one character stand for. -/
def ofEscape (c : Char) : Lexeme :=
  match c with
  | 'd' => .shorthand .digit false
  | 'D' => .shorthand .digit true
  | 's' => .shorthand .space false
  | 'S' => .shorthand .space true
  | 'w' => .shorthand .word false
  | 'W' => .shorthand .word true
  | 'b' => .edge false
  | 'B' => .edge true
  | 'a' => .literal '\x07'
  | 'f' => .literal '\x0c'
  | 'n' => .literal '\n'
  | 'r' => .literal '\r'
  | 't' => .literal '\t'
  | 'v' => .literal '\x0b'
  | c => ofPunctuation c

end Lexeme

namespace Pending

/-- Reads a character that continues no escape. -/
def fresh (c : Char) : List Lexeme × Pending :=
  if c = '\\' then ([], .backslash) else ([.plain c], .nothing)

/-- The lexemes completed by one more character, and what is pending after it. -/
def next : Pending → Char → List Lexeme × Pending
  | .nothing, c => fresh c
  | .backslash, c =>
    if c = 'x' then ([], .hex)
    else if '1' ≤ c && c ≤ '9' then ([], .ref (c.toNat - '0'.toNat))
    else ([.ofEscape c], .nothing)
  | .hex, c =>
    match hexValue? c with
    | some high => ([], .hexDigit high)
    | none => ([.bad], .nothing)
  | .hexDigit high, c =>
    match hexValue? c with
    | some low => ([.literal (Char.ofNat (16 * high + low))], .nothing)
    | none => ([.bad], .nothing)
  | .ref index, c =>
    if c.isDigit then ([], .ref (10 * index + (c.toNat - '0'.toNat)))
    else ((.ref index :: (fresh c).1), (fresh c).2)

/-- The lexeme that the end of the source completes. -/
def atEnd : Pending → List Lexeme
  | .nothing => []
  | .ref index => [.ref index]
  | _ => [.bad]

end Pending

end PathGlob.Regex
