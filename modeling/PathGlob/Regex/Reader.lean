import PathGlob.Regex.Node
import PathGlob.Regex.SetReader
import PathGlob.Text.Split

/-!
# `PathGlob.Regex.Reader`: reading a source text as a tree

The reader keeps the groups that are open, each with the alternatives and the pieces
read so far, and consumes one character at a time. `Reader.read` is the fold of
`Reader.step`, so reading `a ++ b` is reading `b` from the state that `a` leads to.

A quantifier applies to the last piece of the current alternative and is refused if
there is none. A question mark directly after a quantifier makes it reluctant. A
back-reference is refused unless its group has been opened before. A brace that does
not form a quantifier stands for itself, which not every dialect allows, so it is noted.
-/

set_option autoImplicit false

namespace PathGlob.Regex

/-- How a group was opened. -/
inductive GroupKind where
  | bare
  | capture (index : Nat)
  | look (behind negated : Bool)
  deriving DecidableEq, Repr

/-- The node of a finished group. -/
def GroupKind.wrap : GroupKind → Node → Node
  | .bare, a => .group a
  | .capture index, a => .capture index a
  | .look behind negated, a => .look behind negated a

/-- The part of one group that has been read. -/
structure Level where
  /-- The finished alternatives, last one first. -/
  branches : List Node := []
  /-- The pieces of the current alternative, last one first. -/
  pieces : List Node := []
  deriving DecidableEq, Repr

namespace Level

/-- Everything read so far, as one node. -/
def node (level : Level) : Node := .ofBranches level.branches (.ofPieces level.pieces)

/-- Adds a piece. -/
def push (level : Level) (piece : Node) : Level := { level with pieces := piece :: level.pieces }

/-- Ends the current alternative. -/
def branch (level : Level) : Level := ⟨.ofPieces level.pieces :: level.branches, []⟩

end Level

/-- What the next lexeme may continue. -/
inductive Mode where
  /-- Between pieces; `repeated` if the last piece has just got a quantifier. -/
  | pieces (repeated : Bool)
  /-- After `(`. -/
  | opened
  /-- After `(?`. -/
  | question
  /-- After `(?<`. -/
  | angle
  /-- Within a group name, last character first. -/
  | name (chars : List Char)
  /-- After `{`, with the digits and commas since, last one first. -/
  | count (chars : List Char)
  | set (reader : SetReader)
  deriving DecidableEq, Repr

/-- The state of reading a source. -/
structure Reader where
  pending : Pending := .nothing
  mode : Mode := .pieces false
  level : Level := {}
  /-- The levels around the current group, innermost first, each with the kind of the
  group that was opened in it. -/
  outer : List (Level × GroupKind) := []
  /-- The number of capturing groups opened. -/
  groups : Nat := 0
  /-- The names of the named groups, last one first. -/
  names : List (List Char) := []
  /-- There was a brace that forms no quantifier. -/
  strayBrace : Bool := false
  /-- There was a span that ends in an unescaped opening bracket. -/
  strayBracket : Bool := false
  deriving DecidableEq, Repr

namespace Reader

/-- Adds a piece to the current alternative. -/
def push (reader : Reader) (piece : Node) : Reader :=
  { reader with level := reader.level.push piece, mode := .pieces false }

/-- Opens a group. -/
def openGroup (reader : Reader) (kind : GroupKind) : Reader :=
  { reader with level := {}, outer := (reader.level, kind) :: reader.outer, mode := .pieces false }

/-- Opens the next capturing group. -/
def openCapture (reader : Reader) : Reader :=
  { reader.openGroup (.capture (reader.groups + 1)) with groups := reader.groups + 1 }

/-- Closes the innermost group. -/
def closeGroup (reader : Reader) : Option Reader :=
  match reader.outer with
  | [] => none
  | (level, kind) :: outer =>
    some { reader with
      level := level.push (kind.wrap reader.level.node), outer, mode := .pieces false }

/-- Applies a quantifier to the last piece. -/
def repeatLast (reader : Reader) (least : Nat) (most : Option Nat) : Option Reader :=
  match reader.level.pieces with
  | [] => none
  | piece :: pieces =>
    some { reader with
      level := { reader.level with pieces := .loop piece least most false :: pieces },
      mode := .pieces true }

/-- Makes the quantifier of the last piece reluctant. -/
def makeReluctant (reader : Reader) : Reader :=
  match reader.level.pieces with
  | .loop a least most _ :: pieces =>
    { reader with
      level := { reader.level with pieces := .loop a least most true :: pieces },
      mode := .pieces false }
  | _ => reader

/-- A lexeme between pieces. -/
def piece (reader : Reader) (repeated : Bool) : Lexeme → Option Reader
  | .plain '(' => some { reader with mode := .opened }
  | .plain ')' => reader.closeGroup
  | .plain '|' => some { reader with level := reader.level.branch, mode := .pieces false }
  | .plain '*' => reader.repeatLast 0 none
  | .plain '+' => reader.repeatLast 1 none
  | .plain '?' => if repeated then some reader.makeReluctant else reader.repeatLast 0 (some 1)
  | .plain '{' => some { reader with mode := .count [] }
  | .plain '[' => some { reader with mode := .set {} }
  | .plain '.' => some (reader.push .dot)
  | .plain '^' => some (reader.push .start)
  | .plain '$' => some (reader.push .finish)
  | .plain c => some (reader.push (.char c))
  | .literal c => some (reader.push (.char c))
  | .shorthand kind negated =>
    some (reader.push (.set (if negated then .compl (.shorthand kind) else .shorthand kind)))
  | .edge negated => some (reader.push (.edge negated))
  | .ref index => if index ≤ reader.groups then some (reader.push (.ref index)) else none
  | .bad => none

/-- The number that decimal digits, last one first, stand for. -/
def number? (digits : List Char) : Option Nat :=
  if digits.isEmpty then none
  else some (digits.foldr (fun d n => 10 * n + (d.toNat - '0'.toNat)) 0)

/-- The bounds of a quantifier, from the digits and commas between its braces, last one
first. -/
def bounds? (chars : List Char) : Option (Nat × Option Nat) :=
  match Text.pieces ',' chars with
  | [digits] => do
    let n ← number? digits
    return (n, some n)
  | [most, least] => do
    let m ← number? least
    if most.isEmpty then return (m, none)
    let n ← number? most
    if m ≤ n then return (m, some n) else none
  | _ => none

/-- Takes a brace and what followed it as ordinary characters. -/
def strayBraceText (reader : Reader) (chars : List Char) : Reader :=
  let level := chars.foldr (fun c level => level.push (.char c)) (reader.level.push (.char '{'))
  { reader with level, mode := .pieces false, strayBrace := true }

/-- A lexeme within braces. -/
def count (reader : Reader) (chars : List Char) (lexeme : Lexeme) : Option Reader :=
  match lexeme with
  | .plain '}' =>
    match bounds? chars with
    | some (least, most) => reader.repeatLast least most
    | none => some ((reader.strayBraceText chars).push (.char '}'))
  | .plain c =>
    if c.isDigit || c = ',' then some { reader with mode := .count (c :: chars) }
    else (reader.strayBraceText chars).piece false lexeme
  | _ => (reader.strayBraceText chars).piece false lexeme

/-- Reads one lexeme. -/
def feed (reader : Reader) (lexeme : Lexeme) : Option Reader :=
  match reader.mode with
  | .pieces repeated => reader.piece repeated lexeme
  | .opened =>
    if lexeme = .plain '?' then some { reader with mode := .question }
    else reader.openCapture.piece false lexeme
  | .question =>
    if lexeme = .plain ':' then some (reader.openGroup .bare)
    else if lexeme = .plain '=' then some (reader.openGroup (.look false false))
    else if lexeme = .plain '!' then some (reader.openGroup (.look false true))
    else if lexeme = .plain '<' then some { reader with mode := .angle }
    else none
  | .angle =>
    if lexeme = .plain '=' then some (reader.openGroup (.look true false))
    else if lexeme = .plain '!' then some (reader.openGroup (.look true true))
    else match lexeme with
      | .plain c =>
        if Unicode.isAlphanumeric c || c = '_' then some { reader with mode := .name [c] }
        else none
      | _ => none
  | .name chars =>
    match lexeme with
    | .plain c =>
      if c = '>' then some { reader.openCapture with names := chars.reverse :: reader.names }
      else if Unicode.isAlphanumeric c || c = '_' then
        some { reader with mode := .name (c :: chars) }
      else none
    | _ => none
  | .count chars => reader.count chars lexeme
  | .set inside =>
    match inside.next lexeme with
    | .more inside => some { reader with mode := .set inside }
    | .done members strayBracket => some
      { reader.push (.set members) with strayBracket := reader.strayBracket || strayBracket }
    | .refused => none

/-- Reads one character. -/
def step (reader : Reader) (c : Char) : Option Reader :=
  let (lexemes, pending) := reader.pending.next c
  (lexemes.foldlM feed { reader with pending })

/-- Reads a text. -/
def read (reader : Reader) (source : List Char) : Option Reader := source.foldlM step reader

/-- Reading two texts in a row is reading the second one from where the first one leads. -/
theorem read_append (reader : Reader) (a b : List Char) :
    reader.read (a ++ b) = (reader.read a).bind fun reader => reader.read b :=
  List.foldlM_append

/-- Completes what the end of the source completes. -/
def atEnd (reader : Reader) : Option Reader := do
  let reader ← reader.pending.atEnd.foldlM feed { reader with pending := .nothing }
  match reader.mode with
  | .pieces _ => if reader.outer.isEmpty then some reader else none
  | .count chars => if reader.outer.isEmpty then some (reader.strayBraceText chars) else none
  | _ => none

end Reader

/-- A source text that has been read. -/
structure Source where
  tree : Node
  /-- The number of capturing groups. -/
  groups : Nat
  /-- The names of the named groups, last one first. -/
  names : List (List Char)
  /-- There was a brace that forms no quantifier. -/
  strayBrace : Bool
  /-- There was a span that ends in an unescaped opening bracket. -/
  strayBracket : Bool
  /-- The source begins with the flag for ignoring case. -/
  blind : Bool
  deriving DecidableEq, Repr

/-- Reads a whole source text. -/
def Source.ofText? (text : List Char) : Option Source := do
  let (blind, body) := match Text.after? ['(', '?', 'i', ')'] text with
    | some body => (true, body)
    | none => (false, text)
  let reader ← ({} : Reader).read body
  let reader ← reader.atEnd
  return {
    tree := reader.level.node
    groups := reader.groups
    names := reader.names
    strayBrace := reader.strayBrace
    strayBracket := reader.strayBracket
    blind }

end PathGlob.Regex
