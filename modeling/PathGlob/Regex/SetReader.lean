import PathGlob.Regex.Lexeme

/-!
# `PathGlob.Regex.SetReader`: reading a character class

Reads the inside of `[...]`, one lexeme at a time. A class is a union of members; a
doubled `&`, `-` or `~` combines the union before it with the one after it, from left to
right. An unescaped `[` opens a class within the class. Directly after the opening,
dashes and then a closing bracket are members.

A dash makes a span only between two single characters, so a character is held back
until the lexeme after it is known. A span that runs backwards, or that begins or ends
in a shorthand class, is refused. A span may end in an unescaped `[`, but not every
dialect takes that, so it is noted.
-/

set_option autoImplicit false

namespace PathGlob.Regex

/-- An operation between two unions of a class. -/
inductive SetOp where
  | inter
  | diff
  | symmDiff
  deriving DecidableEq, Repr

/-- The operation applied. -/
def SetOp.apply : SetOp → CharSet → CharSet → CharSet
  | .inter, a, b => .inter a b
  | .diff, a, b => .diff a b
  | .symmDiff, a, b => .symmDiff a b

/-- The operation that a doubled character stands for. -/
def SetOp.ofChar? (c : Char) : Option SetOp :=
  if c = '&' then some .inter
  else if c = '-' then some .diff
  else if c = '~' then some .symmDiff
  else none

/-- One class that is being read. -/
structure SetLevel where
  /-- Begins with `^`. -/
  negated : Bool := false
  /-- What an operation still waits to combine with the current union. -/
  left : Option (CharSet × SetOp) := none
  /-- The current union. -/
  members : CharSet := .none
  deriving DecidableEq, Repr

namespace SetLevel

/-- Adds a set to the current union. -/
def add (level : SetLevel) (members : CharSet) : SetLevel :=
  { level with members := .union level.members members }

/-- Everything before this place, as one set. -/
def value (level : SetLevel) : CharSet :=
  match level.left with
  | none => level.members
  | some (left, op) => op.apply left level.members

/-- Begins the right side of an operation. -/
def operate (level : SetLevel) (op : SetOp) : SetLevel :=
  { level with left := some (level.value, op), members := .none }

/-- The set that the finished class denotes. -/
def result (level : SetLevel) : CharSet :=
  if level.negated then .compl level.value else level.value

end SetLevel

/-- What the next lexeme may continue. -/
inductive SetMode where
  /-- Directly after `[`. -/
  | opened
  /-- Before the first member, except for the dashes there; `dashed` if there was one. -/
  | leading (dashed : Bool)
  | ready
  /-- A single character, which may begin a span. -/
  | held (c : Char)
  /-- One of `&`, `-` and `~`, which may be doubled. -/
  | doubling (c : Char)
  /-- A single character and a dash. -/
  | spanning (c : Char)
  /-- A shorthand class has just been added. -/
  | afterShorthand
  /-- A shorthand class has been added, and a dash read. -/
  | afterShorthandDash
  deriving DecidableEq, Repr

/-- A class and the classes around it that are being read. -/
structure SetReader where
  level : SetLevel := {}
  /-- The classes around it, innermost first. -/
  outer : List SetLevel := []
  mode : SetMode := .opened
  /-- A span ended in an unescaped opening bracket. -/
  strayBracket : Bool := false
  deriving DecidableEq, Repr

/-- What reading one lexeme of a class leads to. -/
inductive SetOutcome where
  | more (reader : SetReader)
  /-- The outermost class is closed. -/
  | done (members : CharSet) (strayBracket : Bool)
  | refused
  deriving DecidableEq, Repr

namespace SetReader

/-- Adds a set to the current union. -/
def add (reader : SetReader) (members : CharSet) : SetReader :=
  { reader with level := reader.level.add members }

/-- Closes the innermost class. -/
def close (reader : SetReader) : SetOutcome :=
  match reader.outer with
  | [] => .done reader.level.result reader.strayBracket
  | level :: outer =>
    .more { reader with level := level.add reader.level.result, outer, mode := .ready }

/-- Begins the right side of an operation. -/
def operate (reader : SetReader) (op : SetOp) : SetOutcome :=
  .more { reader with level := reader.level.operate op, mode := .ready }

/-- A lexeme where a member may begin. -/
def ready (reader : SetReader) : Lexeme → SetOutcome
  | .plain c =>
    if c = '[' then
      .more { reader with level := {}, outer := reader.level :: reader.outer, mode := .opened }
    else if c = ']' then reader.close
    else match SetOp.ofChar? c with
      | some _ => .more { reader with mode := .doubling c }
      | none => .more { reader with mode := .held c }
  | .literal c => .more { reader with mode := .held c }
  | .shorthand kind negated =>
    let members := if negated then .compl (.shorthand kind) else .shorthand kind
    .more { reader.add members with mode := .afterShorthand }
  | .edge _ | .ref _ | .bad => .refused

/-- A lexeme after a single character. -/
def held (reader : SetReader) (c : Char) (lexeme : Lexeme) : SetOutcome :=
  if lexeme = .plain '-' then .more { reader with mode := .spanning c }
  else (reader.add (.single c)).ready lexeme

/-- The second end of a span. -/
def span (reader : SetReader) (low high : Char) : SetOutcome :=
  if low ≤ high then .more { reader.add (.span low high) with mode := .ready } else .refused

/-- A lexeme before the first member. -/
def leading (reader : SetReader) (dashed : Bool) (lexeme : Lexeme) : SetOutcome :=
  if lexeme = .plain '-' then .more { reader.add (.single '-') with mode := .leading true }
  else if lexeme = .plain ']' && !dashed then
    .more { reader.add (.single ']') with mode := .ready }
  else reader.ready lexeme

/-- Reads one lexeme. -/
def next (reader : SetReader) (lexeme : Lexeme) : SetOutcome :=
  match reader.mode with
  | .opened =>
    if lexeme = .plain '^' then
      .more { reader with level := { reader.level with negated := true }, mode := .leading false }
    else reader.leading false lexeme
  | .leading dashed => reader.leading dashed lexeme
  | .ready => reader.ready lexeme
  | .held c => reader.held c lexeme
  | .doubling c =>
    match SetOp.ofChar? c with
    | some op => if lexeme = .plain c then reader.operate op else reader.held c lexeme
    | none => reader.held c lexeme
  | .spanning c =>
    match lexeme with
    | .plain d =>
      if d = ']' then ((reader.add (.single c)).add (.single '-')).close
      else if d = '-' then (reader.add (.single c)).operate .diff
      else { reader with strayBracket := reader.strayBracket || d = '[' }.span c d
    | .literal d => reader.span c d
    | _ => .refused
  | .afterShorthand =>
    if lexeme = .plain '-' then .more { reader with mode := .afterShorthandDash }
    else reader.ready lexeme
  | .afterShorthandDash =>
    if lexeme = .plain ']' then (reader.add (.single '-')).close
    else if lexeme = .plain '-' then reader.operate .diff
    else .refused

end SetReader

end PathGlob.Regex
