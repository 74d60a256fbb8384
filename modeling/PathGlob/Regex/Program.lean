import PathGlob.Regex.Dialect
import PathGlob.Regex.Run

/-!
# `PathGlob.Regex.Program`: a source made ready to match

`Program.ofSource?` reads a source and refuses it if neither dialect accepts it.
`Program.find?` is the leftmost match with its groups; `Program.isMatch` only says
whether there is one.
-/

set_option autoImplicit false

namespace PathGlob.Regex

/-- What a match reports. -/
structure Found where
  /-- The whole matched text. -/
  whole : List Char
  /-- The text of each group in order; missing if the group took no part. -/
  groups : List (Option (List Char))
  deriving DecidableEq, Repr

/-- A source that has been read and accepted. -/
structure Program where
  tree : Node
  groups : Nat
  /-- Case is ignored. -/
  blind : Bool
  deriving DecidableEq, Repr

namespace Program

/-- Reads a source; nothing if it is refused. -/
def ofSource? (text : List Char) : Option Program := do
  let source ← Source.ofText? text
  if source.isAccepted then some ⟨source.tree, source.groups, source.blind⟩ else none

/-- The leftmost match: where it begins and where it ends. There is no search where a sweep
shows that there can be none. -/
def locate? (program : Program) (text : List Char) : Option (Place × Place) :=
  if program.tree.mayMatchOnwards program.blind (.ofText text) then
    program.tree.search program.blind (!program.tree.beyondRegular) text.length (.ofText text)
  else none

/-- The leftmost match with its groups. -/
def find? (program : Program) (text : List Char) : Option Found :=
  (program.locate? text).map fun (p, q) =>
    ⟨p.textTo q, (List.range program.groups).map fun i => q.group? (i + 1)⟩

/-- The text contains a match. -/
def isMatch (program : Program) (text : List Char) : Bool := (program.locate? text).isSome

end Program

end PathGlob.Regex
