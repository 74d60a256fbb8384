import PathGlob.Regex.CharSet

/-!
# `PathGlob.Regex.Node`: regular expressions as trees

The tree that a source text denotes. A bare group keeps its node, since whether a piece
may be repeated depends on how it was written; it has no other effect.

`beyondRegular` tells the trees that look around or refer back. `fixedWidth?` is the
number of characters a tree consumes when that does not depend on the text.
-/

set_option autoImplicit false

namespace PathGlob.Regex

/-- A regular expression. -/
inductive Node where
  /-- Matches nothing, at any place. -/
  | empty
  | char (c : Char)
  /-- Any character but a line feed. -/
  | dot
  | set (members : CharSet)
  /-- The start of the text. -/
  | start
  /-- The very end of the text. -/
  | finish
  /-- A place between a word character and one that is not, or its absence. -/
  | edge (negated : Bool)
  | seq (a b : Node)
  | alt (a b : Node)
  /-- A group that does not capture. -/
  | group (a : Node)
  | capture (index : Nat) (a : Node)
  /-- A condition on the text ahead or, with `behind`, on the text before. -/
  | look (behind negated : Bool) (a : Node)
  /-- The text that a group has captured. -/
  | ref (index : Nat)
  /-- From `least` to `most` rounds, without an upper bound if `most` is missing. -/
  | loop (a : Node) (least : Nat) (most : Option Nat) (reluctant : Bool)
  deriving DecidableEq, Repr

namespace Node

/-- The pieces, last one first, in sequence. -/
def ofPieces (pieces : List Node) : Node := pieces.foldl (fun rest piece => .seq piece rest) .empty

/-- The alternatives before the last one, in reverse order, and the last one. -/
def ofBranches (earlier : List Node) (last : Node) : Node :=
  earlier.foldl (fun rest branch => .alt branch rest) last

/-- The tree looks around or refers back. -/
def beyondRegular : Node → Bool
  | .look _ _ _ | .ref _ => true
  | .seq a b | .alt a b => a.beyondRegular || b.beyondRegular
  | .group a | .capture _ a | .loop a _ _ _ => a.beyondRegular
  | _ => false

/-- The number of characters consumed, if it is the same for every text. -/
def fixedWidth? : Node → Option Nat
  | .empty | .start | .finish | .edge _ | .look _ _ _ => some 0
  | .char _ | .dot | .set _ => some 1
  | .seq a b => do return (← a.fixedWidth?) + (← b.fixedWidth?)
  | .alt a b => do
    let m ← a.fixedWidth?
    let n ← b.fixedWidth?
    if m = n then some m else none
  | .group a | .capture _ a => a.fixedWidth?
  | .ref _ => none
  | .loop a least most _ =>
    if most = some least then a.fixedWidth?.map (· * least) else none

/-- The number of capturing groups of the tree. -/
def captures : Node → Nat
  | .seq a b | .alt a b => a.captures + b.captures
  | .group a | .look _ _ a | .loop a _ _ _ => a.captures
  | .capture _ a => a.captures + 1
  | _ => 0

end Node

end PathGlob.Regex
