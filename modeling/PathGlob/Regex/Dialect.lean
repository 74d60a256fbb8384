import PathGlob.Regex.Reader

/-!
# `PathGlob.Regex.Dialect`: which sources are accepted

A source is accepted if one of two dialects takes it. The plain dialect knows neither
lookaround nor back-references, and wants group names to be distinct and to begin with
a letter or an underscore, and every brace to be part of a quantifier. The extended
dialect has both, but refuses to repeat a piece that amounts to nothing or to a mere
condition, or that already carries a quantifier, and takes every unescaped opening
bracket within a class for a class of its own.
-/

set_option autoImplicit false

namespace PathGlob.Regex

/-- What a piece amounts to once bare groups and empty pieces are dissolved. -/
inductive Substance where
  | nothing
  | condition
  | solid
  deriving DecidableEq, Repr

namespace Node

/-- What the tree amounts to. -/
def substance : Node → Substance
  | .empty => .nothing
  | .start | .finish | .edge _ | .look _ _ _ => .condition
  | .group a => a.substance
  | .seq a b =>
    match a.substance, b.substance with
    | .nothing, s => s
    | s, .nothing => s
    | _, _ => .solid
  | _ => .solid

/-- The piece carries a quantifier of its own. -/
def isLoop : Node → Bool
  | .loop _ _ _ _ => true
  | _ => false

/-- What stands behind a place can be looked for: each alternative has a fixed width or
is regular. -/
def canLookBehind : Node → Bool
  | .alt a b => a.canLookBehind && b.canLookBehind
  | .group a => a.canLookBehind
  | .seq a .empty => a.canLookBehind
  | a => a.fixedWidth?.isSome || !a.beyondRegular

/-- The extended dialect takes the tree. -/
def isExtended : Node → Bool
  | .seq a b | .alt a b => a.isExtended && b.isExtended
  | .group a | .capture _ a => a.isExtended
  | .look behind _ a => a.isExtended && (!behind || a.canLookBehind)
  | .loop a _ _ _ => a.isExtended && !a.isLoop && a.substance = .solid
  | _ => true

end Node

/-- A name that the plain dialect allows. -/
def isPlainName (name : List Char) : Bool :=
  match name with
  | [] => false
  | c :: _ => c = '_' || Unicode.isAlphabetic c

namespace Source

/-- The plain dialect takes the source. -/
def isPlain (source : Source) : Bool :=
  !source.tree.beyondRegular && !source.strayBrace &&
    source.names.all isPlainName && decide source.names.Nodup

/-- The extended dialect takes the source. -/
def isExtended (source : Source) : Bool := !source.strayBracket && source.tree.isExtended

/-- One of the two dialects takes the source. -/
def isAccepted (source : Source) : Bool := source.isPlain || source.isExtended

end Source

end PathGlob.Regex
