import PathGlob.Regex.CharSet

/-!
# `PathGlob.Regex.Place`: places in a text

A place is the characters before it, nearest first, and the characters after it, together
with what has been captured on the way to it. Matching moves from place to place.
-/

set_option autoImplicit false

namespace PathGlob.Regex

/-- A place in a text, and what has been captured on the way to it. -/
structure Place where
  /-- The characters before the place, nearest first. -/
  before : List Char
  /-- The characters after the place. -/
  after : List Char
  /-- The captured texts with their group numbers, latest first. -/
  found : List (Nat × List Char)
  /-- The number of characters after the place. -/
  left : Nat
  left_eq : left = after.length
  deriving DecidableEq, Repr

namespace Place

/-- The start of a text. -/
def ofText (text : List Char) : Place := ⟨[], text, [], text.length, rfl⟩

/-- The next character, and the place after it. -/
def next? : Place → Option (Char × Place)
  | ⟨_, [], _, _, _⟩ => none
  | ⟨before, c :: after, found, left, left_eq⟩ =>
    some (c, ⟨c :: before, after, found, left - 1, by simp [left_eq]⟩)

/-- The place after the next character, if that passes a test. -/
def step? (test : Char → Bool) (p : Place) : Option Place :=
  match p.next? with
  | some (c, q) => if test c then some q else none
  | none => none

/-- The place and all later ones, latest first, in front of the given ones. The first
argument bounds the number of later ones. -/
def onwards : Nat → Place → List Place → List Place
  | 0, p, earlier => p :: earlier
  | n + 1, p, earlier =>
    match p.next? with
    | some (_, q) => onwards n q (p :: earlier)
    | none => p :: earlier

/-- The text from one place to a later one. -/
def textTo (p q : Place) : List Char := p.after.take (p.left - q.left)

/-- The text that a group captured last. -/
def group? (p : Place) (index : Nat) : Option (List Char) := p.found.lookup index

/-- A word character stands on exactly one side of the place. -/
def isEdge (p : Place) : Bool :=
  (p.before.head?.any Unicode.isWord) != (p.after.head?.any Unicode.isWord)

/-- The place after a given text, if that text comes next. -/
def skip? (blind : Bool) : List Char → Place → Option Place
  | [], p => some p
  | w :: text, p =>
    match p.step? (sameChar blind w) with
    | none => none
    | some q => skip? blind text q

end Place

end PathGlob.Regex
