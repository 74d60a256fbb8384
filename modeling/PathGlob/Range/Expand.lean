import PathGlob.Range.Operands
import PathGlob.Range.Compact
import PathGlob.Regex.Escape
import PathGlob.Regex.Fragment

/-!
# `PathGlob.Range.Expand`: a brace range as a regular expression

A range of integers lists its values as alternatives, padded with zeros if an operand
is. Too many values to list are written compactly if the stride is one and nothing is
padded; otherwise the range stands for its own text. A range of characters with stride
one is a character class, and any other lists its characters.

Counts are words of 64 bits and values are integers of 64 bits that stop at the bounds
of that type.
-/

set_option autoImplicit false

namespace PathGlob.Range

/-- The greatest number of values that are listed. -/
def listLimit : UInt64 := 1000

/-- The number of values of a range: how often the stride fits between the ends, and one. -/
def valueCount (first last : Int) (stride : UInt64) : UInt64 :=
  UInt64.ofNat (first - last).natAbs / stride + 1

/-- The sum, or the nearest integer of 64 bits. -/
def addSaturating (a b : Int) : Int := max minInt (min maxInt (a + b))

/-- The given number of values, each one shift after the one before. -/
def progression (shift : Int) : Nat → Int → List Int
  | 0, _ => []
  | n + 1, value => value :: progression shift n (addSaturating value shift)

/-- The values from one end towards the other. -/
def values (first last : Int) (stride : UInt64) : List Int :=
  let size := min (stride.toNat : Int) maxInt
  let shift := if first ≤ last then size else -size
  progression shift (valueCount first last stride).toNat first

/-- The text filled up with zeros from the left. -/
def fillLeft (width : Nat) (text : List Char) : List Char :=
  List.replicate (width - text.length) '0' ++ text

/-- The numeral of a value, padded after its sign. -/
def valueText (width? : Option Nat) (value : Int) : List Char :=
  let digits := Nat.toDigits 10 value.natAbs
  match width? with
  | some width =>
    if value < 0 then '-' :: fillLeft (width - 1) digits else fillLeft width digits
  | none => if value < 0 then '-' :: digits else digits

/-- The source that matches the text of the range itself. -/
def ownText (operands : Operands) : List Char :=
  let dots := ['\\', '.', '\\', '.']
  Regex.escape operands.first ++ dots ++ Regex.escape operands.last ++
    match operands.step with
    | some step => dots ++ Regex.escape step
    | none => []

/-- A group of alternatives. -/
def alternatives (capture : Bool) (sources : List (List Char)) : List Char :=
  Regex.Fragment.openGroup capture ++ ['|'].intercalate sources ++ [')']

/-- The source of a range of integers. -/
def expandIntegers (operands : Operands) (capture : Bool) (first last : Int) : List Char :=
  let stride := operands.stride
  let width? := operands.width?
  if listLimit < valueCount first last stride then
    if stride = 1 && width?.isNone then
      Regex.Fragment.openGroup capture ++ compact first last ++ [')']
    else ownText operands
  else alternatives capture ((values first last stride).map (valueText width?))

/-- The class of the characters from one to the other, in either order. -/
def classBetween (first last : Char) : List Char :=
  let (low, high) := if first ≤ last then (first, last) else (last, first)
  '[' :: Regex.escapeClassChar low ++
    (if low = high then [] else '-' :: Regex.escapeClassChar high) ++ [']']

/-- The character with the given code point, if there is one. -/
def charOfInt? (code : Int) : Option Char :=
  let n := code.toNat
  if 0 ≤ code && n.isValidChar then some (Char.ofNat n) else none

/-- The source of a range of characters. -/
def expandCharacters (operands : Operands) (capture : Bool) (first last : Char) : List Char :=
  let stride := operands.stride
  if stride = 1 then Regex.Fragment.openGroup capture ++ classBetween first last ++ [')']
  else alternatives capture
    (((values first.toNat last.toNat stride).filterMap charOfInt?).map Regex.escapeChar)

/-- The source of a range. Operands that form no range stand for their own text. -/
def expand (operands : Operands) (capture : Bool) : List Char :=
  match operands.ends? with
  | none => ownText operands
  | some (.integers first last) => expandIntegers operands capture first last
  | some (.characters first last) => expandCharacters operands capture first last

end PathGlob.Range
