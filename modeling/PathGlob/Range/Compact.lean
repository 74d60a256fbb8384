/-!
# `PathGlob.Range.Compact`: a range of numbers as a regular expression

`Range.compact` is a source that matches exactly the decimal numerals of a range without
listing them. The range is cut into blocks in which the leading digits are fixed, one
digit runs over an interval and the remaining digits are free.

The blocks end at numbers whose last digits are all nines, going up from the least
number, and directly before numbers whose last digits are all zeros, going down from the
greatest. Numbers are words of 64 bits, in which every step stays in range as long as
the greatest number is at most 2^63.
-/

set_option autoImplicit false

namespace PathGlob.Range

/-- The greatest word. -/
def maxWord : UInt64 := 18446744073709551615

/-- A power of ten, if it fits into a word. -/
def powerOfTen? (digits : Nat) : Option UInt64 :=
  let power := Nat.pow 10 digits
  if power < UInt64.size then some (UInt64.ofNat power) else none

/-- The number with its last digits replaced by nines. -/
def fillNines (n : UInt64) (digits : Nat) : UInt64 :=
  match powerOfTen? digits with
  | some power => (n / power) * power + (power - 1)
  | none => maxWord

/-- The number with its last digits replaced by zeros. -/
def fillZeros (n : UInt64) (digits : Nat) : UInt64 :=
  match powerOfTen? digits with
  | some power => n - n % power
  | none => 0

/-- The next word, or the greatest one again. -/
def succSaturating (n : UInt64) : UInt64 := if n = maxWord then n else n + 1

/-- The word before, or zero again. -/
def predSaturating (n : UInt64) : UInt64 := if n = 0 then n else n - 1

/-- The ends of blocks that end in nines, from the given number of nines on. The first
argument bounds the number of blocks. -/
def nineStops (least greatest : UInt64) : Nat → Nat → List UInt64
  | 0, _ => []
  | n + 1, nines =>
    let stop := fillNines least nines
    if least ≤ stop && stop ≤ greatest then stop :: nineStops least greatest n (nines + 1)
    else []

/-- The ends of blocks before numbers that end in zeros, from the given number of zeros
on. The first argument bounds the number of blocks. -/
def zeroStops (least greatest : UInt64) : Nat → Nat → List UInt64
  | 0, _ => []
  | n + 1, zeros =>
    let stop := predSaturating (fillZeros (succSaturating greatest) zeros)
    if least < stop && stop ≤ greatest then stop :: zeroStops least greatest n (zeros + 1)
    else []

/-- No word has more digits. -/
def maxDigits : Nat := 20

/-- The ends of all blocks, in increasing order. -/
def blockStops (least greatest : UInt64) : List UInt64 :=
  let stops := greatest :: (nineStops least greatest maxDigits 1 ++
    zeroStops least greatest maxDigits 1)
  (stops.mergeSort (· ≤ ·)).eraseReps

/-- The decimal numeral of a word. -/
def numeral (n : UInt64) : List Char := Nat.toDigits 10 n.toNat

/-- The source of one digit position: a fixed digit or an interval, and the number of
free positions. A position is free if it runs from 0 to 9. -/
def digitSources : List Char → List Char → List Char × Nat
  | a :: first, b :: last =>
    let (source, free) := digitSources first last
    if a = b then (a :: source, free)
    else if a ≠ '0' || b ≠ '9' then
      let dash := if b.val - a.val > 1 then ['-'] else []
      ('[' :: a :: dash ++ b :: ']' :: source, free)
    else (source, free + 1)
  | _, _ => ([], 0)

/-- Any digit. -/
def anyDigit : List Char := ['[', '0', '-', '9', ']']

/-- The source of a block. -/
def blockSource (first last : UInt64) : List Char :=
  if first = last then numeral first
  else
    let (source, free) := digitSources (numeral first) (numeral last)
    match free with
    | 0 => source
    | 1 => source ++ anyDigit
    | n => source ++ anyDigit ++ '{' :: Nat.toDigits 10 n ++ ['}']

/-- The sources of the blocks that end at the given stops; the first begins at `first`. -/
def blockSources (first : UInt64) : List UInt64 → List (List Char)
  | [] => []
  | stop :: stops => blockSource first stop :: blockSources (stop + 1) stops

/-- The source of a range of words. -/
def compactWords (least greatest : UInt64) : List Char :=
  ['|'].intercalate (blockSources least (blockStops least greatest))

/-- The size of an integer, as a word. -/
def magnitude (n : Int) : UInt64 := UInt64.ofNat n.natAbs

/-- The source that matches the numerals from one bound to the other, in either order. -/
def compact (a b : Int) : List Char :=
  let least := min a b
  let greatest := max a b
  let minus (source : List Char) := ['-', '(', '?', ':'] ++ source ++ [')']
  if 0 ≤ least then compactWords (magnitude least) (magnitude greatest)
  else if greatest < 0 then minus (compactWords (magnitude greatest) (magnitude least))
  else minus (compactWords 1 (magnitude least)) ++ '|' :: compactWords 0 (magnitude greatest)

end PathGlob.Range
