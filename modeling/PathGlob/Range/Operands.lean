/-!
# `PathGlob.Range.Operands`: the operands of a brace range

A brace range has a start, an end and perhaps a step. Both ends are integers of 64 bits,
or both are single characters; the step is an integer. An integer is written with ASCII
digits after an optional minus sign.
-/

set_option autoImplicit false

namespace PathGlob.Range

/-- The least integer of 64 bits. -/
def minInt : Int := -9223372036854775808

/-- The greatest integer of 64 bits. -/
def maxInt : Int := 9223372036854775807

/-- The number that a run of ASCII digits stands for. -/
def digitsValue (digits : List Char) : Nat :=
  digits.foldl (fun n d => 10 * n + (d.toNat - '0'.toNat)) 0

/-- An integer of 64 bits, written with an optional minus sign. -/
def parseInt? (text : List Char) : Option Int :=
  let (negative, digits) := match text with
    | '-' :: digits => (true, digits)
    | _ => (false, text)
  if digits.isEmpty || !digits.all Char.isDigit then none
  else
    let value : Int := if negative then -(digitsValue digits : Int) else digitsValue digits
    if minInt ≤ value && value ≤ maxInt then some value else none

/-- The texts between the dots of a brace range. -/
structure Operands where
  first : List Char
  last : List Char
  step : Option (List Char)
  deriving DecidableEq, Repr

/-- What a range runs over. -/
inductive Ends where
  | integers (first last : Int)
  | characters (first last : Char)
  deriving DecidableEq, Repr

namespace Operands

/-- The two ends, if they are both integers or both single characters. -/
def ends? (operands : Operands) : Option Ends :=
  match parseInt? operands.first, parseInt? operands.last with
  | some first, some last => some (.integers first last)
  | _, _ =>
    match operands.first, operands.last with
    | [first], [last] => some (.characters first last)
    | _, _ => none

/-- The operands of a range, from the texts between its dots. -/
def ofTexts? : List (List Char) → Option Operands
  | [first, last] =>
    let operands : Operands := ⟨first, last, none⟩
    operands.ends?.map fun _ => operands
  | [first, last, step] =>
    let operands : Operands := ⟨first, last, some step⟩
    if (parseInt? step).isNone then none else operands.ends?.map fun _ => operands
  | _ => none

/-- The distance between neighbouring values: the size of the step, or one if the step is
missing or zero. -/
def stride (operands : Operands) : UInt64 :=
  match operands.step.bind parseInt? with
  | some step => if step = 0 then 1 else UInt64.ofNat step.natAbs
  | none => 1

/-- The operand has a leading zero and more than one digit. -/
def isPadded (operand : List Char) : Bool :=
  match operand.dropWhile (· = '-') with
  | '0' :: _ :: _ => true
  | _ => false

/-- The width that values are padded to, if an operand is padded. -/
def width? (operands : Operands) : Option Nat :=
  if isPadded operands.first || isPadded operands.last then
    some (max operands.first.length operands.last.length)
  else none

end Operands

end PathGlob.Range
