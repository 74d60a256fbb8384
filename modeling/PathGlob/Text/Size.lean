/-!
# `PathGlob.Text.Size`: measuring and cutting texts in UTF-8 bytes

A text is a list of characters. Pattern lengths and offsets are counted in bytes of its
UTF-8 form, so both the measure and the cut below work on bytes and never split a
character.
-/

set_option autoImplicit false

namespace PathGlob.Text

/-- The number of UTF-8 bytes of a text. -/
def byteSize : List Char → Nat
  | [] => 0
  | c :: rest => c.utf8Size + byteSize rest

/-- The longest beginning of a text that fits into the given number of bytes. -/
def takeBytes : Nat → List Char → List Char
  | _, [] => []
  | n, c :: rest => if c.utf8Size ≤ n then c :: takeBytes (n - c.utf8Size) rest else []

theorem byteSize_append (a b : List Char) : byteSize (a ++ b) = byteSize a + byteSize b := by
  induction a with
  | nil => simp [byteSize]
  | cons c a ih =>
    simp only [List.cons_append, byteSize, ih]
    omega

/-- Cutting at the end of the first of two texts yields that text. -/
theorem takeBytes_append (a b : List Char) : takeBytes (byteSize a) (a ++ b) = a := by
  induction a with
  | nil =>
    cases b with
    | nil => rfl
    | cons c b =>
      have hpos := c.utf8Size_pos
      rw [List.nil_append, byteSize, takeBytes, if_neg (by omega)]
  | cons c a ih =>
    rw [List.cons_append, byteSize, takeBytes, if_pos (by omega), Nat.add_sub_cancel_left, ih]

/-- What remains of a text when at least the given number of bytes is cut off its end,
and no more than one character's worth beyond that. -/
def dropLastBytes (n : Nat) (text : List Char) : List Char :=
  takeBytes (byteSize text - n) text

/-- Dropping the second of two texts leaves the first one. -/
theorem dropLastBytes_append (a b : List Char) : dropLastBytes (byteSize b) (a ++ b) = a := by
  rw [dropLastBytes, byteSize_append, Nat.add_sub_cancel, takeBytes_append]

end PathGlob.Text
