/-!
# `PathGlob.Unicode.Spans`: sets of characters as sorted spans

A Unicode property is stored as the list of its maximal runs of code points, in
increasing order. Membership walks the list and stops at the first run that begins
after the code point, so an ASCII character is decided within the first few runs.
-/

set_option autoImplicit false

namespace PathGlob.Unicode

/-- Runs of code points, both ends included, in increasing order. -/
abbrev Spans := List (Nat × Nat)

namespace Spans

/-- The code point lies in one of the runs. -/
def has : Spans → Nat → Bool
  | [], _ => false
  | (low, high) :: rest, n => if n < low then false else if n ≤ high then true else has rest n

end Spans

end PathGlob.Unicode
