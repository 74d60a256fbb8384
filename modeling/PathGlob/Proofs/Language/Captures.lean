import PathGlob.Proofs.Language.Anchoring
import PathGlob.Proofs.Regex.Captures
import PathGlob.Proofs.Regex.Groups

/-!
# `PathGlob.Proofs.Language.Captures`: how many groups a match reports

A match reports one text, or the lack of one, for each capturing group that is counted in the
translation of the pattern, whatever is put around the translation (`captures_of_isMatch`). As with
the anchors, where POSIX classes are known this takes a translation whose brackets match: a bracket
that stays open in a class hides a group from the engines that is counted all the same.
-/

set_option autoImplicit false

namespace PathGlob

open Regex

/-- A match has as many groups as are counted in the translation, and so has the tree. With POSIX
classes, that takes a translation whose brackets match. -/
theorem captures_of_isMatch {pattern : List Char} {options : Options}
    (hexpandRange : options.expandRange = none) {compiled : Compiled}
    (hcompile : compilePattern pattern options = .ok compiled)
    (hposix : options.posix = true → Neutral compiled.translation.output) {text : List Char}
    (hmatch : compiled.isMatch text = true) :
    ∃ program found, compiled.program = some program ∧ compiled.find? text = some found ∧
      program.tree.captures = compiled.translation.captureGroups ∧
      found.groups.length = compiled.translation.captureGroups := by
  obtain ⟨hparse, hprogram⟩ := exists_of_compilePattern hcompile
  have hneutral : Neutral compiled.translation.output := by
    cases hcase : options.posix with
    | true => exact hposix hcase
    | false => exact Pattern.neutral_parseWithin pattern.length hcase hexpandRange hparse
  rw [Compiled.isMatch] at hmatch
  rw [Compiled.find?]
  cases hsome : compiled.program with
  | none =>
    rw [hsome] at hmatch
    exact absurd hmatch (by simp)
  | some program =>
    rw [hsome] at hmatch
    obtain ⟨place, hplace⟩ := Option.isSome_iff_exists.mp hmatch
    have hfind : program.find? text = some _ := Option.map_eq_some_iff.mpr ⟨place, hplace, rfl⟩
    have hread := hprogram.symm.trans hsome
    have hgroups := groups_of_ofSource? hneutral hread
    refine ⟨program, _, rfl, hfind, ?_, ?_⟩
    · rw [← hgroups, Program.groups_eq hread]
    · rw [List.length_map, List.length_range, hgroups]

/-- A group with a name within one without, a star, and a POSIX class. -/
theorem captures_of_isMatch_named : ∃ compiled, compilePattern
    ['(', '(', '?', '<', 'n', '>', 'a', ')', '[', '[', ':', 'd', 'i', 'g', 'i', 't', ':', ']', '(',
      ']', '|', 'b', ')', '*'] { capture := true, posix := true } = .ok compiled ∧
    compiled.isMatch ['a', '5', 'c'] = true ∧ compiled.translation.captureGroups = 3 ∧
    ∃ found, compiled.find? ['a', '5', 'c'] = some found ∧ found.groups.length = 3 := by
  let pattern := ['(', '(', '?', '<', 'n', '>', 'a', ')', '[', '[', ':', 'd', 'i', 'g', 'i', 't',
    ':', ']', '(', ']', '|', 'b', ')', '*']
  let options : Options := { capture := true, posix := true }
  have hok : (compilePattern pattern options).toOption.any (fun compiled =>
      decide (Neutral compiled.translation.output) &&
        compiled.translation.captureGroups = 3 && compiled.isMatch ['a', '5', 'c']) = true := by
    decide +kernel
  cases hcompile : compilePattern pattern options with
  | error =>
    rw [hcompile] at hok
    exact absurd hok (by simp [Except.toOption])
  | ok compiled =>
    rw [hcompile] at hok
    obtain ⟨⟨hneutral, hcount⟩, hmatch⟩ : (Neutral compiled.translation.output ∧
        compiled.translation.captureGroups = 3) ∧ compiled.isMatch ['a', '5', 'c'] = true := by
      simpa [Except.toOption] using hok
    obtain ⟨-, found, -, hfind, -, hlength⟩ :=
      captures_of_isMatch rfl hcompile (fun _ => hneutral) hmatch
    exact ⟨compiled, rfl, hmatch, hcount, found, hfind, hlength.trans hcount⟩

/-- Without that, a class may swallow the parenthesis of a group. -/
example : (compilePattern ['[', '[', ':', ']', '(', 'a', ')', 'A', '-', '[', 'b', '-', 'c', ']']
    { posix := true, capture := true }).toOption.bind (fun compiled =>
      (compiled.find? ['a']).map fun found =>
        (compiled.translation.captureGroups, found.groups.length)) = some (1, 0) := by
  decide +kernel

end PathGlob
