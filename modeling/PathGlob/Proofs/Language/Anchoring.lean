import PathGlob.Proofs.Pattern.Brackets
import PathGlob.Proofs.Regex.Anchors

/-!
# `PathGlob.Proofs.Language.Anchoring`: a match is a match of the whole text

Unless it is to match anywhere, a pattern accepts a text only as a whole, and that is what it
reports as the match (`whole_of_isMatch`). No bars, groups, lookaround or classes of the pattern
get around its anchors, since the translation closes what it opens.

There is one way around them. Where POSIX classes are known, a class may keep an unescaped opening
bracket, and the engines then take what follows for a class within it. So there the brackets of
the translation have to match, as they always do without POSIX classes.
-/

set_option autoImplicit false

namespace PathGlob

open Regex

/-- A compiled pattern has the translation of the pattern and the program of its source. -/
theorem exists_of_compilePattern {pattern : List Char} {options : Options} {compiled : Compiled}
    (h : compilePattern pattern options = .ok compiled) :
    parse pattern options = .ok compiled.translation ∧
      compiled.program = Program.ofSource? (sourceOf compiled.translation options) := by
  obtain ⟨translation, hparse, hcompile⟩ := Pattern.bind_eq_ok h
  unfold compile at hcompile
  dsimp only at hcompile
  split at hcompile
  case isTrue => exact absurd hcompile (by simp)
  case isFalse =>
    cases hcompile
    exact ⟨hparse, rfl⟩

/-- A pattern accepts a text only as a whole. With POSIX classes, that takes a translation whose
brackets match. -/
theorem whole_of_isMatch {pattern : List Char} {options : Options}
    (hcontains : options.contains = false) (hexpandRange : options.expandRange = none)
    {compiled : Compiled} (hcompile : compilePattern pattern options = .ok compiled)
    (hposix : options.posix = true → Neutral compiled.translation.output) {text : List Char}
    (hmatch : compiled.isMatch text = true) :
    ∃ found, compiled.find? text = some found ∧ found.whole = text := by
  obtain ⟨hparse, hprogram⟩ := exists_of_compilePattern hcompile
  have hneutral : Neutral compiled.translation.output := by
    cases hcase : options.posix with
    | true => exact hposix hcase
    | false => exact Pattern.neutral_parseWithin pattern.length hcase hexpandRange hparse
  rw [Compiled.isMatch] at hmatch
  rw [Compiled.find?]
  cases hsome : compiled.program with
  | none =>
    rw [hsome] at hmatch
    exact absurd hmatch (by simp)
  | some program =>
    rw [hsome] at hmatch
    obtain ⟨place, hplace⟩ := Option.isSome_iff_exists.mp hmatch
    have hfind : program.find? text = some _ := Option.map_eq_some_iff.mpr ⟨place, hplace, rfl⟩
    obtain ⟨middle, htree⟩ := exists_tree_eq hcontains hneutral (hprogram.symm.trans hsome)
    exact ⟨_, hfind, Program.whole_of_find? htree hfind⟩

/-- A POSIX class and a parenthesis within a class, in a group with a bar. -/
theorem whole_of_isMatch_class : ∃ compiled, compilePattern
    ['(', '[', '[', ':', 'd', 'i', 'g', 'i', 't', ':', ']', ')', ']', '|', 'a', ')', 'b']
      { posix := true } = .ok compiled ∧ compiled.isMatch ['5', 'b'] = true ∧
    ∃ found, compiled.find? ['5', 'b'] = some found ∧ found.whole = ['5', 'b'] := by
  have hok : (compilePattern
      ['(', '[', '[', ':', 'd', 'i', 'g', 'i', 't', ':', ']', ')', ']', '|', 'a', ')', 'b']
        { posix := true }).toOption.any (fun compiled =>
          decide (Neutral compiled.translation.output) && compiled.isMatch ['5', 'b']) = true := by
    decide +kernel
  cases hcompile : compilePattern
      ['(', '[', '[', ':', 'd', 'i', 'g', 'i', 't', ':', ']', ')', ']', '|', 'a', ')', 'b']
        { posix := true } with
  | error =>
    rw [hcompile] at hok
    exact absurd hok (by simp [Except.toOption])
  | ok compiled =>
    rw [hcompile] at hok
    obtain ⟨hneutral, hmatch⟩ : Neutral compiled.translation.output ∧
        compiled.isMatch ['5', 'b'] = true := by simpa [Except.toOption] using hok
    exact ⟨compiled, rfl, hmatch, whole_of_isMatch rfl rfl hcompile (fun _ => hneutral) hmatch⟩

/-- Without that, a class may swallow the parentheses around a bar. -/
example : (compilePattern
    ['(', '[', '[', ':', ']', '(', '(', 'A', '-', '[', 'b', '-', 'c', ']', ')', ')', '|',
      '(', '(', '[', '[', ':', ']', ')', ')', 'A', '-', '[', 'b', '-', 'c', ']', ')']
    { posix := true }).toOption.bind (fun compiled => compiled.find? ['A', '!']) =
      some ⟨['A'], []⟩ := by
  decide +kernel

end PathGlob
