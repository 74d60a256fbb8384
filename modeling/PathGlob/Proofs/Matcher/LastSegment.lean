import PathGlob.Proofs.Matcher.Report
import PathGlob.Proofs.Scan.Normalized

/-!
# `PathGlob.Proofs.Matcher.LastSegment`: which patterns see the last segment only

Where backslashes separate, a pattern counts as one with a separator as soon as there is a
backslash in it, also if that escapes. Without a separator, then, a pattern is compared with the
last segment only if it escapes nothing either (`isMatch_baseName_windows`).
-/

set_option autoImplicit false

namespace PathGlob

open Pattern Separator

/-- Without a shortcut, making a pattern ready to match is compiling it, errors included. -/
theorem Candidate.ofGlob_of_no_shortcut {options : Options} {glob : List Char}
    (h : Shortcut.ofGlob? options glob = none) :
    ofGlob options glob = (compilePattern glob options).map fun compiled =>
      ⟨glob, .compiled compiled, glob.contains '/' || (options.windows && glob.contains '\\')⟩ := by
  unfold ofGlob
  dsimp only
  rw [h]
  -- A pattern that is too long or empty is refused in the same way before it is translated.
  split
  case isTrue hlong =>
    rw [compilePattern_tooLong hlong]
    rfl
  case isFalse hlong =>
    split
    case isTrue hempty =>
      rw [compilePattern, parse, parseWithin.eq_def]
      dsimp only
      rw [if_neg hlong, if_pos hempty]
      rfl
    case isFalse => cases compilePattern glob options <;> rfl

/-- A normal form without a slash is the pattern itself: every backslash of it escapes. -/
theorem normalize_eq_self {pattern : List Char} (h : '/' ∉ Separator.normalize pattern) :
    Separator.normalize pattern = pattern := by
  have hsettles := Scan.settles_normalize pattern
  generalize Separator.normalize pattern = normal at hsettles h
  induction hsettles with
  | nil => rfl
  | escape hc _ ih =>
    rw [ih fun hmem => h (List.mem_cons_of_mem _ (List.mem_cons_of_mem _ hmem))]
  | separator => exact absurd List.mem_cons_self h
  | other hc _ ih => rw [ih fun hmem => h (List.mem_cons_of_mem _ hmem)]

variable {options : Options} {input pattern : List Char}

/-- A pattern alone, without a shortcut, is compared with the text or with its last segment. -/
theorem isMatch_singleton (hignore : options.ignore = []) (hinput : input ≠ [])
    (hshortcut : Shortcut.ofGlob? options pattern = none) :
    isMatch input [pattern] options = (compilePattern pattern options).map fun compiled =>
      compiled.isMatch
        (if options.baseName &&
            !(pattern.contains '/' || (options.windows && pattern.contains '\\')) then
          lastSegment (options.formatted input)
        else options.formatted input) := by
  have hempty : input.isEmpty = false := by simpa using hinput
  rw [isMatch, Matcher.ofGlobs, hignore, List.mapM_cons, Candidate.ofGlob_of_no_shortcut hshortcut]
  cases compilePattern pattern options with
  | error e => rfl
  | ok compiled =>
    show Except.ok (Matcher.isMatch _ input) = Except.ok _
    rw [Matcher.isMatch_eq_verdictBy, Matcher.verdictBy, hempty]
    simp [Matcher.compares, Candidate.accepts]

/-- Where backslashes separate, a pattern without a separator is compared with the last segment of a
text if it has no backslash, and otherwise, though every backslash of it escapes, with the whole
text. -/
theorem isMatch_baseName_windows (hwindows : options.windows = true)
    (hbase : options.baseName = true) (hformat : options.format = none)
    (hignore : options.ignore = []) (hinput : input ≠ [])
    (hpattern : '/' ∉ Separator.normalize pattern) :
    Separator.normalize pattern = pattern ∧
      isMatch input [pattern] options = (compilePattern pattern options).map fun compiled =>
        compiled.isMatch
          (if '\\' ∈ pattern then toSlashes input else lastSegment (toSlashes input)) := by
  have hnormal := normalize_eq_self hpattern
  rw [hnormal] at hpattern
  have hshortcut : Shortcut.ofGlob? options pattern = none := by
    simp [Shortcut.ofGlob?, Shortcut.isEnabled, hwindows]
  refine ⟨hnormal, ?_⟩
  rw [isMatch_singleton hignore hinput hshortcut]
  have hformatted : options.formatted input = toSlashes input := by
    rw [Options.formatted, hformat]
    exact if_pos hwindows
  simp [hbase, hwindows, hpattern, hformatted]

/-- The last segment is the text that the pattern stands for, and the whole text is not. -/
theorem isMatch_baseName_windows_star :
    let options : Options := { windows := true, baseName := true }
    options.format = none ∧ options.ignore = [] ∧ '/' ∉ Separator.normalize ['a', '\\', '*'] ∧
      lastSegment (toSlashes ['x', '\\', 'a', '*']) = ['a', '*'] ∧
      ((compilePattern ['a', '\\', '*'] options).map (·.isMatch ['a', '*'])).toOption = some true ∧
      (isMatch ['x', '\\', 'a', '*'] [['a', '\\', '*']] options).toOption = some false := by
  let options : Options := { windows := true, baseName := true }
  have hpattern : '/' ∉ Separator.normalize ['a', '\\', '*'] := by decide
  have hinput : ['x', '\\', 'a', '*'] ≠ [] := by decide
  have hmatch := (@isMatch_baseName_windows options _ _ rfl rfl rfl rfl hinput hpattern).2
  have hwhole : ((compilePattern ['a', '\\', '*'] options).map
      (·.isMatch ['x', '/', 'a', '*'])).toOption = some false := by decide +kernel
  refine ⟨rfl, rfl, hpattern, by decide, by decide +kernel, ?_⟩
  rw [hmatch, if_pos (by decide)]
  exact hwhole

end PathGlob
