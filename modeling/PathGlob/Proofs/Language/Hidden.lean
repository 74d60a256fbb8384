import PathGlob.Proofs.Language.Anchoring
import PathGlob.Proofs.Pattern.HidesDots
import PathGlob.Proofs.Pattern.Lead

/-!
# `PathGlob.Proofs.Language.Hidden`: wildcards match no hidden segment

Unless dots are allowed, a pattern without dots matches no text with a segment that begins with one
(`visible_of_isMatch`). Wherever a wildcard may come to stand at the start of a segment, it has a
guard there: behind separators, at the start, within extended groups and behind them, and for every
segment that a globstar passes.

There are three gaps, which the conditions leave out. A star or question mark at the start of an
alternative in braces has no guard. An extended group with a separator in it may end where a segment
begins, and what follows it has none. And a group that is never closed becomes text, but its bars
still separate alternatives.
-/

set_option autoImplicit false

namespace PathGlob

open Regex Pattern Cursor

/-- All parentheses of the pattern belong to extended groups. -/
def hasOnlyExtglobs (pattern : List Char) (options : Options) : Bool :=
  (parse pattern { options with fastPaths := false }).toOption.all fun translation =>
    translation.tokens.all fun token => !token.isRawParen

namespace Pattern

theorem simplify_cases (pattern : List Char) :
    simplify pattern = pattern ∨ simplify pattern = ['*'] ∨ simplify pattern = ['*', '*'] := by
  unfold simplify
  repeat' split
  all_goals simp

section
variable {options : Options} {pattern : List Char}

/-- A tame pattern is read as it is, or in its simpler form. -/
theorem body_of_tame (htame : pattern.all (isTame options) = true) :
    (Context.ofPattern options pattern).body = simplify pattern := by
  have hnot {c : Char} (hc : isTame options c = false) : c ∉ pattern := fun hmem =>
    absurd (hc.symm.trans (List.all_eq_true.mp htame c hmem)) (by simp)
  have hnormal : (if options.windows then Separator.normalize (simplify pattern) else
      simplify pattern) = simplify pattern := by
    split
    · exact normalize_of_not_mem (not_mem_simplify (hnot (by simp [isTame])))
    · rfl
  have hdrop : dropDotSlash (simplify pattern) = (false, simplify pattern) := by
    unfold dropDotSlash
    split
    · rename_i rest heq
      have hdot : '.' ∉ pattern := hnot (by simp [isTame])
      obtain hsame | hstar | hstars := simplify_cases pattern
      · exact absurd (by rw [← hsame, heq]; simp) hdot
      · simp [hstar] at heq
      · simp [hstars] at heq
    · rfl
  simp only [Context.ofPattern, hnormal, hdrop]

theorem all_tame_simplify (htame : pattern.all (isTame options) = true) :
    ∀ c ∈ simplify pattern, isTame options c = true := by
  have hstar : isTame options '*' = true := by simp [isTame]
  obtain hsame | hsame | hsame := simplify_cases pattern
  · rw [hsame]
    exact List.all_eq_true.mp htame
  · simp [hsame, hstar]
  · simp [hsame, hstar]

theorem closesGroups_simplify (hcloses : closesGroups 0 pattern = true) :
    closesGroups 0 (simplify pattern) = true := by
  obtain hsame | hsame | hsame := simplify_cases pattern
  · rwa [hsame]
  · rw [hsame]
    decide
  · rw [hsame]
    decide

/-- The translation of a pattern leads past no hidden segment. -/
theorem guides_parse (hdot : options.dot = false) (hbash : options.bash = false)
    (hexpandRange : options.expandRange = none) (htame : pattern.all (isTame options) = true)
    (hcloses : closesGroups 0 pattern = true) (hextglobs : hasOnlyExtglobs pattern options = true)
    {translation : Translation} (hparse : parse pattern options = .ok translation) :
    translation.negated = false ∧
      GuidesBody options.noCase Clear Safe translation.output Clear := by
  -- Without shortcuts, the translation is what the tokenizer arrives at.
  let slowly : Options := { options with fastPaths := false }
  have hessence := parse_essence pattern options false
  rw [hparse] at hessence
  cases hslow : parse pattern slowly with
  | error =>
    rw [hslow] at hessence
    exact absurd hessence (by simp [Except.map])
  | ok slow =>
    rw [hslow] at hessence
    have hsame : slow.essence = translation.essence := by simpa [Except.map] using hessence
    have houtput : slow.essence.output = translation.essence.output := by rw [hsame]
    have hnegated : slow.essence.negated = translation.essence.negated := by rw [hsame]
    rw [hasOnlyExtglobs, hslow] at hextglobs
    obtain ⟨-, -, htranslate⟩ := parseWithin_eq_ok_iff.mp hslow
    have htokenize : (Context.ofPattern slowly pattern).tokenize
        (extensionSource slowly pattern.length) = .ok slow := htranslate
    have hbody : (Context.ofPattern slowly pattern).body = simplify pattern := body_of_tame htame
    have hctx : (Context.ofPattern slowly pattern).withoutPosix.IsStandard :=
      ⟨neutral_starSource slowly, rfl, hexpandRange⟩
    have := Context.guides_tokenize hctx ⟨hdot, hbash, rfl⟩
      (by rw [hbody]; exact all_tame_simplify htame)
      (by rw [hbody]; exact closesGroups_simplify hcloses) htokenize hextglobs
    rw [← show slow.output = translation.output from houtput,
      ← show slow.negated = translation.negated from hnegated]
    exact this

end

end Pattern

/-- The program of a whole source matches the translation between the anchors. -/
theorem exists_anchored_tree {translation : Translation} {options : Options}
    (hcontains : options.contains = false) (hnegated : translation.negated = false)
    {P Q R : Cursor → Prop} (h : GuidesBody options.noCase P R translation.output Q)
    (hR : ∀ c, R c → Q c) {program : Program}
    (hprogram : Program.ofSource? (sourceOf translation options) = some program) :
    program.blind = options.noCase ∧
      ∃ a : Node, program.tree = a.anchored ∧ a.Takes options.noCase P Q := by
  obtain ⟨source, hsource, haccepted⟩ := Option.bind_eq_some_iff.mp hprogram
  split at haccepted
  case isFalse => exact absurd haccepted (by simp)
  cases haccepted
  unfold sourceOf at hsource
  simp only [hcontains, hnegated, Bool.false_and, Bool.false_eq_true, if_false] at hsource
  obtain ⟨hblind, reader, reader', hread, hend, htree, -⟩ := Source.exists_read rfl hsource
  obtain ⟨repeated, level, groups, hlevel, hbranches, hpieces⟩ := h Reader.anchorLevel 0 [] false
  cases (Reader.read_anchored hlevel).symm.trans hread
  cases hend
  exact ⟨hblind, .group level.node, htree, (hpieces.ofBranches fun branch hbranch =>
    (hbranches branch hbranch).mono (fun _ => id) hR).group⟩

/-- Without dots in the pattern, no segment of a text that matches begins with one. -/
theorem visible_of_isMatch {pattern : List Char} {options : Options} (hdot : options.dot = false)
    (hbash : options.bash = false) (hcontains : options.contains = false)
    (hexpandRange : options.expandRange = none) (htame : pattern.all (isTame options) = true)
    (hcloses : closesGroups 0 pattern = true) (hextglobs : hasOnlyExtglobs pattern options = true)
    {compiled : Compiled} (hcompile : compilePattern pattern options = .ok compiled)
    {text : List Char} (hmatch : compiled.isMatch text = true) :
    ∀ segment ∈ Text.pieces '/' text, segment.head? ≠ some '.' := by
  obtain ⟨hparse, hprogram⟩ := exists_of_compilePattern hcompile
  obtain ⟨hnegated, hguides⟩ := guides_parse hdot hbash hexpandRange htame hcloses hextglobs hparse
  rw [Compiled.isMatch] at hmatch
  cases hsome : compiled.program with
  | none =>
    rw [hsome] at hmatch
    exact absurd hmatch (by simp)
  | some program =>
    rw [hsome] at hmatch
    obtain ⟨hblind, a, htree, ha⟩ := exists_anchored_tree hcontains hnegated hguides
      (fun _ => And.left) (hprogram.symm.trans hsome)
    obtain ⟨d, hspans, hend⟩ := (program.isMatch_iff_of_anchored htree ha.regular text).mp hmatch
    rw [hblind] at hspans
    have hclear : Clear ⟨[], text⟩ := fun later earlier heq => absurd heq (by simp)
    -- A match of the whole text has passed all of it.
    obtain ⟨passed, hafter, hbefore⟩ := a.advances_spans hspans
    rw [hend, List.append_nil] at hafter
    refine (ha.leads hclear hspans).head?_ne ?_
    rw [hbefore, List.append_nil, ← show text = passed from hafter]

/-- A star behind a group that may be missing, a globstar, and a star within a group. -/
theorem visible_of_isMatch_groups : ∃ compiled,
    compilePattern ['?', '(', 'a', ')', '*', '/', '*', '*', '/', '@', '(', 'b', '|', '*', ')'] {} =
      .ok compiled ∧
    compiled.isMatch ['a', 'b', '/', 'c', '/', 'd', '.', 'e'] = true ∧
    ∀ segment ∈ Text.pieces '/' ['a', 'b', '/', 'c', '/', 'd', '.', 'e'],
      segment.head? ≠ some '.' := by
  have hok : (compilePattern
      ['?', '(', 'a', ')', '*', '/', '*', '*', '/', '@', '(', 'b', '|', '*', ')'] {}).toOption.any
        (fun compiled => compiled.isMatch ['a', 'b', '/', 'c', '/', 'd', '.', 'e']) = true := by
    decide +kernel
  cases hcompile : compilePattern
      ['?', '(', 'a', ')', '*', '/', '*', '*', '/', '@', '(', 'b', '|', '*', ')'] {} with
  | error =>
    rw [hcompile] at hok
    exact absurd hok (by simp [Except.toOption])
  | ok compiled =>
    rw [hcompile] at hok
    have hmatch : compiled.isMatch ['a', 'b', '/', 'c', '/', 'd', '.', 'e'] = true := by
      simpa [Except.toOption] using hok
    exact ⟨compiled, rfl, hmatch, visible_of_isMatch rfl rfl rfl rfl (by decide) (by decide)
      (by decide +kernel) hcompile hmatch⟩

/-- In braces, a star at the start of an alternative has no guard. -/
example : (compilePattern ['{', '*', ',', 'b', '}'] {}).toOption.any
    (fun compiled => compiled.isMatch ['.', 'a']) = true := by
  decide +kernel

/-- Behind a group with a separator in it, a star has none either. -/
example : (compilePattern ['a', '@', '(', '/', ')', '*'] {}).toOption.any
    (fun compiled => compiled.isMatch ['a', '/', '.', 'b']) = true := by
  decide +kernel

end PathGlob
