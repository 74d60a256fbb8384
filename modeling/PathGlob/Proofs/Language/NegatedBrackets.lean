import PathGlob.Proofs.Language.Hidden
import PathGlob.Proofs.Language.Protected
import PathGlob.Proofs.Pattern.NegatedBrackets

/-!
# `PathGlob.Proofs.Language.NegatedBrackets`: negated bracket expressions and the separator

Between two words, a negated bracket expression matches no separator, whatever it lists
(`isMatch_eq_false_of_negatedBracket`). The class that it becomes leaves out the separator, or its
source is refused, and then nothing matches.

There are two gaps, which the conditions leave out. A doubled dash within a class is an operator,
and it may take the separator that was added out of the set of the class again. And where POSIX
classes are known, a colon behind an opening bracket keeps the separator from being added.
-/

set_option autoImplicit false

namespace PathGlob

open Regex Pattern

namespace Regex

/-! ### What is left of a text -/

section
variable {blind : Bool} {a : Node} {test : Char → Bool} {x : Char} {word left : List Char}

/-- A piece that matches one character takes the next one. -/
theorem Node.Takes.of_after (hregular : a.refers = false)
    (hspans : ∀ c d, a.Spans blind c d → c.Steps test d) :
    a.Takes blind (·.after = x :: left) (·.after = left) := by
  refine ⟨hregular, fun {c d} hc h => ?_⟩
  obtain ⟨y, -, hafter, -⟩ := hspans c d h
  exact (List.cons.inj (hafter.symm.trans hc)).2

/-- A class does not take a character that it leaves out. -/
theorem Node.Takes.of_not_has {members : CharSet} (h : members.has blind x = false) :
    (Node.set members).Takes blind (·.after = x :: left) fun _ => False := by
  refine ⟨rfl, fun {c d} hc hspans => ?_⟩
  obtain ⟨y, hy, hafter, -⟩ := hspans
  obtain rfl : x = y := (List.cons.inj (hc.symm.trans hafter)).1
  exact absurd (h.symm.trans hy) Bool.false_ne_true

/-- Behind what matches nothing, a source may lead anywhere. -/
theorem Guides.of_false {P Q R : Cursor → Prop} {source : List Char} (h : Guides blind P source Q) :
    Guides blind (fun _ => False) source R := by
  intro repeated branches before outer groups names strayBrace
  obtain ⟨r, pieces, groups', hr, hpieces⟩ :=
    h repeated branches before outer groups names strayBrace
  exact ⟨r, pieces, groups', hr, hpieces.regular, fun hc _ => hc.elim⟩

/-- A word of plain characters takes as many characters as it has. -/
theorem guides_word (hword : ∀ c ∈ word, isSpecial c = false) (left : List Char) :
    Guides blind (·.after = word ++ left) word (·.after = left) := by
  induction word with
  | nil => exact .nil
  | cons c word ih =>
    obtain ⟨hc, hothers⟩ := List.forall_mem_cons.mp hword
    have hchar : Guides blind (·.after = c :: (word ++ left)) [c] (·.after = word ++ left) :=
      .of_reads_piece (reads_plain (isMeta_of_not_isSpecial hc))
        (.of_after rfl fun _ _ hspans => hspans)
    exact hchar.append (ih hothers)

end

/-! ### A class between two words -/

section
variable {translation : Translation} {options : Options} {before after source : List Char}
  (hcontains : options.contains = false) (hnegated : translation.negated = false)
  {program : Program} (hprogram : Program.ofSource? (sourceOf translation options) = some program)
include hcontains hnegated hprogram

/-- Where there is a program, the translation has been read within the group between the anchors. -/
theorem exists_read_output : ∃ reader,
    (Reader.resting false {} Reader.anchorLevel 0 [] false).read translation.output =
      some reader := by
  obtain ⟨whole, hwhole, -⟩ := Option.bind_eq_some_iff.mp hprogram
  unfold sourceOf at hwhole
  simp only [hcontains, hnegated, Bool.false_and, Bool.false_eq_true, if_false] at hwhole
  obtain ⟨-, reader, -, hread, -, -⟩ := Source.exists_read rfl hwhole
  have hsplit : '^' :: (['(', '?', ':'] ++ translation.output ++ [')']) ++ ['$'] =
      ['^', '(', '?', ':'] ++ (translation.output ++ [')', '$']) := by simp
  have hopen : ({} : Reader).read ['^', '(', '?', ':'] =
      some (.resting false {} Reader.anchorLevel 0 [] false) := rfl
  rw [hsplit, Reader.read_append, hopen, Option.bind_some, Reader.read_append] at hread
  obtain ⟨inner, hinner, -⟩ := Option.bind_eq_some_iff.mp hread
  exact ⟨inner, hinner⟩

/-- A class that bars the separator matches none between two words. -/
theorem isMatch_eq_false_of_bars (hbefore : ∀ c ∈ before, isSpecial c = false)
    (hafter : ∀ c ∈ after, isSpecial c = false) (hbars : Bars '/' source)
    (houtput : translation.output = before ++ source ++ after) :
    program.isMatch (before ++ '/' :: after) = false := by
  obtain hrefused | ⟨members, hreads, hhas⟩ := hbars
  · -- There is no program if the class is refused.
    obtain ⟨reader, hread⟩ := exists_read_output hcontains hnegated hprogram
    obtain ⟨repeated, pieces, groups, hword, -⟩ :=
      @guides_word false before hbefore [] false [] [] Reader.anchorLevel 0 [] false
    rw [houtput, List.append_assoc, Reader.read_append, hword, Option.bind_some,
      Reader.read_append, hrefused] at hread
    exact absurd hread (by simp)
  · have hclass : Guides options.noCase (·.after = '/' :: after) source fun _ => False :=
      .of_reads_piece hreads (.of_not_has (hhas options.noCase))
    have hguides : Guides options.noCase (·.after = before ++ '/' :: after) translation.output
        fun _ => False := by
      rw [houtput]
      exact ((guides_word hbefore _).append hclass).append (guides_word hafter []).of_false
    obtain ⟨hblind, a, htree, ha⟩ :=
      exists_anchored_tree hcontains hnegated hguides.body (fun _ => id) hprogram
    rw [Bool.eq_false_iff, ne_eq, program.isMatch_iff_of_anchored htree ha.regular, hblind]
    rintro ⟨d, hspans, -⟩
    exact ha.leads rfl hspans

end

end Regex

/-- Between two words, a negated bracket expression matches no separator. -/
theorem isMatch_eq_false_of_negatedBracket {options : Options}
    (hcontains : options.contains = false) (hnoBracket : options.noBracket = false)
    (hwindows : options.windows = false) {before after : List Char}
    (hbefore : before ≠ [] ∧ ∀ c ∈ before, isSpecial c = false)
    (hafter : after ≠ [] ∧ ∀ c ∈ after, isSpecial c = false) (bracket : NegatedBracket)
    (hapart : bracket.DashesApart) (hnameless : options.posix = true → bracket.IsNameless) :
    let pattern := before ++ bracket.text ++ after
    (Text.byteSize pattern ≤ options.effectiveMaxLength → options.debug = false →
      ∃ compiled, compilePattern pattern options = .ok compiled) ∧
    ∀ compiled, compilePattern pattern options = .ok compiled →
      compiled.isMatch (before ++ '/' :: after) = false := by
  intro pattern
  obtain ⟨first, word, rfl⟩ := List.exists_cons_of_ne_nil hbefore.1
  have hfirst : isSpecial first = false := hbefore.2 first List.mem_cons_self
  let ctx := Context.ofPattern options pattern
  have hbody : ctx.body = pattern := body_ofPattern_of_head? hwindows
    (fun heq => ne_of_not_isSpecial hfirst rfl (Option.some.inj heq))
    (fun heq => ne_of_not_isSpecial hfirst rfl (Option.some.inj heq))
  have hparse (hsize : Text.byteSize pattern ≤ options.effectiveMaxLength) :
      ∃ translation, parse pattern options = .ok translation ∧
        translation.output = first :: word ++ bracket.source options.unescape ++ after ∧
        translation.negated = false :=
    exists_parse_eq_ok hsize (by simp [pattern]) fun tail =>
      ctx.tokenize_negatedBracket hwindows hnoBracket hbefore hafter bracket hnameless hbody tail
  constructor
  · intro hsize hdebug
    obtain ⟨translation, hok, -⟩ := hparse hsize
    have hcompile : ∃ compiled, compile translation options = .ok compiled := by
      simp [compile, hdebug]
    rw [compilePattern, hok]
    exact hcompile
  · intro compiled hcompile
    obtain ⟨hok, hprogram⟩ := exists_of_compilePattern hcompile
    have hsize : Text.byteSize pattern ≤ options.effectiveMaxLength := by
      refine Nat.le_of_not_lt fun hlong => ?_
      exact absurd ((compilePattern_tooLong hlong).symm.trans hcompile) (by simp)
    obtain ⟨translation, hok', houtput, hnegated⟩ := hparse hsize
    obtain rfl : compiled.translation = translation := Except.ok.inj (hok.symm.trans hok')
    rw [Compiled.isMatch]
    cases hsome : compiled.program with
    | none => rfl
    | some program =>
      exact isMatch_eq_false_of_bars hcontains hnegated (hprogram.symm.trans hsome) hbefore.2
        hafter.2 (bracket.bars_source hapart) houtput

/-- A dash at the beginning, a range and an escaped bracket, where POSIX classes are known and case
does not count. -/
theorem isMatch_eq_false_of_negatedBracket_range : ∃ compiled,
    compilePattern ['a', '[', '!', '-', 'd', '-', 'f', '\\', ']', ']', 'b']
      { posix := true, noCase := true } = .ok compiled ∧
    compiled.isMatch ['a', 'c', 'b'] = true ∧ compiled.isMatch ['a', '/', 'b'] = false := by
  let options : Options := { posix := true, noCase := true }
  let bracket : NegatedBracket :=
    { mark := '!', body := ['-', 'd', '-', 'f', '\\', ']']
      chars := [.dash, .char 'd', .dash, .char 'f', .escaped ']']
      hmark := .inl rfl, hchars := rfl, hne := by simp, hcloses := by simp }
  have hplain (c : Char) (hc : isSpecial c = false) : [c] ≠ [] ∧ ∀ d ∈ [c], isSpecial d = false :=
    ⟨by simp, by simpa using hc⟩
  obtain ⟨hcompiles, hbarred⟩ := isMatch_eq_false_of_negatedBracket
    (show options.contains = false from rfl) rfl rfl (hplain 'a' (by decide))
    (hplain 'b' (by decide)) bracket (by decide) (fun _ => by decide)
  obtain ⟨compiled, hcompile⟩ := hcompiles (by decide) rfl
  refine ⟨compiled, hcompile, ?_, hbarred compiled hcompile⟩
  have hother : (compilePattern ['a', '[', '!', '-', 'd', '-', 'f', '\\', ']', ']', 'b']
      options).toOption.any (fun compiled => compiled.isMatch ['a', 'c', 'b']) = true := by
    decide +kernel
  have hcompile' : compilePattern ['a', '[', '!', '-', 'd', '-', 'f', '\\', ']', ']', 'b']
      options = .ok compiled := hcompile
  rw [hcompile'] at hother
  simpa [Except.toOption] using hother

/-- A doubled dash takes the separator out of the set of the class. -/
example : (compilePattern ['a', '[', '^', '+', '-', '-', 'b', ']', 'b'] {}).toOption.any
    (fun compiled => compiled.isMatch ['a', '/', 'b']) = true := by
  decide +kernel

/-- Behind a colon that might end a class name, the separator is not added. -/
example : (compilePattern ['a', '[', '^', '[', 'x', ':', ']', 'b'] { posix := true }).toOption.any
    (fun compiled => compiled.isMatch ['a', '/', 'b']) = true := by
  decide +kernel

end PathGlob
