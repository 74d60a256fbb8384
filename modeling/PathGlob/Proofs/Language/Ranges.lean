import PathGlob.Proofs.Language.Protected
import PathGlob.Proofs.Pattern.Ranges

/-!
# `PathGlob.Proofs.Language.Ranges`: brace ranges

A brace group of words with two dots between them matches what its words ask for. If they are the
operands of a range that is listed, it matches the values of the range (`recognizes_range`). Any
other words are text (`recognizes_unlisted`): words that are no operands at all match as they stand,
with the braces around them. A range with too many values to list, which has no compact form either,
matches its operands with the dots between them, but it loses the braces.
-/

set_option autoImplicit false

namespace PathGlob

open Regex Pattern Range

section
variable {lead after : List Char} {words : List (List Char)}
  (hlead : ∀ c ∈ lead, isSpecial c = false) (hafter : ∀ c ∈ after, isSpecial c = false)

include hlead hafter in
/-- A brace group of words between two texts recognizes what its source denotes. -/
theorem recognizes_ranged (capture fastPaths : Bool) (hwords : ArePlainWords words)
    {language : List Char → Prop}
    (hdenotes : ∀ ctx : Context, ctx.options = { capture, fastPaths } →
      Denotes (ctx.braceSource words) language) :
    (Text.byteSize (ranged lead words after) ≤ lengthLimit →
      Recognizes (ranged lead words after) { capture, fastPaths } fun text =>
        ∃ middle, language middle ∧ text = lead ++ middle ++ after) ∧
    (lengthLimit < Text.byteSize (ranged lead words after) →
      compilePattern (ranged lead words after) { capture, fastPaths } =
        .error (.tooLong (Text.byteSize (ranged lead words after)) lengthLimit)) := by
  let options : Options := { capture, fastPaths }
  let ctx := Context.ofPattern options (ranged lead words after)
  have hhead (c : Char) (hc : isSpecial c = true) (hbrace : c ≠ '{') :
      (ranged lead words after).head? ≠ some c := by
    cases lead with
    | nil => exact fun heq => hbrace (Option.some.inj heq).symm
    | cons d lead =>
      intro heq
      obtain rfl : d = c := Option.some.inj heq
      exact absurd (hc.symm.trans (hlead d List.mem_cons_self)) (by decide)
  have hbody := body_ofPattern_of_head? (show options.windows = false from rfl)
    (hhead '*' rfl (by decide)) (hhead '.' rfl (by decide))
  have hplain {text : List Char} (h : ∀ c ∈ text, isSpecial c = false) :
      Denotes text (· = text) := by
    have hescape := denotes_escape text
    rwa [escape_plain h] at hescape
  refine recognizes_of_denotes rfl rfl rfl (by simp [ranged]) (fun tail =>
    ctx.tokenize_ranged rfl (by cases capture <;> simp [ctx, Context.ofPattern, starSource,
      Fragment.star, Fragment.anyChar, options]) hlead hwords hafter hbody tail) ?_
  refine (((hplain hlead).append (hdenotes ctx rfl)).append (hplain hafter)).body.congr
    fun text => ?_
  constructor
  · rintro ⟨_, _, ⟨_, middle, rfl, hmiddle, rfl⟩, rfl, rfl⟩
    exact ⟨middle, hmiddle, rfl⟩
  · rintro ⟨middle, hmiddle, rfl⟩
    exact ⟨_, _, ⟨_, middle, rfl, hmiddle, rfl⟩, rfl, rfl⟩

/-- No operand is empty. -/
theorem arePlainWords_of_ofTexts? {operands : Operands}
    (h : Operands.ofTexts? words = some operands)
    (hwords : ∀ word ∈ words, ∀ c ∈ word, isSpecial c = false) : ArePlainWords words := by
  have hempty : parseInt? [] = none := rfl
  obtain ⟨ends, hends⟩ := Operands.exists_ends_of_ofTexts? h
  have hfirst : operands.first ≠ [] := by
    intro hnil
    simp [Operands.ends?, hnil, hempty] at hends
  have hlast : operands.last ≠ [] := by
    intro hnil
    simp [Operands.ends?, hnil, hempty] at hends
  have hstep : ∀ step ∈ operands.step, step ≠ [] := by
    rintro step hstep rfl
    unfold Operands.ofTexts? at h
    split at h
    case h_1 =>
      obtain ⟨_, -, rfl⟩ := Option.map_eq_some_iff.mp h
      cases hstep
    case h_2 first last step' =>
      dsimp only at h
      split at h
      case isTrue => cases h
      case isFalse hparse =>
        obtain ⟨_, -, rfl⟩ := Option.map_eq_some_iff.mp h
        obtain rfl : step' = [] := Option.some.inj hstep
        exact hparse rfl
    case h_3 => cases h
  obtain rfl := texts_of_ofTexts? h
  refine ⟨List.cons_ne_nil _ _, ?_, hwords⟩
  intro word hword
  rw [Operands.texts, List.mem_cons, List.mem_cons, Option.mem_toList] at hword
  obtain rfl | rfl | hword := hword
  · exact hfirst
  · exact hlast
  · exact hstep word hword

include hlead hafter

/-- A brace group of words that are no operands matches exactly its own text. A range of too many
integers matches the text without the braces if it is filled up or its step is not one, and if the
count of its values is cut off, it matches nothing between the texts around it. -/
theorem recognizes_unlisted (capture fastPaths : Bool) (hwords : ArePlainWords words) :
    (Text.byteSize (ranged lead words after) ≤ lengthLimit →
      (Operands.ofTexts? words = none →
        Recognizes (ranged lead words after) { capture, fastPaths }
          (· = ranged lead words after)) ∧
      ∀ operands first last, Operands.ofTexts? words = some operands →
        operands.ends? = some (.integers first last) →
        listLimit.toNat < (Ends.integers first last).distance / operands.stepSize + 1 →
        operands.isFilled = true ∨ operands.stepSize ≠ 1 →
        Recognizes (ranged lead words after) { capture, fastPaths } (· = lead ++
          (if (Ends.integers first last).distance = 2 ^ 64 - 1 ∧ operands.stepSize = 1 then []
            else dotted words) ++ after)) ∧
    (lengthLimit < Text.byteSize (ranged lead words after) →
      compilePattern (ranged lead words after) { capture, fastPaths } =
        .error (.tooLong (Text.byteSize (ranged lead words after)) lengthLimit)) := by
  let options : Options := { capture, fastPaths }
  have hlimit : options.effectiveMaxLength = lengthLimit := Nat.min_self lengthLimit
  have hexact {middle : List Char} (hdenotes : ∀ ctx : Context,
      ctx.options = { capture, fastPaths } → Denotes (ctx.braceSource words) (· = middle)) :
      _ ∧ _ := recognizes_ranged hlead hafter capture fastPaths hwords hdenotes
  refine ⟨fun hsize => ⟨fun hnone => ?_, ?_⟩, hlimit ▸ compilePattern_tooLong⟩
  · have hsource (ctx : Context) :
        ctx.braceSource words = Regex.escape ('{' :: dotted words ++ ['}']) := by
      rw [Context.braceSource, hnone]
    refine ((hexact fun ctx _ => hsource ctx ▸ denotes_escape _).1 hsize).congr fun text => ?_
    simp [ranged]
  · intro operands first last haccepted hends hmany hshape
    have hsource (ctx : Context) (hoptions : ctx.options = { capture, fastPaths }) :
        ctx.braceSource words = expand operands capture := by
      rw [Context.braceSource, haccepted, hoptions]
      rfl
    have hdenotes := denotes_expand_ownText capture hends hmany hshape
    rw [texts_of_ofTexts? haccepted] at hdenotes
    refine ((hexact fun ctx hoptions => hsource ctx hoptions ▸ hdenotes).1 hsize).congr
      fun text => ?_
    simp

omit hlead hafter in
/-- Without a range the braces are kept, and a range with too many values loses them. -/
theorem recognizes_unlisted_step :
    (∃ compiled, compilePattern (ranged [] [['a'], ['b', 'c']] []) {} = .ok compiled ∧
      compiled.isMatch (ranged [] [['a'], ['b', 'c']] []) = true) ∧
    ∃ compiled, compilePattern (ranged [] [['1'], ['9', '0', '0', '0'], ['2']] []) {} =
        .ok compiled ∧
      compiled.isMatch (dotted [['1'], ['9', '0', '0', '0'], ['2']]) = true ∧
      compiled.isMatch (ranged [] [['1'], ['9', '0', '0', '0'], ['2']] []) = false := by
  have hnone : ∀ c ∈ ([] : List Char), isSpecial c = false := by simp
  have htext : ArePlainWords [['a'], ['b', 'c']] := ⟨by simp, by simp, by simp [isSpecial]⟩
  have hrange : ArePlainWords [['1'], ['9', '0', '0', '0'], ['2']] := ⟨by simp, by simp, by simp [isSpecial]⟩
  let operands : Operands := ⟨['1'], ['9', '0', '0', '0'], some ['2']⟩
  have hends : operands.ends? = some (.integers 1 9000) := by decide
  have hstep : operands.stepSize = 2 := by decide
  have hmany : listLimit.toNat < (Ends.integers 1 9000).distance / operands.stepSize + 1 := by
    rw [hstep]
    decide
  have hshape : operands.isFilled = true ∨ operands.stepSize ≠ 1 := .inr (by rw [hstep]; decide)
  constructor
  · obtain ⟨compiled, hcompile, hmatch⟩ :=
      ((recognizes_unlisted hnone hnone false true htext).1 (by decide)).1 (by decide)
    exact ⟨compiled, hcompile, (hmatch _).mpr rfl⟩
  · obtain ⟨compiled, hcompile, hmatch⟩ :=
      ((recognizes_unlisted hnone hnone false true hrange).1 (by decide)).2 operands 1 9000
        (by decide) hends hmany hshape
    rw [if_neg (by rw [hstep]; decide)] at hmatch
    refine ⟨compiled, hcompile, (hmatch _).mpr (by simp), ?_⟩
    rw [← Bool.not_eq_true, hmatch]
    decide

end

end PathGlob
