import PathGlob.Proofs.Language.Protected
import PathGlob.Proofs.Pattern.Unclosed
import PathGlob.Proofs.Regex.Denotes

/-!
# `PathGlob.Proofs.Language.Unclosed`: what patterns with unclosed delimiters match

A pattern in which no delimiter is closed is nearly text. `recognizes_unclosed` says which texts it
matches, and with that where it is not: behind a parenthesis a bar still separates alternatives of
the whole pattern, a bracket at the end still allows a separator, and the body of a class that is
never closed is text only after it has been escaped as a class body.
-/

set_option autoImplicit false

namespace PathGlob

open Regex Pattern

/-- The text cut at the bars behind its first opening parenthesis. -/
def openAlternatives (text : List Char) : List (List Char) :=
  (Text.pieces '|' (text.dropWhile (· ≠ '('))).modifyHead (Text.firstPiece '(' text ++ ·)

theorem openAlternatives_ne_nil (text : List Char) : openAlternatives text ≠ [] := by
  have hne := Text.pieces_ne_nil '|' (text.dropWhile (· ≠ '('))
  obtain ⟨piece, pieces, hpieces⟩ := List.exists_cons_of_ne_nil hne
  rw [openAlternatives, hpieces]
  exact List.cons_ne_nil _ _

/-! ### The source -/

/-- Behind a parenthesis every bar separates. -/
theorem unclosedSource_true (text : List Char) :
    unclosedSource true text = ['|'].intercalate ((Text.pieces '|' text).map Regex.escape) := by
  induction text with
  | nil => rfl
  | cons c text ih =>
    obtain ⟨piece, pieces, hpieces⟩ :=
      List.exists_cons_of_ne_nil (Text.pieces_ne_nil '|' text)
    rw [unclosedSource, Bool.true_or, ih, Text.pieces, hpieces]
    by_cases hbar : c = '|'
    · rw [if_pos hbar, List.map_cons, List.map_cons, List.map_cons, List.intercalate_cons_cons]
      simp [openingSource, hbar, Regex.escape]
    · have hsource : openingSource true c = escapeChar c := by simp [openingSource, hbar]
      rw [if_neg hbar, hsource]
      cases pieces with
      | nil => simp [Regex.escape]
      | cons next pieces => simp [List.intercalate_cons_cons, Regex.escape]

/-- Before the first parenthesis every character stands for itself. -/
theorem unclosedSource_append {lead : List Char} (hlead : '(' ∉ lead) (text : List Char) :
    unclosedSource false (lead ++ text) = Regex.escape lead ++ unclosedSource false text := by
  induction lead with
  | nil => rfl
  | cons c lead ih =>
    obtain ⟨hc, hlead⟩ := not_or.mp (mt List.mem_cons.mpr hlead)
    have hparen : decide (c = '(') = false := decide_eq_false (Ne.symm hc)
    have hsource : openingSource false c = escapeChar c := rfl
    rw [List.cons_append, unclosedSource, hparen, Bool.or_self, ih hlead, hsource,
      ← List.append_assoc]
    rfl

/-- The source of a text in which nothing is closed is that of its alternatives. -/
theorem unclosedSource_eq (text : List Char) :
    unclosedSource false text = ['|'].intercalate ((openAlternatives text).map Regex.escape) := by
  let lead := Text.firstPiece '(' text
  let rest := text.dropWhile (· ≠ '(')
  have htext : text = lead ++ rest := List.takeWhile_append_dropWhile.symm
  have hrest : unclosedSource false rest = unclosedSource true rest := by
    cases hcons : rest with
    | nil => rfl
    | cons c more =>
      -- The rest begins with the parenthesis, which makes no difference to itself.
      have hhead := List.head?_dropWhile_not (fun c => decide (c ≠ '(')) text
      rw [show text.dropWhile (fun c => decide (c ≠ '(')) = c :: more from hcons] at hhead
      obtain rfl : c = '(' := Decidable.not_not.mp (of_decide_eq_false hhead)
      rfl
  have hsplit : unclosedSource false text = Regex.escape lead ++ unclosedSource true rest := by
    rw [← hrest, ← unclosedSource_append (Text.not_mem_firstPiece '(' text), ← htext]
  obtain ⟨piece, pieces, hpieces⟩ :=
    List.exists_cons_of_ne_nil (Text.pieces_ne_nil '|' rest)
  rw [hsplit, unclosedSource_true, openAlternatives]
  show _ = ['|'].intercalate (((Text.pieces '|' rest).modifyHead (lead ++ ·)).map Regex.escape)
  rw [hpieces]
  cases pieces with
  | nil => simp [Regex.escape]
  | cons next pieces => simp [List.intercalate_cons_cons, Regex.escape]

/-! ### The language -/

/-- Alternatives, the last of which goes on with something else. -/
theorem denotesBody_alternatives {ending : List Char} {language : List Char → Prop}
    (h : Denotes ending language) (texts : List (List Char)) (last : List Char) :
    DenotesBody (['|'].intercalate ((texts ++ [last]).map Regex.escape) ++ ending) fun text =>
      text ∈ texts ∨ ∃ rest, language rest ∧ text = last ++ rest := by
  induction texts with
  | nil =>
    have hsource : ['|'].intercalate (([] ++ [last]).map Regex.escape) = Regex.escape last := by
      simp
    rw [hsource]
    refine ((denotes_escape last).append h).body.congr fun text => ?_
    simp [catenation]
  | cons first texts ih =>
    have hmore := (denotes_escape first).orElse ih
    obtain ⟨next, others, hothers⟩ : ∃ next others, texts ++ [last] = next :: others :=
      List.exists_cons_of_ne_nil (by simp)
    rw [List.cons_append, List.map_cons, hothers, List.map_cons, List.intercalate_cons_cons,
      ← List.map_cons, ← hothers]
    simpa [or_assoc, List.append_assoc] using hmore

/-- A separator that may be missing. -/
theorem denotes_optionalSlash :
    Denotes (Fragment.slash false ++ ['?']) fun text => text = [] ∨ text = ['/'] := by
  have hpiece : Piece.optionalSlash.Denotes fun text => text = [] ∨ text = ['/'] := by
    refine ⟨by decide, fun c d => ?_⟩
    simp only [Piece.spans_optionalSlash_iff, or_and_right, exists_or, exists_eq_left,
      Cursor.passes_nil_iff]
  exact .of_reads Piece.reads_optionalSlash hpiece.ofSequence_singleton

/-! ### The pattern -/

/-- What the last alternative goes on with. -/
def unclosedEnding (text : List Char) (classText? : Option (List Char)) (rest : List Char) : Prop :=
  let classEnd := classText?.elim [] classLiteral
  rest = classEnd ∨
    (classText?.isSome ∨ text.getLast? = some '[') ∧ rest = classEnd ++ ['/']

theorem endsInBracket_iff (text : List Char) :
    endsInBracket false text = true ↔ text.getLast? = some '[' := by
  rcases List.eq_nil_or_concat text with rfl | ⟨init, c, rfl⟩
  · simp [endsInBracket]
  · simp [endsInBracket]

/-- The end of the source denotes what the last alternative goes on with. -/
theorem denotes_unclosedEnding (text : List Char) (classText? : Option (List Char)) :
    Denotes ((classText?.elim [] fun classText => Regex.escape (classLiteral classText)) ++
      (if classText?.isSome || endsInBracket false text then Fragment.slash false ++ ['?'] else []))
      (unclosedEnding text classText?) := by
  have hclass : (classText?.elim [] fun classText => Regex.escape (classLiteral classText)) =
      Regex.escape (classText?.elim [] classLiteral) := by
    cases classText? <;> rfl
  have hbracket : (classText?.isSome || endsInBracket false text) = true ↔
      (classText?.isSome = true ∨ text.getLast? = some '[') := by
    rw [Bool.or_eq_true, endsInBracket_iff]
  rw [hclass]
  split
  case isTrue h =>
    refine ((denotes_escape _).append denotes_optionalSlash).congr fun rest => ?_
    simp [unclosedEnding, hbracket.mp h, catenation]
  case isFalse h =>
    rw [List.append_nil]
    refine (denotes_escape _).congr fun rest => ?_
    simp [unclosedEnding, mt hbracket.mpr h]

/-- A pattern in which no delimiter is closed matches the texts between the bars behind its first
parenthesis, the last of them with what becomes of its class and perhaps a separator. So without
such bars, and without brackets, it matches itself only. -/
theorem recognizes_unclosed (fastPaths : Bool) {text : List Char} (htext : ∀ c ∈ text, IsOpening c)
    {classText? : Option (List Char)} (hclass : ∀ classText ∈ classText?,
      '[' ∉ text ∧ ∀ c ∈ classText, IsOpening c)
    (hne : unclosed text classText? ≠ []) :
    (Text.byteSize (unclosed text classText?) ≤ lengthLimit →
      Recognizes (unclosed text classText?) { fastPaths } fun input =>
        input ∈ (openAlternatives text).dropLast ∨ ∃ rest, unclosedEnding text classText? rest ∧
          input = (openAlternatives text).getLast (openAlternatives_ne_nil text) ++ rest) ∧
    (lengthLimit < Text.byteSize (unclosed text classText?) →
      compilePattern (unclosed text classText?) { fastPaths } =
        .error (.tooLong (Text.byteSize (unclosed text classText?)) lengthLimit)) := by
  let options : Options := { fastPaths }
  have hlimit : options.effectiveMaxLength = lengthLimit := Nat.min_self lengthLimit
  constructor
  · intro hsize
    have hhead (c : Char) (hc : c = '*' ∨ c = '.') : (unclosed text classText?).head? ≠ some c := by
      intro heq
      have hopening : ∀ d ∈ text, d ≠ c := by
        rintro d hd rfl
        obtain rfl | rfl := hc <;> exact (htext _ hd).elim (by decide) (by decide)
      cases text with
      | nil =>
        cases classText? with
        | none => exact absurd rfl hne
        | some classText => obtain rfl | rfl := hc <;> exact absurd heq (by simp [unclosed])
      | cons d text => exact hopening d List.mem_cons_self (Option.some.inj heq)
    have hbody := body_ofPattern_of_head? (show options.windows = false from rfl)
      (hhead '*' (.inl rfl)) (hhead '.' (.inr rfl))
    let ctx := Context.ofPattern options (unclosed text classText?)
    obtain ⟨translation, hparse, houtput, hnegated⟩ := exists_parse_eq_ok
      (show Text.byteSize _ ≤ options.effectiveMaxLength from hlimit.symm ▸ hsize) hne fun tail => by
        obtain ⟨translation, htokenize, hnegated, houtput⟩ := ctx.tokenize_unclosed rfl rfl rfl rfl
          rfl (show Fragment.star false ≠ [] by decide) htext hclass hbody tail
        exact ⟨translation, htokenize, houtput, hnegated⟩
    have hdenotes := denotesBody_alternatives (denotes_unclosedEnding text classText?)
      (openAlternatives text).dropLast
      ((openAlternatives text).getLast (openAlternatives_ne_nil text))
    rw [List.dropLast_concat_getLast, ← unclosedSource_eq, ← List.append_assoc] at hdenotes
    obtain ⟨compiled, hcompile, hmatch⟩ := compile_of_denotes (houtput ▸ hdenotes) hnegated
      (show options.contains = false from rfl) (show options.noCase = false from rfl)
    refine ⟨compiled, ?_, hmatch⟩
    rw [compilePattern, hparse]
    exact hcompile
  · intro hsize
    have hrefused := compilePattern_tooLong
      (show options.effectiveMaxLength < Text.byteSize (unclosed text classText?) from
        hlimit.symm ▸ hsize)
    rwa [hlimit] at hrefused

/-- A bar behind a parenthesis that is never closed, and a class that is never closed. -/
theorem recognizes_unclosed_bar :
    (∀ c ∈ ['(', 'a', '|', 'b'], IsOpening c) ∧ (∀ c ∈ ['c'], IsOpening c) ∧ ∃ compiled,
      compilePattern ['(', 'a', '|', 'b', '[', ']', 'c'] {} = .ok compiled ∧
      compiled.isMatch ['(', 'a'] = true ∧ compiled.isMatch ['b', '[', '\\', ']', 'c', '/'] = true ∧
      compiled.isMatch ['(', 'a', '|', 'b', '[', ']', 'c'] = false := by
  have htext : ∀ c ∈ ['(', 'a', '|', 'b'], IsOpening c := by simp [IsOpening, isSpecial]
  have hclassText : ∀ c ∈ ['c'], IsOpening c := by simp [IsOpening, isSpecial]
  have hclass : ∀ classText ∈ some ['c'],
      '[' ∉ ['(', 'a', '|', 'b'] ∧ ∀ c ∈ classText, IsOpening c := by
    rintro classText hmem
    obtain rfl := Option.mem_some.mp hmem
    exact ⟨by decide, hclassText⟩
  obtain ⟨compiled, hcompile, hmatch⟩ :=
    (recognizes_unclosed true htext hclass (by decide)).1 (by decide)
  refine ⟨htext, hclassText, compiled, hcompile, (hmatch _).mpr (.inl (by decide)),
    (hmatch _).mpr (.inr ⟨['[', '\\', ']', 'c', '/'], .inr ⟨.inl rfl, rfl⟩, by decide⟩), ?_⟩
  rw [← Bool.not_eq_true, hmatch]
  rintro (hmem | ⟨rest, -, heq⟩)
  · exact absurd hmem (by decide)
  · exact absurd (congrArg List.head? heq) (by simp [openAlternatives, Text.pieces])

end PathGlob
