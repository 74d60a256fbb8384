import PathGlob.Proofs.Pattern.Shortcut
import PathGlob.Proofs.Regex.Denotes

/-!
# `PathGlob.Proofs.Compile`: from a translation to the texts it accepts

Under the plain convention, where only a slash separates and a star stays within a segment,
the source of a text without groups is read as one short list of pieces per character
(`Context.reads_textSource`). Together with the piece of a separator at the end, and with
whatever a globstar adds, this gives the program of a pattern.

`recognizes_of_reads` puts the stages together: what the tokenizer emits is what the
pattern is translated into, it is read as pieces, and the compiled pattern accepts the
texts that the pieces fill.
-/

set_option autoImplicit false

namespace PathGlob

open Regex Pattern

/-- The options leave the meaning of texts alone: only a slash separates, a star stays within
a segment, wildcards capture nothing, case counts, and a match is a match of the whole text. -/
structure Options.IsPlain (options : Options) : Prop where
  windows : options.windows = false
  bash : options.bash = false
  capture : options.capture = false
  noCase : options.noCase = false
  contains : options.contains = false

namespace Regex.Piece

/-- The pieces of a character after a token of the given kind. -/
def ofChar (dots : Bool) (kind : TokenKind) (c : Char) : List Node :=
  if c = '/' then [.char '/']
  else if c = '?' then
    if !kind.beginsSegment then [anyChar]
    else if dots then [dotGuard true, anyChar]
    else [anyCharNoDot]
  else if c = '*' then
    if kind = .star then []
    else if kind.needsGuard then
      [if kind = .dot then noDotSegment else dotGuard dots, oneChar, star]
    else [star]
  else [.char c]

/-- The pieces of a text. -/
def ofText (dots : Bool) : TokenKind → List Char → List Node
  | _, [] => []
  | kind, c :: text => ofChar dots kind c ++ ofText dots (kind.after c) text

theorem ofText_append (dots : Bool) (kind : TokenKind) (a b : List Char) :
    ofText dots kind (a ++ b) =
      ofText dots kind a ++ ofText dots (a.foldl TokenKind.after kind) b := by
  induction a generalizing kind with
  | nil => rfl
  | cons c a ih => simp only [List.cons_append, ofText, ih, List.append_assoc, List.foldl_cons]

theorem isSound_dotGuard (dots : Bool) : (dotGuard dots).IsSound := by
  cases dots <;> decide

theorem isSound_ofChar {dots : Bool} {kind : TokenKind} {c : Char} :
    ∀ a ∈ ofChar dots kind c, a.IsSound := by
  have hchar (c : Char) : (Node.char c).IsSound := ⟨rfl, rfl⟩
  unfold ofChar
  repeat' split
  all_goals
    simp only [List.mem_cons, List.not_mem_nil, or_false, forall_eq_or_imp, forall_eq,
      isSound_dotGuard, hchar, false_imp_iff, implies_true, true_and]
  all_goals decide

theorem isSound_ofText (dots : Bool) (kind : TokenKind) (text : List Char) :
    ∀ a ∈ ofText dots kind text, a.IsSound := by
  induction text generalizing kind with
  | nil => exact fun a ha => absurd ha List.not_mem_nil
  | cons c text ih => exact List.forall_mem_append.mpr ⟨isSound_ofChar, ih _⟩

end Regex.Piece

section
variable {ctx : Context} (hplain : ctx.options.IsPlain) (hstar : ctx.star = starSource ctx.options)
include hplain hstar

/-- The source of a character is read as its pieces. -/
theorem reads_charSource (kind : TokenKind) (c : Char) :
    Reads (ctx.charSource kind c) (Piece.ofChar ctx.options.dot kind c) := by
  have hwindows : ctx.windows = false := hplain.windows
  -- The plain convention leaves one form of each fragment.
  have hstarOutput : ctx.starOutput = Fragment.star false := by
    simp [Context.starOutput, hplain.bash, hstar, starSource, hplain.windows, hplain.capture]
  have hguard : Reads (ctx.starGuard kind)
      [if kind = .dot then Piece.noDotSegment else Piece.dotGuard ctx.options.dot] := by
    unfold Context.starGuard Context.dotGuard
    rw [hwindows, hplain.windows]
    split
    · exact Piece.reads_noDotSegment
    · exact Piece.reads_dotGuard _
  unfold Context.charSource Piece.ofChar
  rw [hwindows, hstarOutput]
  split
  · exact Piece.reads_slash
  · split
    · split
      · exact Piece.reads_anyChar
      · split
        · exact (Piece.reads_dotGuard true).append Piece.reads_anyChar
        · exact Piece.reads_anyCharNoDot
    · split
      · split
        · exact .nil
        · split
          · exact (hguard.append Piece.reads_oneChar).append Piece.reads_star
          · exact Piece.reads_star
      · exact reads_escapeChar c

/-- The source of a text is read as its pieces. -/
theorem reads_textSource (kind : TokenKind) (text : List Char) :
    Reads (ctx.textSource kind text) (Piece.ofText ctx.options.dot kind text) := by
  induction text generalizing kind with
  | nil => exact .nil
  | cons c text ih => exact (reads_charSource hplain hstar kind c).append (ih _)

end

/-- A pattern of admissible length is translated into what the tokenizer emits. What the
tokenizer is given for the extensions after negated groups are translations as well. -/
theorem exists_tail {pattern : List Char} {options : Options}
    (hsize : Text.byteSize pattern ≤ options.effectiveMaxLength) (hne : pattern ≠ []) :
    ∃ tail, (∀ text output, tail text = .ok output → ∃ depth inner,
        parseWithin depth { options with fastPaths := false } text = .ok inner ∧
          inner.output = output) ∧
      ∀ translation, (Context.ofPattern options pattern).tokenize tail = .ok translation →
        ∃ result, parse pattern options = .ok result ∧ result.output = translation.output ∧
          result.negated = translation.negated := by
  obtain ⟨n, hlength⟩ := Nat.exists_eq_succ_of_ne_zero (mt List.length_eq_zero_iff.mp hne)
  let tail : List Char → Except Error (List Char) := fun text =>
    (parseWithin n { options with fastPaths := false } text).map Translation.output
  refine ⟨tail, fun text output htail => ?_, fun translation htokenize => ?_⟩
  · cases hinner : parseWithin n { options with fastPaths := false } text with
    | error e =>
      simp only [tail, hinner] at htail
      exact absurd htail (by simp [Except.map])
    | ok inner =>
      simp only [tail, hinner] at htail
      exact ⟨n, inner, hinner, Except.ok.inj htail⟩
  · have hparse : parse pattern options = translate options tail pattern := by
      rw [parse, hlength]
      unfold parseWithin
      exact (if_neg (by omega)).trans (if_neg (by simpa using hne))
    -- Shortcuts may have been taken, so only the essence of the translation is known.
    have hessence := translate_essence options tail pattern
    rw [← hparse, htokenize] at hessence
    cases hresult : parse pattern options with
    | error e =>
      rw [hresult] at hessence
      exact absurd hessence (by simp [Except.map])
    | ok result =>
      rw [hresult] at hessence
      have h : result.essence = translation.essence := Except.ok.inj hessence
      simp only [Translation.essence, Translation.mk.injEq] at h
      exact ⟨result, rfl, h.2.1, h.2.2.2.1⟩

/-- A pattern of admissible length is translated into what the tokenizer emits whatever it is
given for extensions. -/
theorem exists_parse_eq_ok {pattern : List Char} {options : Options}
    (hsize : Text.byteSize pattern ≤ options.effectiveMaxLength) (hne : pattern ≠ [])
    {output : List Char} (htokenize : ∀ tail, ∃ translation,
      (Context.ofPattern options pattern).tokenize tail = .ok translation ∧
        translation.output = output ∧ translation.negated = false) :
    ∃ translation, parse pattern options = .ok translation ∧
      translation.output = output ∧ translation.negated = false := by
  obtain ⟨tail, -, hparse⟩ := exists_tail hsize hne
  obtain ⟨translation, htranslation, houtput, hnegated⟩ := htokenize tail
  obtain ⟨result, hresult, hsame⟩ := hparse translation htranslation
  exact ⟨result, hresult, hsame.1.trans houtput, hsame.2.trans hnegated⟩

/-- A pattern beyond the length limit is refused. -/
theorem compilePattern_tooLong {pattern : List Char} {options : Options}
    (hsize : options.effectiveMaxLength < Text.byteSize pattern) :
    compilePattern pattern options =
      .error (.tooLong (Text.byteSize pattern) options.effectiveMaxLength) := by
  have hparse : parse pattern options =
      .error (.tooLong (Text.byteSize pattern) options.effectiveMaxLength) := by
    rw [parse]
    unfold parseWithin
    exact if_pos hsize
  rw [compilePattern, hparse]
  rfl

/-- The pattern can be compiled, and it accepts exactly the texts of the language. -/
def Recognizes (pattern : List Char) (options : Options) (language : List Char → Prop) : Prop :=
  ∃ compiled, compilePattern pattern options = .ok compiled ∧
    ∀ text, compiled.isMatch text = true ↔ language text

theorem Recognizes.congr {pattern : List Char} {options : Options} {language : List Char → Prop}
    (h : Recognizes pattern options language) {language' : List Char → Prop}
    (hiff : ∀ text, language text ↔ language' text) : Recognizes pattern options language' := by
  obtain ⟨compiled, hcompile, hmatch⟩ := h
  exact ⟨compiled, hcompile, fun text => (hmatch text).trans (hiff text)⟩

/-- If what the tokenizer emits denotes a language, the pattern recognizes that language. Only a
pattern beyond the length limit is refused. -/
theorem recognizes_of_denotes {pattern : List Char} {options : Options}
    (hmax : options.maxLength = lengthLimit) (hcontains : options.contains = false)
    (hcase : options.noCase = false) (hne : pattern ≠ []) {output : List Char}
    {language : List Char → Prop} (htokenize : ∀ tail, ∃ translation,
      (Context.ofPattern options pattern).tokenize tail = .ok translation ∧
        translation.output = output ∧ translation.negated = false)
    (hdenotes : DenotesBody output language) :
    (Text.byteSize pattern ≤ lengthLimit → Recognizes pattern options language) ∧
    (lengthLimit < Text.byteSize pattern →
      compilePattern pattern options =
        .error (.tooLong (Text.byteSize pattern) lengthLimit)) := by
  have hlimit : options.effectiveMaxLength = lengthLimit := by
    rw [Options.effectiveMaxLength, hmax, Nat.min_self]
  rw [← hlimit]
  refine ⟨fun hsize => ?_, compilePattern_tooLong⟩
  obtain ⟨translation, hparse, rfl, hnegated⟩ := exists_parse_eq_ok hsize hne htokenize
  obtain ⟨compiled, hcompile, hmatch⟩ := compile_of_denotes hdenotes hnegated hcontains hcase
  refine ⟨compiled, ?_, hmatch⟩
  rw [compilePattern, hparse]
  exact hcompile

/-- If what the tokenizer emits is read as sound pieces, the pattern recognizes the texts that
the pieces fill, under any dialect in which case counts and the whole text has to match. -/
theorem recognizes_of_sound {pattern : List Char} {options : Options}
    (hcontains : options.contains = false) (hcase : options.noCase = false)
    (hsize : Text.byteSize pattern ≤ options.effectiveMaxLength) (hne : pattern ≠ [])
    {output : List Char} {pieces : List Node}
    (htokenize : ∀ tail, ∃ translation,
      (Context.ofPattern options pattern).tokenize tail = .ok translation ∧
        translation.output = output ∧ translation.negated = false)
    (hreads : Reads output pieces) (hsound : ∀ a ∈ pieces, a.IsSound) :
    Recognizes pattern options fun text => Node.Fills pieces ⟨[], text⟩ := by
  obtain ⟨translation, hparse, rfl, hnegated⟩ := exists_parse_eq_ok hsize hne htokenize
  obtain ⟨compiled, hcompile, hmatch⟩ :=
    compile_of_reads hreads hsound hnegated hcontains hcase
  refine ⟨compiled, ?_, hmatch⟩
  rw [compilePattern, hparse]
  exact hcompile

/-- If what the tokenizer emits is read as sound pieces, the pattern recognizes the texts that
the pieces fill. -/
theorem recognizes_of_reads {pattern : List Char} {options : Options}
    (hplain : options.IsPlain) (hsize : Text.byteSize pattern ≤ options.effectiveMaxLength)
    (hne : pattern ≠ []) {output : List Char} {pieces : List Node}
    (htokenize : ∀ tail, ∃ translation,
      (Context.ofPattern options pattern).tokenize tail = .ok translation ∧
        translation.output = output ∧ translation.negated = false)
    (hreads : Reads output pieces) (hsound : ∀ a ∈ pieces, a.IsSound) :
    Recognizes pattern options fun text => Node.Fills pieces ⟨[], text⟩ :=
  recognizes_of_sound hplain.contains hplain.noCase hsize hne htokenize hreads hsound

/-- The text that is read is the pattern in its simple form, unless that begins with `./`. -/
theorem body_ofPattern {pattern : List Char} {options : Options}
    (hwindows : options.windows = false)
    (hdotSlash : ∀ rest, simplify pattern ≠ '.' :: '/' :: rest) :
    (Context.ofPattern options pattern).body = simplify pattern := by
  have hdrop : dropDotSlash (simplify pattern) = (false, simplify pattern) := by
    unfold dropDotSlash
    split
    · rename_i rest heq
      exact absurd heq (hdotSlash rest)
    · rfl
  simp only [Context.ofPattern, hwindows, hdrop, Bool.false_eq_true, if_false]

/-- The pieces of what is added at the end of a pattern. -/
def Regex.Piece.closing (options : Options) (pattern : List Char) : List Node :=
  if pattern.getLast? = some '*' ∧ options.strictSlashes = false then [optionalSlash] else []

/-- What is added at the end of a pattern is read as its pieces. -/
theorem reads_closing {ctx : Context} (hplain : ctx.options.IsPlain) {kind : TokenKind}
    (hkind : kind ≠ .star) (text : List Char) :
    Reads (ctx.closing (text.foldl TokenKind.after kind)) (Piece.closing ctx.options text) := by
  have hwindows : ctx.windows = false := hplain.windows
  unfold Context.closing Piece.closing
  simp only [TokenKind.foldl_after_eq_star_iff hkind, Bool.and_eq_true, Bool.not_eq_true',
    decide_eq_true_eq, hwindows, and_comm (a := ctx.options.strictSlashes = false)]
  split
  · exact Piece.reads_optionalSlash
  · exact .nil

theorem Regex.Piece.isSound_closing (options : Options) (pattern : List Char) :
    ∀ a ∈ closing options pattern, a.IsSound := by
  unfold closing
  split <;> decide

/-- At the end of a pattern, one slash may be left. -/
theorem Regex.Piece.fills_closing_iff {options : Options} {pattern : List Char} {c : Cursor} :
    Node.Fills (closing options pattern) c ↔ c.after = [] ∨
      (pattern.getLast? = some '*' ∧ options.strictSlashes = false ∧ c.after = ['/']) := by
  unfold closing
  split
  case isTrue h =>
    simp only [Node.fills_cons_iff, Node.fills_nil_iff, spans_optionalSlash_iff, h.1, h.2, true_and]
    constructor
    · rintro ⟨d, rfl | hpass, hd⟩
      · exact .inl hd
      · exact .inr (by rw [hpass.1, hd]; rfl)
    · rintro (hnil | hslash)
      · exact ⟨c, .inl rfl, hnil⟩
      · exact ⟨_, .inr (Cursor.passes_of_after ['/'] hslash), rfl⟩
  case isFalse h =>
    rw [Node.fills_nil_iff, or_iff_left fun ⟨hstar, hstrict, _⟩ => h ⟨hstar, hstrict⟩]

/-- A pattern without groups recognizes the texts that its pieces fill. -/
theorem recognizes_ungrouped {pattern : List Char} {options : Options}
    (hplain : options.IsPlain) (hsize : Text.byteSize pattern ≤ options.effectiveMaxLength)
    (hne : pattern ≠ []) (hadmits : TokenKind.AdmitsAll [] .bos pattern) :
    Recognizes pattern options fun text => Node.Fills
      (Piece.ofText options.dot .bos pattern ++ Piece.closing options pattern) ⟨[], text⟩ := by
  have hbody : (Context.ofPattern options pattern).body = pattern := by
    -- Whatever has a simpler form begins with two stars, which are not admitted.
    have hstars (rest : List Char) : pattern ≠ '*' :: '*' :: rest := by
      rintro rfl
      exact hadmits.1.2.2.2 rfl rfl rfl
    have hsimplify : simplify pattern = pattern := by
      rw [simplify, if_neg (hstars _), if_neg (hstars _), if_neg (hstars _)]
    rw [body_ofPattern hplain.windows, hsimplify]
    rintro rest heq
    obtain rfl := hsimplify.symm.trans heq
    exact hadmits.1.2.2.1 rfl rfl rfl
  let ctx := Context.ofPattern options pattern
  have hctx : ctx.options.IsPlain := hplain
  refine recognizes_of_reads hplain hsize hne (fun tail => ?_)
    ((reads_textSource hctx rfl .bos pattern).append
      (reads_closing hctx (show TokenKind.bos ≠ .star by decide) pattern))
    (List.forall_mem_append.mpr ⟨Piece.isSound_ofText _ _ _, Piece.isSound_closing _ _⟩)
  obtain ⟨tokens, htokenize⟩ :=
    ctx.tokenize_ungrouped tail (hbody.symm ▸ hadmits)
  exact ⟨_, htokenize, by rw [hbody], rfl⟩

end PathGlob
