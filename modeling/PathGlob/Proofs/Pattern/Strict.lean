import PathGlob.Proofs.Pattern.Lead

/-!
# `PathGlob.Proofs.Pattern.Strict`: delimiters that are missing

With strict brackets the tokenizer stops where a delimiter turns out to be missing: at a character
that needs another one (`Tokenizer.missing?`), or at the end of the text if something is still open
(`Tokenizer.unclosed?`). Everywhere else it does what it does without the option
(`Tokenizer.step_lenient`, `Tokenizer.finish_lenient`).

Without the option nothing stops the tokenizer but an extension that cannot be translated. An
extension has no extensions of its own, so that does not happen either. Hence every pattern of
admissible length can be translated, and strict brackets only refuse patterns
(`parse_strictBrackets`).
-/

set_option autoImplicit false

namespace PathGlob

/-- The same options, without the one that asks for every delimiter. -/
def Options.lenient (options : Options) : Options := { options with strictBrackets := false }

namespace Pattern

/-- The same translation, without the option that asks for every delimiter. -/
def Context.lenient (ctx : Context) : Context := { ctx with options := ctx.options.lenient }

namespace Tokenizer

/-- Within a class or between quotes, a delimiter is text like any other. -/
def readsText (t : Tokenizer) (c : Char) : Bool :=
  (t.inClass && (c ≠ ']' || t.last.value = ['['] || t.last.value = ['[', '^'])) ||
    (t.quoted && c ≠ '"')

/-- The delimiter that a character shows to be missing, and the place where it is missed. -/
def missing? (ctx : Context) (t : Tokenizer) (c : Char) : Option (Delimiter × Nat) :=
  if t.readsText c then none
  else match c with
    | ')' => if t.inParen then none else some (.opening '(', t.place)
    | '[' =>
      if ctx.options.noBracket || t.rest.contains ']' then none
      else some (.closing ']', ctx.body.length)
    | ']' =>
      if ctx.options.noBracket || t.inClass then none else some (.opening '[', t.place)
    | _ => none

/-- The delimiter of what is still open. -/
def unclosed? (t : Tokenizer) : Option Char :=
  if t.inClass then some ']' else t.frames.head?.map closingOf

/-- The extension that is translated on its own when the character closes a negated group. -/
def extension? (t : Tokenizer) (c : Char) : Option (List Char) :=
  if t.readsText c then none
  else match c, takeFrame? (fun frame => !frame.isBrace) t.frames with
    | ')', some (.extglob frame, _) =>
      if frame.kind = .negate && frame.inner.contains '*' && isExtension t.rest then some t.rest
      else none
    | _, _ => none

theorem takeFrame?_eq_none_iff {test : Frame → Bool} {frames : List Frame} :
    takeFrame? test frames = none ↔ frames.any test = false := by
  induction frames with
  | nil => simp [takeFrame?]
  | cons frame frames ih =>
    rw [takeFrame?]
    cases htest : test frame <;> simp_all

section
variable {ctx : Context} {tail tail' : List Char → Except Error (List Char)} {t t' : Tokenizer}
  {c : Char} {d : Delimiter} {place : Nat} {text : List Char} {e : Error}

theorem of_extension? (h : t.extension? c = some text) :
    text = t.rest ∧ isExtension text = true := by
  unfold extension? at h
  split at h
  case isTrue => cases h
  case isFalse =>
    split at h
    case h_2 => cases h
    case h_1 =>
      split at h
      case isFalse => cases h
      case isTrue hextension =>
        cases h
        rw [Bool.and_eq_true] at hextension
        exact ⟨rfl, hextension.2⟩

/-! ### One step -/

theorem step_closeParen (htext : t.readsText ')' = false) :
    step ctx tail t ')' = t.closeParen ctx tail := by
  obtain ⟨hclass, hquoted⟩ := Bool.or_eq_false_iff.mp htext
  unfold step
  rw [hclass, hquoted]
  rfl

theorem step_openBracket (htext : t.readsText '[' = false) :
    step ctx tail t '[' = t.openBracket ctx := by
  obtain ⟨hclass, hquoted⟩ := Bool.or_eq_false_iff.mp htext
  unfold step
  rw [hclass, hquoted]
  rfl

theorem step_closeBracket (htext : t.readsText ']' = false) :
    step ctx tail t ']' = t.closeBracket ctx := by
  obtain ⟨hclass, hquoted⟩ := Bool.or_eq_false_iff.mp htext
  unfold step
  rw [hclass, hquoted]
  rfl

theorem closeParen_lenient (h : t.inParen = true) :
    t.closeParen ctx.lenient tail = t.closeParen ctx tail := by
  unfold closeParen
  split
  case h_3 htake =>
    rw [inParen, takeFrame?_eq_none_iff.mp htake] at h
    exact absurd h (by simp)
  all_goals rfl

theorem openBracket_lenient (h : (ctx.options.noBracket || t.rest.contains ']') = true) :
    t.openBracket ctx.lenient = t.openBracket ctx := by
  have hoption : ctx.lenient.options.noBracket = ctx.options.noBracket := rfl
  unfold openBracket
  rw [hoption]
  cases hoff : ctx.options.noBracket with
  | true => rfl
  | false =>
    rw [hoff, Bool.false_or] at h
    rw [h]
    rfl

theorem closeBracket_lenient (h : (ctx.options.noBracket || t.inClass) = true) :
    t.closeBracket ctx.lenient = t.closeBracket ctx := by
  have hoption : ctx.lenient.options.noBracket = ctx.options.noBracket := rfl
  unfold closeBracket
  rw [hoption]
  cases hoff : ctx.options.noBracket with
  | true => rfl
  | false =>
    rw [hoff, Bool.false_or] at h
    rw [h]
    rfl

/-- Where no delimiter is missing, the option is not looked at. -/
theorem step_lenient (h : t.missing? ctx c = none) :
    step ctx.lenient tail t c = step ctx tail t c := by
  have hcond {p : Prop} [Decidable p] {x : Delimiter × Nat}
      (h : (if p then none else some x) = none) : p :=
    Decidable.byContradiction fun hnot => absurd ((if_neg hnot).symm.trans h) (by simp)
  unfold missing? readsText at h
  unfold step
  split
  case isTrue => rfl
  case isFalse =>
    split
    case isTrue => rfl
    case isFalse =>
      split
      case isTrue => rfl
      case isFalse hclass =>
        split
        case isTrue => rfl
        case isFalse hquoted =>
          rw [Bool.eq_false_iff.mpr hclass, Bool.eq_false_iff.mpr hquoted] at h
          split
          case h_3 => exact closeParen_lenient (hcond h)
          case h_4 => exact openBracket_lenient (hcond h)
          case h_5 => exact closeBracket_lenient (hcond h)
          all_goals rfl

/-- With strict brackets, a step at which a delimiter is missing ends in that error. -/
theorem step_of_missing? (hstrict : ctx.options.strictBrackets = true)
    (h : t.missing? ctx c = some (d, place)) :
    step ctx tail t c = .error (ctx.unbalanced d place) := by
  unfold missing? at h
  split at h
  case isTrue => cases h
  case isFalse htext =>
    have htext := Bool.eq_false_iff.mpr htext
    split at h
    case h_1 =>
      split at h
      case isTrue => cases h
      case isFalse hparen =>
        cases h
        rw [step_closeParen htext, closeParen,
          takeFrame?_eq_none_iff.mpr (Bool.eq_false_iff.mpr hparen)]
        exact if_pos hstrict
    case h_2 =>
      split at h
      case isTrue => cases h
      case isFalse hbracket =>
        cases h
        obtain ⟨hoff, hcloses⟩ := Bool.or_eq_false_iff.mp (Bool.eq_false_iff.mpr hbracket)
        rw [step_openBracket htext, openBracket, hoff, hcloses, hstrict]
        rfl
    case h_3 =>
      split at h
      case isTrue => cases h
      case isFalse hbracket =>
        cases h
        obtain ⟨hoff, hclass⟩ := Bool.or_eq_false_iff.mp (Bool.eq_false_iff.mpr hbracket)
        rw [step_closeBracket htext, closeBracket, hoff, hclass, hstrict]
        rfl
    case h_4 => cases h

theorem closeExtglob_congr_tail {frame : ExtglobFrame}
    (h : ∀ text, (if frame.kind = .negate && frame.inner.contains '*' && isExtension t.rest then
      some t.rest else none) = some text → tail text = tail' text) :
    t.closeExtglob ctx tail frame = t.closeExtglob ctx tail' frame := by
  unfold closeExtglob
  dsimp only
  split
  case isFalse => rfl
  case isTrue hkind =>
    have hclosing : t.negateClosing ctx tail frame = t.negateClosing ctx tail' frame := by
      unfold negateClosing
      dsimp only
      split
      case isFalse => rfl
      case isTrue hextension =>
        rw [h t.rest (if_pos (by simpa [hkind] using hextension))]
    rw [hclosing]

/-- A step looks at the translation of an extension only to close a negated group. -/
theorem step_congr_tail (h : ∀ text, t.extension? c = some text → tail text = tail' text) :
    step ctx tail t c = step ctx tail' t c := by
  unfold extension? readsText at h
  unfold step
  split
  case isTrue => rfl
  case isFalse =>
    split
    case isTrue => rfl
    case isFalse =>
      split
      case isTrue => rfl
      case isFalse hclass =>
        split
        case isTrue => rfl
        case isFalse hquoted =>
          rw [Bool.eq_false_iff.mpr hclass, Bool.eq_false_iff.mpr hquoted] at h
          split
          case h_3 =>
            unfold closeParen
            split
            case h_1 frame frames htake =>
              rw [htake] at h
              exact closeExtglob_congr_tail (t := { t with frames }) h
            all_goals rfl
          all_goals rfl

/-- An extension that cannot be translated is an error of the step that asks for it. -/
theorem step_of_extension? (h : t.extension? c = some text) (htail : tail text = .error e) :
    step ctx tail t c = .error e := by
  unfold extension? at h
  split at h
  case isTrue => cases h
  case isFalse htext =>
    split at h
    case h_2 => cases h
    case h_1 frame frames htake =>
      split at h
      case isFalse => cases h
      case isTrue hextension =>
        cases h
        simp only [Bool.and_eq_true, decide_eq_true_eq] at hextension
        obtain ⟨⟨hkind, hstar⟩, hextension⟩ := hextension
        have hclosing :
            ({ t with frames } : Tokenizer).negateClosing ctx tail frame = .error e := by
          unfold negateClosing
          rw [hstar, hextension]
          show (tail t.rest >>= _) = _
          rw [htail]
          rfl
        rw [step_closeParen (Bool.eq_false_iff.mpr htext), closeParen, htake]
        show closeExtglob _ _ _ _ = _
        unfold closeExtglob
        rw [if_pos hkind, hclosing]
        rfl

theorem exists_closeExtglob_eq_ok (htail : ∀ text, ∃ source, tail text = .ok source)
    (frame : ExtglobFrame) : ∃ t', t.closeExtglob ctx tail frame = .ok t' := by
  have hclosing : ∃ closing, t.negateClosing ctx tail frame = .ok closing := by
    unfold negateClosing
    dsimp only
    split
    case isTrue =>
      obtain ⟨source, hsource⟩ := htail t.rest
      rw [hsource]
      exact ⟨_, rfl⟩
    case isFalse => exact ⟨_, (apply_ite pure _ _ _).symm⟩
  unfold closeExtglob
  dsimp only
  split
  case isTrue =>
    obtain ⟨closing, hclosing⟩ := hclosing
    rw [hclosing]
    exact ⟨_, rfl⟩
  case isFalse => exact ⟨_, rfl⟩

/-- Without strict brackets, nothing but an extension stops the tokenizer. -/
theorem exists_step_eq_ok (hlenient : ctx.options.strictBrackets = false)
    (htail : ∀ text, t.extension? c = some text → ∃ source, tail text = .ok source) :
    ∃ t', step ctx tail t c = .ok t' := by
  -- What the translation yields for other texts makes no difference.
  let total (text : List Char) : Except Error (List Char) := .ok ((tail text).toOption.getD [])
  have hcongr : step ctx tail t c = step ctx total t c := step_congr_tail fun text htext => by
    obtain ⟨source, hsource⟩ := htail text htext
    simp [total, hsource, Except.toOption]
  rw [hcongr]
  unfold step
  repeat' split
  case h_3 =>
    unfold closeParen
    split
    case h_1 => exact exists_closeExtglob_eq_ok (fun text => ⟨_, rfl⟩) _
    case h_2 => exact ⟨_, rfl⟩
    case h_3 => exact ⟨_, if_neg (by simp [hlenient])⟩
  case h_4 =>
    unfold openBracket
    rw [hlenient]
    split <;> exact ⟨_, by simp; rfl⟩
  case h_5 =>
    unfold closeBracket
    rw [hlenient, if_neg Bool.false_ne_true, ← apply_ite Except.ok, ← apply_ite Except.ok]
    exact ⟨_, rfl⟩
  all_goals exact ⟨_, rfl⟩

/-! ### The end of the text -/

/-- If nothing is open at the end, the option is not looked at. -/
theorem finish_lenient (h : t.unclosed? = none) : t.finish ctx.lenient = t.finish ctx := by
  unfold unclosed? at h
  split at h
  case isTrue => cases h
  case isFalse hclass =>
    have hframes : t.frames = [] := List.head?_eq_none_iff.mp (Option.map_eq_none_iff.mp h)
    have hbracket (ctx : Context) : t.endBracket ctx = .ok t := if_pos (by simpa using hclass)
    have hended (ctx : Context) : t.endFrames ctx = .ok t := by rw [endFrames, hframes]
    unfold finish
    rw [hbracket, hbracket]
    show (t.endFrames _ >>= _) = (t.endFrames _ >>= _)
    rw [hended, hended]
    rfl

/-- With strict brackets, something that is still open at the end is an error. -/
theorem finish_of_unclosed? {open' : Char} (hstrict : ctx.options.strictBrackets = true)
    (h : t.unclosed? = some open') :
    t.finish ctx = .error (ctx.unbalanced (.closing open') ctx.body.length) := by
  unfold unclosed? at h
  unfold finish
  split at h
  case isTrue hclass =>
    cases h
    rw [endBracket, hclass, hstrict]
    rfl
  case isFalse hclass =>
    obtain ⟨frame, hframe, rfl⟩ := Option.map_eq_some_iff.mp h
    obtain ⟨frames, hframes⟩ := List.head?_eq_some_iff.mp hframe
    have hbracket : t.endBracket ctx = .ok t := if_pos (by simpa using hclass)
    rw [hbracket]
    show (t.endFrames ctx >>= _) = _
    rw [endFrames, hframes, hstrict]
    rfl

/-- Without strict brackets, the end of the text is never an error. -/
theorem exists_finish_eq_ok (hlenient : ctx.options.strictBrackets = false) :
    ∃ t', t.finish ctx = .ok t' := by
  have hbracket : ∃ t', t.endBracket ctx = .ok t' := by
    unfold endBracket
    rw [hlenient]
    split <;> exact ⟨_, rfl⟩
  have hframes (t : Tokenizer) : ∃ t', t.endFrames ctx = .ok t' := by
    unfold endFrames
    rw [hlenient]
    split <;> exact ⟨_, rfl⟩
  obtain ⟨closed, hclosed⟩ := hbracket
  obtain ⟨ended, hended⟩ := hframes closed
  unfold finish
  rw [hclosed]
  show ∃ t', (closed.endFrames ctx >>= _) = .ok t'
  rw [hended]
  exact ⟨_, rfl⟩

/-! ### Whole runs -/

/-- A run that goes through with strict brackets is the same without. -/
theorem run_lenient {n : Nat} (h : run ctx tail n t = .ok t')
    (hstrict : ctx.options.strictBrackets = true) : run ctx.lenient tail n t = .ok t' := by
  induction n generalizing t with
  | zero => exact h
  | succ n ih =>
    rw [run] at h ⊢
    split at h
    case h_1 => exact h
    case h_2 c rest _ =>
      obtain ⟨next, hstep, hrun⟩ := bind_eq_ok h
      have hmissing : (t.reading rest).missing? ctx c = none := by
        cases hmissing : (t.reading rest).missing? ctx c with
        | none => rfl
        | some missing => cases (step_of_missing? hstrict hmissing).symm.trans hstep
      have hlenient : step ctx.lenient tail (t.reading rest) c = _ :=
        (step_lenient hmissing).trans hstep
      show (step ctx.lenient tail (t.reading rest) c >>= _) = _
      rw [hlenient]
      exact ih hrun

/-- Without strict brackets, a run goes through if all extensions that could turn up are
translated. -/
theorem exists_run_eq_ok (hlenient : ctx.options.strictBrackets = false)
    (htail : ∀ text, text <:+ t.rest.tail → isExtension text = true →
      ∃ source, tail text = .ok source) (n : Nat) : ∃ t', run ctx tail n t = .ok t' := by
  induction n generalizing t with
  | zero => exact ⟨t, rfl⟩
  | succ n ih =>
    rw [run]
    split
    case h_1 => exact ⟨t, rfl⟩
    case h_2 c rest hrest =>
      rw [hrest, List.tail_cons] at htail
      have hstep : ∃ next, step ctx tail (t.reading rest) c = .ok next :=
        exists_step_eq_ok hlenient fun text htext => by
          obtain ⟨rfl, hextension⟩ := of_extension? htext
          exact htail _ (List.suffix_refl _) hextension
      obtain ⟨next, hstep⟩ := hstep
      obtain ⟨k, hnext, -⟩ := follows_step hstep
      show ∃ t', (step ctx tail (t.reading rest) c >>= _) = .ok t'
      rw [hstep]
      refine ih fun text htext => htail text (htext.trans ?_)
      rw [hnext]
      exact (List.tail_suffix _).trans (List.drop_suffix k rest)

end

end Tokenizer

/-! ### The text that is read -/

theorem simplify_isPrefix (pattern : List Char) : simplify pattern <+: pattern := by
  unfold simplify
  repeat' split
  case isTrue h => exact ⟨['*', '*'], h.symm⟩
  case isTrue h => exact ⟨['/', '*', '*'], h.symm⟩
  case isTrue h => exact ⟨['/', '*', '*', '/', '*', '*'], h.symm⟩
  case isFalse => exact List.prefix_refl pattern

/-- A separator takes as many bytes as the backslash that it replaces. -/
theorem byteSize_take_normalizeFrom (escaped : Bool) (k : Nat) (text : List Char) :
    Text.byteSize ((Separator.normalizeFrom escaped text).take k) =
      Text.byteSize (text.take k) := by
  induction text generalizing escaped k with
  | nil => cases escaped <;> rfl
  | cons c text ih =>
    cases k with
    | zero => rfl
    | succ k =>
      cases escaped with
      | true => exact congrArg (c.utf8Size + ·) (ih false k)
      | false =>
        rw [Separator.normalizeFrom]
        split
        case isTrue => exact congrArg (c.utf8Size + ·) (ih false k)
        case isFalse hc =>
          obtain rfl : c = '\\' := Decidable.not_not.mp hc
          split
          case isTrue => exact congrArg ('\\'.utf8Size + ·) (ih true k)
          case isFalse => exact congrArg ('\\'.utf8Size + ·) (ih false k)

theorem byteSize_le_of_prefix {before text : List Char} (h : before <+: text) :
    Text.byteSize before ≤ Text.byteSize text := by
  obtain ⟨rest, rfl⟩ := h
  rw [Text.byteSize_append]
  exact Nat.le_add_right _ _

theorem byteSize_le_of_suffix {rest text : List Char} (h : rest <:+ text) :
    Text.byteSize rest ≤ Text.byteSize text := by
  obtain ⟨before, rfl⟩ := h
  rw [Text.byteSize_append]
  exact Nat.le_add_left _ _

section
variable (options : Options) (pattern : List Char)

theorem byteSize_take_whole (k : Nat) :
    Text.byteSize ((Context.ofPattern options pattern).whole.take k) =
      Text.byteSize ((simplify pattern).take k) := by
  rw [whole_ofPattern]
  split
  case isTrue => exact byteSize_take_normalizeFrom false k _
  case isFalse => rfl

/-- A place of the text is the end of a beginning of the pattern, as far as bytes are counted. -/
theorem exists_prefix_of_place (place : Nat) : ∃ before, before <+: pattern ∧
    (if (Context.ofPattern options pattern).dotSlash then 2 else 0) +
      Text.byteSize ((Context.ofPattern options pattern).body.take place) =
        Text.byteSize before := by
  have hprefix (k : Nat) : (simplify pattern).take k <+: pattern :=
    (List.take_prefix k _).trans (simplify_isPrefix pattern)
  have hsize := byteSize_take_whole options pattern
  unfold Context.whole at hsize
  cases hdotSlash : (Context.ofPattern options pattern).dotSlash with
  | true =>
    rw [hdotSlash] at hsize
    refine ⟨(simplify pattern).take (place + 2), hprefix _, ?_⟩
    rw [← hsize, if_pos rfl, if_pos rfl, List.take_succ_cons, List.take_succ_cons,
      Text.byteSize, Text.byteSize, ← Nat.add_assoc]
    rfl
  | false =>
    rw [hdotSlash] at hsize
    refine ⟨(simplify pattern).take place, hprefix _, ?_⟩
    rw [← hsize, if_neg Bool.false_ne_true, if_neg Bool.false_ne_true, Nat.zero_add]

theorem byteSize_body_le :
    Text.byteSize (Context.ofPattern options pattern).body ≤ Text.byteSize pattern := by
  obtain ⟨before, hbefore, hsize⟩ := exists_prefix_of_place options pattern
    (Context.ofPattern options pattern).body.length
  rw [List.take_length] at hsize
  have := byteSize_le_of_prefix hbefore
  omega

end

/-! ### Extensions -/

/-- An extension is read as it stands. -/
theorem body_of_isExtension (options : Options) {text : List Char} (h : isExtension text = true) :
    (Context.ofPattern options text).body = text := by
  unfold isExtension at h
  split at h
  case h_2 => cases h
  case h_1 extension =>
    obtain ⟨hempty, hplain⟩ := Bool.and_eq_true_iff.mp h
    rw [Bool.not_eq_true', List.any_eq_false] at hplain
    have hbackslash : '\\' ∉ '.' :: extension := fun hmem =>
      absurd (hplain '\\' ((List.mem_cons.mp hmem).resolve_left (by decide))) (by decide)
    have hsimple : simplify ('.' :: extension) = '.' :: extension := by simp [simplify]
    have hnormal : (if options.windows then Separator.normalize ('.' :: extension)
        else '.' :: extension) = '.' :: extension := by
      rw [normalize_of_not_mem hbackslash, ite_self]
    simp only [Context.ofPattern, hsimple, hnormal]
    unfold dropDotSlash
    split
    case h_1 hrest =>
      cases hrest
      exact absurd (hplain '/' List.mem_cons_self) (by decide)
    case h_2 => rfl

/-- An extension has no extensions of its own. -/
theorem not_isExtension_of_suffix {text rest : List Char} (h : isExtension text = true)
    (hrest : rest <:+ text.tail) : isExtension rest = false := by
  unfold isExtension at h
  split at h
  case h_2 => cases h
  case h_1 extension =>
    obtain ⟨hempty, hplain⟩ := Bool.and_eq_true_iff.mp h
    rw [Bool.not_eq_true', List.any_eq_false] at hplain
    unfold isExtension
    split
    case h_2 => rfl
    case h_1 rest =>
      have hdot : '.' ∈ extension := hrest.mem List.mem_cons_self
      exact absurd (hplain '.' hdot) (by decide)

/-! ### Translations without strict brackets -/

section
variable {options : Options} {tail tail' : List Char → Except Error (List Char)}
  {pattern : List Char}

/-- Without strict brackets a pattern can be translated, if all extensions that could turn up
can. -/
theorem exists_translate_eq_ok (hlenient : options.strictBrackets = false)
    (htail : ∀ text, text <:+ (Context.ofPattern options pattern).body.tail →
      isExtension text = true → ∃ source, tail text = .ok source) :
    ∃ translation, translate options tail pattern = .ok translation := by
  let ctx := Context.ofPattern options pattern
  obtain ⟨t, hrun⟩ : ∃ t, Tokenizer.run ctx tail ctx.body.length { rest := ctx.body } = .ok t :=
    Tokenizer.exists_run_eq_ok hlenient htail ctx.body.length
  obtain ⟨t', hfinish⟩ : ∃ t', t.finish ctx = .ok t' := Tokenizer.exists_finish_eq_ok hlenient
  have htokenize : ∃ translation, ctx.tokenize tail = .ok translation := by
    unfold Context.tokenize
    rw [hrun]
    show ∃ translation, (t.finish ctx >>= _) = .ok translation
    rw [hfinish]
    exact ⟨_, rfl⟩
  obtain ⟨translation, htranslation⟩ := htokenize
  obtain ⟨translation, htranslation, -⟩ := translate_eq_ok_iff.mpr ⟨translation, htranslation, rfl⟩
  exact ⟨translation, htranslation⟩

/-- Without strict brackets an extension can be translated, however deep extensions may nest. -/
theorem exists_parseWithin_eq_ok (hlenient : options.strictBrackets = false) {text : List Char}
    (hextension : isExtension text = true)
    (hsize : Text.byteSize text ≤ options.effectiveMaxLength) (depth : Nat) :
    ∃ translation, parseWithin depth options text = .ok translation := by
  have hne : text ≠ [] := by
    rintro rfl
    cases hextension
  obtain ⟨translation, htranslation⟩ : ∃ translation,
      translate options (extensionSource options depth) text = .ok translation :=
    exists_translate_eq_ok hlenient fun rest hrest h => by
      rw [body_of_isExtension options hextension] at hrest
      exact absurd h (by rw [not_isExtension_of_suffix hextension hrest]; decide)
  exact ⟨translation, parseWithin_eq_ok_iff.mpr ⟨hsize, hne, htranslation⟩⟩

/-- Hence extensions are never what stops a translation without strict brackets. -/
theorem exists_extensionSource_eq_ok (hlenient : options.strictBrackets = false)
    {text : List Char} (hextension : isExtension text = true)
    (hsize : Text.byteSize text ≤ options.effectiveMaxLength) (depth : Nat) :
    ∃ source, extensionSource options (depth + 1) text = .ok source := by
  obtain ⟨translation, htranslation⟩ := exists_parseWithin_eq_ok
    (show ({ options with fastPaths := false } : Options).strictBrackets = false from hlenient)
    hextension hsize depth
  exact ⟨translation.output, by rw [extensionSource, htranslation]; rfl⟩

theorem tokenize_lenient {ctx : Context} (hstrict : ctx.options.strictBrackets = true)
    {translation : Translation} (h : ctx.tokenize tail = .ok translation) :
    ctx.lenient.tokenize tail = .ok translation := by
  obtain ⟨t, hrun, h⟩ := bind_eq_ok h
  obtain ⟨t', hfinish, h⟩ := bind_eq_ok h
  have hclosed : t.unclosed? = none := by
    cases hopen : t.unclosed? with
    | none => rfl
    | some delimiter =>
      cases (Tokenizer.finish_of_unclosed? hstrict hopen).symm.trans hfinish
  have hfinish' : t.finish ctx.lenient = .ok t' := (Tokenizer.finish_lenient hclosed).trans hfinish
  show (Tokenizer.run ctx.lenient tail ctx.body.length { rest := ctx.body } >>= _) = _
  rw [Tokenizer.run_lenient hrun hstrict]
  show (t.finish ctx.lenient >>= _) = _
  rw [hfinish']
  exact h

/-- What can be translated with strict brackets has the same translation without. -/
theorem translate_lenient (hstrict : options.strictBrackets = true)
    (htail : Tokenizer.Refines tail tail') {translation : Translation}
    (h : translate options tail pattern = .ok translation) :
    translate options.lenient tail' pattern = .ok translation := by
  have hshortcuts : ShortcutsAgree options.lenient options := ⟨rfl, rfl, rfl, rfl, rfl, rfl⟩
  have hshape : (if options.lenient.fastPaths then shape? options.lenient pattern else none) =
      if options.fastPaths then shape? options pattern else none := by
    rw [shape?_congr hshortcuts]
    rfl
  have hflat : (if options.lenient.fastPaths then
        flat? options.lenient (Context.ofPattern options.lenient pattern).star
          (Context.ofPattern options.lenient pattern).body else none) =
      if options.fastPaths then flat? options (Context.ofPattern options pattern).star
        (Context.ofPattern options pattern).body else none := by
    rw [flat?_congr hshortcuts]
    rfl
  refine translate_of_refines htail ?_
  unfold translate at h ⊢
  dsimp only at h ⊢
  rw [hshape, hflat]
  split at h
  case h_1 => exact h
  case h_2 =>
    split at h
    case h_1 => exact h
    case h_2 => exact tokenize_lenient hstrict h

theorem refines_extensionSource_lenient (hstrict : options.strictBrackets = true) (depth : Nat) :
    Tokenizer.Refines (extensionSource options depth) (extensionSource options.lenient depth) := by
  induction depth generalizing options with
  | zero => exact fun text source h => absurd h (by simp [extensionSource])
  | succ depth ih =>
    intro text source h
    rw [extensionSource] at h ⊢
    cases hinner : parseWithin depth { options with fastPaths := false } text with
    | error => exact absurd (hinner ▸ h) (by simp [Except.map])
    | ok inner =>
      obtain ⟨hsize, hne, htranslate⟩ := parseWithin_eq_ok_iff.mp hinner
      have hlenient :
          parseWithin depth { options with fastPaths := false }.lenient text = .ok inner :=
        parseWithin_eq_ok_iff.mpr ⟨hsize, hne, translate_lenient
          (show ({ options with fastPaths := false } : Options).strictBrackets = true from hstrict)
          (ih hstrict) htranslate⟩
      rw [← h, hinner]
      exact congrArg (Except.map _) hlenient

end

end Pattern

open Pattern

end PathGlob
