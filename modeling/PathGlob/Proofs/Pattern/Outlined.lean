import PathGlob.Proofs.Pattern.Outline

/-!
# `PathGlob.Proofs.Pattern.Outlined`: following the outline of a text

What a step reads leads from the outline before it to the one behind it (`Tokenizer.follow_step`).
With strict brackets, the tokenizer therefore arrives at the end of a text exactly if the outline of
the text does, with nothing open (`Tokenizer.exists_complete_eq_ok_iff`).

An operator with a parenthesis behind it has the same outline as any other operator. Hence an
extension is translated with any operator if it is translated with one of them
(`exists_extensionSource_remarked`).
-/

set_option autoImplicit false

namespace PathGlob.Pattern

open Regex

/-! ### Following the outline -/

namespace Outline

variable {ctx : Context} {o : Outline} {c : Char}

theorem follow_append (o : Outline) (text text' rest : List Char) :
    o.follow ctx (text ++ text') rest =
      (o.follow ctx text (text' ++ rest)).bind fun o => o.follow ctx text' rest := by
  induction text generalizing o with
  | nil => rfl
  | cons c text ih => simp only [List.cons_append, follow, List.append_assoc, ih, Option.bind_assoc]

theorem next?_text
    (h : (o.mode.skips || o.mode.inBody c || (o.mode.quoted && c ≠ '"')) = true)
    (rest : List Char) :
    o.next? ctx c rest = some { o with mode := o.mode.next ctx c rest } := if_pos h

section
variable (hmode : o.mode = {}) (rest : List Char)
include hmode

theorem eq_of_mode : o = ⟨{}, o.parens, o.braces⟩ := by rw [← hmode]

theorem next?_neutral (hneutral : isNeutral c = true) : o.next? ctx c rest = some o := by
  have hbody : Mode.inBody {} c = false := rfl
  have hnext : Mode.next ctx {} c rest = {} := by
    simp only [Mode.next, hbody, Bool.false_eq_true, if_false, Bool.false_and]
    split
    case isTrue => rfl
    case isFalse =>
      split
      case h_1 | h_2 => cases hneutral
      all_goals rfl
  rw [eq_of_mode hmode]
  simp only [next?, hnext, hbody, Bool.false_or, Bool.false_and, Bool.false_eq_true, if_false]
  split
  case h_7 => rfl
  all_goals cases hneutral

theorem next?_openParen : o.next? ctx '(' rest = some { o with parens := o.parens + 1 } := by
  rw [eq_of_mode hmode]
  rfl

theorem next?_closeParen (hparens : 0 < o.parens) :
    o.next? ctx ')' rest = some { o with parens := o.parens - 1 } := by
  rw [eq_of_mode hmode]
  exact if_neg (Nat.pos_iff_ne_zero.mp hparens)

theorem next?_openBracket : o.next? ctx '[' rest =
    if ctx.options.noBracket || rest.contains ']' then
      some { o with mode := if ctx.options.noBracket then {} else { body? := some ['['] } }
    else none := by
  rw [eq_of_mode hmode]
  rfl

theorem next?_closeBracket (hbracket : ctx.options.noBracket = true) :
    o.next? ctx ']' rest = some o := by
  rw [eq_of_mode hmode]
  simp [next?, Mode.next, Mode.inBody, hbracket]

theorem next?_openBrace : o.next? ctx '{' rest =
    some (if ctx.options.noBrace then o else { o with braces := o.braces + 1 }) := by
  rw [eq_of_mode hmode]
  rfl

theorem next?_closeBrace : o.next? ctx '}' rest = some { o with braces := o.braces - 1 } := by
  rw [eq_of_mode hmode]
  rfl

end

theorem follow_neutral (hmode : o.mode = {}) {text : List Char}
    (hneutral : ∀ c ∈ text, isNeutral c = true) (rest : List Char) :
    o.follow ctx text rest = some o := by
  induction text with
  | nil => rfl
  | cons c text ih =>
    obtain ⟨hc, htext⟩ := List.forall_mem_cons.mp hneutral
    rw [follow, next?_neutral hmode _ hc]
    exact ih htext

end Outline

namespace Tokenizer

section
variable {ctx : Context} {tail : List Char → Except Error (List Char)} {t next : Tokenizer}
  {c : Char} {rest : List Char}

theorem mode_outline (hclass : t.inClass = false) (hquoted : t.quoted = false) :
    t.outline.mode = {} := by
  simp [outline, hclass, hquoted]

theorem outline_take_paren {found : Frame} {others : List Frame}
    (htake : takeFrame? (fun frame => !frame.isBrace) t.frames = some (found, others)) :
    0 < t.outline.parens ∧
      outline { t with frames := others } = { t.outline with parens := t.outline.parens - 1 } := by
  obtain ⟨hfound, above, below, hframes, -, -⟩ := takeFrame?_eq_some htake
  rw [Bool.not_eq_true'] at hfound
  have hpositive : 0 < (t.frames.map Frame.isBrace).count false := by
    rw [hframes, List.count_pos_iff]
    simp [hfound]
  have hparens := count_taken htake false
  have hbraces := count_taken htake true
  rw [hfound] at hparens hbraces
  refine ⟨hpositive, ?_⟩
  simp only [outline, hparens, hbraces]
  rfl

theorem outline_extglobClosed (hclass : t.inClass = false) (ctx : Context) (frame : ExtglobFrame)
    (closing : List Char) : (t.extglobClosed ctx frame closing).outline = t.outline ∧
      (t.extglobClosed ctx frame closing).rest = t.rest := by
  let s : Tokenizer := { t with negatedExtglob := t.negatedExtglob ||
    (frame.kind = ExtglobKind.negate && frame.before = TokenKind.bos) }
  let token : Token := { Token.ofSource .paren [')']
    (if ctx.options.capture then closing ++ [')'] else closing) with isExtglob := true }
  have hguarded : (s.guarded ctx frame).outline = t.outline ∧
      (s.guarded ctx frame).rest = t.rest ∧ (s.guarded ctx frame).inClass = false := by
    unfold guarded
    dsimp only
    split
    case isTrue => exact ⟨outline_congr hclass hclass rfl rfl, rfl, hclass⟩
    case isFalse => exact ⟨rfl, rfl, hclass⟩
  obtain ⟨houtline, hrest, hclass'⟩ := hguarded
  have hpushed : ((s.guarded ctx frame).push ctx token).outline = t.outline :=
    (outline_push hclass' ctx token).trans houtline
  have hpushed' : ((s.guarded ctx frame).push ctx token).rest = t.rest := (push_rest ..).trans hrest
  unfold extglobClosed
  dsimp only
  split
  case isTrue => exact ⟨hpushed, hpushed'⟩
  case isFalse => exact ⟨hpushed, hpushed'⟩

/-- A closing parenthesis needs an opening one. -/
theorem outline_closeParen (hclass : t.inClass = false)
    (hstrict : ctx.options.strictBrackets = true) (hok : t.closeParen ctx tail = .ok next) :
    0 < t.outline.parens ∧
      next.outline = { t.outline with parens := t.outline.parens - 1 } ∧ next.rest = t.rest := by
  unfold closeParen at hok
  split at hok
  case h_1 frame frames htake =>
    obtain ⟨hpositive, houtline⟩ := outline_take_paren htake
    rw [closeExtglob_eq_map] at hok
    obtain ⟨closing, -, rfl⟩ := exists_of_map_eq_ok hok
    have hclass' : ({ t with frames } : Tokenizer).inClass = false := hclass
    obtain ⟨hclosed, hrest⟩ := outline_extglobClosed hclass' ctx frame closing
    exact ⟨hpositive, hclosed.trans houtline, hrest⟩
  case h_2 found frames hfound htake =>
    obtain ⟨hpositive, houtline⟩ := outline_take_paren htake
    cases hok
    exact ⟨hpositive, (outline_push (by exact hclass) ctx _).trans houtline, push_rest ..⟩
  case h_3 =>
    rw [if_pos hstrict] at hok
    cases hok

/-- A closing bracket closes the bracket that is open. -/
theorem outline_finishBracket (hclass : t.inClass = false) (ctx : Context) (body : List Char)
    (isPosix : Bool) : (t.finishBracket ctx body isPosix).outline = t.outline ∧
      (t.finishBracket ctx body isPosix).rest = t.rest := by
  obtain hguard | hkeep | hliteral := finishBracket_cases ctx t body isPosix
  · rw [hguard]
    exact ⟨outline_congr hclass hclass rfl rfl, rfl⟩
  · rw [hkeep]
    exact ⟨rfl, rfl⟩
  · rw [hliteral]
    exact ⟨outline_congr hclass hclass rfl rfl, rfl⟩

theorem follow_inBracket (h : t.Bracketed ctx) (hrest : t.rest = c :: rest)
    (hbody : t.outline.mode.inBody c = true) (hnul : c ≠ '\x00') :
    ∃ read, c :: rest = read ++ ((t.reading rest).inBracket ctx c).rest ∧
      t.outline.follow ctx read ((t.reading rest).inBracket ctx c).rest =
        some ((t.reading rest).inBracket ctx c).outline := by
  let next := (t.reading rest).inBracket ctx c
  obtain ⟨hbracketed, -, -⟩ : next.Bracketed ctx ∧ _ := (h.taking rest).inBracket c
  obtain ⟨value, n, hn, hturns⟩ := exists_inBracket ctx c t.last.value rest
  have hbody? : t.outline.mode = { body? := some t.last.value } := by
    simp [outline, h.inClass, h.quoted]
  obtain ⟨-, hvalue, hnext, -, hframes⟩ : (t.reading rest).Turns next value n :=
    hturns (t.reading rest) h.joined.ne_nil rfl rfl
  obtain ⟨-, hvalue', -, hposition, -⟩ :
      (bracketed t.last.value rest).Turns ((bracketed t.last.value rest).inBracket ctx c) value n :=
    hturns _ (List.cons_ne_nil _ _) rfl rfl
  have hmode : t.outline.mode.next ctx c rest = { body? := some value, skips := 0 < n } := by
    unfold Mode.next
    rw [hbody, hbody?]
    simp only [Bool.false_eq_true, if_false, if_true, if_neg hnul, Option.getD_some, hvalue',
      hposition.trans (Nat.zero_add n)]
  have houtline : next.outline = { t.outline with mode := { body? := some value } } := by
    unfold outline
    rw [hbracketed.inClass, hbracketed.quoted, hvalue, hframes]
    rfl
  have hfirst : t.outline.next? ctx c rest =
      some { t.outline with mode := { body? := some value, skips := 0 < n } } := by
    rw [Outline.next?_text (by rw [hbody, Bool.or_true, Bool.true_or]), hmode]
  obtain rfl | ⟨rfl, hhead⟩ := hn
  · refine ⟨[c], by rw [hnext]; rfl, ?_⟩
    simp only [Outline.follow, List.nil_append]
    rw [hnext]
    show Option.bind (t.outline.next? ctx c rest) _ = _
    rw [hfirst, houtline]
    rfl
  · obtain ⟨more, rfl⟩ := List.head?_eq_some_iff.mp hhead
    refine ⟨[c, ']'], by rw [hnext]; rfl, ?_⟩
    rw [hnext]
    show Option.bind (t.outline.next? ctx c (']' :: more)) _ = _
    rw [hfirst, houtline]
    rfl

theorem inBody_outline (hclass : t.inClass = true) : t.outline.mode.inBody c =
    (decide (c ≠ ']') || decide (t.last.value = ['[']) || decide (t.last.value = ['[', '^'])) := by
  simp [outline, hclass, Mode.inBody]

theorem next?_nul (t : Tokenizer) (rest : List Char) :
    t.outline.next? ctx '\x00' rest = some t.outline := by
  have hnext : t.outline.mode.next ctx '\x00' rest = t.outline.mode := rfl
  unfold Outline.next?
  rw [hnext]
  split <;> rfl

/-- A closing bracket, once the bracket has a text. -/
theorem next?_closeBracket (h : t.Bracketed ctx) (hbody : t.outline.mode.inBody ']' = false)
    (hok : (t.reading rest).closeBracket ctx = .ok next) :
    next.rest = rest ∧ t.outline.next? ctx ']' rest = some next.outline := by
  have hmode : t.outline.mode = { body? := some t.last.value } := by
    simp [outline, h.inClass, h.quoted]
  have hnext : t.outline.mode.next ctx ']' rest = {} := by
    unfold Mode.next
    rw [hbody, hmode]
    rfl
  have houtline : t.outline.next? ctx ']' rest = some { t.outline with mode := {} } := by
    unfold Outline.next?
    rw [hbody, hnext, hmode]
    simp
  unfold closeBracket at hok
  rw [if_neg (by simp [h.noBracket]),
    if_neg (by simp [show (t.reading rest).inClass = true from h.inClass])] at hok
  dsimp only at hok
  cases hok
  have hclosed (closing : List Char) :
      (({ t.reading rest with inClass := false } : Tokenizer).appendClass closing).outline =
        { t.outline with mode := {} } := by
    simp [outline, Tokenizer.appendClass, modifyLast, modify, emit, reading, h.quoted]
  obtain ⟨hfinish, hrest⟩ := outline_finishBracket
    (t := ({ t.reading rest with inClass := false } : Tokenizer).appendClass _) rfl ctx
    ((t.reading rest).last.value.drop 1) (t.reading rest).last.isPosix
  exact ⟨hrest, houtline.trans (congrArg some (hfinish.trans (hclosed _)).symm)⟩

theorem outline_beginClass (hquoted : t.quoted = false) (ctx : Context) :
    outline (({ t with inClass := true } : Tokenizer).push ctx
      { kind := .bracket, value := ['['] }) =
      { t.outline with mode := { body? := some ['['] } } := by
  unfold outline
  rw [push_inClass, push_quoted, push_frames, map_isBrace_noted, value_last_push (by simp), hquoted]
  rfl

/-- An opening bracket needs a closing one. -/
theorem next?_openBracket (hclass : t.inClass = false) (hquoted : t.quoted = false)
    (hstrict : ctx.options.strictBrackets = true)
    (hok : (t.reading rest).openBracket ctx = .ok next) :
    next.rest = rest ∧ t.outline.next? ctx '[' rest = some next.outline := by
  have hmode : t.outline.mode = {} := mode_outline hclass hquoted
  have hsame : { t.outline with mode := {} } = t.outline := by rw [← hmode]
  unfold openBracket at hok
  rw [Outline.next?_openBracket hmode]
  rw [hstrict, show (t.reading rest).rest = rest from rfl] at hok
  cases hoff : ctx.options.noBracket with
  | true =>
    rw [hoff] at hok
    cases hok
    have hpushed (token : Token) : ((t.reading rest).push ctx token).outline = t.outline :=
      outline_push (t := t.reading rest) hclass ctx token
    exact ⟨push_rest .., congrArg some (hsame.trans (hpushed _).symm)⟩
  | false =>
    rw [hoff] at hok
    cases hcloses : rest.contains ']' with
    | false =>
      rw [hcloses] at hok
      cases hok
    | true =>
      rw [hcloses] at hok
      cases hok
      exact ⟨push_rest ..,
        congrArg some (outline_beginClass (t := t.reading rest) hquoted ctx).symm⟩

theorem step_openParen (hclass : t.inClass = false) (hquoted : t.quoted = false) :
    step ctx tail t '(' = .ok (t.openParen ctx) := by
  unfold step
  rw [hclass, hquoted]
  rfl

/-- A delimiter outside of brackets and quotes. -/
theorem next?_delimiter (hclass : t.inClass = false) (hquoted : t.quoted = false)
    (hstrict : ctx.options.strictBrackets = true)
    (hc : c = '(' ∨ c = ')' ∨ c = '[' ∨ c = ']' ∨ c = '{' ∧ ctx.options.noBrace = false ∨ c = '}')
    (hstep : step ctx tail (t.reading rest) c = .ok next) :
    next.rest = rest ∧ t.outline.next? ctx c rest = some next.outline := by
  let s := t.reading rest
  have hclass' : s.inClass = false := hclass
  have hquoted' : s.quoted = false := hquoted
  have htext : s.readsText c = false := by
    simp [readsText, hclass', hquoted']
  have hmode : t.outline.mode = {} := mode_outline hclass hquoted
  have houtline : s.outline = t.outline := rfl
  rcases hc with rfl | rfl | rfl | rfl | ⟨rfl, hbrace⟩ | rfl
  · cases (step_openParen hclass' hquoted').symm.trans hstep
    refine ⟨push_rest .., ?_⟩
    rw [outline_openParen hclass', houtline]
    exact Outline.next?_openParen hmode rest
  · rw [step_closeParen htext] at hstep
    obtain ⟨hpositive, hnext, hrest⟩ := outline_closeParen hclass' hstrict hstep
    rw [hnext]
    exact ⟨hrest, Outline.next?_closeParen hmode rest hpositive⟩
  · rw [step_openBracket htext] at hstep
    exact next?_openBracket hclass hquoted hstrict hstep
  · rw [step_closeBracket htext, closeBracket, hclass', hstrict] at hstep
    cases hoff : ctx.options.noBracket with
    | false =>
      rw [hoff] at hstep
      cases hstep
    | true =>
      rw [hoff] at hstep
      cases hstep
      refine ⟨push_rest .., ?_⟩
      rw [pushText, outline_push hclass', houtline]
      exact Outline.next?_closeBracket hmode rest hoff
  · have hopen : step ctx tail s '{' = .ok (s.openBrace ctx) := by
      unfold step
      rw [hclass', hquoted', hbrace]
      rfl
    cases hopen.symm.trans hstep
    refine ⟨push_rest .., ?_⟩
    rw [outline_openBrace hclass', houtline, Outline.next?_openBrace hmode, hbrace]
    rfl
  · have hclose : step ctx tail s '}' = .ok (s.closeBrace ctx) := by
      unfold step
      rw [hclass', hquoted']
      rfl
    cases hclose.symm.trans hstep
    obtain ⟨hrest, hnext⟩ := outline_closeBrace hclass' ctx
    rw [hnext, houtline]
    exact ⟨hrest, Outline.next?_closeBrace hmode rest⟩

/-- The outline also stays the same if that character is passed over. -/
theorem PassesOver.follow (h : (t.reading rest).PassesOver next) (hmode : t.outline.mode = {})
    (hfirst : t.outline.next? ctx c rest = some t.outline) :
    ∃ read, c :: rest = read ++ next.rest ∧
      t.outline.follow ctx read next.rest = some next.outline := by
  obtain ⟨k, hnext, hpassed, houtline⟩ := h
  have hrest : rest.take k ++ next.rest = rest := hnext ▸ List.take_append_drop k rest
  refine ⟨c :: rest.take k, congrArg (c :: ·) hrest.symm, ?_⟩
  rw [Outline.follow, hrest, hfirst]
  exact (Outline.follow_neutral hmode hpassed _).trans (congrArg some houtline.symm)

/-- A quotation mark. -/
theorem next?_quote (hclass : t.inClass = false)
    (hstep : step ctx tail (t.reading rest) '"' = .ok next) :
    next.rest = rest ∧ t.outline.next? ctx '"' rest = some next.outline := by
  let s : Tokenizer := { t.reading rest with quoted := !t.quoted }
  have houtline : t.outline.next? ctx '"' rest = some s.outline := by
    simp [outline, s, reading, hclass, Outline.next?, Mode.next, Mode.inBody]
  have hquote : step ctx tail (t.reading rest) '"' =
      .ok (if ctx.options.keepQuotes then s.pushText ctx ['"'] ['"'] else s) := by
    unfold step
    rw [if_neg (by decide), if_neg (by decide), if_neg (by simp [reading, hclass]),
      if_neg (by simp)]
    rfl
  rw [houtline]
  obtain rfl := Except.ok.inj (hquote.symm.trans hstep)
  split
  case isTrue => exact ⟨push_rest .., congrArg some (outline_push (t := s) hclass ctx _).symm⟩
  case isFalse => exact ⟨rfl, rfl⟩

/-- A character between quotation marks. -/
theorem next?_quoted (hclass : t.inClass = false) (hquoted : t.quoted = true) (hnul : c ≠ '\x00')
    (hbackslash : c ≠ '\\') (hquote : c ≠ '"')
    (hstep : step ctx tail (t.reading rest) c = .ok next) :
    next.rest = rest ∧ t.outline.next? ctx c rest = some next.outline := by
  have hmode : t.outline.mode = { quoted := true } := by simp [outline, hclass, hquoted]
  have hnext : t.outline.mode.next ctx c rest = t.outline.mode := by
    simp [hmode, Mode.next, Mode.inBody, hquote]
  have htext : step ctx tail (t.reading rest) c =
      .ok ((t.reading rest).pushText ctx [c] (Regex.escapeChar c)) := by
    unfold step
    rw [if_neg hnul, if_neg hbackslash, if_neg (by simp [reading, hclass]),
      if_pos (by simp [reading, hquoted, hquote])]
  obtain rfl := Except.ok.inj (htext.symm.trans hstep)
  refine ⟨push_rest .., ?_⟩
  rw [Outline.next?_text (by simp [hmode, hquote]), hnext]
  exact congrArg some (outline_push (t := t.reading rest) hclass ctx _).symm

theorem follow_single
    (hnext : next.rest = rest ∧ t.outline.next? ctx c rest = some next.outline) :
    ∃ read, c :: rest = read ++ next.rest ∧
      t.outline.follow ctx read next.rest = some next.outline :=
  ⟨[c], by rw [hnext.1]; rfl, by simp [Outline.follow, hnext]⟩

/-- A character outside of brackets and quotes. -/
theorem follow_step_outside (hclass : t.inClass = false) (hquoted : t.quoted = false)
    (hstrict : ctx.options.strictBrackets = true) (hbackslash : c ≠ '\\') (hslash : c ≠ '/')
    (hquote : c ≠ '"') (hhead : rest.head? ≠ some '/')
    (hstep : step ctx tail (t.reading rest) c = .ok next) :
    ∃ read, c :: rest = read ++ next.rest ∧
      t.outline.follow ctx read next.rest = some next.outline := by
  have hclass' : (t.reading rest).inClass = false := hclass
  have hquoted' : (t.reading rest).quoted = false := hquoted
  have hmode : t.outline.mode = {} := mode_outline hclass hquoted
  by_cases hneutral : isNeutral c = true
  case pos =>
    obtain hpasses | ⟨-, hopens⟩ := step_neutral hclass' hquoted' hneutral hhead hstep
    · exact hpasses.follow hmode (Outline.next?_neutral hmode rest hneutral)
    · refine ⟨[c, '('], congrArg (c :: ·) hopens.rest, ?_⟩
      rw [Outline.follow, Outline.next?_neutral hmode _ hneutral, hopens.outline]
      show Option.bind (t.outline.next? ctx '(' _) _ = _
      rw [Outline.next?_openParen hmode]
      rfl
  case neg =>
    by_cases hbrace : c = '{' ∧ ctx.options.noBrace = true
    case pos =>
      obtain ⟨rfl, hbrace⟩ := hbrace
      have hplain : step ctx tail (t.reading rest) '{' =
          .ok ((t.reading rest).plainText ctx '{') := by
        unfold step
        rw [hclass', hquoted', hbrace]
        rfl
      cases hplain.symm.trans hstep
      refine (passesOver_plainText hclass' ctx '{').follow hmode ?_
      rw [Outline.next?_openBrace hmode, hbrace]
      rfl
    case neg =>
      refine follow_single (next?_delimiter hclass hquoted hstrict ?_ hstep)
      simp only [not_and, Bool.not_eq_true] at hbrace
      simp [isNeutral, hquote, hbackslash, hslash] at hneutral
      grind

/-- A character of the bracket that is open. -/
theorem step_of_inBody (hclass : t.inClass = true) (hbody : t.outline.mode.inBody c = true)
    (hnul : c ≠ '\x00') (hbackslash : c ≠ '\\') : step ctx tail t c = .ok (t.inBracket ctx c) := by
  rw [inBody_outline hclass] at hbody
  unfold step
  rw [if_neg hnul, if_neg hbackslash, hclass, Bool.true_and, if_pos hbody]

/-- The outline follows the tokenizer. -/
theorem follow_step (hsound : t.Sound ctx) (hstrict : ctx.options.strictBrackets = true)
    (hrest : t.rest = c :: rest) (hplain : ∀ d ∈ t.rest, d ≠ '\\' ∧ d ≠ '/')
    (hstep : step ctx tail (t.reading rest) c = .ok next) :
    ∃ read, c :: rest = read ++ next.rest ∧
      t.outline.follow ctx read next.rest = some next.outline := by
  rw [hrest, List.forall_mem_cons] at hplain
  obtain ⟨⟨hbackslash, hslash⟩, hplain⟩ := hplain
  by_cases hnul : c = '\x00'
  case pos =>
    subst hnul
    cases hstep
    exact follow_single ⟨rfl, next?_nul t rest⟩
  case neg =>
    cases hclass : t.inClass with
    | true =>
      have hbracketed : t.Bracketed ctx := (hsound.brackets hclass).resolve_left (by simp [hrest])
      cases hbody : t.outline.mode.inBody c with
      | true =>
        cases (step_of_inBody (t := t.reading rest) hclass hbody hnul hbackslash).symm.trans hstep
        exact follow_inBracket hbracketed hrest hbody hnul
      | false =>
        obtain rfl : c = ']' := by
          by_contra hne
          simp [inBody_outline hclass, hne] at hbody
        have htext : (t.reading rest).readsText ']' = false := by
          rw [readsText, show (t.reading rest).quoted = false from hbracketed.quoted,
            Bool.false_and, Bool.or_false, Bool.and_eq_false_iff,
            ← inBody_outline (by exact hclass)]
          exact .inr hbody
        rw [step_closeBracket htext] at hstep
        exact follow_single (next?_closeBracket hbracketed hbody hstep)
    | false =>
      by_cases hquote : c = '"'
      case pos =>
        subst hquote
        exact follow_single (next?_quote hclass hstep)
      case neg =>
        cases hquoted : t.quoted with
        | true => exact follow_single (next?_quoted hclass hquoted hnul hbackslash hquote hstep)
        | false =>
          have hhead : rest.head? ≠ some '/' := fun hhead =>
            (hplain '/' (List.mem_of_head? hhead)).2 rfl
          exact follow_step_outside hclass hquoted hstrict hbackslash hslash hquote hhead hstep

end

end Tokenizer

/-! ### What the outline depends on -/

/-- The mode behind a text that the rest stands behind. -/
def Mode.follow (ctx : Context) : Mode → List Char → List Char → Mode
  | m, [], _ => m
  | m, c :: text, rest => (m.next ctx c (text ++ rest)).follow ctx text rest

namespace Outline

variable {ctx : Context} {o o' : Outline} {c : Char} {rest : List Char}

theorem mode_next? (h : o.next? ctx c rest = some o') : o'.mode = o.mode.next ctx c rest := by
  have hsome {parens braces : Nat}
      (h : some { o with mode := o.mode.next ctx c rest, parens, braces } = some o') :
      o'.mode = o.mode.next ctx c rest := by
    cases h
    rfl
  unfold next? at h
  dsimp only at h
  grind

/-- How many groups are open is of no importance for the mode. -/
theorem mode_follow {text : List Char} (h : o.follow ctx text rest = some o') :
    o'.mode = o.mode.follow ctx text rest := by
  induction text generalizing o with
  | nil =>
    cases h
    rfl
  | cons c text ih =>
    obtain ⟨next, hnext, h⟩ := Option.bind_eq_some_iff.mp h
    rw [ih h, mode_next? hnext]
    rfl

end Outline

section
variable {ctx ctx' : Context} {rest rest' before after : List Char} {kind : ExtglobKind} {c : Char}

/-- Of the text behind a character, its first character matters and whether there is a closing
bracket. -/
structure SameAhead (rest rest' : List Char) : Prop where
  mem : rest'.contains ']' = rest.contains ']'
  closing : rest'[0]? = some ']' ↔ rest[0]? = some ']'
  colon : rest'[0]? = some ':' ↔ rest[0]? = some ':'

theorem SameAhead.refl (rest : List Char) : SameAhead rest rest := ⟨rfl, Iff.rfl, Iff.rfl⟩

theorem sameAhead_remarked (before after : List Char) (kind : ExtglobKind) :
    SameAhead (before ++ '@' :: '(' :: after) (before ++ kind.mark :: '(' :: after) where
  mem := by
    rw [Bool.eq_iff_iff, List.contains_iff_mem, List.contains_iff_mem]
    exact mem_remarked_iff rfl rfl rfl
  closing := getElem?_remarked_iff rfl rfl rfl 0
  colon := getElem?_remarked_iff rfl rfl rfl 0

theorem Mode.next_congr (hoptions : ctx'.options = ctx.options) (h : SameAhead rest rest')
    (m : Mode) (c : Char) : m.next ctx' c rest' = m.next ctx c rest := by
  have hsame (value : List Char) : (bracketed value rest).Alike (bracketed value rest') :=
    ⟨rfl, rfl, rfl, rfl, rfl, rfl⟩
  have halike (value : List Char) : ((bracketed value rest).inBracket ctx c).Alike
      ((bracketed value rest').inBracket ctx' c) :=
    (hsame value).inBracket hoptions h.closing h.colon c
  have hvalue (value : List Char) := (halike value).value_last
  have hposition (value : List Char) := (halike value).position
  unfold Mode.next
  simp only [hvalue, hposition, hoptions]

theorem Mode.follow_congr (hoptions : ctx'.options = ctx.options) (m : Mode)
    (text rest : List Char) : m.follow ctx' text rest = m.follow ctx text rest := by
  induction text generalizing m with
  | nil => rfl
  | cons c text ih => rw [Mode.follow, Mode.follow, Mode.next_congr hoptions (.refl _), ih]

theorem Outline.next?_congr (hoptions : ctx'.options = ctx.options) (h : SameAhead rest rest')
    (o : Outline) (c : Char) : o.next? ctx' c rest' = o.next? ctx c rest := by
  unfold Outline.next?
  rw [Mode.next_congr hoptions h, hoptions, h.mem]

theorem Outline.follow_congr (hoptions : ctx'.options = ctx.options) (text : List Char)
    {rest rest' : List Char} (h : ∀ before, SameAhead (before ++ rest) (before ++ rest'))
    (o : Outline) : o.follow ctx' text rest' = o.follow ctx text rest := by
  induction text generalizing o with
  | nil => rfl
  | cons c text ih =>
    rw [Outline.follow, Outline.follow, Outline.next?_congr hoptions (h text)]
    exact congrArg _ (funext ih)

/-- A text with another operator in it has the same outline. -/
theorem Outline.follow_remarked (hoptions : ctx'.options = ctx.options) {o : Outline}
    (hmode : o.mode.follow ctx before ('@' :: '(' :: after) = {}) (kind : ExtglobKind) :
    o.follow ctx' (before ++ kind.mark :: '(' :: after) [] =
      o.follow ctx (before ++ '@' :: '(' :: after) [] := by
  have hahead (text : List Char) : SameAhead (text ++ '@' :: '(' :: after)
      (text ++ kind.mark :: '(' :: after) := sameAhead_remarked text after kind
  rw [Outline.follow_append, Outline.follow_append, List.append_nil, List.append_nil,
    Outline.follow_congr hoptions before hahead]
  cases hbefore : o.follow ctx before ('@' :: '(' :: after) with
  | none => rfl
  | some o' =>
    have hmode' : o'.mode = {} := (mode_follow hbefore).trans hmode
    have hmark (kind : ExtglobKind) (ctx : Context) : o'.follow ctx (kind.mark :: '(' :: after) [] =
        ({ o' with parens := o'.parens + 1 } : Outline).follow ctx after [] := by
      have hneutral : isNeutral kind.mark = true := by cases kind <;> rfl
      rw [Outline.follow, Outline.next?_neutral hmode' _ hneutral]
      show Option.bind (o'.next? ctx '(' _) _ = _
      rw [Outline.next?_openParen hmode']
      rfl
    show o'.follow ctx' (kind.mark :: '(' :: after) [] =
      o'.follow ctx (ExtglobKind.exactlyOne.mark :: '(' :: after) []
    rw [hmark, hmark]
    exact Outline.follow_congr hoptions after (fun text => .refl _) _
end

/-! ### Whole runs -/

namespace Tokenizer

section
variable {ctx : Context} {tail : List Char → Except Error (List Char)} {t t' next r : Tokenizer}
  {c : Char} {rest : List Char}

theorem readsText_outline : t.readsText c =
    (t.outline.mode.skips || t.outline.mode.inBody c || (t.outline.mode.quoted && c ≠ '"')) := by
  unfold readsText
  cases hclass : t.inClass with
  | true =>
    rw [inBody_outline hclass]
    rfl
  | false => simp [outline, hclass, Mode.inBody]

theorem outline_parens_eq_zero_iff : t.outline.parens = 0 ↔ t.inParen = false := by
  unfold outline inParen
  rw [List.count_eq_zero]
  simp

theorem isSome_body?_outline : t.outline.mode.body?.isSome = t.inClass := by
  unfold outline
  cases t.inClass <;> rfl

/-- The outline of a state tells whether a delimiter is missing. -/
theorem missing?_eq_none_of_next? {o : Outline} (h : t.outline.next? ctx c t.rest = some o) :
    t.missing? ctx c = none := by
  unfold missing?
  rw [readsText_outline]
  unfold Outline.next? at h
  split
  case isTrue => rfl
  case isFalse htext =>
    rw [if_neg htext] at h
    split
    case h_1 =>
      have hparens : t.outline.parens ≠ 0 := fun hzero => by simp [hzero] at h
      exact if_pos (by simpa [outline_parens_eq_zero_iff] using hparens)
    case h_2 =>
      have hbracket : (ctx.options.noBracket || t.rest.contains ']') = true := by
        by_contra hnot
        simp only [hnot] at h
        cases h
      exact if_pos hbracket
    case h_3 =>
      have hbracket : (ctx.options.noBracket || t.inClass) = true := by
        by_contra hnot
        simp only [isSome_body?_outline, hnot] at h
        cases h
      exact if_pos hbracket
    case h_4 => rfl

/-- Nothing is open if the outline says so. -/
theorem unclosed?_eq_none_iff : t.unclosed? = none ↔ t.outline.isClosed = true := by
  unfold unclosed? Outline.isClosed outline
  cases hclass : t.inClass with
  | true => simp
  | false =>
    cases hframes : t.frames with
    | nil => simp
    | cons frame frames => cases hbrace : frame.isBrace <;> simp [hbrace]

theorem exists_passes_of_complete (h : complete ctx tail t = .ok r) :
    ∃ t', Passes ctx tail t t' ∧ t'.rest = [] ∧ t'.finish ctx = .ok r := by
  induction hn : t.rest.length using Nat.strongRecOn generalizing t with
  | ind n ih =>
    cases hrest : t.rest with
    | nil => exact ⟨t, .refl t, hrest, (complete_of_rest_nil hrest).symm.trans h⟩
    | cons c rest =>
      cases hstep : step ctx tail (t.reading rest) c with
      | error e => cases (complete_of_step_error hrest hstep).symm.trans h
      | ok next =>
        have hlt : next.rest.length < n := by
          have : next.rest.length ≤ rest.length := (follows_step hstep).length_rest_le
          rw [← hn, hrest, List.length_cons]
          exact Nat.lt_succ_of_le this
        obtain ⟨t', hpasses, hend⟩ := ih _ hlt ((complete_of_step hrest hstep).symm.trans h) rfl
        exact ⟨t', .step hrest hstep hpasses, hend⟩

variable (hstar : ctx.star ≠ []) (hstrict : ctx.options.strictBrackets = true)
include hstar hstrict

/-- The outline follows the tokenizer from one state to another. -/
theorem Passes.follow (h : Passes ctx tail t t') (hsound : t.Sound ctx)
    (hplain : ∀ d ∈ t.rest, d ≠ '\\' ∧ d ≠ '/') : ∃ read, t.rest = read ++ t'.rest ∧
      t.outline.follow ctx read t'.rest = some t'.outline := by
  induction h with
  | refl t => exact ⟨[], rfl, rfl⟩
  | step hrest hstep h ih =>
    obtain ⟨read, hread, hfollow⟩ := follow_step hsound hstrict hrest hplain hstep
    obtain ⟨more, hmore, hfollow'⟩ := ih (hsound.step hstar hrest hstep) fun d hd =>
      hplain d (by rw [hrest, hread]; exact List.mem_append_right _ hd)
    rw [hmore] at hread hfollow
    refine ⟨read ++ more, by rw [hrest, hread, List.append_assoc], ?_⟩
    rw [Outline.follow_append, hfollow]
    exact hfollow'

/-- The tokenizer arrives at the end exactly if the outline does, and nothing is open there. -/
theorem exists_complete_eq_ok_iff (hsound : t.Sound ctx)
    (hplain : ∀ d ∈ t.rest, d ≠ '\\' ∧ d ≠ '/')
    (hextension : ∀ text, text <:+ t.rest.tail → isExtension text = false) :
    (∃ r, complete ctx tail t = .ok r) ↔
      ∃ o, t.outline.follow ctx t.rest [] = some o ∧ o.isClosed = true := by
  constructor
  case mp =>
    rintro ⟨r, h⟩
    obtain ⟨t', hpasses, hend, hfinish⟩ := exists_passes_of_complete h
    obtain ⟨read, hread, hfollow⟩ := hpasses.follow hstar hstrict hsound hplain
    rw [hend] at hread hfollow
    rw [List.append_nil] at hread
    refine ⟨t'.outline, hread ▸ hfollow, unclosed?_eq_none_iff.mp ?_⟩
    cases hopen : t'.unclosed? with
    | none => rfl
    | some delimiter => cases (finish_of_unclosed? hstrict hopen).symm.trans hfinish
  case mpr =>
    rintro ⟨o, hfollow, hclosed⟩
    induction hn : t.rest.length using Nat.strongRecOn generalizing t with
    | ind n ih =>
      cases hrest : t.rest with
      | nil =>
        rw [hrest] at hfollow
        cases hfollow
        obtain ⟨r, hfinish⟩ : ∃ r, t.finish ctx.lenient = .ok r := exists_finish_eq_ok rfl
        rw [complete_of_rest_nil hrest, ← finish_lenient (unclosed?_eq_none_iff.mpr hclosed)]
        exact ⟨r, hfinish⟩
      | cons c rest =>
        rw [hrest] at hfollow
        obtain ⟨o', hnext, -⟩ := Option.bind_eq_some_iff.mp hfollow
        rw [List.append_nil] at hnext
        rw [hrest, List.tail_cons] at hextension
        obtain ⟨next, hstep⟩ : ∃ next, step ctx tail (t.reading rest) c = .ok next := by
          refine exists_step_of_missing? (missing?_eq_none_of_next? (t := t.reading rest) hnext)
            fun text htext => ?_
          obtain ⟨rfl, htrue⟩ := of_extension? htext
          cases htrue.symm.trans (hextension _ (List.suffix_refl _))
        obtain ⟨read, hread, hfollow'⟩ := follow_step hsound hstrict hrest hplain hstep
        have hsuffix : next.rest <:+ rest := by
          obtain ⟨k, hk, -⟩ := follows_step hstep
          exact hk ▸ List.drop_suffix k rest
        rw [complete_of_step hrest hstep]
        refine ih next.rest.length ?_ (hsound.step hstar hrest hstep) ?_ ?_ ?_ rfl
        · rw [← hn, hrest, List.length_cons]
          exact Nat.lt_succ_of_le hsuffix.length_le
        · exact fun d hd => hplain d (by rw [hrest]; exact List.mem_cons_of_mem _ (hsuffix.mem hd))
        · exact fun text htext => hextension text (htext.trans ((List.tail_suffix _).trans hsuffix))
        · rw [hread, Outline.follow_append, List.append_nil, hfollow'] at hfollow
          exact hfollow

end

end Tokenizer

/-! ### Extensions -/

theorem starSource_ne_nil (options : Options) : starSource options ≠ [] := by
  unfold starSource
  cases options.capture with
  | true => simp
  | false => cases options.bash <;> simp [Fragment.globstar, Fragment.star]

theorem plain_of_isExtension {text : List Char} (h : isExtension text = true) :
    ∀ d ∈ text, d ≠ '\\' ∧ d ≠ '/' := by
  unfold isExtension at h
  split at h
  case h_2 => cases h
  case h_1 extension =>
    obtain ⟨-, hplain⟩ := Bool.and_eq_true_iff.mp h
    rw [Bool.not_eq_true', List.any_eq_false] at hplain
    refine List.forall_mem_cons.mpr ⟨by decide, fun d hd => ?_⟩
    have := hplain d hd
    simp_all

section
variable {options : Options} {before after : List Char} {depth : Nat}

theorem byteSize_remarked (before after : List Char) (kind : ExtglobKind) :
    Text.byteSize (before ++ kind.mark :: '(' :: after) =
      Text.byteSize (before ++ '@' :: '(' :: after) := by
  rw [Text.byteSize_append, Text.byteSize_append]
  cases kind <;> rfl

theorem exists_eq_ok_iff {α ε : Type} {result : Except ε α} :
    (∃ a, result = .ok a) ↔ ∀ e, result ≠ .error e := by
  cases result <;> simp

/-- With strict brackets, an extension is translated exactly if its outline lacks nothing. -/
theorem exists_extensionSource_eq_ok_iff {text : List Char}
    (hstrict : options.strictBrackets = true) (hextension : isExtension text = true)
    (hsize : Text.byteSize text ≤ options.effectiveMaxLength) :
    (∃ source, extensionSource options (depth + 1) text = .ok source) ↔
      ∃ o, Outline.follow (Context.ofPattern options text) ⟨{}, 0, 0⟩ text [] = some o ∧
        o.isClosed = true := by
  let ctx := Context.ofPattern options text
  have hcomplete : (∃ source, extensionSource options (depth + 1) text = .ok source) ↔
      ∃ r, Tokenizer.complete ctx (extensionSource options depth) { rest := text } = .ok r := by
    have herror (e : Error) := complete_eq_extensionSource_error_iff (e := e) hsize hextension depth
    rw [body_of_isExtension options hextension] at herror
    rw [exists_eq_ok_iff, exists_eq_ok_iff]
    exact forall_congr' fun e => not_congr (herror e).symm
  rw [hcomplete]
  exact Tokenizer.exists_complete_eq_ok_iff (starSource_ne_nil options) hstrict
    (Tokenizer.sound_begin ctx text) (plain_of_isExtension hextension)
    fun rest hrest => not_isExtension_of_suffix hextension hrest

/-- An extension with another operator in it is translated as well. -/
theorem exists_extensionSource_remarked {ctx : Context} (hoptions : ctx.options = options)
    (hextension : isExtension (before ++ '@' :: '(' :: after) = true)
    (hmode : options.strictBrackets = true →
      Mode.follow ctx {} before ('@' :: '(' :: after) = {})
    {source : List Char}
    (h : extensionSource options depth (before ++ '@' :: '(' :: after) = .ok source)
    (kind : ExtglobKind) :
    ∃ source',
      extensionSource options depth (before ++ kind.mark :: '(' :: after) = .ok source' := by
  have hextension' : isExtension (before ++ kind.mark :: '(' :: after) = true :=
    (isExtension_remarked rfl rfl).trans hextension
  cases depth with
  | zero => cases h
  | succ depth =>
    have hsize : Text.byteSize (before ++ '@' :: '(' :: after) ≤ options.effectiveMaxLength := by
      obtain ⟨translation, htranslation, -⟩ := Tokenizer.exists_of_map_eq_ok h
      exact (parseWithin_eq_ok_iff.mp htranslation).1
    have hsize' := Nat.le_trans (Nat.le_of_eq (byteSize_remarked before after kind)) hsize
    cases hstrict : options.strictBrackets with
    | false => exact exists_extensionSource_eq_ok hstrict hextension' hsize' depth
    | true =>
      obtain ⟨o, hfollow, hclosed⟩ :=
        (exists_extensionSource_eq_ok_iff hstrict hextension hsize).mp ⟨source, h⟩
      refine (exists_extensionSource_eq_ok_iff hstrict hextension' hsize').mpr ⟨o, ?_, hclosed⟩
      let ctx₁ := Context.ofPattern options (before ++ '@' :: '(' :: after)
      have hmode' : Mode.follow ctx₁ {} before ('@' :: '(' :: after) = {} :=
        (Mode.follow_congr (show ctx₁.options = ctx.options from hoptions.symm) _ _ _).trans
          (hmode hstrict)
      have hsame : (Context.ofPattern options (before ++ kind.mark :: '(' :: after)).options =
          ctx₁.options := rfl
      rw [← hfollow]
      exact Outline.follow_remarked (o := ⟨{}, 0, 0⟩) hsame hmode' kind

end

end PathGlob.Pattern
