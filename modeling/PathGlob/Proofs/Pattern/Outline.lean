import PathGlob.Proofs.Pattern.Marks
import PathGlob.Proofs.Pattern.Sound
import PathGlob.Proofs.Pattern.Starred

/-!
# `PathGlob.Proofs.Pattern.Outline`: what strict brackets ask of a text

Whether strict brackets refuse a text without backslashes and separators can be told from the text
itself, character by character: it only matters which bracket is open, whether the character stands
between quotes, and how many groups of either kind are open (`Outline`). An operator is no part of
the outline.

Every state of the tokenizer has an outline. A character that is no delimiter leaves it as it is,
unless it opens an extended group (`Tokenizer.step_neutral`). What becomes of the text of a bracket
can be told from that text and what is ahead (`Tokenizer.exists_inBracket`).
-/

set_option autoImplicit false

namespace PathGlob.Pattern

open Regex

/-- What is open besides groups. -/
structure Mode where
  /-- The text of the bracket that is open. -/
  body? : Option (List Char) := none
  quoted : Bool := false
  /-- The next character has been read together with the one before it. -/
  skips : Bool := false

/-- What strict brackets are about. -/
structure Outline where
  mode : Mode
  /-- The number of groups that a parenthesis closes. -/
  parens : Nat
  /-- The number of brace groups. -/
  braces : Nat

/-- A state within brackets. -/
def bracketed (value rest : List Char) : Tokenizer :=
  { rest, tokens := [{ kind := .bracket, value }] }

namespace Mode

/-- The character belongs to the bracket that is open. -/
def inBody (m : Mode) (c : Char) : Bool :=
  m.body?.any fun value => c ≠ ']' || value = ['['] || value = ['[', '^']

/-- The mode behind a character. -/
def next (ctx : Context) (m : Mode) (c : Char) (rest : List Char) : Mode :=
  if m.skips then { m with skips := false }
  else if c = '\x00' then m
  else if m.inBody c then
    let t := (bracketed (m.body?.getD []) rest).inBracket ctx c
    { m with body? := some t.last.value, skips := 0 < t.position }
  else if m.quoted && c ≠ '"' then m
  else match c with
    | '"' => { m with quoted := !m.quoted }
    | '[' => if ctx.options.noBracket then m else { m with body? := some ['['] }
    | ']' => { m with body? := none }
    | _ => m

end Mode

namespace Outline

/-- The outline behind a character, unless another delimiter is missing. -/
def next? (ctx : Context) (o : Outline) (c : Char) (rest : List Char) : Option Outline :=
  let o' := { o with mode := o.mode.next ctx c rest }
  if o.mode.skips || o.mode.inBody c || (o.mode.quoted && c ≠ '"') then some o'
  else match c with
    | '(' => some { o' with parens := o.parens + 1 }
    | ')' => if o.parens = 0 then none else some { o' with parens := o.parens - 1 }
    | '[' => if ctx.options.noBracket || rest.contains ']' then some o' else none
    | ']' => if ctx.options.noBracket || o.mode.body?.isSome then some o' else none
    | '{' => some (if ctx.options.noBrace then o' else { o' with braces := o.braces + 1 })
    | '}' => some { o' with braces := o.braces - 1 }
    | _ => some o'

/-- The outline behind a text that the rest stands behind. -/
def follow (ctx : Context) : Outline → List Char → List Char → Option Outline
  | o, [], _ => some o
  | o, c :: text, rest => (o.next? ctx c (text ++ rest)).bind fun o => o.follow ctx text rest

/-- Nothing is open. -/
def isClosed (o : Outline) : Bool := o.mode.body?.isNone && o.parens = 0 && o.braces = 0

end Outline

namespace Tokenizer

/-- The outline of a state. -/
def outline (t : Tokenizer) : Outline where
  mode := { body? := if t.inClass then some t.last.value else none, quoted := t.quoted }
  parens := (t.frames.map Frame.isBrace).count false
  braces := (t.frames.map Frame.isBrace).count true

/-! ### What a step does to the outline -/

section
variable {ctx : Context} {t s : Tokenizer} {token : Token}

theorem value_last_push (h : token.kind ≠ .text) : (t.push ctx token).last.value = token.value := by
  obtain ⟨previous, htokens⟩ := tokens_push_of_kind_ne h ctx t
  rw [last_of_tokens_eq htokens]

theorem map_isBrace_modifyFrame {change : Frame → Option Frame}
    (hchange : ∀ frame frame', change frame = some frame' → frame'.isBrace = frame.isBrace)
    (frames : List Frame) :
    (modifyFrame change frames).map Frame.isBrace = frames.map Frame.isBrace := by
  induction frames with
  | nil => rfl
  | cons frame frames ih =>
    rw [modifyFrame]
    cases hframe : change frame with
    | none => exact congrArg (frame.isBrace :: ·) ih
    | some frame' => exact congrArg (· :: _) (hchange _ _ hframe)

theorem map_isBrace_noted (t : Tokenizer) (token : Token) :
    (t.noted token).map Frame.isBrace = t.frames.map Frame.isBrace := by
  unfold noted
  split
  case isTrue => rfl
  case isFalse =>
    refine map_isBrace_modifyFrame (fun frame frame' hframe => ?_) _
    cases frame <;> cases hframe
    rfl

/-- Outside of brackets, all that matters are the quotes and the sorts of the open groups. -/
theorem outline_congr (hclass : t.inClass = false) (hclass' : s.inClass = false)
    (hquoted : s.quoted = t.quoted)
    (hframes : s.frames.map Frame.isBrace = t.frames.map Frame.isBrace) :
    s.outline = t.outline := by
  simp only [outline, hclass, hclass', hquoted, hframes, Bool.false_eq_true, if_false]

theorem outline_push (hclass : t.inClass = false) (ctx : Context) (token : Token) :
    (t.push ctx token).outline = t.outline :=
  outline_congr hclass ((push_inClass ..).trans hclass) (push_quoted ..)
    (by rw [push_frames, map_isBrace_noted])

theorem outline_push_of_same {s : Tokenizer} (hclass : t.inClass = false)
    (hclass' : s.inClass = t.inClass) (hquoted : s.quoted = t.quoted)
    (hframes : s.frames = t.frames) (ctx : Context) (token : Token) :
    (s.push ctx token).outline = t.outline :=
  (outline_push (hclass'.trans hclass) ctx token).trans
    (outline_congr hclass (hclass'.trans hclass) hquoted (congrArg _ hframes))

theorem outline_open (hclass : t.inClass = false) (frame : Frame) :
    outline { t with frames := frame :: t.frames } = { t.outline with
      parens := t.outline.parens + if frame.isBrace = false then 1 else 0
      braces := t.outline.braces + if frame.isBrace = true then 1 else 0 } := by
  simp [outline, hclass, List.count_cons]

theorem outline_openBrace (hclass : t.inClass = false) (ctx : Context) :
    (t.openBrace ctx).outline = { t.outline with braces := t.outline.braces + 1 } := by
  let frame : BraceFrame := ⟨Text.byteSize t.output, t.tokens.length, false, false, []⟩
  have hopen : ({ t with frames := .brace frame :: t.frames } : Tokenizer).inClass = false := hclass
  exact (outline_push hopen ctx _).trans (outline_open hclass _)

theorem outline_openParen (hclass : t.inClass = false) (ctx : Context) :
    (t.openParen ctx).outline = { t.outline with parens := t.outline.parens + 1 } := by
  have hopen : ({ t with frames := .paren t.tokens.length :: t.frames } : Tokenizer).inClass =
    false := hclass
  exact (outline_push hopen ctx _).trans (outline_open hclass _)

theorem outline_openExtglob (hclass : t.inClass = false) (ctx : Context) (kind : ExtglobKind)
    (c : Char) : (t.openExtglob ctx kind c).outline =
      { t.outline with parens := t.outline.parens + 1 } := by
  let mark : Token := .ofSource (.extglob kind) [c]
    (if t.output.isEmpty then Fragment.oneChar else [])
  let paren : Token := { Token.ofSource .paren ['(']
    ((if ctx.options.capture then ['('] else []) ++ kind.opening) with isExtglob := true }
  have hmark : ((t.push ctx mark).skip 1).inClass = false := (push_inClass ..).trans hclass
  have hparen : (((t.push ctx mark).skip 1).push ctx paren).inClass = false :=
    (push_inClass ..).trans hmark
  refine (outline_open hparen _).trans ?_
  rw [outline_push hmark ctx paren, show ((t.push ctx mark).skip 1).outline =
    (t.push ctx mark).outline from rfl, outline_push hclass]
  rfl

/-- A group that is closed is one group less. -/
theorem count_taken {test : Frame → Bool} {found : Frame} {others : List Frame}
    (h : takeFrame? test t.frames = some (found, others)) (b : Bool) :
    (others.map Frame.isBrace).count b =
      (t.frames.map Frame.isBrace).count b - if found.isBrace = b then 1 else 0 := by
  obtain ⟨-, above, below, hframes, rfl, -⟩ := takeFrame?_eq_some h
  rw [hframes]
  cases b <;> cases hfound : found.isBrace <;> simp [hfound]

theorem outline_literalBrace (hclass : t.inClass = false) (ctx : Context) (frame : BraceFrame) :
    (t.literalBrace ctx frame).rest = t.rest ∧
      (t.literalBrace ctx frame).outline = t.outline := by
  unfold literalBrace
  dsimp only
  refine ⟨push_rest .., ?_⟩
  apply outline_push_of_same hclass
  case hclass' => rfl
  case hquoted => rfl
  case hframes => rfl

/-- A closing brace closes the innermost brace group, if there is one. -/
theorem outline_closeBrace (hclass : t.inClass = false) (ctx : Context) :
    (t.closeBrace ctx).rest = t.rest ∧
      (t.closeBrace ctx).outline = { t.outline with braces := t.outline.braces - 1 } := by
  unfold closeBrace
  split
  case h_1 frame frames htake =>
    have hclosed : outline { t with frames } =
        { t.outline with braces := t.outline.braces - 1 } := by
      have hparens := count_taken htake false
      have hbraces := count_taken htake true
      simp_all [outline, Frame.isBrace]
    let s : Tokenizer := { t with frames }
    have hclass' : s.inClass = false := hclass
    rw [← hclosed]
    dsimp only
    generalize (if frame.dots && !frame.comma then _ else none : Option (List Char)) = range
    cases range with
    | some source =>
      exact ⟨push_rest .., outline_push_of_same (t := s) hclass' (by rfl) (by rfl) (by rfl) ctx _⟩
    | none =>
      dsimp only
      split
      case isTrue => exact ⟨push_rest .., outline_push (t := s) hclass' ctx _⟩
      case isFalse => exact outline_literalBrace (t := s) hclass' ctx frame
  case h_2 hnone =>
    have hbraces : (t.frames.map Frame.isBrace).count true = 0 := by
      refine List.count_eq_zero.mpr fun hmem => ?_
      obtain ⟨frame, hframe, hbrace⟩ := List.mem_map.mp hmem
      cases htake : takeFrame? Frame.isBrace t.frames with
      | none =>
        have := List.any_eq_false.mp (takeFrame?_eq_none_iff.mp htake) frame hframe
        exact this hbrace
      | some taken =>
        obtain ⟨found, others⟩ := taken
        obtain ⟨hfound, -⟩ := takeFrame?_eq_some htake
        cases found with
        | brace frame => exact hnone _ _ htake
        | paren | extglob => cases hfound
    refine ⟨push_rest .., ?_⟩
    rw [pushText, outline_push hclass]
    simp [outline, hbraces]
end

/-! #### Characters that are no delimiters -/

end Tokenizer

/-- The character is no delimiter, no quote, no backslash and no separator. -/
def isNeutral (c : Char) : Bool :=
  !(['"', '(', ')', '[', ']', '{', '}', '\\', '/'].contains c)

theorem isNeutral_of_not_isSpecial {c : Char} (h : isSpecial c = false) : isNeutral c = true := by
  simp_all [isSpecial, isNeutral]

namespace Tokenizer

section
variable {ctx : Context} {tail : List Char → Except Error (List Char)} {t next : Tokenizer}
  {c : Char}

/-- The step has read neutral characters, and nothing is opened or closed. -/
def PassesOver (t next : Tokenizer) : Prop :=
  ∃ k, next.rest = t.rest.drop k ∧ (∀ d ∈ t.rest.take k, isNeutral d = true) ∧
    next.outline = t.outline

/-- The step has read a parenthesis and opened a group. -/
structure Opens (t next : Tokenizer) : Prop where
  rest : t.rest = '(' :: next.rest
  outline : next.outline = { t.outline with parens := t.outline.parens + 1 }
  value : next.last.value = ['(']

theorem passesOver_of_outline (hrest : next.rest = t.rest) (houtline : next.outline = t.outline) :
    t.PassesOver next := ⟨0, hrest, by simp, houtline⟩

theorem passesOver_push (hclass : t.inClass = false) (ctx : Context) (token : Token) :
    t.PassesOver (t.push ctx token) :=
  passesOver_of_outline (push_rest ..) (outline_push hclass ctx token)

theorem passesOver_plainText (hclass : t.inClass = false) (ctx : Context) (c : Char) :
    t.PassesOver (t.plainText ctx c) := by
  refine ⟨(t.rest.takeWhile fun d => !isSpecial d).length, push_rest .., fun d hd => ?_,
    outline_push (t := t.skip _) hclass ctx _⟩
  have htake := List.prefix_iff_eq_take.mp (List.takeWhile_prefix (p := fun d => !isSpecial d)
    (l := t.rest))
  rw [← htake] at hd
  exact isNeutral_of_not_isSpecial (isSpecial_of_mem_run hd)

theorem opens_openExtglob (hclass : t.inClass = false) (hahead : t.ahead 0 = some '(')
    (ctx : Context) (kind : ExtglobKind) : t.Opens (t.openExtglob ctx kind c) := by
  refine ⟨?_, outline_openExtglob hclass ctx kind c, ?_⟩
  · have hrest : (t.openExtglob ctx kind c).rest = t.rest.drop 1 := by
      simp [openExtglob, skip]
    rw [hrest]
    cases ht : t.rest with
    | nil => simp [ahead, ht] at hahead
    | cons d rest =>
      obtain rfl : d = '(' := by simpa [ahead, ht] using hahead
      rfl
  · have hvalue (s : Tokenizer) {token : Token} (htoken : token.kind ≠ .text)
        (frames : List Frame) :
        ({ s.push ctx token with frames } : Tokenizer).last.value = token.value :=
      value_last_push htoken
    unfold openExtglob
    dsimp only
    exact hvalue _ (by simp [Token.ofSource]) _

theorem passesOver_secondStar (hclass : t.inClass = false) (hslash : t.rest.head? ≠ some '/')
    (ctx : Context) : t.PassesOver (t.secondStar ctx) := by
  have hnone (n : Nat) : redundantGlobstars t.rest n = 0 := redundantGlobstars_eq_zero hslash n
  have hover {s : Tokenizer} (hrest : s.rest = t.rest) (hclass' : s.inClass = t.inClass)
      (hquoted : s.quoted = t.quoted) (hframes : s.frames = t.frames) : t.PassesOver s :=
    passesOver_of_outline hrest
      (outline_congr hclass (hclass'.trans hclass) hquoted (congrArg _ hframes))
  unfold secondStar
  split
  case isTrue => exact hover rfl rfl rfl rfl
  case isFalse =>
    dsimp only
    split
    case isTrue => exact passesOver_push hclass ctx _
    case isFalse =>
      unfold globstarAt
      dsimp only
      rw [hnone]
      have hskip : (t.skip 0).rest.head? ≠ some '/' := hslash
      simp only [hskip, decide_false, Bool.and_false, Bool.false_eq_true, if_false]
      split
      case isTrue => exact hover rfl rfl rfl rfl
      case isFalse => split <;> exact hover rfl rfl rfl rfl

theorem passesOver_or_opens_star (hclass : t.inClass = false) (hslash : t.rest.head? ≠ some '/')
    (ctx : Context) : t.PassesOver (t.star ctx) ∨ t.Opens (t.star ctx) := by
  unfold star
  split
  case isTrue => exact .inl (passesOver_of_outline rfl (outline_congr hclass hclass rfl rfl))
  case isFalse =>
    split
    case isTrue hopens =>
      simp only [Bool.and_eq_true, decide_eq_true_eq] at hopens
      exact .inr (opens_openExtglob hclass hopens.1.2 ctx _)
    case isFalse =>
      split
      case isTrue => exact .inl (passesOver_secondStar hclass hslash ctx)
      case isFalse =>
        dsimp only
        split
        case h_1 guard _ =>
          obtain ⟨k, hrest, hneutral, houtline⟩ :=
            passesOver_push (t := t.guardLast guard) hclass ctx
              (.ofSource .star ['*'] (if ctx.options.bash then
                if ctx.options.capture then '(' :: Fragment.anything ++ [')']
                else Fragment.anything else ctx.star))
          exact .inl ⟨k, hrest, hneutral, houtline.trans (outline_congr hclass hclass rfl rfl)⟩
        case h_2 => exact .inl (passesOver_push hclass ctx _)

theorem passesOver_or_opens_operator (hclass : t.inClass = false) (ctx : Context)
    (kind : ExtglobKind) (other : Token) :
    t.PassesOver (t.operator ctx kind c other) ∨ t.Opens (t.operator ctx kind c other) := by
  unfold operator
  split
  case isTrue hopens =>
    simp only [opensExtglob, Bool.and_eq_true, decide_eq_true_eq] at hopens
    exact .inr (opens_openExtglob hclass hopens.1.2 ctx _)
  case isFalse => exact .inl (passesOver_push hclass ctx _)

theorem passesOver_or_opens_qmark (hclass : t.inClass = false) (ctx : Context) :
    t.PassesOver (t.qmark ctx) ∨ t.Opens (t.qmark ctx) := by
  unfold qmark
  dsimp only
  split
  case isTrue hopens =>
    simp only [opensExtglob, Bool.and_eq_true, decide_eq_true_eq] at hopens
    exact .inr (opens_openExtglob hclass hopens.2.1.2 ctx _)
  case isFalse =>
    split
    case isTrue => exact .inl (passesOver_push hclass ctx _)
    case isFalse => exact .inl (passesOver_push hclass ctx _)

theorem passesOver_or_opens_bang (hclass : t.inClass = false) (ctx : Context) :
    t.PassesOver (t.bang ctx) ∨ t.Opens (t.bang ctx) := by
  unfold bang
  dsimp only
  split
  case isTrue hopens =>
    simp only [Bool.and_eq_true, decide_eq_true_eq] at hopens
    exact .inr (opens_openExtglob hclass hopens.1.2 ctx _)
  case isFalse =>
    split
    case isTrue =>
      refine .inl ⟨negations t.rest, rfl, fun d hd => ?_, outline_congr hclass hclass rfl rfl⟩
      rw [mem_take_negations t.rest d hd]
      rfl
    case isFalse => exact .inl (passesOver_plainText hclass ctx _)

theorem passesOver_dot (hclass : t.inClass = false) (ctx : Context) :
    t.PassesOver (t.dot ctx) := by
  unfold dot
  split
  case isTrue =>
    refine passesOver_of_outline rfl (outline_congr hclass hclass rfl ?_)
    refine map_isBrace_modifyFrame (fun frame frame' hframe => ?_) _
    cases frame <;> cases hframe
    rfl
  case isFalse => exact passesOver_push hclass ctx _

theorem passesOver_comma (hclass : t.inClass = false) (ctx : Context) :
    t.PassesOver (t.comma ctx) := by
  unfold comma
  split
  case h_1 frame frames hframes =>
    refine passesOver_of_outline (push_rest ..) ((outline_push (by exact hclass) ctx _).trans
      (outline_congr hclass (by exact hclass) (by rfl) ?_))
    rw [hframes]
    rfl
  case h_2 => exact passesOver_push hclass ctx _

/-- A character that is no delimiter opens nothing, unless it is an operator with a parenthesis
behind it. -/
theorem step_neutral (hclass : t.inClass = false) (hquoted : t.quoted = false)
    (hneutral : isNeutral c = true) (hslash : t.rest.head? ≠ some '/')
    (hstep : step ctx tail t c = .ok next) :
    t.PassesOver next ∨ (isMark c = true ∧ t.Opens next) := by
  unfold step at hstep
  rw [hclass, hquoted] at hstep
  split at hstep
  case isTrue =>
    cases hstep
    exact .inl (passesOver_of_outline rfl rfl)
  case isFalse =>
    split at hstep
    case isTrue hc =>
      subst hc
      cases hneutral
    case isFalse =>
      simp only [Bool.false_and, Bool.false_eq_true, if_false] at hstep
      split at hstep
      case h_1 | h_2 | h_3 | h_4 | h_5 | h_6 | h_7 | h_10 => cases hneutral
      all_goals cases hstep
      case h_8 => exact .inl (passesOver_push hclass ctx _)
      case h_9 => exact .inl (passesOver_comma hclass ctx)
      case h_11 => exact .inl (passesOver_dot hclass ctx)
      case h_12 => exact (passesOver_or_opens_qmark hclass ctx).imp_right (⟨rfl, ·⟩)
      case h_13 => exact (passesOver_or_opens_bang hclass ctx).imp_right (⟨rfl, ·⟩)
      case h_14 | h_15 =>
        exact (passesOver_or_opens_operator hclass ctx _ _).imp_right (⟨rfl, ·⟩)
      case h_16 => exact (passesOver_or_opens_star hclass hslash ctx).imp_right (⟨rfl, ·⟩)
      case h_17 => exact .inl (passesOver_plainText hclass ctx _)

end

/-! #### Brackets -/

/-- The bracket that is open has another text, and so many further characters have been read. -/
structure Turns (t next : Tokenizer) (value : List Char) (n : Nat) : Prop where
  tokens : next.tokens ≠ []
  value : next.last.value = value
  rest : next.rest = t.rest.drop n
  position : next.position = t.position + n
  frames : next.frames = t.frames

section
variable {t next : Tokenizer} {value more : List Char} {n : Nat}

theorem Turns.appendClass (h : t.Turns next value n) (more : List Char) :
    t.Turns (next.appendClass more) (value ++ more) n := by
  have hlast : (next.appendClass more).last = _ := last_modifyLast h.tokens _
  refine ⟨?_, ?_, h.rest, h.position, h.frames⟩
  · simpa [Tokenizer.appendClass, modifyLast, modify, emit] using h.tokens
  · rw [hlast, ← h.value]

theorem Turns.modifyLast (h : t.Turns next value n) (change : Token → Token)
    {value' : List Char} (hchange : ∀ token, token.value = value → (change token).value = value') :
    t.Turns (next.modifyLast change) value' n := by
  have hlast : (next.modifyLast change).last = _ := last_modifyLast h.tokens _
  refine ⟨?_, ?_, h.rest, h.position, h.frames⟩
  · simpa [Tokenizer.modifyLast, modify] using h.tokens
  · rw [hlast, hchange _ h.value]

theorem Turns.setSource (h : t.Turns next value n) (b : Bool) (place : Nat)
    (source : List Char) : t.Turns (if b then next.setSource place source else next) value n := by
  have halike := Alike.of_setSource next b place source
  refine ⟨fun hnil => ?_, halike.value_last.trans h.value, ?_, halike.position.trans h.position, ?_⟩
  · have hlength := halike.length_tokens
    rw [hnil] at hlength
    exact h.tokens (List.length_eq_zero_iff.mp hlength.symm)
  · cases b <;> exact h.rest
  · cases b <;> exact h.frames

theorem turns_refl (hne : t.tokens ≠ []) : t.Turns t t.last.value 0 := ⟨hne, rfl, rfl, rfl, rfl⟩

/-- The bracket is marked as one with a class name. -/
def markPosix (t : Tokenizer) : Tokenizer :=
  t.modifyLast fun token => { token with isPosix := true }

theorem turns_markPosix (hne : t.tokens ≠ []) (hvalue : t.last.value = value) :
    t.Turns t.markPosix value 0 :=
  (turns_refl hne).modifyLast _ fun _ htoken => htoken.trans hvalue

theorem posixName_of_not_opened (hvalue : t.last.value = value)
    (hopen : (!(value.drop 1).contains '[') = true) : t.posixName = (t, false) := by
  unfold posixName
  dsimp only
  rw [hvalue, if_pos hopen]

/-- Unless a name is found, the bracket is marked and nothing else happens. -/
theorem posixName_of_not_named (hne : t.tokens ≠ []) (hvalue : t.last.value = value)
    (hopen : ¬(!(value.drop 1).contains '[') = true)
    (hname : (!(value.drop 1).contains ':') = true ∨
      ∀ before name, lastClassName? value = some (before, name) → posixClass? name = none) :
    t.posixName = (t.markPosix, false) := by
  have hlast : (t.modifyLast fun token => { token with isPosix := true }).last.value = value :=
    (turns_markPosix hne hvalue).value
  unfold posixName
  dsimp only
  rw [hvalue, if_neg hopen]
  split
  case isTrue => rfl
  case isFalse hcolon =>
    rw [hlast]
    split
    case h_1 => rfl
    case h_2 before name hfound => rw [(hname.resolve_left hcolon) before name hfound]; rfl

/-- The state with the name replaced, and a closing bracket behind it read over. -/
def named (t : Tokenizer) (value : List Char) : Tokenizer :=
  let s := (t.markPosix.modifyLast fun token => { token with value }).needRebuild
  if s.ahead 0 = some ']' then s.skip 1 else s

/-- A name that is found is replaced. The first token may get another source along with it. -/
theorem posixName_of_named {before name members : List Char} (hne : t.tokens ≠ [])
    (hvalue : t.last.value = value) (hopen : ¬(!(value.drop 1).contains '[') = true)
    (hcolon : ¬(!(value.drop 1).contains ':') = true)
    (hfound : lastClassName? value = some (before, name))
    (hclass : posixClass? name = some members) : ∃ b : Bool, t.posixName =
      (if b then (t.named (before ++ members)).setSource 0 Fragment.oneChar
        else t.named (before ++ members), true) := by
  have hlast : (t.modifyLast fun token => { token with isPosix := true }).last.value = value :=
    (turns_markPosix hne hvalue).value
  unfold posixName
  dsimp only
  rw [hvalue, if_neg hopen, if_neg hcolon]
  rw [hlast, hfound]
  dsimp only
  rw [hclass]
  exact ⟨_, rfl⟩

/-- A name is replaced by its characters, and a closing bracket behind it belongs to it. -/
theorem turns_posixName_of_named {before name members rest : List Char} (hne : t.tokens ≠ [])
    (hvalue : t.last.value = value) (hrest : t.rest = rest)
    (hopen : ¬(!(value.drop 1).contains '[') = true)
    (hcolon : ¬(!(value.drop 1).contains ':') = true)
    (hfound : lastClassName? value = some (before, name))
    (hclass : posixClass? name = some members) :
    t.Turns t.posixName.1 (before ++ members) (if rest.head? = some ']' then 1 else 0) ∧
      t.posixName.2 = true := by
  let s := (t.markPosix.modifyLast fun token =>
    { token with value := before ++ members }).needRebuild
  have hnamed : t.Turns (t.markPosix.modifyLast fun token =>
      { token with value := before ++ members }) (before ++ members) 0 :=
    (turns_markPosix hne hvalue).modifyLast _ fun _ _ => rfl
  have hskipped : t.Turns (t.named (before ++ members)) (before ++ members)
      (if rest.head? = some ']' then 1 else 0) := by
    show t.Turns (if s.ahead 0 = some ']' then s.skip 1 else s) _ _
    rw [ahead_zero, show s.rest = rest from hrest]
    split
    case isTrue => exact ⟨hnamed.tokens, hnamed.value, rfl, rfl, rfl⟩
    case isFalse => exact ⟨hnamed.tokens, hnamed.value, rfl, rfl, rfl⟩
  obtain ⟨b, hsame⟩ := posixName_of_named hne hvalue hopen hcolon hfound hclass
  rw [hsame]
  exact ⟨hskipped.setSource b _ _, rfl⟩

/-- What becomes of the text of a bracket depends on nothing but that text and what is ahead. -/
theorem exists_posixName (value rest : List Char) : ∃ value' n replaced,
    (n = 0 ∨ (n = 1 ∧ rest.head? = some ']')) ∧
      ∀ t : Tokenizer, t.tokens ≠ [] → t.last.value = value → t.rest = rest →
        t.Turns t.posixName.1 value' n ∧ t.posixName.2 = replaced := by
  by_cases hopen : (!(value.drop 1).contains '[') = true
  case pos =>
    refine ⟨value, 0, false, .inl rfl, fun t hne hvalue _ => ?_⟩
    rw [posixName_of_not_opened hvalue hopen]
    exact ⟨hvalue ▸ turns_refl hne, rfl⟩
  case neg =>
    by_cases hname : (!(value.drop 1).contains ':') = true ∨
        ∀ before name, lastClassName? value = some (before, name) → posixClass? name = none
    case pos =>
      refine ⟨value, 0, false, .inl rfl, fun t hne hvalue _ => ?_⟩
      rw [posixName_of_not_named hne hvalue hopen hname]
      exact ⟨turns_markPosix hne hvalue, rfl⟩
    case neg =>
      obtain ⟨hcolon, hname⟩ := not_or.mp hname
      simp only [not_forall] at hname
      obtain ⟨before, name, hfound, hclass⟩ := hname
      obtain ⟨members, hclass⟩ := Option.ne_none_iff_exists'.mp hclass
      refine ⟨before ++ members, if rest.head? = some ']' then 1 else 0, true, ?_,
        fun t hne hvalue hrest =>
          turns_posixName_of_named hne hvalue hrest hopen hcolon hfound hclass⟩
      split <;> simp_all

theorem exists_inBracket (ctx : Context) (c : Char) (value rest : List Char) : ∃ value' n,
    (n = 0 ∨ (n = 1 ∧ rest.head? = some ']')) ∧
      ∀ t : Tokenizer, t.tokens ≠ [] → t.last.value = value → t.rest = rest →
        t.Turns (t.inBracket ctx c) value' n := by
  by_cases hname : (c = ':' && ctx.options.posix) = true
  case neg =>
    let s : Tokenizer := bracketed value rest
    refine ⟨value ++ s.classChar ctx c, 0, .inl rfl, fun t hne hvalue hrest => ?_⟩
    have hchar : t.classChar ctx c = s.classChar ctx c := by
      unfold classChar ahead
      rw [hvalue, hrest]
      rfl
    unfold inBracket
    rw [if_neg hname, hchar, ← hvalue]
    exact (turns_refl hne).appendClass _
  case pos =>
    obtain ⟨value', n, replaced, hn, hposix⟩ := exists_posixName value rest
    have hc : c = ':' := by simp at hname; exact hname.1
    have hchar (t : Tokenizer) : t.classChar ctx c = escapeClassChar ':' := by
      simp [classChar, hc]
    refine ⟨if replaced then value' else value' ++ escapeClassChar ':', n, hn,
      fun t hne hvalue hrest => ?_⟩
    obtain ⟨hturns, hreplaced⟩ := hposix t hne hvalue hrest
    unfold inBracket
    rw [if_pos hname]
    dsimp only
    rw [hreplaced, hchar]
    split
    case isTrue => exact hturns
    case isFalse => exact hturns.appendClass _

end

end Tokenizer

end PathGlob.Pattern
