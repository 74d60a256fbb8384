import PathGlob.Proofs.Pattern.Progress

/-!
# `PathGlob.Proofs.Pattern.Shift`: reading a pattern behind something else

The tokenizer counts the characters it has read, and it remembers where the pattern proper begins.
But it only ever compares the two, so a pattern that stands further behind is read in the same way
(`Tokenizer.run_shifted`). Nor does it look at the text that it reads from, apart from the error
for a missing delimiter, or at the sign of the pattern, which only a leading exclamation mark
sets.

The extension after a negated group is translated by a function that may be a different one,
as long as it yields what the other one yielded.
-/

set_option autoImplicit false

namespace PathGlob.Pattern

open Regex

/-- The same translation of the text that the other one is of. -/
def Context.over (ctx other : Context) : Context :=
  { ctx with pattern := other.pattern, body := other.body, dotSlash := other.dotSlash }

namespace Tokenizer

/-- The same state as many characters further on, with another sign. -/
def shifted (n : Nat) (sign : Bool → Bool) (t : Tokenizer) : Tokenizer :=
  { t with position := n + t.position, start := n + t.start, negated := sign t.negated }

theorem shifted_zero (t : Tokenizer) : t.shifted 0 id = t := by
  simp [shifted]

/-! ### One step -/

section
variable (ctx other : Context) (n : Nat) (sign : Bool → Bool) (t : Tokenizer)

theorem skip_shifted (k : Nat) : (t.shifted n sign).skip k = (t.skip k).shifted n sign := by
  simp only [skip, shifted, Nat.add_assoc]

theorem push_shifted (token : Token) :
    (t.shifted n sign).push (ctx.over other) token = (t.push ctx token).shifted n sign := by
  have hdemote : (if (t.shifted n sign).last.kind = .globstar &&
        !(t.shifted n sign).keepsGlobstar token then
          (t.shifted n sign).demoteGlobstar (ctx.over other)
        else t.shifted n sign) =
      (if t.last.kind = .globstar && !t.keepsGlobstar token then t.demoteGlobstar ctx
        else t).shifted n sign := by
    rw [apply_ite (shifted n sign)]
    rfl
  have hnote (s : Tokenizer) :
      (if token.kind = .paren then s.shifted n sign
        else (s.shifted n sign).noteInner token.value) =
      (if token.kind = .paren then s else s.noteInner token.value).shifted n sign := by
    rw [apply_ite (shifted n sign)]
    rfl
  unfold push
  dsimp only
  rw [hdemote, hnote]
  generalize (if t.last.kind = .globstar && !t.keepsGlobstar token then t.demoteGlobstar ctx
    else t) = s
  generalize (if token.kind = .paren then s else s.noteInner token.value) = s
  rw [apply_ite (shifted n sign)]
  rfl

theorem pushText_shifted (value source : List Char) :
    (t.shifted n sign).pushText (ctx.over other) value source =
      (t.pushText ctx value source).shifted n sign :=
  push_shifted ..

theorem plainText_shifted (c : Char) :
    (t.shifted n sign).plainText (ctx.over other) c = (t.plainText ctx c).shifted n sign := by
  simp only [plainText, ← pushText_shifted ctx other, ← skip_shifted]
  rfl

theorem escape_shifted :
    (t.shifted n sign).escape (ctx.over other) = (t.escape ctx).shifted n sign := by
  obtain ⟨rest⟩ := t
  cases rest with
  | nil => exact pushText_shifted ..
  | cons c rest =>
    simp only [escape, apply_ite (shifted n sign), ← pushText_shifted ctx other, ← skip_shifted]
    rfl

theorem place_shifted (h : 1 ≤ t.position) : (t.shifted n sign).place = n + t.place := by
  simp only [place, shifted]
  omega

theorem slash_shifted (h : 1 ≤ t.position) :
    (t.shifted n sign).slash (ctx.over other) = (t.slash ctx).shifted n sign := by
  have hplace := place_shifted n sign t h
  have hleads : (t.shifted n sign).place = (t.shifted n sign).start + 1 ↔ t.place = t.start + 1 := by
    rw [hplace]
    simp only [shifted]
    omega
  unfold slash
  rw [decide_eq_decide.mpr hleads, hplace, apply_ite (shifted n sign), ← push_shifted ctx other]
  rfl

theorem dot_shifted : (t.shifted n sign).dot (ctx.over other) = (t.dot ctx).shifted n sign := by
  simp only [dot, apply_ite (shifted n sign), ← push_shifted ctx other]
  rfl

theorem openExtglob_shifted (kind : ExtglobKind) (c : Char) :
    (t.shifted n sign).openExtglob (ctx.over other) kind c =
      (t.openExtglob ctx kind c).shifted n sign := by
  simp only [openExtglob, push_shifted, skip_shifted]
  rfl

theorem openParen_shifted :
    (t.shifted n sign).openParen (ctx.over other) = (t.openParen ctx).shifted n sign :=
  push_shifted ctx other n sign { t with frames := .paren t.tokens.length :: t.frames } _

theorem openBrace_shifted :
    (t.shifted n sign).openBrace (ctx.over other) = (t.openBrace ctx).shifted n sign :=
  push_shifted ctx other n sign { t with frames := .brace _ :: t.frames } _

theorem literalBrace_shifted (frame : BraceFrame) :
    (t.shifted n sign).literalBrace (ctx.over other) frame =
      (t.literalBrace ctx frame).shifted n sign := by
  unfold literalBrace
  rw [← push_shifted ctx other]
  rfl

theorem closeBrace_shifted :
    (t.shifted n sign).closeBrace (ctx.over other) = (t.closeBrace ctx).shifted n sign := by
  have hframes : (t.shifted n sign).frames = t.frames := rfl
  unfold closeBrace
  rw [hframes]
  cases takeFrame? Frame.isBrace t.frames with
  | none => exact pushText_shifted ..
  | some taken =>
    obtain ⟨frame | frame | frame, frames⟩ := taken
    case paren | extglob => exact pushText_shifted ..
    case brace =>
      have hrange : ({ t.shifted n sign with frames } : Tokenizer).rangeSource? (ctx.over other)
          frame = ({ t with frames } : Tokenizer).rangeSource? ctx frame := rfl
      dsimp only
      rw [hrange]
      cases (if frame.dots && !frame.comma then
        ({ t with frames } : Tokenizer).rangeSource? ctx frame else none) with
      | some source =>
        exact push_shifted ctx other n sign { t with frames, tokens := _, rebuild := true } _
      | none =>
        dsimp only
        rw [apply_ite (shifted n sign), ← push_shifted ctx other, ← literalBrace_shifted ctx other]
        rfl

theorem comma_shifted :
    (t.shifted n sign).comma (ctx.over other) = (t.comma ctx).shifted n sign := by
  have hframes : (t.shifted n sign).frames = t.frames := rfl
  unfold comma
  rw [hframes]
  split
  case h_1 => exact push_shifted ctx other n sign { t with frames := _ } _
  case h_2 => exact push_shifted ..

theorem qmark_shifted :
    (t.shifted n sign).qmark (ctx.over other) = (t.qmark ctx).shifted n sign := by
  simp only [qmark, apply_ite (shifted n sign), ← push_shifted ctx other,
    ← pushText_shifted ctx other, ← openExtglob_shifted ctx other]
  rfl

theorem operator_shifted (kind : ExtglobKind) (c : Char) (token : Token) :
    (t.shifted n sign).operator (ctx.over other) kind c token =
      (t.operator ctx kind c token).shifted n sign := by
  simp only [operator, apply_ite (shifted n sign), ← push_shifted ctx other,
    ← openExtglob_shifted ctx other]
  rfl

/-- The exclamation mark does not negate the pattern, or else nothing is shifted. -/
def KeepsSign : Prop :=
  2 ≤ t.position ∨ (n = 0 ∧ sign = id) ∨
    (ctx.options.noExtglob = false ∧ t.ahead 0 = some '(' ∧ t.ahead 1 ≠ some '?')

theorem bang_shifted (h : t.KeepsSign ctx n sign) :
    (t.shifted n sign).bang (ctx.over other) = (t.bang ctx).shifted n sign := by
  obtain h | ⟨rfl, rfl⟩ | ⟨hextglob, hopen, hraw⟩ := h
  · have hplace : t.place ≠ 0 := by
      simp only [place]
      omega
    have hplace' : (t.shifted n sign).place ≠ 0 := by
      simp only [place, shifted]
      omega
    simp only [bang, hplace, hplace', decide_false, Bool.and_false, Bool.false_eq_true, if_false,
      apply_ite (shifted n sign), ← openExtglob_shifted ctx other, ← plainText_shifted ctx other]
    rfl
  · rw [shifted_zero, shifted_zero]
    rfl
  · have hopens (t : Tokenizer) (hopen : t.ahead 0 = some '(') (hraw : t.ahead 1 ≠ some '?')
        (ctx : Context) (hextglob : ctx.options.noExtglob = false) :
        t.bang ctx = t.openExtglob ctx .negate '!' := by
      unfold bang
      exact if_pos (by simp [hextglob, hopen, hraw])
    rw [hopens t hopen hraw ctx hextglob, ← openExtglob_shifted ctx other]
    exact hopens (t.shifted n sign) hopen hraw (ctx.over other) hextglob

theorem absorbSlash_shifted :
    (t.shifted n sign).absorbSlash (ctx.over other) = (t.absorbSlash ctx).shifted n sign := by
  simp only [absorbSlash, skip_shifted, push_shifted]

theorem globstarAt_shifted (star : Token) (priorPlace : Nat) (prior : Token)
    (before : Option TokenKind) :
    (t.shifted n sign).globstarAt (ctx.over other) star priorPlace prior before =
      (t.globstarAt ctx star priorPlace prior before).shifted n sign := by
  simp only [globstarAt, apply_ite (shifted n sign), ← absorbSlash_shifted ctx other]
  simp only [skip_shifted]
  rfl

theorem secondStar_shifted :
    (t.shifted n sign).secondStar (ctx.over other) = (t.secondStar ctx).shifted n sign := by
  simp only [secondStar, apply_ite (shifted n sign), ← push_shifted ctx other,
    ← globstarAt_shifted ctx other]
  rfl

theorem starGuard?_shifted (h : 1 ≤ t.position) :
    (t.shifted n sign).starGuard? (ctx.over other) = t.starGuard? ctx := by
  have hstart : (n + t.place = (t.shifted n sign).start) = (t.place = t.start) := by
    simp only [shifted, eq_iff_iff]
    omega
  simp only [starGuard?, place_shifted n sign t h, hstart]
  rfl

theorem star_shifted (h : 1 ≤ t.position) :
    (t.shifted n sign).star (ctx.over other) = (t.star ctx).shifted n sign := by
  unfold star
  rw [starGuard?_shifted ctx other n sign t h]
  cases t.starGuard? ctx <;>
    simp only [apply_ite (shifted n sign), ← push_shifted ctx other,
      ← secondStar_shifted ctx other, ← openExtglob_shifted ctx other] <;>
    rfl

theorem posixName_shifted : (t.shifted n sign).posixName =
    (t.posixName.1.shifted n sign, t.posixName.2) := by
  let marked := t.modifyLast fun token => { token with isPosix := true }
  have hlast : (t.shifted n sign).last = t.last := rfl
  have hmarked : ((t.shifted n sign).modifyLast fun token => { token with isPosix := true }) =
      marked.shifted n sign := rfl
  have hlast' : (marked.shifted n sign).last = marked.last := rfl
  have hskip (s : Tokenizer) : (if (s.shifted n sign).ahead 0 = some ']'
      then (s.shifted n sign).skip 1 else s.shifted n sign) =
        (if s.ahead 0 = some ']' then s.skip 1 else s).shifted n sign := by
    rw [apply_ite (shifted n sign), ← skip_shifted]
    rfl
  unfold posixName
  dsimp only
  rw [hmarked, hlast, hlast']
  split
  case isTrue => rfl
  case isFalse =>
    split
    case isTrue => rfl
    case isFalse =>
      cases lastClassName? marked.last.value with
      | none => rfl
      | some found =>
        obtain ⟨before, name⟩ := found
        dsimp only
        cases posixClass? name with
        | none => rfl
        | some members =>
          let s := (marked.modifyLast fun token =>
            { token with value := before ++ members }).needRebuild
          have hs : ((marked.shifted n sign).modifyLast fun token =>
              { token with value := before ++ members }).needRebuild = s.shifted n sign := rfl
          dsimp only
          rw [hs, hskip]
          generalize (if s.ahead 0 = some ']' then s.skip 1 else s) = s
          refine Prod.ext ?_ rfl
          dsimp only
          rw [apply_ite (shifted n sign)]
          rfl

theorem inBracket_shifted (c : Char) :
    (t.shifted n sign).inBracket (ctx.over other) c = (t.inBracket ctx c).shifted n sign := by
  have hposix : (ctx.over other).options.posix = ctx.options.posix := rfl
  unfold inBracket
  rw [posixName_shifted, hposix]
  split
  case isTrue =>
    dsimp only
    rw [apply_ite (shifted n sign)]
    rfl
  case isFalse => rfl

theorem finishBracket_shifted (content : List Char) (isPosix : Bool) :
    (t.shifted n sign).finishBracket (ctx.over other) content isPosix =
      (t.finishBracket ctx content isPosix).shifted n sign := by
  unfold finishBracket
  dsimp only
  rw [apply_ite (shifted n sign), apply_ite (shifted n sign)]
  rfl

variable {ctx other n sign t}

theorem openBracket_shifted {t' : Tokenizer} (h : t.openBracket ctx = .ok t') :
    (t.shifted n sign).openBracket (ctx.over other) = .ok (t'.shifted n sign) := by
  unfold openBracket at h ⊢
  split at h
  case isTrue hliteral =>
    split at h
    case isTrue => cases h
    case isFalse hstrict =>
      cases h
      exact (if_pos hliteral).trans ((if_neg hstrict).trans (congrArg _ (push_shifted ..)))
  case isFalse hclass =>
    cases h
    exact (if_neg hclass).trans (congrArg _ (push_shifted ctx other n sign
      { t with inClass := true } _))

theorem closeBracket_shifted {t' : Tokenizer} (h : t.closeBracket ctx = .ok t') :
    (t.shifted n sign).closeBracket (ctx.over other) = .ok (t'.shifted n sign) := by
  unfold closeBracket at h ⊢
  split at h
  case isTrue hoff =>
    cases h
    exact (if_pos hoff).trans (congrArg _ (pushText_shifted ..))
  case isFalse hon =>
    refine (if_neg hon).trans ?_
    split at h
    case isTrue hout =>
      refine (if_pos hout).trans ?_
      split at h
      case isTrue => cases h
      case isFalse hstrict =>
        cases h
        exact (if_neg hstrict).trans (congrArg _ (pushText_shifted ..))
    case isFalse hin =>
      refine (if_neg hin).trans ?_
      cases h
      exact congrArg _ (finishBracket_shifted ctx other n sign
        (({ t with inClass := false } : Tokenizer).appendClass _) _ _)

/-- What the second one yields, where the first one yields anything. -/
def Refines (tail tail' : List Char → Except Error (List Char)) : Prop :=
  ∀ text source, tail text = .ok source → tail' text = .ok source

section
variable {tail tail' : List Char → Except Error (List Char)} (htail : Refines tail tail')
include htail

theorem negateClosing_shifted {frame : ExtglobFrame} {closing : List Char}
    (h : t.negateClosing ctx tail frame = .ok closing) :
    (t.shifted n sign).negateClosing (ctx.over other) tail' frame = .ok closing := by
  unfold negateClosing at h ⊢
  dsimp only at h ⊢
  by_cases hextension : (frame.inner.contains '*' && isExtension t.rest) = true
  · rw [if_pos hextension] at h
    obtain ⟨extension, hextended, h⟩ := bind_eq_ok h
    refine (if_pos hextension).trans ?_
    show (tail' t.rest >>= _) = _
    rw [htail _ _ hextended]
    exact h
  · rw [if_neg hextension] at h
    exact (if_neg hextension).trans h

omit htail in
theorem guarded_shifted (frame : ExtglobFrame) :
    (t.shifted n sign).guarded (ctx.over other) frame = (t.guarded ctx frame).shifted n sign := by
  unfold guarded
  dsimp only
  rw [apply_ite (shifted n sign)]
  rfl

theorem closeExtglob_shifted {frame : ExtglobFrame} {t' : Tokenizer}
    (h : t.closeExtglob ctx tail frame = .ok t') :
    (t.shifted n sign).closeExtglob (ctx.over other) tail' frame = .ok (t'.shifted n sign) := by
  let s : Tokenizer := { t with negatedExtglob := t.negatedExtglob ||
    (frame.kind = ExtglobKind.negate && frame.before = TokenKind.bos) }
  -- What follows once it is known what closes the group.
  let closed (ctx : Context) (s : Tokenizer) (closing : List Char) : Tokenizer :=
    let s := (s.guarded ctx frame).push ctx { Token.ofSource .paren [')']
      (if ctx.options.capture then closing ++ [')'] else closing) with isExtglob := true }
    if frame.before.beginsSegment && frame.kind.isOptional then
      { s with optionalGroup := some s.lastPlace } else s
  have hclosed (closing : List Char) : closed (ctx.over other) (s.shifted n sign) closing =
      (closed ctx s closing).shifted n sign := by
    dsimp only [closed]
    rw [guarded_shifted, push_shifted, apply_ite (shifted n sign)]
    rfl
  unfold closeExtglob at h ⊢
  dsimp only at h ⊢
  by_cases hkind : frame.kind = .negate
  · rw [if_pos hkind] at h ⊢
    obtain ⟨closing, hclosing, h⟩ := bind_eq_ok h
    rw [negateClosing_shifted htail hclosing]
    cases h
    exact congrArg Except.ok (hclosed closing)
  · rw [if_neg hkind] at h ⊢
    cases h
    exact congrArg Except.ok (hclosed _)

theorem closeParen_shifted {t' : Tokenizer} (h : t.closeParen ctx tail = .ok t') :
    (t.shifted n sign).closeParen (ctx.over other) tail' = .ok (t'.shifted n sign) := by
  have hframes : (t.shifted n sign).frames = t.frames := rfl
  unfold closeParen at h ⊢
  rw [hframes]
  cases htake : takeFrame? (fun frame => !frame.isBrace) t.frames with
  | none =>
    rw [htake] at h
    dsimp only at h ⊢
    split at h
    case isTrue => cases h
    case isFalse hstrict =>
      cases h
      exact (if_neg hstrict).trans (congrArg _ (push_shifted ..))
  | some taken =>
    obtain ⟨frame | frame | frame, frames⟩ := taken <;> rw [htake] at h
    case extglob => exact closeExtglob_shifted htail (t := { t with frames }) h
    case paren | brace =>
      cases h
      exact congrArg _ (push_shifted ctx other n sign { t with frames } _)

/-- A step further behind is the same step. -/
theorem step_shifted (h : 1 ≤ t.position) {c : Char} (hsign : c = '!' → t.KeepsSign ctx n sign)
    {t' : Tokenizer} (hstep : step ctx tail t c = .ok t') :
    step (ctx.over other) tail' (t.shifted n sign) c = .ok (t'.shifted n sign) := by
  have hok {s s' : Tokenizer} (hs : (.ok s : Except Error Tokenizer) = .ok t')
      (hshifted : s' = s.shifted n sign) :
      (.ok s' : Except Error Tokenizer) = .ok (t'.shifted n sign) := by
    cases hs
    exact congrArg _ hshifted
  have hescape := escape_shifted ctx other n sign t
  have hinBracket := inBracket_shifted ctx other n sign t c
  have hquote : (let s := { t.shifted n sign with quoted := !(t.shifted n sign).quoted }
      if (ctx.over other).options.keepQuotes then s.pushText (ctx.over other) ['"'] ['"'] else s) =
      (let s := { t with quoted := !t.quoted }
        if ctx.options.keepQuotes then s.pushText ctx ['"'] ['"'] else s).shifted n sign := by
    dsimp only
    rw [apply_ite (shifted n sign), ← pushText_shifted ctx other]
    rfl
  have hbrace : (if (ctx.over other).options.noBrace then
        (t.shifted n sign).plainText (ctx.over other) '{'
      else (t.shifted n sign).openBrace (ctx.over other)) =
      (if ctx.options.noBrace then t.plainText ctx '{' else t.openBrace ctx).shifted n sign := by
    rw [apply_ite (shifted n sign), plainText_shifted, openBrace_shifted]
    rfl
  unfold step at hstep ⊢
  split at hstep
  case isTrue hnul =>
    exact (if_pos hnul).trans (hok hstep rfl)
  case isFalse hnul =>
    refine (if_neg hnul).trans ?_
    split at hstep
    case isTrue hbackslash =>
      exact (if_pos hbackslash).trans (hok hstep hescape)
    case isFalse hbackslash =>
      refine (if_neg hbackslash).trans ?_
      split at hstep
      case isTrue hclass =>
        exact (if_pos hclass).trans (hok hstep hinBracket)
      case isFalse hclass =>
        refine (if_neg hclass).trans ?_
        split at hstep
        case isTrue hquoted =>
          exact (if_pos hquoted).trans (hok hstep (pushText_shifted ..))
        case isFalse hquoted =>
          refine (if_neg hquoted).trans ?_
          split at hstep
          case h_1 => exact hok hstep hquote
          case h_2 => exact hok hstep (openParen_shifted ..)
          case h_3 => exact closeParen_shifted htail hstep
          case h_4 => exact openBracket_shifted hstep
          case h_5 => exact closeBracket_shifted hstep
          case h_6 => exact hok hstep hbrace
          case h_7 => exact hok hstep (closeBrace_shifted ..)
          case h_8 => exact hok hstep (pushText_shifted ..)
          case h_9 => exact hok hstep (comma_shifted ..)
          case h_10 => exact hok hstep (slash_shifted ctx other n sign t h)
          case h_11 => exact hok hstep (dot_shifted ..)
          case h_12 => exact hok hstep (qmark_shifted ..)
          case h_13 => exact hok hstep (bang_shifted ctx other n sign t (hsign rfl))
          case h_14 | h_15 => exact hok hstep (operator_shifted ..)
          case h_16 => exact hok hstep (star_shifted ctx other n sign t h)
          case h_17 => exact hok hstep (plainText_shifted ..)

end

end

/-! ### A whole run -/

section
variable {ctx : Context} {t t' : Tokenizer} (other : Context) (n : Nat) (sign : Bool → Bool)

/-- A run further behind is the same run. Whether the text begins with an exclamation mark that
could negate the pattern makes a difference to the first step only. -/
theorem run_shifted {tail tail' : List Char → Except Error (List Char)}
    (htail : Refines tail tail') {k : Nat}
    (hsign : ∀ rest, t.rest = '!' :: rest →
      ({ t with rest, position := t.position + 1 } : Tokenizer).KeepsSign ctx n sign)
    (hrun : run ctx tail k t = .ok t') :
    run (ctx.over other) tail' k (t.shifted n sign) = .ok (t'.shifted n sign) := by
  induction k generalizing t with
  | zero =>
    cases hrun
    rfl
  | succ k ih =>
    have hrest : (t.shifted n sign).rest = t.rest := rfl
    rw [run] at hrun ⊢
    rw [hrest]
    split at hrun
    case h_1 =>
      cases hrun
      rfl
    case h_2 c rest heq =>
      obtain ⟨next, hstep, hrun⟩ := bind_eq_ok hrun
      have hnext : 1 ≤ next.position :=
        Nat.le_trans (Nat.le_add_left 1 t.position) (follows_step hstep).le_position
      have hshifted : step (ctx.over other) tail'
          { t.shifted n sign with rest, position := (t.shifted n sign).position + 1 } c =
            .ok (next.shifted n sign) :=
        step_shifted htail (Nat.le_add_left 1 t.position)
          (fun hbang => hsign rest (heq.trans (congrArg (· :: rest) hbang))) hstep
      show step _ _ _ c >>= _ = _
      rw [hshifted]
      exact ih (fun rest _ => .inl (Nat.succ_le_succ hnext)) hrun

theorem endFrame_shifted (t : Tokenizer) (frame : Frame) :
    (t.shifted n sign).endFrame frame = (t.endFrame frame).shifted n sign := by
  have hcommas (t : Tokenizer) (commas : List Nat) :
      commas.foldl (fun t place => t.setSource place [',']) (t.shifted n sign) =
        (commas.foldl (fun t place => t.setSource place [',']) t).shifted n sign := by
    induction commas generalizing t with
    | nil => rfl
    | cons comma commas ih => exact ih (t.setSource comma [','])
  cases frame with
  | paren | extglob => rfl
  | brace frame => exact hcommas (t.setSource frame.token ['\\', '{']) frame.commas

theorem foldl_endFrame_shifted (t : Tokenizer) (frames : List Frame) :
    frames.foldl endFrame (t.shifted n sign) = (frames.foldl endFrame t).shifted n sign := by
  induction frames generalizing t with
  | nil => rfl
  | cons frame frames ih => rw [List.foldl_cons, List.foldl_cons, endFrame_shifted, ih]

theorem endBracket_shifted (h : t.endBracket ctx = .ok t') :
    (t.shifted n sign).endBracket (ctx.over other) = .ok (t'.shifted n sign) := by
  unfold endBracket at h ⊢
  split at h
  case isTrue hout =>
    cases h
    exact if_pos hout
  case isFalse hin =>
    refine (if_neg hin).trans ?_
    split at h
    case isTrue => cases h
    case isFalse hstrict =>
      cases h
      exact if_neg hstrict

theorem endFrames_shifted (h : t.endFrames ctx = .ok t') :
    (t.shifted n sign).endFrames (ctx.over other) = .ok (t'.shifted n sign) := by
  have hsame : (t.shifted n sign).frames = t.frames := rfl
  unfold endFrames at h ⊢
  rw [hsame]
  cases hframes : t.frames with
  | nil =>
    rw [hframes] at h
    cases h
    rfl
  | cons frame frames =>
    rw [hframes] at h
    dsimp only at h ⊢
    split at h
    case isTrue => cases h
    case isFalse hstrict =>
      cases h
      refine (if_neg hstrict).trans (congrArg Except.ok ?_)
      rw [foldl_endFrame_shifted]
      rfl

theorem allowSlash_shifted (ctx : Context) (t : Tokenizer) :
    (t.shifted n sign).allowSlash (ctx.over other) = (t.allowSlash ctx).shifted n sign := by
  unfold allowSlash
  rw [apply_ite (shifted n sign), ← push_shifted ctx other]
  rfl

theorem finish_shifted (h : t.finish ctx = .ok t') :
    (t.shifted n sign).finish (ctx.over other) = .ok (t'.shifted n sign) := by
  obtain ⟨closed, hclosed, h⟩ := bind_eq_ok h
  obtain ⟨ended, hended, h⟩ := bind_eq_ok h
  cases h
  unfold finish
  rw [endBracket_shifted other n sign hclosed]
  show (closed.shifted n sign).endFrames (ctx.over other) >>= _ = _
  rw [endFrames_shifted other n sign hended]
  refine congrArg Except.ok ?_
  rw [allowSlash_shifted, apply_ite (shifted n sign)]
  rfl

end

end PathGlob.Pattern.Tokenizer
