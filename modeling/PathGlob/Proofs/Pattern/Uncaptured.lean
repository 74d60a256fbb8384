import PathGlob.Proofs.Pattern.MuteBrackets

/-!
# `PathGlob.Proofs.Pattern.Uncaptured`: groups capture on request only

Between two characters the tokenizer is outside of brackets, within the beginning of a group of the
source language, or within brackets (`Tokenizer.Phase`). Every step leads from one of these to
another, and what is still open at the end becomes text. Hence the translation of a pattern has no
capturing group, unless captures are asked for, something refers back to a group, or the pattern
opens a group in a way that the source language does not know (`captureGroups_eq_zero`).
-/

set_option autoImplicit false

namespace PathGlob

namespace Pattern

open Regex

namespace Tokenizer

variable {ctx : Context} {t t' : Tokenizer} {before : List Token} {bracket paren : Token}

/-! ### The beginning of a group of the source language -/

/-- Behind a bare parenthesis, and perhaps a question mark. -/
structure Opening (t : Tokenizer) (before : List Token) (paren : Token) (behind : List Token) :
    Prop where
  tokens : t.tokens = before ++ paren :: behind
  hushed : Hushed before
  isBare : paren.IsBare
  value : paren.value = ['(']
  frames : ∀ frame ∈ t.frames, frame.Points t.tokens
  inClass : t.inClass = false
  quoted : t.quoted = false
  known : opensKnown t.rest = true

theorem isMildChar_of_isGroupMark {c : Char} (h : isGroupMark c = true) : IsMildChar c := by
  constructor <;> rintro rfl <;> exact absurd h (by decide)

namespace Opening

variable {text : Token}

theorem taking {behind : List Token} (h : t.Opening before paren behind) {c : Char}
    {rest : List Char} (hrest : t.rest = c :: rest) (hc : c ≠ '\\') :
    (t.taking rest).Opening before paren behind :=
  { h with known := opensKnown_tail hc (hrest ▸ h.known) }

/-- The question mark belongs to the source language. -/
theorem qmark (h : t.Opening before paren []) (ctx : Context) {c : Char}
    (hnext : t.ahead 0 = some c) (hmark : isGroupMark c = true) :
    ∃ text : Token, (t.qmark ctx).Opening before paren [text] ∧ text.kind = .text ∧
      text.source = ['?'] ∧ (t.qmark ctx).rest = t.rest := by
  have hlast : t.last = paren := last_of_tokens_eq h.tokens
  have hmarks : c = '!' ∨ c = '=' ∨ c = ':' := by simpa [isGroupMark, or_assoc] using hmark
  have hqmark : t.qmark ctx = t.pushText ctx ['?'] ['?'] := by
    unfold Tokenizer.qmark
    dsimp only
    rw [hlast, h.value, h.isBare.kind, hnext]
    obtain rfl | rfl | rfl := hmarks <;> simp
  let text : Token := { Token.text ['?'] ['?'] with previous := some before.length }
  have htokens : (t.pushText ctx ['?'] ['?']).tokens = before ++ [paren, text] := by
    rw [pushText, push_eq_prepared, prepared, if_neg (by simp [hlast, h.isBare.kind])]
    show t.pushed _ = _
    rw [pushed_eq h.tokens, if_neg (by simp [h.isBare.kind])]
  refine ⟨text, ?_, rfl, rfl, by rw [hqmark, pushText, push_rest]⟩
  rw [hqmark]
  have hne : t.tokens ≠ [] := by simp [h.tokens]
  refine ⟨htokens, h.hushed, h.isBare, h.value, ?_, (push_inClass ..).trans h.inClass,
    (push_quoted ..).trans h.quoted, (push_rest ..).symm ▸ h.known⟩
  rw [pushText, push_frames]
  exact points_noted (fun frame hframe => (h.frames frame hframe).keep
    (keepsReferred_push hne ctx _)) _

variable (h : t.Opening before paren [text]) (hkind : text.kind = .text)
  (hsource : text.source = ['?'])
include h hkind hsource

omit hkind hsource in
theorem last_eq : t.last = text :=
  last_of_tokens_eq (h.tokens.trans (List.append_cons before paren [text]))

/-- Text behind the question mark, of which the first character begins no name. -/
theorem pushText {c : Char} (hc : IsMildChar c) (value : List Char) {source : List Char}
    (hsilent : Silent (c :: source)) : (t.pushText ctx value (c :: source)).Mute := by
  have hlast := h.last_eq
  have hne : t.tokens ≠ [] := by simp [h.tokens]
  let more := Token.text value (c :: source)
  let merged : Token := { text with
    value := text.value ++ more.value, source? := some (text.source ++ more.source) }
  have htokens : (t.push ctx more).tokens = before ++ paren :: [merged] := by
    rw [push_eq_prepared, prepared, if_neg (by simp [hlast, hkind])]
    show t.pushed more = _
    rw [pushed_eq (h.tokens.trans (List.append_cons before paren [text])),
      if_pos (by simp [hkind, more]), ← List.append_cons]
  have hmerged : merged.source = '?' :: c :: source := by
    show text.source ++ _ = _
    rw [hsource]
    rfl
  have hquestion : Silent ['?'] := silent_of_isLoose (by decide)
  refine ⟨?_, ?_, (push_inClass ..).trans h.inClass, (push_rest ctx t more).symm ▸ h.known⟩
  · rw [Tokenizer.pushText, htokens]
    refine h.hushed.concat_bare h.isBare (.text hkind hmerged hc) (.cons ?_ .nil)
    exact Token.isHushed_of_kind (hmerged ▸ hquestion.append hsilent) (by simp [merged, hkind])
      (by simp [merged, hkind])
  · rw [Tokenizer.pushText, push_frames]
    exact points_noted (fun frame hframe => (h.frames frame hframe).keep
      (keepsReferred_push hne ctx _)) _

theorem plainText (ctx : Context) {c : Char} (hmark : isGroupMark c = true) :
    (t.plainText ctx c).Mute := by
  let run := t.rest.takeWhile fun d => !isSpecial d
  have hmarks : c = '!' ∨ c = '=' ∨ c = ':' := by simpa [isGroupMark, or_assoc] using hmark
  have hchar : isLoose c = true ∧ ¬ (c = '$' || c = '^' || c = '{') = true := by
    obtain rfl | rfl | rfl := hmarks <;> decide
  have hskip : (t.skip run.length).Opening before paren [text] :=
    { h with known := opensKnown_drop_run h.known }
  unfold Tokenizer.plainText
  dsimp only
  rw [if_neg hchar.2]
  exact hskip.pushText hkind hsource (isMildChar_of_isGroupMark hmark) _
    ((silent_of_isLoose hchar.1).append (silent_loose fun _ => isLoose_of_mem_run))

/-- A negated group behind the question mark. -/
theorem openExtglob (hctx : ctx.IsMute) (hnext : t.ahead 0 = some '(') (kind : ExtglobKind)
    {operator : Char} (hoperator : IsMildChar operator) :
    (t.openExtglob ctx kind operator).Mute where
  tokens := by
    obtain ⟨mark, group, htokens, hmarkKind, hmark, hgroupKind, hgroup⟩ :=
      exists_openExtglob hctx t kind hoperator
    have hprepared : t.prepared ctx (t.pushedOperator kind operator) = t := by
      rw [prepared, if_neg (by simp [h.last_eq, hkind])]
    have htext : text.IsHushed :=
      Token.isHushed_of_kind (hsource ▸ silent_of_isLoose (by decide)) (by simp [hkind])
        (by simp [hkind])
    rw [htokens, hprepared, h.tokens, List.append_assoc]
    exact h.hushed.concat_bare h.isBare (.group hkind hsource hmarkKind hgroupKind)
      (.cons htext (.cons hmark (.cons hgroup .nil)))
  frames := points_openExtglob (by simp [h.tokens]) h.frames kind operator
  inClass := (openExtglob_inClass ..).trans h.inClass
  known := known_openExtglob h.known hnext kind operator

end Opening

/-! ### Steps -/

/-- Where the tokenizer may be between two characters. Within brackets a backslash that ends the
text is a token of its own. -/
inductive Phase (t : Tokenizer) : Prop where
  | mute (h : t.Mute)
  | opened (before : List Token) (paren : Token) (c : Char) (more : List Char)
      (h : t.Opening before paren []) (hrest : t.rest = '?' :: c :: more)
      (hmark : isGroupMark c = true)
  | asked (before : List Token) (paren text : Token) (c : Char) (more : List Char)
      (h : t.Opening before paren [text]) (hkind : text.kind = .text)
      (hsource : text.source = ['?']) (hrest : t.rest = c :: more) (hmark : isGroupMark c = true)
  | within (before : List Token) (bracket : Token) (h : t.MuteWithin before bracket)
  | cut (before : List Token) (bracket text : Token)
      (htokens : t.tokens = before ++ [bracket, text]) (hushed : Hushed before)
      (hframes : ∀ frame ∈ t.frames, frame.Points before) (hclass : t.inClass = true)
      (hrest : t.rest = []) (hkind : bracket.kind = .bracket) (hsource : bracket.source? = none)
      (htext : text.kind = .text) (hsilent : Silent text.source)

section
variable {tail : List Char → Except Error (List Char)} {c : Char} {rest : List Char}

/-- The character behind a parenthesis, of a group that it opens in a known way. -/
theorem Opening.step_question (h : t.Opening before paren []) {more : List Char}
    (hrest : t.rest = '?' :: c :: more) (hmark : isGroupMark c = true)
    (hok : step ctx tail (t.taking (c :: more)) '?' = .ok t') : t'.Phase := by
  have hs := h.taking hrest (by decide)
  unfold Tokenizer.step at hok
  rw [if_neg (by decide), if_neg (by decide), if_neg (by simp [hs.inClass]),
    if_neg (by simp [hs.quoted])] at hok
  obtain rfl : (t.taking (c :: more)).qmark ctx = t' := Except.ok.inj hok
  obtain ⟨text, hopening, hkind, hsource, hsame⟩ := hs.qmark ctx rfl hmark
  exact .asked before paren text c more hopening hkind hsource hsame hmark

/-- The character behind the question mark. -/
theorem Opening.step_mark (hctx : ctx.IsMute) {text : Token} (h : t.Opening before paren [text])
    (hkind : text.kind = .text) (hsource : text.source = ['?']) (hposition : t.position ≠ 0)
    (hrest : t.rest = c :: rest) (hmark : isGroupMark c = true)
    (hok : step ctx tail (t.taking rest) c = .ok t') : t'.Mute := by
  have hmarks : c = '!' ∨ c = '=' ∨ c = ':' := by simpa [isGroupMark, or_assoc] using hmark
  have hs : (t.taking rest).Opening before paren [text] :=
    h.taking hrest (by obtain rfl | rfl | rfl := hmarks <;> decide)
  have hplain := hs.plainText hkind hsource ctx hmark
  unfold Tokenizer.step at hok
  rw [if_neg (by obtain rfl | rfl | rfl := hmarks <;> decide),
    if_neg (by obtain rfl | rfl | rfl := hmarks <;> decide), if_neg (by simp [hs.inClass]),
    if_neg (by simp [hs.quoted])] at hok
  obtain rfl | rfl | rfl := hmarks
  · obtain rfl : (t.taking rest).bang ctx = t' := Except.ok.inj hok
    unfold bang
    dsimp only
    split
    case isTrue hopens =>
      rw [Bool.and_eq_true, Bool.and_eq_true, decide_eq_true_eq] at hopens
      exact hs.openExtglob hkind hsource hctx hopens.1.2 _ (by decide)
    case isFalse =>
      have hplace : (t.taking rest).place ≠ 0 := hposition
      rw [if_neg (by simp [hplace])]
      exact hplain
  · obtain rfl : (t.taking rest).plainText ctx '=' = t' := Except.ok.inj hok
    exact hplain
  · obtain rfl : (t.taking rest).plainText ctx ':' = t' := Except.ok.inj hok
    exact hplain

/-- A backslash within brackets. -/
theorem MuteWithin.step_escape (h : t.MuteWithin before bracket)
    (hrest : t.rest = '\\' :: rest) :
    ((t.taking rest).escape ctx).Phase := by
  have hknown := h.known
  rw [hrest] at hknown
  unfold Tokenizer.escape
  split
  case h_1 hnil =>
    -- A backslash at the end of the text is not joined to the bracket.
    let text : Token := .text ['\\'] ['\\', '\\']
    have hlast : (t.taking rest).last = bracket := last_of_tokens_eq h.tokens
    have hprepared : (t.taking rest).prepared ctx text = t.taking rest := by
      rw [prepared, if_neg (by simp [hlast, h.kind])]
    have htokens : ((t.taking rest).push ctx text).tokens =
        before ++ [bracket, { text with previous := some before.length }] := by
      rw [push_eq_prepared, hprepared]
      show (t.taking rest).pushed text = _
      rw [pushed_eq (t := t.taking rest) h.tokens, if_neg (by simp [h.kind])]
    refine .cut before bracket _ htokens h.hushed ?_ ((push_inClass ..).trans h.inClass)
      ((push_rest ..).trans hnil) h.kind h.source? rfl (uncounted_backslash false '\\')
    rw [pushText, push_frames]
    exact points_noted (t := t.taking rest) h.frames text
  case h_2 next more hmore =>
    obtain rfl : rest = next :: more := hmore
    split
    case isTrue hplain =>
      have hne : next ≠ '\\' ∧ next ≠ '(' := by
        constructor <;> rintro rfl <;> simp at hplain
      refine .within before bracket { h with known := ?_ }
      show opensKnown (next :: more) = true
      rw [opensKnown_cons hne.1 hne.2]
      exact hknown
    case isFalse =>
      dsimp only
      rw [if_pos (show ((t.taking (next :: more)).skip 1).inClass = true from h.inClass)]
      have hskip : ((t.taking (next :: more)).skip 1).MuteWithin before bracket :=
        { h with known := hknown }
      have hmore : readBody false (if !ctx.options.unescape &&
          (isClassMeta next || isClassEscapeLetter next) then ['\\', next]
        else escapeClassChar next) = some false := by
        split
        · rfl
        · exact readBody_escapeClassChar next
      obtain ⟨bracket', h'⟩ := hskip.appendClass hmore
      exact .within before bracket' h'

/-- Within brackets, what a character leads to is within brackets, or the bracket expression is
closed. -/
theorem MuteWithin.step (hctx : ctx.IsMute) (h : t.MuteWithin before bracket)
    (hbos : kindAt t.tokens 0 = some .bos) (hquoted : t.quoted = false)
    (hnoBracket : ctx.options.noBracket = false) (hrest : t.rest = c :: rest)
    (hok : Tokenizer.step ctx tail (t.taking rest) c = .ok t') : t'.Phase := by
  have hbos' : kindAt before 0 = some .bos := by
    rw [h.tokens] at hbos
    cases before with
    | nil => exact absurd (h.kind.symm.trans (Option.some.inj hbos)) (by simp)
    | cons first before => exact hbos
  by_cases hescape : c = '\\'
  · subst hescape
    obtain rfl : (t.taking rest).escape ctx = t' := Except.ok.inj hok
    exact h.step_escape hrest
  have hs := h.taking hrest hescape
  unfold Tokenizer.step at hok
  rw [if_neg hescape] at hok
  split at hok
  · cases hok
    exact .within before bracket hs
  · split at hok
    case isTrue =>
      cases hok
      obtain ⟨before', bracket', h'⟩ := hs.inBracket ctx hbos' c
      exact .within before' bracket' h'
    case isFalse hclosing =>
      simp only [hs.inClass, Bool.true_and, Bool.or_eq_true, decide_eq_true_eq, not_or,
        Classical.not_not] at hclosing
      obtain ⟨⟨rfl, -⟩, -⟩ := hclosing
      have hquoted' : (t.taking rest).quoted = false := hquoted
      rw [if_neg (by simp [hquoted'])] at hok
      exact .mute (hs.closeBracket hctx hnoBracket hok)

end

section
variable {tail : List Char → Except Error (List Char)} {c : Char} {rest : List Char}
variable (h : t.Mute) (hctx : ctx.IsMute) (hne : t.tokens ≠ [])
include h hctx hne

/-- A backslash outside of brackets. -/
theorem Mute.step_escape (hrest : t.rest = '\\' :: rest) : ((t.taking rest).escape ctx).Mute := by
  have hknown := h.known
  rw [hrest] at hknown
  unfold Tokenizer.escape
  split
  case h_1 hnil =>
    obtain rfl : rest = [] := hnil
    have hs : (t.taking []).Mute := { h with known := rfl }
    exact hs.pushText hctx hne _ (uncounted_backslash false '\\')
  case h_2 next more hmore =>
    obtain rfl : rest = next :: more := hmore
    split
    case isTrue hplain =>
      have hne : next ≠ '\\' ∧ next ≠ '(' := by
        constructor <;> rintro rfl <;> simp at hplain
      refine { h with known := ?_ }
      show opensKnown (next :: more) = true
      rw [opensKnown_cons hne.1 hne.2]
      exact hknown
    case isFalse =>
      have hs : ((t.taking (next :: more)).skip 1).Mute := { h with known := hknown }
      dsimp only
      rw [if_neg (by simp [hs.inClass])]
      split
      · exact hs.pushText hctx hne _ (silent_escapeChar next)
      · exact hs.pushText hctx hne _ (uncounted_backslash false next)

/-- A parenthesis. Before a question mark it belongs to the source language. -/
theorem Mute.step_openParen (hquoted : t.quoted = false) (hrest : t.rest = '(' :: rest) :
    ((t.taking rest).openParen ctx).Phase := by
  have hs : (t.taking rest).Mute := h.taking hrest (by decide)
  -- What the text opens in a known way is left to the two steps after this one.
  by_cases hnext : rest.head? = some '?'
  case neg =>
    refine .mute (hs.openParen hctx hne ?_)
    rwa [ahead_zero]
  case pos =>
    obtain ⟨more, rfl⟩ := List.head?_eq_some_iff.mp hnext
    obtain ⟨c, more, rfl, hmark⟩ : ∃ c after, more = c :: after ∧ isGroupMark c = true := by
      have hknown := h.known
      rw [hrest, opensKnown, Bool.and_eq_true] at hknown
      cases more with
      | nil => simp at hknown
      | cons c more => exact ⟨c, more, rfl, by simpa using hknown.1⟩
    let s : Tokenizer := { t.taking ('?' :: c :: more) with
      frames := .paren t.tokens.length :: t.frames }
    let paren := Token.ofSource .paren ['('] ['(']
    have hopened : (t.taking ('?' :: c :: more)).openParen ctx = s.push ctx paren := by
      have hcaptures : (ctx.options.capture || ctx.hasReference ||
          decide ((t.taking ('?' :: c :: more)).ahead 0 = some '?')) = true := by
        simp [ahead, Tokenizer.taking]
      unfold Tokenizer.openParen
      dsimp only
      rw [hcaptures]
      rfl
    have hkind : paren.kind ≠ .text := by simp [paren]
    obtain ⟨previous, htokens⟩ := tokens_push_of_kind_ne hkind ctx s
    have hframes : ∀ frame ∈ s.frames, frame.Points (s.push ctx paren).tokens := by
      refine List.forall_mem_cons.mpr ⟨kindAt_push (by simp [paren]) ctx s, fun frame hframe => ?_⟩
      exact (h.frames frame hframe).keep (keepsReferred_push (t := s) hne ctx paren)
    rw [hopened]
    refine .opened (s.prepared ctx paren).tokens { paren with previous } c more ⟨htokens,
      (hushed_prepared (t := s) hne hctx.star h.tokens paren).1, ⟨rfl, rfl⟩, rfl, ?_,
      (push_inClass ..).trans h.inClass, (push_quoted ..).trans hquoted,
      (push_rest ctx s paren).symm ▸ hs.known⟩ (push_rest ctx s paren) hmark
    rw [push_frames]
    exact points_noted hframes paren

/-- A leading `./` is dropped from the pattern. -/
theorem Mute.step_slash (hsound : t.Sound ctx) (hrest : t.rest = '/' :: rest) :
    ((t.taking rest).slash ctx).Mute := by
  have hs : (t.taking rest).Mute := h.taking hrest (by decide)
  unfold Tokenizer.slash
  split
  case isTrue hdot =>
    rw [Bool.and_eq_true, decide_eq_true_eq, decide_eq_true_eq] at hdot
    obtain ⟨⟨dot, htokens⟩, hframes, -⟩ := hsound.dot hdot.2 hdot.1
    refine ⟨?_, ?_, h.inClass, hs.known⟩
    · show Hushed t.tokens.dropLast
      rw [htokens]
      exact .cons (Token.isHushed_of_kind (uncounted_nil false) (by simp) (by simp)) .nil
    · show ∀ frame ∈ t.frames, _
      simp [hframes]
  case isFalse => exact hs.push_plain hctx hne _ (silent_slash _) (by simp) (by simp)

/-- An opening bracket. -/
theorem Mute.step_openBracket (hrest : t.rest = '[' :: rest)
    (hok : (t.taking rest).openBracket ctx = .ok t') : t'.Phase := by
  have hs : (t.taking rest).Mute := h.taking hrest (by decide)
  unfold Tokenizer.openBracket at hok
  split at hok
  case isTrue =>
    split at hok
    case isTrue => exact absurd hok (by simp)
    case isFalse =>
      cases hok
      exact .mute (hs.push hctx hne
        (Token.isHushed_of_kind (uncounted_backslash false '[') (by simp) (by simp)))
  case isFalse =>
    cases hok
    let s : Tokenizer := { t.taking rest with inClass := true }
    let token : Token := { kind := .bracket, value := ['['] }
    have hkind : token.kind ≠ .text := by simp [token]
    obtain ⟨previous, htokens⟩ := tokens_push_of_kind_ne hkind ctx s
    refine .within (s.prepared ctx token).tokens { token with previous } ⟨htokens,
      (hushed_prepared (t := s) hne hctx.star h.tokens token).1, ?_, push_inClass .., ?_, rfl, rfl,
      [], rfl, rfl⟩
    · show ∀ frame ∈ (s.push ctx token).frames, _
      rw [push_frames]
      exact points_noted (fun frame hframe => (h.frames frame hframe).keep
        (keepsReferred_prepared (t := s) hne ctx token)) token
    · show opensKnown (s.push ctx token).rest = true
      rw [push_rest]
      exact hs.known

/-- Every character that is read outside of brackets. -/
theorem Mute.step (hsound : t.Sound ctx)
    (htail : SilentTail tail) (hrest : t.rest = c :: rest)
    (hok : Tokenizer.step ctx tail (t.taking rest) c = .ok t') : t'.Phase := by
  by_cases hescape : c = '\\'
  · subst hescape
    obtain rfl : (t.taking rest).escape ctx = t' := Except.ok.inj hok
    exact .mute (h.step_escape hctx hne hrest)
  have hs : (t.taking rest).Mute := h.taking hrest hescape
  have hjoined : (t.taking rest).Joined := (hsound.taking h.inClass).1
  unfold Tokenizer.step at hok
  rw [if_neg hescape] at hok
  split at hok
  · cases hok
    exact .mute hs
  · rw [if_neg (by simp [hs.inClass])] at hok
    split at hok
    · cases hok
      exact .mute (hs.pushText hctx hne _ (silent_escapeChar c))
    · rename_i hquoted
      split at hok
      case h_1 =>
        cases hok
        let s : Tokenizer := { t.taking rest with quoted := !(t.taking rest).quoted }
        have hs' : s.Mute := hs.of_same rfl rfl rfl rfl
        refine .mute ?_
        show (if ctx.options.keepQuotes then s.pushText ctx ['"'] ['"'] else s).Mute
        split
        · exact hs'.pushText hctx hne _ (silent_of_isLoose (by decide))
        · exact hs'
      case h_2 =>
        cases hok
        exact h.step_openParen hctx hne (by simpa [Tokenizer.taking] using hquoted) hrest
      case h_3 => exact .mute (hs.closeParen hctx hne htail hok)
      case h_4 => exact h.step_openBracket hctx hne hrest hok
      case h_5 => exact .mute (hs.closeBracket hctx hne hok)
      case h_6 =>
        cases hok
        split
        · exact .mute (hs.plainText hctx hne (by decide))
        · exact .mute (hs.openBrace hctx hne)
      case h_7 =>
        cases hok
        exact .mute (hs.closeBrace hctx hne hjoined)
      case h_8 =>
        cases hok
        refine .mute (hs.pushText hctx hne _ ?_)
        split <;> exact fun _ => rfl
      case h_9 =>
        cases hok
        exact .mute (hs.comma hctx hne)
      case h_10 =>
        cases hok
        exact .mute (h.step_slash hctx hne hsound hrest)
      case h_11 =>
        cases hok
        exact .mute (hs.dot hctx hne)
      case h_12 =>
        cases hok
        exact .mute (hs.qmark hctx hne)
      case h_13 =>
        cases hok
        exact .mute (hs.bang hctx hne)
      case h_14 =>
        cases hok
        refine .mute (hs.operator hctx hne _ (by decide) ?_)
        exact Token.isHushed_of_kind (uncounted_backslash false '+') (by simp) (by simp)
      case h_15 =>
        cases hok
        refine .mute (hs.operator hctx hne _ (by decide) ?_)
        exact Token.isHushed_of_kind (silent_of_isLoose (by decide)) (by simp) (by simp)
      case h_16 =>
        cases hok
        exact .mute (hs.star hctx hne hjoined)
      case h_17 =>
        cases hok
        have hloose : isLoose c = true := by
          simp only [isLoose, List.contains_eq_mem, List.mem_cons, List.not_mem_nil, or_false,
            Bool.not_eq_true', decide_eq_false_iff_not, not_or]
          exact ⟨hescape, ‹_›, ‹_›, ‹_›⟩
        exact .mute (hs.plainText hctx hne hloose)

end

/-- Every step leads from one phase to another. -/
theorem Phase.step {tail : List Char → Except Error (List Char)} {c : Char} {rest : List Char}
    (hctx : ctx.IsMute) (h : t.Phase) (hsound : t.Sound ctx)
    (htail : SilentTail tail) (hrest : t.rest = c :: rest)
    (hok : Tokenizer.step ctx tail (t.taking rest) c = .ok t') : t'.Phase := by
  have hlinked := hsound.joined.linked
  cases h with
  | mute h => exact h.step hctx hlinked.ne_nil hsound htail hrest hok
  | opened before paren c more h hrest' hmark =>
    obtain ⟨rfl, rfl⟩ := List.cons.inj (hrest.symm.trans hrest')
    exact h.step_question hrest hmark hok
  | asked before paren text c more h hkind hsource hrest' hmark =>
    obtain ⟨rfl, rfl⟩ := List.cons.inj (hrest.symm.trans hrest')
    refine .mute (h.step_mark hctx hkind hsource (fun hzero => ?_) hrest hmark hok)
    -- A group has been opened, so something has been read.
    have hstart := hsound.start
    have hfresh := (hsound.first (by omega)).tokens
    rw [h.tokens] at hfresh
    have := congrArg List.length hfresh
    simp at this
  | within before bracket h =>
    obtain hnil | hbracketed := hsound.brackets h.inClass
    · exact absurd (hrest.symm.trans hnil) (by simp)
    · exact h.step hctx hlinked.head hbracketed.quoted hbracketed.noBracket hrest hok
  | cut _ _ _ _ _ _ _ hnil => exact absurd (hrest.symm.trans hnil) (by simp)

/-- So does a whole run. -/
theorem Phase.run {tail : List Char → Except Error (List Char)} (hctx : ctx.IsMute)
    (htail : SilentTail tail) (n : Nat) (h : t.Phase) (hsound : t.Sound ctx)
    (hok : Tokenizer.run ctx tail n t = .ok t') : t'.Phase := by
  induction n generalizing t with
  | zero =>
    cases hok
    exact h
  | succ n ih =>
    rw [Tokenizer.run] at hok
    split at hok
    case h_1 =>
      cases hok
      exact h
    case h_2 c rest hrest =>
      obtain ⟨next, hstep, hrun⟩ := bind_eq_ok hok
      exact ih (h.step hctx hsound htail hrest hstep)
        (hsound.step hctx.star_ne_nil hrest hstep) hrun

/-! ### The end of the text -/

section
variable {s : Tokenizer}

/-- A bracket that is still open becomes text. -/
theorem Phase.endBracket (h : t.Phase) (hrest : t.rest = []) (hok : t.endBracket ctx = .ok s) :
    s.Mute := by
  unfold Tokenizer.endBracket at hok
  have hsilent (bracket : Token) (hsource : bracket.source? = none) :
      Silent { bracket with value := Regex.escape bracket.value : Token }.source := by
    rw [Token.source, hsource]
    exact silent_escape _
  -- An open class is escaped, whatever stands behind it.
  have hopen (hclass : t.inClass = true) {before after : List Token} {bracket : Token}
      (htokens : t.tokens = before ++ bracket :: after) (hkind : bracket.kind = .bracket)
      (hsource : bracket.source? = none) (hhushed : Hushed before)
      (hframes : ∀ frame ∈ t.frames, frame.Points before) (hafter : Hushed after)
      (hkinds : ∀ token ∈ after, token.kind ≠ .bracket) : s.Mute := by
    rw [hclass] at hok
    split at hok
    case isTrue hfalse => exact absurd hfalse (by simp)
    split at hok
    case isTrue => exact absurd hok (by simp)
    case isFalse =>
      cases hok
      let escaped : Token := { bracket with value := Regex.escape bracket.value }
      have hescaped : modifyLastWhere (fun token => token.kind = .bracket)
          (fun token => { token with value := Regex.escape token.value }) t.tokens =
            before ++ escaped :: after := by
        rw [htokens, modifyLastWhere_append (by simp [hkind])
          fun token htoken => by simp [hkinds token htoken]]
      refine ⟨?_, fun frame hframe => ?_, rfl, hrest.symm ▸ rfl⟩
      · rw [hescaped]
        exact hhushed.append (.cons (Token.isHushed_of_kind (hsilent bracket hsource)
          (by simp [escaped, hkind]) (by simp [escaped, hkind])) hafter)
      · rw [hescaped]
        exact (hframes frame hframe).keep fun place kind hplace _ => Settled.kindAt_append hplace _
  cases h with
  | mute h =>
    rw [if_pos (by simp [h.inClass])] at hok
    cases hok
    exact h
  | opened _ _ _ _ _ hmore | asked _ _ _ _ _ _ _ _ hmore =>
    exact absurd (hrest.symm.trans hmore) (by simp)
  | within before bracket h =>
    exact hopen h.inClass h.tokens h.kind h.source? h.hushed h.frames .nil (by simp)
  | cut before bracket text htokens hhushed hframes hclass _ hkind hsource htext hsilent =>
    exact hopen hclass htokens hkind hsource hhushed hframes
      (.cons (Token.isHushed_of_kind hsilent (by simp [htext]) (by simp [htext])) .nil)
      (by simp [htext])

/-- A token that an open group refers to becomes text. -/
theorem Mute.setSource (h : t.Mute) {place : Nat} {kind : TokenKind}
    (hplace : kindAt t.tokens place = some kind)
    (hkind : kind = .paren ∨ kind = .brace ∨ kind = .comma) {c : Char} {source : List Char}
    (hsource : Silent (c :: source)) (hc : IsMildChar c) :
    (t.setSource place (c :: source)).Mute := by
  refine h.modify hplace ?_ (fun _ => rfl) fun token _ heq => ?_
  · obtain rfl | rfl | rfl := hkind <;> simp
  · obtain rfl | rfl | rfl := hkind
    · exact Token.isHushed_paren heq hsource rfl hc
    · exact Token.isHushed_of_kind hsource (by simp [heq]) (by simp [heq])
    · exact Token.isHushed_of_kind hsource (by simp [heq]) (by simp [heq])

theorem Mute.setSources {places : List Nat} (h : t.Mute)
    (hplaces : ∀ place ∈ places, kindAt t.tokens place = some .comma) :
    (places.foldl (fun t place => t.setSource place [',']) t).Mute := by
  induction places generalizing t with
  | nil => exact h
  | cons place places ih =>
    rw [List.forall_mem_cons] at hplaces
    have hset : (t.setSource place [',']).Mute :=
      h.setSource hplaces.1 (.inr (.inr rfl)) (fun _ => rfl) (by decide)
    refine ih hset fun other hother => ?_
    rw [kindAt_setSource]
    exact hplaces.2 other hother

/-- What opens a group that is still open becomes text, and so do its commas. -/
theorem Mute.endFrame (h : t.Mute) {frame : Frame} (hframe : frame.Points t.tokens) :
    (t.endFrame frame).Mute := by
  have hparen : Silent ['\\', '('] := uncounted_backslash false '('
  cases frame with
  | paren place => exact h.setSource hframe (.inl rfl) hparen (by decide)
  | extglob frame =>
    let change (token : Token) : Token := { token with source? := some (Regex.escape token.value) }
    have hmodified : (t.modify frame.operator change).Mute := by
      refine h.modify hframe.1 (by simp) (fun _ => rfl) fun token htoken hkind => ?_
      have hmild := ((h.tokens.isHushed htoken (by simp [hkind])).operator frame.kind hkind).2
      exact ⟨silent_escape _, by simp [change, hkind], fun _ _ => ⟨hmild, hmild⟩⟩
    have hplace :
        kindAt (t.tokens.modify frame.operator change) (frame.operator + 1) = some .paren := by
      rw [kindAt_modify_of_kind_eq change fun _ => rfl]
      exact hframe.2
    exact hmodified.setSource hplace (.inl rfl) hparen (by decide)
  | brace frame =>
    have hset : (t.setSource frame.token ['\\', '{']).Mute :=
      h.setSource hframe.1 (.inr (.inl rfl)) (uncounted_backslash false '{') (by decide)
    refine hset.setSources fun place hplace => ?_
    rw [kindAt_setSource]
    exact hframe.2 place hplace

theorem Mute.endFrames (h : t.Mute) {frames : List Frame}
    (hframes : ∀ frame ∈ frames, frame.Points t.tokens) :
    (frames.foldl Tokenizer.endFrame t).Mute := by
  induction frames generalizing t with
  | nil => exact h
  | cons frame frames ih =>
    rw [List.forall_mem_cons] at hframes
    refine ih (h.endFrame hframes.1) fun other hother => (hframes.2 other hother).keep ?_
    exact fun place kind hplace _ => (kindAt_endFrame t frame place).trans hplace

theorem Mute.allowSlash (hctx : ctx.IsMute) (h : t.Mute) : (t.allowSlash ctx).Mute := by
  unfold Tokenizer.allowSlash
  split
  case isFalse => exact h
  case isTrue hlast =>
    have hne : t.tokens ≠ [] := by
      intro hnil
      simp [last, hnil] at hlast
    have hsilent : Silent (Fragment.slash ctx.windows ++ ['?']) :=
      (silent_slash _).append (silent_of_isLoose (by decide))
    exact h.push_plain hctx hne _ hsilent (by simp) (by simp)

/-- What is still open at the end becomes text, and no group of the source captures. -/
theorem Phase.hushed_finish (hctx : ctx.IsMute) (h : t.Phase) (hrest : t.rest = [])
    (hok : t.finish ctx = .ok s) : Hushed s.tokens := by
  unfold finish at hok
  obtain ⟨bracketed, hbracket, hok⟩ := bind_eq_ok hok
  obtain ⟨framed, hframes, hok⟩ := bind_eq_ok hok
  have hmute := h.endBracket hrest hbracket
  have hframed : framed.Mute := by
    unfold Tokenizer.endFrames at hframes
    split at hframes
    case h_1 =>
      cases hframes
      exact hmute
    case h_2 =>
      split at hframes
      case isTrue => exact absurd hframes (by simp)
      case isFalse =>
        cases hframes
        exact { hmute.endFrames hmute.frames with frames := by simp }
  cases hok
  split <;> exact (hframed.allowSlash hctx).tokens

end

end Tokenizer

/-! ### Whole patterns -/

section
variable {options : Options} {tail : List Char → Except Error (List Char)} {pattern : List Char}
  {translation : Translation}

theorem Context.hushed_tokenize {ctx : Context} (hctx : ctx.IsMute)
    (hknown : opensKnown ctx.body = true) (htail : SilentTail tail)
    (hok : ctx.tokenize tail = .ok translation) :
    Hushed translation.tokens := by
  unfold tokenize at hok
  obtain ⟨t, hrun, hok⟩ := bind_eq_ok hok
  obtain ⟨s, hfinish, hok⟩ := bind_eq_ok hok
  cases hok
  have hbegin : Tokenizer.Phase { rest := ctx.body } :=
    .mute ⟨.cons (Token.isHushed_of_kind (uncounted_nil false) (by simp) (by simp)) .nil, by simp,
      rfl, hknown⟩
  exact (hbegin.run hctx htail _ (Tokenizer.sound_begin ctx ctx.body) hrun).hushed_finish hctx
    (Tokenizer.rest_run (t := { rest := ctx.body }) (Nat.le_refl _) hrun) hfinish

theorem silent_starSource (hcapture : options.capture = false) : Silent (starSource options) := by
  unfold starSource
  rw [hcapture]
  show Silent (if options.bash then _ else _)
  split
  · exact silent_globstar _ _
  · exact silent_star _

theorem silent_translate (hcapture : options.capture = false)
    (hexpandRange : options.expandRange = none)
    (hknown : opensKnown (Context.ofPattern options pattern).body = true)
    (hback : refersBack (Context.ofPattern options pattern).body = false)
    (htail : SilentTail tail)
    (hok : translate options tail pattern = .ok translation) : Silent translation.output := by
  have hctx : (Context.ofPattern options pattern).IsMute :=
    ⟨hcapture, hexpandRange, hback, silent_starSource hcapture, starSource_ne_nil options⟩
  -- A shortcut has the same source as the tokenizer.
  have hessence := translate_essence options tail pattern
  rw [hok] at hessence
  cases htokenize : (Context.ofPattern options pattern).tokenize tail with
  | error =>
    rw [htokenize] at hessence
    exact absurd hessence (by simp [Except.map])
  | ok slow =>
    rw [htokenize] at hessence
    have hsame : translation.essence = slow.essence := by simpa [Except.map] using hessence
    have houtput : translation.essence.output = slow.essence.output := by rw [hsame]
    rw [show translation.output = slow.output from houtput,
      Context.output_tokenize hctx.star_ne_nil htokenize]
    exact (Context.hushed_tokenize hctx hknown htail htokenize).silent

theorem silent_parseWithin (depth : Nat) (hcapture : options.capture = false)
    (hexpandRange : options.expandRange = none)
    (hknown : opensKnown (Context.ofPattern options pattern).body = true)
    (hback : refersBack (Context.ofPattern options pattern).body = false)
    (hok : parseWithin depth options pattern = .ok translation) : Silent translation.output := by
  induction depth generalizing options pattern translation with
  | zero =>
    unfold parseWithin at hok
    dsimp only at hok
    repeat' split at hok
    case isTrue | isTrue => exact absurd hok (by simp)
    case isFalse =>
      exact silent_translate hcapture hexpandRange hknown hback
        (fun _ _ _ _ herror => absurd herror (by simp)) hok
  | succ depth ih =>
    unfold parseWithin at hok
    dsimp only at hok
    repeat' split at hok
    case isTrue | isTrue => exact absurd hok (by simp)
    case isFalse =>
      refine silent_translate hcapture hexpandRange hknown hback
        (fun text output hextension hopens htail => ?_) hok
      obtain ⟨parsed, hparse, rfl⟩ := Tokenizer.exists_of_map_eq_ok htail
      let inner : Options := { options with fastPaths := false }
      have hbody := body_of_isExtension inner hextension
      have hknown' : opensKnown (Context.ofPattern inner text).body = true := hbody.symm ▸ hopens
      have hback' : refersBack (Context.ofPattern inner text).body = false := by
        rw [hbody]
        exact refersBack_of_not_mem fun hmem => (plain_of_isExtension hextension _ hmem).1 rfl
      exact @ih inner text parsed hcapture hexpandRange hknown' hback' hparse

/-- What the tokenizer reads opens groups and refers to them only where the normalised pattern
does. -/
theorem body_of_opensKnown
    (hknown : opensKnown (if options.windows then Separator.normalize pattern else pattern) = true)
    (hback : refersBack
      (if options.windows then Separator.normalize pattern else pattern) = false) :
    opensKnown (Context.ofPattern options pattern).body = true ∧
      refersBack (Context.ofPattern options pattern).body = false := by
  let normal (pattern : List Char) : List Char :=
    if options.windows then Separator.normalize pattern else pattern
  have hsimple : opensKnown (normal (simplify pattern)) = true ∧
      refersBack (normal (simplify pattern)) = false := by
    have hstars (stars : List Char) (hstars : stars = ['*'] ∨ stars = ['*', '*']) :
        opensKnown (normal stars) = true ∧ refersBack (normal stars) = false := by
      obtain rfl | rfl := hstars <;> cases hwindows : options.windows <;>
        simp only [normal, hwindows] <;> decide
    unfold simplify
    split
    · exact hstars _ (.inl rfl)
    · split
      · exact hstars _ (.inr rfl)
      · split
        · exact hstars _ (.inr rfl)
        · exact ⟨hknown, hback⟩
  show opensKnown (dropDotSlash (normal (simplify pattern))).2 = true ∧
    refersBack (dropDotSlash (normal (simplify pattern))).2 = false
  generalize normal (simplify pattern) = text at hsimple
  unfold dropDotSlash
  split
  case h_1 rest =>
    exact ⟨opensKnown_tail (by decide) (opensKnown_tail (by decide) hsimple.1), hsimple.2⟩
  case h_2 => exact hsimple

end

end Pattern

open Pattern

/-- Groups capture on request only: with captures not asked for, the translation of a pattern has no
capturing group if no backslash of the pattern stands before a digit, and if every parenthesis that
has a question mark behind it goes on with `!`, `=` or `:`. -/
theorem captureGroups_eq_zero {options : Options} {pattern : List Char}
    {translation : Translation} (hcapture : options.capture = false)
    (hexpandRange : options.expandRange = none)
    (hknown : opensKnown (if options.windows then Separator.normalize pattern else pattern) = true)
    (hback : refersBack (if options.windows then Separator.normalize pattern else pattern) = false)
    (hok : parse pattern options = .ok translation) : translation.captureGroups = 0 := by
  obtain ⟨hknown, hback⟩ := body_of_opensKnown hknown hback
  exact (silent_parseWithin pattern.length hcapture hexpandRange hknown hback
    hok).captureCount_eq_zero

/-- A lookahead, a group of the source language, and groups of the pattern, one of them open. -/
theorem captureGroups_eq_zero_lookahead : ∃ translation,
    parse ['(', '?', '!', '(', 'a', ')', 'b', ')', '(', '?', ':', '{', 'c', ',', 'd', '}', ')', '(']
      {} = .ok translation ∧ translation.captureGroups = 0 := by
  have hok : (parse ['(', '?', '!', '(', 'a', ')', 'b', ')', '(', '?', ':', '{', 'c', ',', 'd', '}',
      ')', '('] {}).toOption.isSome = true := by decide +kernel
  obtain ⟨translation, hparse⟩ := Pattern.exists_eq_ok hok
  exact ⟨translation, hparse, captureGroups_eq_zero rfl rfl (by decide) (by decide) hparse⟩

end PathGlob
