import PathGlob.Proofs.Pattern.Hushed

/-!
# `PathGlob.Proofs.Pattern.Mute`: characters that open no capturing group

Outside of brackets the tokens are hushed, the open groups refer to what they take it for, and every
group that the text opens with a question mark goes on in a known way (`Tokenizer.Mute`). One lemma
for each character says that it stays so, or for a parenthesis before a question mark, that it is so
again two characters later.
-/

set_option autoImplicit false

namespace PathGlob.Pattern

open Regex

/-! ### The text -/

/-- A question mark that begins a group is followed by one of these characters, unless it has no
special meaning. -/
def isGroupMark (c : Char) : Bool := c = '!' || c = '=' || c = ':'

/-- Outside of escapes, a question mark behind a parenthesis begins a group that does not
capture. -/
def opensKnown : List Char → Bool
  | [] => true
  | '\\' :: rest => match rest with
    | [] => true
    | _ :: rest => opensKnown rest
  | '(' :: rest => (rest.head? ≠ some '?' || rest[1]?.any isGroupMark) && opensKnown rest
  | _ :: rest => opensKnown rest

theorem opensKnown_tail {c : Char} {rest : List Char} (hc : c ≠ '\\')
    (h : opensKnown (c :: rest) = true) : opensKnown rest = true := by
  rw [opensKnown.eq_def] at h
  split at h <;> simp_all

theorem opensKnown_cons {c : Char} {rest : List Char} (hc : c ≠ '\\') (hparen : c ≠ '(') :
    opensKnown (c :: rest) = opensKnown rest := by
  rw [opensKnown.eq_def]
  split <;> simp_all

theorem opensKnown_drop {n : Nat} {rest : List Char} (hskip : ∀ c ∈ rest.take n, c ≠ '\\')
    (h : opensKnown rest = true) : opensKnown (rest.drop n) = true := by
  induction rest generalizing n with
  | nil => simpa using h
  | cons c rest ih =>
    cases n with
    | zero => exact h
    | succ n =>
      rw [List.take_succ_cons, List.forall_mem_cons] at hskip
      exact ih hskip.2 (opensKnown_tail hskip.1 h)

/-- The next character is read over. -/
theorem opensKnown_drop_one {c : Char} {rest : List Char} (hnext : rest[0]? = some c)
    (hc : c ≠ '\\') (h : opensKnown rest = true) : opensKnown (rest.drop 1) = true := by
  cases rest with
  | nil => exact absurd hnext (by simp)
  | cons first rest =>
    obtain rfl : first = c := Option.some.inj hnext
    exact opensKnown_tail hc h

/-- A run of plain text is read over. -/
theorem opensKnown_drop_run {rest : List Char} (h : opensKnown rest = true) :
    opensKnown (rest.drop (rest.takeWhile fun d => !isSpecial d).length) = true := by
  refine opensKnown_drop (fun d hd => ?_) h
  rw [← List.prefix_iff_eq_take.mp (List.takeWhile_prefix _)] at hd
  rintro rfl
  exact absurd (isSpecial_of_mem_run hd) (by decide)

/-! ### Sources -/

/-- Without captures, and with no reference to a group, the translation opens none that captures. -/
structure Context.IsMute (ctx : Context) : Prop where
  capture : ctx.options.capture = false
  expandRange : ctx.options.expandRange = none
  hasReference : ctx.hasReference = false
  star : Silent ctx.star
  star_ne_nil : ctx.star ≠ []

theorem isMild_escape {text : List Char} (h : IsMild text) : IsMild (Regex.escape text) := by
  cases text with
  | nil => exact isMild_nil
  | cons c text =>
    rw [Regex.escape, List.flatMap_cons]
    unfold Regex.escapeChar
    split
    · exact isMild_cons (by decide) _
    · exact isMild_cons (h c rfl) _

theorem ExtglobKind.silent_opening (kind : ExtglobKind) : Silent kind.opening := fun rest => by
  cases kind <;> simp [ExtglobKind.opening, countCaptures, opensCapture]

theorem ExtglobKind.silent_closing {star : List Char} (hstar : Silent star) (kind : ExtglobKind) :
    Silent (kind.closing star) := by
  have hclose : Silent [')'] := fun _ => rfl
  cases kind with
  | negate =>
    have := ((hclose.append hclose).append hstar).append hclose
    exact this
  | zeroOrOne | oneOrMore | zeroOrMore | exactlyOne => exact fun _ => rfl

namespace Context

variable {ctx : Context}

theorem silent_dotGuard (ctx : Context) : Silent ctx.dotGuard := Regex.silent_dotGuard _ _

theorem isMild_dotGuard (ctx : Context) : IsMild ctx.dotGuard := by
  unfold dotGuard Fragment.dotGuard
  split <;> exact isMild_cons (by decide) _

theorem IsMute.silent_globstar (hctx : ctx.IsMute) : Silent ctx.globstar := by
  unfold globstar
  rw [hctx.capture]
  exact Regex.silent_globstar _ _

end Context

/-- What follows a negated group is translated without capturing groups, if it is an extension of a
file name. -/
def SilentTail (tail : List Char → Except Error (List Char)) : Prop :=
  ∀ text output, isExtension text = true → opensKnown text = true → tail text = .ok output →
    Silent output

/-! ### Open groups -/

/-- The frame refers to tokens of the kinds that it takes them for. -/
def Frame.Points (tokens : List Token) : Frame → Prop
  | .paren place => kindAt tokens place = some .paren
  | .extglob frame => kindAt tokens frame.operator = some (.extglob frame.kind) ∧
      kindAt tokens (frame.operator + 1) = some .paren
  | .brace frame => kindAt tokens frame.token = some .brace ∧
      ∀ place ∈ frame.commas, kindAt tokens place = some .comma

/-- What open groups may refer to stays where it is. -/
def KeepsReferred (tokens tokens' : List Token) : Prop :=
  ∀ place kind, kindAt tokens place = some kind → kind.isReferred = true →
    kindAt tokens' place = some kind

theorem Frame.Points.keep {frame : Frame} {tokens tokens' : List Token} (h : frame.Points tokens)
    (hkeeps : KeepsReferred tokens tokens') : frame.Points tokens' := by
  cases frame with
  | paren place => exact hkeeps _ _ h rfl
  | extglob frame => exact ⟨hkeeps _ _ h.1 rfl, hkeeps _ _ h.2 rfl⟩
  | brace frame => exact ⟨hkeeps _ _ h.1 rfl, fun place hplace => hkeeps _ _ (h.2 place hplace) rfl⟩

namespace Tokenizer

variable {ctx : Context} {t : Tokenizer} {token : Token} {frames : List Frame}

/-- What holds outside of brackets between two characters, except within the beginning of a group of
the source language. -/
structure Mute (t : Tokenizer) : Prop where
  tokens : Hushed t.tokens
  frames : ∀ frame ∈ t.frames, frame.Points t.tokens
  inClass : t.inClass = false
  known : opensKnown t.rest = true

theorem Mute.of_same (h : t.Mute) {s : Tokenizer} (htokens : s.tokens = t.tokens)
    (hframes : s.frames = t.frames) (hclass : s.inClass = t.inClass) (hrest : s.rest = t.rest) :
    s.Mute where
  tokens := htokens ▸ h.tokens
  frames := by
    rw [htokens, hframes]
    exact h.frames
  inClass := hclass.trans h.inClass
  known := hrest ▸ h.known

theorem Mute.skip (h : t.Mute) {n : Nat} (hskip : ∀ c ∈ t.rest.take n, c ≠ '\\') :
    (t.skip n).Mute :=
  { h with known := opensKnown_drop hskip h.known }

/-- A token is changed that is no text, and stays of its kind. -/
theorem Mute.modify (h : t.Mute) {place : Nat} {kind : TokenKind} {change : Token → Token}
    (hplace : kindAt t.tokens place = some kind) (htext : kind ≠ .text)
    (hkind : ∀ token, (change token).kind = token.kind)
    (hchange : ∀ token ∈ t.tokens, token.kind = kind → (change token).IsHushed) :
    (t.modify place change).Mute where
  tokens := h.tokens.modify fun token htoken => by
    rw [kindAt, htoken] at hplace
    obtain rfl : token.kind = kind := Option.some.inj hplace
    exact ⟨htext, fun _ => hkind token, hchange token (List.mem_of_getElem? htoken) rfl⟩
  frames frame hframe :=
    (h.frames frame hframe).keep (Layout.kindAt_modify fun token _ _ => hkind token)
  inClass := h.inClass
  known := h.known

/-! ### Adding a token -/

theorem points_noted {tokens : List Token} (h : ∀ frame ∈ t.frames, frame.Points tokens)
    (token : Token) : ∀ frame ∈ t.noted token, frame.Points tokens := by
  unfold noted
  split
  · exact h
  · refine forall_mem_modifyFrame (fun frame frame' hchange hpoints => ?_) h
    cases frame with
    | paren | brace => exact absurd hchange (by simp)
    | extglob frame =>
      cases hchange
      exact hpoints

section
variable (hne : t.tokens ≠ [])
include hne

/-- A globstar that is demoted is nothing that a group refers to. -/
theorem keepsReferred_prepared (ctx : Context) (token : Token) :
    KeepsReferred t.tokens (t.prepared ctx token).tokens := by
  obtain heq | ⟨hlast, -, heq⟩ := prepared_cases ctx t token
  · rw [heq]
    exact fun _ _ hkind _ => hkind
  · rw [heq]
    refine Layout.kindAt_modify fun found hfound hreferred => ?_
    cases (getElem?_lastPlace hne).symm.trans hfound
    exact absurd hreferred (by simp [hlast, TokenKind.isReferred])

/-- Nor is a text that grows. -/
theorem keepsReferred_push (ctx : Context) (token : Token) :
    KeepsReferred t.tokens (t.push ctx token).tokens := by
  have hpushed (s : Tokenizer) : KeepsReferred s.tokens (s.pushed token) := by
    unfold Tokenizer.pushed
    split
    · exact Layout.kindAt_modify fun _ _ _ => rfl
    · exact fun place kind hkind _ => Settled.kindAt_append hkind _
  rw [push_eq_prepared]
  exact fun place kind hkind hreferred => hpushed _ place kind
    (keepsReferred_prepared hne ctx token place kind hkind hreferred) hreferred

theorem hushed_prepared (hstar : Silent ctx.star) (h : Hushed t.tokens) (token : Token) :
    Hushed (t.prepared ctx token).tokens ∧ (t.prepared ctx token).tokens ≠ [] := by
  obtain heq | ⟨hlast, -, heq⟩ := prepared_cases ctx t token
  · rw [heq]
    exact ⟨h, hne⟩
  · obtain ⟨before, htokens⟩ := exists_tokens_eq hne
    have hdemoted : (t.demoteGlobstar ctx).tokens = before ++ [{ t.last with
        kind := .star, value := ['*'], source? := some ctx.star }] := tokens_modifyLast htokens
    rw [htokens] at h
    rw [heq, hdemoted]
    refine ⟨h.setLast (Token.isHushed_of_kind hstar (by simp) (by simp)) ?_ ?_, by simp⟩
    · simp [hlast]
    · simp [hlast, TokenKind.isReferred]

theorem hushed_push (hstar : Silent ctx.star) (h : Hushed t.tokens) (htoken : token.IsHushed) :
    Hushed (t.push ctx token).tokens := by
  obtain ⟨hprepared, hne'⟩ := hushed_prepared hne hstar h token
  rw [push_eq_prepared]
  show Hushed ((t.prepared ctx token).pushed token)
  obtain ⟨before, htokens⟩ := exists_tokens_eq hne'
  rw [htokens] at hprepared
  rw [pushed_eq htokens]
  split
  case isTrue hmerge =>
    -- Text is joined to the text before it.
    rw [Bool.and_eq_true, decide_eq_true_eq, decide_eq_true_eq] at hmerge
    refine hprepared.setLast (Token.isHushed_of_kind ?_ ?_ ?_) (fun htext => ⟨htext, ?_⟩)
      fun _ => rfl
    · exact hprepared.isHushed_last.silent.append htoken.silent
    · simp [hmerge.1]
    · simp [hmerge.1]
    · exact List.prefix_append _ _
  case isFalse =>
    let linked : Token := { token with previous := some before.length }
    have hlinked : linked.IsHushed := htoken.congr rfl rfl rfl
    have := hprepared.concat hlinked
    rwa [List.append_assoc] at this

end

section
variable (h : t.Mute) (hctx : ctx.IsMute) (hne : t.tokens ≠ [])
include h hctx hne

/-- A token is added along with new frames, given what these refer to. -/
theorem Mute.push_withFrames (htoken : token.IsHushed)
    (hframes : ∀ frame ∈ frames,
      frame.Points (({ t with frames } : Tokenizer).push ctx token).tokens) :
    (({ t with frames } : Tokenizer).push ctx token).Mute where
  tokens := hushed_push (t := { t with frames }) hne hctx.star h.tokens htoken
  frames := by
    rw [push_frames]
    exact points_noted hframes token
  inClass := (push_inClass ..).trans h.inClass
  known := (push_rest ctx { t with frames } token).symm ▸ h.known

/-- A token is added, and perhaps frames are taken away that are no longer open. -/
theorem Mute.push_sublist (htoken : token.IsHushed) (hsub : frames.Sublist t.frames) :
    (({ t with frames } : Tokenizer).push ctx token).Mute :=
  h.push_withFrames hctx hne htoken fun frame hframe =>
    (h.frames frame (hsub.subset hframe)).keep (keepsReferred_push (t := { t with frames }) hne _ _)

theorem Mute.push (htoken : token.IsHushed) : (t.push ctx token).Mute :=
  h.push_sublist hctx hne htoken (List.Sublist.refl _)

/-- A token is added that opens a group. -/
theorem Mute.push_opening (htoken : token.IsHushed) {frame : Frame}
    (hframe : frame.Points
      (({ t with frames := frame :: t.frames } : Tokenizer).push ctx token).tokens) :
    (({ t with frames := frame :: t.frames } : Tokenizer).push ctx token).Mute := by
  refine h.push_withFrames hctx hne htoken ?_
  refine List.forall_mem_cons.mpr ⟨hframe, fun outer houter => ?_⟩
  exact (h.frames outer houter).keep
    (keepsReferred_push (t := { t with frames := frame :: t.frames }) hne _ _)

/-- A token that belongs to no group. -/
theorem Mute.push_plain {kind : TokenKind} (value : List Char) {source : List Char}
    (hsource : Silent source) (hparen : kind ≠ .paren)
    (hoperator : ∀ other, kind ≠ .extglob other) :
    (t.push ctx (.ofSource kind value source)).Mute :=
  h.push hctx hne (Token.isHushed_of_kind hsource hparen hoperator)

theorem Mute.pushText (value : List Char) {source : List Char} (hsource : Silent source) :
    (t.pushText ctx value source).Mute :=
  h.push_plain hctx hne value hsource (by simp) (by simp)

end

/-! ### Characters -/

theorem Mute.taking (h : t.Mute) {c : Char} {rest : List Char} (hrest : t.rest = c :: rest)
    (hc : c ≠ '\\') : (t.taking rest).Mute :=
  { h with known := opensKnown_tail hc (hrest ▸ h.known) }

section
variable (h : t.Mute) (hctx : ctx.IsMute) (hne : t.tokens ≠ [])
include h hctx hne

theorem Mute.plainText {c : Char} (hc : isLoose c = true) : (t.plainText ctx c).Mute := by
  let run := t.rest.takeWhile fun d => !isSpecial d
  have hskip : (t.skip run.length).Mute := { h with known := opensKnown_drop_run h.known }
  refine hskip.pushText hctx hne _
    (Uncounted.append ?_ (silent_loose fun _ => isLoose_of_mem_run))
  split
  · exact uncounted_backslash false c
  · exact silent_of_isLoose hc

/-! #### Groups -/

theorem Mute.openBrace : (t.openBrace ctx).Mute := by
  refine h.push_opening hctx hne ?_ ⟨?_, fun _ hplace => absurd hplace List.not_mem_nil⟩
  · refine Token.isHushed_of_kind ?_ (by simp) (by simp)
    rw [hctx.capture]
    exact silent_openGroup
  · exact kindAt_push (by simp) ctx _

theorem Mute.comma : (t.comma ctx).Mute := by
  unfold Tokenizer.comma
  split
  case h_2 => exact h.push_plain hctx hne _ (fun _ => rfl) (by simp) (by simp)
  case h_1 frame frames hframes =>
    let noted : Frame :=
      .brace { frame with comma := true, commas := frame.commas ++ [t.tokens.length] }
    let s : Tokenizer := { t with frames := noted :: frames }
    let token := Token.ofSource .comma [','] ['|']
    have hkeeps : KeepsReferred t.tokens (s.push ctx token).tokens :=
      keepsReferred_push (t := s) hne ctx token
    have htoken : token.IsHushed :=
      Token.isHushed_of_kind (fun _ => rfl) (by simp [token]) (by simp [token])
    have hframe : noted.Points (s.push ctx token).tokens := by
      obtain ⟨hbrace, hcommas⟩ := (h.frames (.brace frame) (by simp [hframes])).keep hkeeps
      refine ⟨hbrace, fun place hplace => ?_⟩
      obtain hplace | hplace := List.mem_append.mp hplace
      · exact hcommas place hplace
      · rw [List.mem_singleton.mp hplace]
        exact kindAt_push (by simp [token]) ctx s
    have hothers : ∀ outer ∈ frames, outer.Points (s.push ctx token).tokens := fun outer houter =>
      (h.frames outer (by simp [hframes, houter])).keep hkeeps
    exact h.push_withFrames hctx hne htoken (List.forall_mem_cons.mpr ⟨hframe, hothers⟩)

omit hctx hne in
/-- The tokens before a brace group whose frame was taken off the stack, if no token within is
referred to. -/
theorem Mute.take (hjoined : t.Joined) {frame : BraceFrame}
    (htake : takeFrame? Frame.isBrace t.frames = some (.brace frame, frames))
    (hwithin : ∀ token ∈ t.tokens.drop (frame.token + 1), token.kind.isReferred = false) :
    ({ t with frames, tokens := t.tokens.take frame.token, rebuild := true } : Tokenizer).Mute := by
  obtain ⟨hsub, hbrace, hothers⟩ := hjoined.braced.taken htake
  have hkeep {place : Nat} {kind : TokenKind} (hplace : kindAt t.tokens place = some kind)
      (hlt : place < frame.token) : kindAt (t.tokens.take frame.token) place = some kind := by
    rwa [kindAt, List.getElem?_take, if_pos hlt]
  have hkeeps {place : Nat} {kind : TokenKind} (hplace : kindAt t.tokens place = some kind)
      (hreferred : kind.isReferred = true) (hne : kind ≠ .brace) :
      kindAt (t.tokens.take frame.token) place = some kind := by
    refine hkeep hplace (Nat.lt_of_not_le fun hle => ?_)
    obtain ⟨token, htoken, rfl⟩ := Option.map_eq_some_iff.mp hplace
    obtain rfl | hlt := Nat.eq_or_lt_of_le hle
    · exact hne (Option.some.inj (hplace.symm.trans hbrace))
    · have hmem : token ∈ t.tokens.drop (frame.token + 1) := by
        refine List.mem_of_getElem? (i := place - (frame.token + 1)) ?_
        rw [List.getElem?_drop, Nat.add_sub_cancel' hlt, htoken]
      exact absurd hreferred (by simp [hwithin token hmem])
  refine ⟨h.tokens.take hbrace, fun outer houter => ?_, h.inClass, h.known⟩
  have hpoints := h.frames outer (hsub.subset houter)
  cases outer with
  | paren place => exact hkeeps hpoints rfl (by simp)
  | extglob outer => exact ⟨hkeeps hpoints.1 rfl (by simp), hkeeps hpoints.2 rfl (by simp)⟩
  | brace outer =>
    exact ⟨hkeep hpoints.1 (hothers outer houter),
      fun place hplace => hkeeps (hpoints.2 place hplace) rfl (by simp)⟩

theorem Mute.closeBrace (hjoined : t.Joined) : (t.closeBrace ctx).Mute := by
  unfold Tokenizer.closeBrace
  split
  case h_2 => exact h.pushText hctx hne _ (uncounted_backslash false '}')
  case h_1 frame others htake =>
    have hsub := (sublist_of_takeFrame? htake).1
    have hbrace := (hjoined.braced.taken htake).2.1
    dsimp only
    split
    case h_1 source hsource =>
      split at hsource
      case isFalse => exact absurd hsource (by simp)
      case isTrue =>
        simp only [rangeSource?, Option.bind_eq_bind, Option.pure_def, Option.bind_eq_some_iff,
          Option.some.injEq] at hsource
        obtain ⟨texts, htexts, operands, -, rfl⟩ := hsource
        -- The source of the range takes the place of the tokens from the brace on.
        have htaken := h.take hjoined htake fun token htoken =>
          (kind_of_operandTexts? htexts token htoken).2
        have hpos : t.tokens.take frame.token ≠ [] :=
          (hjoined.linked.take hbrace).ne_nil
        refine htaken.push_plain hctx hpos _ ?_ (by simp) (by simp)
        rw [Options.rangeSource, hctx.expandRange, hctx.capture]
        exact (Range.assembled_expand operands false).silent
    case h_2 =>
      split
      case isTrue =>
        exact h.push_sublist hctx hne (Token.isHushed_of_kind (fun _ => rfl) (by simp) (by simp))
          hsub
      case isFalse =>
        -- Braces without alternatives are meant literally.
        let change (token : Token) : Token :=
          { token with value := ['\\', '{'], source? := some ['\\', '{'] }
        have hothers : ({ t with frames := others } : Tokenizer).Mute :=
          { h with frames := fun outer houter => h.frames outer (hsub.subset houter) }
        have hmodified :
            (({ t with frames := others } : Tokenizer).modify frame.token change).Mute :=
          hothers.modify hbrace (by simp) (fun _ => rfl) fun token _ hkind =>
            Token.isHushed_of_kind (uncounted_backslash false '{') (by simp [change, hkind])
              (by simp [change, hkind])
        have hunbraced : (({ t with frames := others } : Tokenizer).unbraced frame).Mute :=
          hmodified.of_same rfl rfl rfl rfl
        have hne' : (({ t with frames := others } : Tokenizer).unbraced frame).tokens ≠ [] :=
          mt List.modify_eq_nil_iff.mp hne
        exact hunbraced.push_plain hctx hne' _ (uncounted_backslash false '}') (by simp) (by simp)

/-- A parenthesis that opens a group of the pattern. -/
theorem Mute.openParen (hnext : t.ahead 0 ≠ some '?') : (t.openParen ctx).Mute := by
  refine h.push_opening hctx hne ?_ ?_
  · have hsource : Fragment.openGroup
        (ctx.options.capture || ctx.hasReference || t.ahead 0 = some '?') = ['(', '?', ':'] := by
      rw [hctx.capture, hctx.hasReference, decide_eq_false hnext]
      rfl
    rw [hsource]
    exact Token.isHushed_paren rfl silent_openGroup rfl (by decide)
  · exact kindAt_push (by simp) ctx _

end

/-- The token of the operator of an extended group. -/
def pushedOperator (t : Tokenizer) (kind : ExtglobKind) (operator : Char) : Token :=
  .ofSource (.extglob kind) [operator] (if t.output.isEmpty then Fragment.oneChar else [])

/-- The token of the parenthesis of an extended group. -/
def pushedOpening (ctx : Context) (kind : ExtglobKind) : Token :=
  { Token.ofSource .paren ['('] ((if ctx.options.capture then ['('] else []) ++ kind.opening) with
    isExtglob := true }

/-- The state between the operator and the parenthesis. -/
def behindOperator (ctx : Context) (t : Tokenizer) (kind : ExtglobKind) (operator : Char) :
    Tokenizer :=
  (t.push ctx (t.pushedOperator kind operator)).skip 1

theorem openExtglob_eq_push (ctx : Context) (t : Tokenizer) (kind : ExtglobKind) (operator : Char) :
    t.openExtglob ctx kind operator =
      let s := (t.behindOperator ctx kind operator).push ctx (pushedOpening ctx kind)
      { s with frames := .extglob ⟨kind, t.last.kind, t.tokens.length, []⟩ :: s.frames } := rfl

theorem isHushed_pushedOperator (t : Tokenizer) (kind : ExtglobKind) {operator : Char}
    (hoperator : IsMildChar operator) : (t.pushedOperator kind operator).IsHushed := by
  refine ⟨?_, by simp [pushedOperator], fun _ _ => ⟨?_, isMild_escape (isMild_cons hoperator _)⟩⟩
  · show Silent (if t.output.isEmpty then Fragment.oneChar else [])
    split
    · exact silent_oneChar
    · exact uncounted_nil false
  · show IsMild (if t.output.isEmpty then Fragment.oneChar else [])
    split
    · exact isMild_cons (by decide) _
    · exact isMild_nil

theorem isHushed_pushedOpening (hctx : ctx.IsMute) (kind : ExtglobKind) :
    (pushedOpening ctx kind).IsHushed := by
  have hsource : (pushedOpening ctx kind).source = kind.opening := by
    show (if ctx.options.capture then ['('] else []) ++ kind.opening = _
    rw [hctx.capture]
    rfl
  obtain ⟨more, hmore⟩ : ∃ more, kind.opening = '(' :: more := by cases kind <;> exact ⟨_, rfl⟩
  exact Token.isHushed_paren rfl (hsource ▸ kind.silent_opening) (hsource.trans hmore) (by decide)

/-- The tokens that an extended group opens with. A globstar before them may have been demoted. -/
theorem exists_openExtglob (hctx : ctx.IsMute) (t : Tokenizer) (kind : ExtglobKind)
    {operator : Char} (hoperator : IsMildChar operator) :
    ∃ mark paren : Token, (t.openExtglob ctx kind operator).tokens =
        (t.prepared ctx (t.pushedOperator kind operator)).tokens ++ [mark, paren] ∧
      mark.kind = .extglob kind ∧ mark.IsHushed ∧ paren.kind = .paren ∧ paren.IsHushed := by
  let s := t.behindOperator ctx kind operator
  obtain ⟨previous, hpush⟩ : ∃ previous, s.tokens =
      (t.prepared ctx (t.pushedOperator kind operator)).tokens ++
        [{ t.pushedOperator kind operator with previous }] :=
    tokens_push_of_kind_ne (by simp [pushedOperator]) ctx t
  obtain ⟨previous', hparen⟩ := tokens_push_of_kind_ne
    (by simp [pushedOpening] : (pushedOpening ctx kind).kind ≠ .text) ctx s
  -- The operator is no globstar, so the parenthesis changes nothing before it.
  have hprepared : s.prepared ctx (pushedOpening ctx kind) = s := by
    rw [prepared, last_of_tokens_eq hpush, if_neg (by simp [pushedOperator])]
  rw [hprepared, hpush, List.append_assoc] at hparen
  rw [openExtglob_eq_push]
  exact ⟨_, _, hparen, rfl, (isHushed_pushedOperator t kind hoperator).congr rfl rfl rfl, rfl,
    (isHushed_pushedOpening hctx kind).congr rfl rfl rfl⟩

/-- The group that is opened refers to its operator and its parenthesis. -/
theorem points_openExtglob (hne : t.tokens ≠ []) (h : ∀ frame ∈ t.frames, frame.Points t.tokens)
    (kind : ExtglobKind) (operator : Char) : ∀ frame ∈ (t.openExtglob ctx kind operator).frames,
      frame.Points (t.openExtglob ctx kind operator).tokens := by
  let s := t.behindOperator ctx kind operator
  have hlength : s.tokens.length = t.tokens.length + 1 :=
    length_push (by simp [pushedOperator]) ctx t
  have hkeeps : KeepsReferred s.tokens (s.push ctx (pushedOpening ctx kind)).tokens :=
    keepsReferred_push (List.length_pos_iff.mp (by omega)) ctx _
  have hoperator : kindAt s.tokens t.tokens.length = some (.extglob kind) :=
    kindAt_push (by simp [pushedOperator]) ctx t
  have hparen : kindAt (s.push ctx (pushedOpening ctx kind)).tokens (t.tokens.length + 1) =
      some .paren := by
    rw [← hlength]
    exact kindAt_push (by simp [pushedOpening]) ctx s
  have hframes : ∀ frame ∈ s.frames, frame.Points s.tokens := by
    intro frame hframe
    rw [show s.frames = t.noted (t.pushedOperator kind operator) from push_frames ..] at hframe
    exact points_noted (fun outer houter => (h outer houter).keep (keepsReferred_push hne ctx _)) _
      frame hframe
  rw [openExtglob_eq_push]
  refine List.forall_mem_cons.mpr ⟨⟨hkeeps _ _ hoperator rfl, hparen⟩, ?_⟩
  rw [push_frames]
  exact points_noted (fun frame hframe => (hframes frame hframe).keep hkeeps) _

theorem known_openExtglob (hknown : opensKnown t.rest = true) (hnext : t.ahead 0 = some '(')
    (kind : ExtglobKind) (operator : Char) :
    opensKnown (t.openExtglob ctx kind operator).rest = true := by
  simp only [Tokenizer.openExtglob, Tokenizer.skip, push_rest]
  exact opensKnown_drop_one hnext (by decide) hknown

section
variable (h : t.Mute) (hctx : ctx.IsMute) (hne : t.tokens ≠ [])
include h hctx hne

theorem Mute.openExtglob (hnext : t.ahead 0 = some '(') (kind : ExtglobKind) {operator : Char}
    (hoperator : IsMildChar operator) : (t.openExtglob ctx kind operator).Mute where
  tokens := by
    obtain ⟨mark, paren, htokens, -, hmark, -, hparen⟩ := exists_openExtglob hctx t kind hoperator
    rw [htokens]
    exact (hushed_prepared hne hctx.star h.tokens _).1.append (.cons hmark (.cons hparen .nil))
  frames := points_openExtglob hne h.frames kind operator
  inClass := (openExtglob_inClass ..).trans h.inClass
  known := known_openExtglob h.known hnext kind operator

omit hne in
/-- The source that closes a negated group. -/
theorem Mute.silent_negateClosing {tail : List Char → Except Error (List Char)}
    (htail : SilentTail tail) {frame : ExtglobFrame} {closing : List Char}
    (hok : t.negateClosing ctx tail frame = .ok closing) :
    Silent closing ∧ ∃ more, closing = ')' :: more := by
  have hclose : Silent [')'] := fun _ => rfl
  unfold negateClosing at hok
  dsimp only at hok
  generalize hstar : (if (decide (1 < Text.byteSize frame.inner) && frame.inner.contains '/') = true
    then ctx.globstar else ctx.star) = star at hok
  have hsilent : Silent star := by
    rw [← hstar]
    split
    · exact hctx.silent_globstar
    · exact hctx.star
  split at hok
  case isTrue hextension =>
    obtain ⟨extension, htailed, hok⟩ := bind_eq_ok hok
    cases hok
    rw [Bool.and_eq_true] at hextension
    have houtput := htail t.rest extension hextension.2 h.known htailed
    refine ⟨?_, _, rfl⟩
    have := (((hclose.append houtput).append hclose).append hsilent).append hclose
    simpa using this
  case isFalse =>
    split at hok
    · cases hok
      have hdollar : Silent [')', '$', ')', ')'] := fun _ => rfl
      exact ⟨hdollar.append hsilent, _, rfl⟩
    · cases hok
      exact ⟨ExtglobKind.silent_closing (silent_star _) .negate, _, rfl⟩

theorem Mute.extglobClosed {frame : ExtglobFrame}
    (hsub : frames.Sublist t.frames) (hframe : (Frame.extglob frame).Points t.tokens)
    {closing : List Char} (hclosing : Silent closing) (hparen : ∃ more, closing = ')' :: more) :
    (({ t with frames } : Tokenizer).extglobClosed ctx frame closing).Mute := by
  let s : Tokenizer := { t with
    frames
    negatedExtglob := t.negatedExtglob ||
      (frame.kind = ExtglobKind.negate && frame.before = TokenKind.bos) }
  have hguarded : (s.guarded ctx frame).Mute ∧ (s.guarded ctx frame).tokens ≠ [] := by
    have hs : s.Mute :=
      { h with frames := fun outer houter => h.frames outer (hsub.subset houter) }
    unfold Tokenizer.guarded
    dsimp only
    split
    case isFalse => exact ⟨hs, hne⟩
    case isTrue =>
      have hmodified := @Mute.modify s hs frame.operator (.extglob frame.kind) (fun token =>
        { token with source? := some (ctx.dotGuard ++ token.source) }) hframe.1 (by simp)
        (fun _ => rfl) fun token htoken hkind =>
          (h.tokens.isHushed htoken (by simp [hkind])).of_append ctx.silent_dotGuard
            ctx.isMild_dotGuard rfl rfl (.inr rfl)
      exact ⟨hmodified.of_same rfl rfl rfl rfl, mt List.modify_eq_nil_iff.mp hne⟩
  obtain ⟨more, rfl⟩ := hparen
  let paren : Token := { Token.ofSource .paren [')']
    (if ctx.options.capture then ')' :: more ++ [')'] else ')' :: more) with isExtglob := true }
  have hsource : paren.source = ')' :: more := by
    show (if ctx.options.capture then _ else _) = _
    rw [hctx.capture]
    rfl
  have hpush : ((s.guarded ctx frame).push ctx paren).Mute :=
    hguarded.1.push hctx hguarded.2
      (Token.isHushed_paren rfl (hsource ▸ hclosing) hsource (by decide))
  unfold Tokenizer.extglobClosed
  dsimp only
  split
  · exact hpush.of_same rfl rfl rfl rfl
  · exact hpush

theorem Mute.closeParen {tail : List Char → Except Error (List Char)} (htail : SilentTail tail)
    {t' : Tokenizer} (hok : t.closeParen ctx tail = .ok t') : t'.Mute := by
  unfold Tokenizer.closeParen at hok
  split at hok
  case h_1 frame others htake =>
    obtain ⟨-, above, below, hframes, -⟩ := takeFrame?_eq_some htake
    have hsub := (sublist_of_takeFrame? htake).1
    have hframe : (Frame.extglob frame).Points t.tokens := h.frames _ (by simp [hframes])
    have hs : ({ t with frames := others } : Tokenizer).Mute :=
      { h with frames := fun outer houter => h.frames outer (hsub.subset houter) }
    rw [closeExtglob_eq_map] at hok
    obtain ⟨closing, hclosing, rfl⟩ := exists_of_map_eq_ok hok
    split at hclosing
    case isTrue =>
      obtain ⟨hsilent, hparen⟩ := hs.silent_negateClosing hctx htail hclosing
      exact h.extglobClosed hctx hne hsub hframe hsilent hparen
    case isFalse hother =>
      cases hclosing
      refine h.extglobClosed hctx hne hsub hframe
        (ExtglobKind.silent_closing (uncounted_nil false) _) ?_
      cases hkind : frame.kind <;> exact ⟨_, rfl⟩
  case h_2 frame others _ htake =>
    cases hok
    exact h.push_sublist hctx hne (Token.isHushed_paren rfl (fun _ => rfl) rfl (by decide))
      (sublist_of_takeFrame? htake).1
  case h_3 =>
    split at hok
    case isTrue => exact absurd hok (by simp)
    case isFalse =>
      cases hok
      exact h.push hctx hne
        (Token.isHushed_paren rfl (uncounted_backslash false ')') rfl (by decide))

/-! #### Wildcards -/

omit hctx in
/-- The last token is changed, but nothing that a group refers to. Text may only grow. -/
theorem Mute.modifyLast (change : Token → Token) {s : Tokenizer}
    (hchange : (change t.last).IsHushed)
    (htext : t.last.kind = .text → (change t.last).kind = .text ∧
      t.last.source <+: (change t.last).source)
    (hreferred : t.last.kind.isReferred = true → (change t.last).kind = t.last.kind)
    (htokens : s.tokens = t.tokens.modify t.lastPlace change) (hframes : s.frames = t.frames)
    (hclass : s.inClass = t.inClass) (hrest : s.rest = t.rest) : s.Mute := by
  obtain ⟨before, hbefore⟩ := exists_tokens_eq hne
  refine ⟨?_, ?_, hclass.trans h.inClass, hrest ▸ h.known⟩
  · rw [htokens, tokens_modifyLast hbefore]
    exact (hbefore ▸ h.tokens).setLast hchange htext hreferred
  · rw [htokens, hframes]
    refine fun frame hframe =>
      (h.frames frame hframe).keep (Layout.kindAt_modify fun token htoken => ?_)
    cases (getElem?_lastPlace hne).symm.trans htoken
    exact hreferred

omit hctx in
theorem Mute.isHushed_last : t.last.IsHushed := by
  obtain ⟨before, hbefore⟩ := exists_tokens_eq hne
  exact (hbefore ▸ h.tokens).isHushed_last

theorem Mute.dot : (t.dot ctx).Mute := by
  unfold Tokenizer.dot
  split
  case isTrue hlast =>
    rw [Bool.and_eq_true, decide_eq_true_eq] at hlast
    have hs : ((t.modifyLast fun token => { token with
        kind := .dots, value := ['.', '.'], source? := some (Fragment.dot ++ Fragment.dot) }).emit
          Fragment.dot).Mute := by
      refine h.modifyLast hne _ ?_ ?_ ?_ rfl rfl rfl rfl
      · exact Token.isHushed_of_kind (silent_dot.append silent_dot) (by simp) (by simp)
      · simp [hlast.2]
      · simp [hlast.2, TokenKind.isReferred]
    refine { hs with
      frames := forall_mem_modifyFrame (fun frame frame' hnote hpoints => ?_) hs.frames }
    cases frame with
    | paren | extglob => exact absurd hnote (by simp)
    | brace frame =>
      -- The group notes the dots, but what it refers to is the same.
      cases hnote
      exact hpoints
  case isFalse =>
    dsimp only
    split <;> exact h.push_plain hctx hne _ silent_dot (by simp) (by simp)

theorem Mute.qmark : (t.qmark ctx).Mute := by
  unfold Tokenizer.qmark
  dsimp only
  split
  case isTrue hopens =>
    rw [Bool.and_eq_true, opensExtglob, Bool.and_eq_true, Bool.and_eq_true,
      decide_eq_true_eq] at hopens
    exact h.openExtglob hctx hne hopens.2.1.2 _ (by decide)
  case isFalse =>
    split
    · refine h.pushText hctx hne _ ?_
      split
      · exact uncounted_backslash false '?'
      · exact silent_of_isLoose (by decide)
    · refine h.push_plain hctx hne _ ?_ (by simp) (by simp)
      repeat' split
      · exact silent_anyChar _
      · exact (silent_noDotsSegment _).append (silent_anyChar _)
      · exact silent_anyCharNoDot _

theorem Mute.operator (kind : ExtglobKind) {c : Char} (hc : IsMildChar c) {other : Token}
    (hother : other.IsHushed) : (t.operator ctx kind c other).Mute := by
  unfold Tokenizer.operator
  split
  case isTrue hopens =>
    rw [opensExtglob, Bool.and_eq_true, Bool.and_eq_true, decide_eq_true_eq] at hopens
    exact h.openExtglob hctx hne hopens.1.2 _ hc
  case isFalse => exact h.push hctx hne hother

omit hctx in
theorem Mute.guardLast {guard : List Char} (hguard : Silent guard) (hmild : IsMild guard) :
    (t.guardLast guard).Mute :=
  h.modifyLast hne (fun token => { token with source? := some (token.source ++ guard) })
    ((h.isHushed_last hne).of_append hguard hmild rfl rfl (.inl rfl))
    (fun htext => ⟨htext, List.prefix_append _ _⟩) (fun _ => rfl) rfl rfl rfl rfl

omit hctx hne h in
theorem silent_starGuard? {guard : List Char} (hguard : t.starGuard? ctx = some guard) :
    Silent guard ∧ IsMild guard := by
  have hsegment : IsMild (Fragment.noDotSegment ctx.windows) := isMild_cons (by decide) _
  have hone : IsMild Fragment.oneChar := isMild_cons (by decide) _
  have hsegment' := silent_noDotSegment ctx.windows
  unfold starGuard? at hguard
  dsimp only at hguard
  repeat' split at hguard
  all_goals cases hguard
  · exact ⟨hsegment', hsegment⟩
  · exact ⟨ctx.silent_dotGuard, ctx.isMild_dotGuard⟩
  · exact ⟨hsegment'.append silent_oneChar, hsegment.append hone⟩
  · exact ⟨ctx.silent_dotGuard.append silent_oneChar, ctx.isMild_dotGuard.append hone⟩
  · exact ⟨ctx.silent_dotGuard, ctx.isMild_dotGuard⟩

section
variable {before : List Token} {prior star : Token}

omit hctx hne in
/-- The star becomes a globstar. -/
theorem Mute.promote (hstarred : t.Starred before prior star) {source : List Char}
    (hsource : Silent source) : (t.promote (before.length + 1) source).Mute := by
  have hne : t.tokens ≠ [] := by simp [hstarred.tokens]
  refine h.modifyLast hne (fun token => { token with
    kind := .globstar, value := token.value ++ ['*'], source? := some source })
    ?_ ?_ ?_ ?_ rfl rfl rfl
  · exact Token.isHushed_of_kind hsource (by simp) (by simp)
  · simp [hstarred.last, hstarred.kind]
  · simp [hstarred.last, hstarred.kind, TokenKind.isReferred]
  · rw [hstarred.lastPlace]
    rfl

omit hctx hne in
/-- The separator and the star become the beginning and the end of a group. -/
theorem Mute.globstarAfterSlash (hstarred : t.Starred before prior star)
    (hprior : prior.kind = .slash) {source : List Char} (hsource : Silent source) :
    (t.globstarAfterSlash before.length (before.length + 1) prior star source).Mute := by
  let opening := ['(', '?', ':'] ++ prior.source
  have hslash : kindAt t.tokens before.length = some .slash := by
    simp [kindAt, hstarred.tokens, hprior]
  have hopened : (t.setSource before.length opening).Mute := by
    refine h.modify hslash (by simp) (fun _ => rfl) fun token htoken hkind => ?_
    refine Token.isHushed_of_kind (silent_openGroup.append ?_) (by simp [hkind]) (by simp [hkind])
    exact (h.tokens.isHushed (by simp [hstarred.tokens]) (by simp [hprior])).silent
  have hstarred' : (t.setSource before.length opening).Starred before
      { prior with source? := some opening } star := by
    refine ⟨?_, hstarred.kind, hstarred.isStarRun⟩
    show t.tokens.modify before.length _ = _
    rw [hstarred.tokens, modify_append_length]
  exact (hopened.promote hstarred' hsource).of_same rfl rfl rfl rfl

theorem Mute.absorbSlash (hnext : t.rest.head? = some '/') : (t.absorbSlash ctx).Mute := by
  rw [List.head?_eq_getElem?] at hnext
  have hskip : (t.skip 1).Mute :=
    { h with known := opensKnown_drop_one hnext (by decide) h.known }
  exact hskip.push_plain hctx hne _ (uncounted_nil false) (by simp) (by simp)

omit hne in
theorem Mute.globstarAt (hstarred : t.Starred before prior star) (beforePrior : Option TokenKind) :
    (t.globstarAt ctx star before.length prior beforePrior).Mute := by
  have hglobstar := hctx.silent_globstar
  have hslash := silent_slash ctx.windows
  have hclose : Silent [')'] := fun _ => rfl
  have hends : Silent ['|', '$', ')'] := fun _ => rfl
  have hbar : Silent ['|'] := fun _ => rfl
  let s : Tokenizer := { t.skip (redundantGlobstars t.rest t.rest.length) with globstar := true }
  have hs : s.Mute := by
    refine (h.skip fun c hc => ?_).of_same rfl rfl rfl rfl
    obtain rfl | rfl := mem_take_redundantGlobstars _ _ c hc <;> decide
  have hstarred' (output : List Char) : ({ s with output } : Tokenizer).Starred before prior star :=
    ⟨hstarred.tokens, hstarred.kind, hstarred.isStarRun⟩
  have hs' (output : List Char) : ({ s with output } : Tokenizer).Mute := hs.of_same rfl rfl rfl rfl
  have hpromoted (output : List Char) {source : List Char} (hsource : Silent source) :
      (({ s with output } : Tokenizer).promote (before.length + 1) source).Mute :=
    (hs' output).promote (hstarred' output) hsource
  have hgrouped {source : List Char} (hprior : prior.kind = .slash) (hsource : Silent source) :
      (s.globstarAfterSlash before.length (before.length + 1) prior star source).Mute :=
    hs.globstarAfterSlash (hstarred' s.output) hprior hsource
  have hne (change change' : Token → Token) (place place' : Nat) :
      (t.tokens.modify place change).modify place' change' ≠ [] ∧
        t.tokens.modify place change ≠ [] := by
    simp [hstarred.tokens]
  unfold Tokenizer.globstarAt
  dsimp only
  rw [hstarred.lastPlace]
  split
  case isTrue => exact hpromoted _ hglobstar
  case isFalse =>
    split
    case isTrue hlast =>
      simp only [Bool.and_eq_true, decide_eq_true_eq] at hlast
      refine hgrouped hlast.1.1.1 (hglobstar.append ?_)
      split
      · exact hclose
      · exact hends
    case isFalse =>
      split
      case isTrue hinner =>
        simp only [Bool.and_eq_true, decide_eq_true_eq] at hinner
        have hsource (closing : List Char) (hclosing : Silent closing) :
            Silent (ctx.globstar ++ Fragment.slash ctx.windows ++
              '|' :: Fragment.slash ctx.windows ++ closing) := by
          have := (((hglobstar.append hslash).append hbar).append hslash).append hclosing
          simpa using this
        refine (hgrouped hinner.1.1 (hsource _ ?_)).absorbSlash hctx (hne _ _ _ _).1 hinner.2
        split
        · exact hends
        · exact hclose
      case isFalse =>
        split
        case isTrue hleading =>
          rw [Bool.and_eq_true, decide_eq_true_eq, decide_eq_true_eq] at hleading
          have hopen : Silent ['(', '?', ':', '^', '|'] :=
            silent_openGroup.append (w := ['^', '|']) fun _ => rfl
          have hsource : Silent (['(', '?', ':', '^', '|'] ++ Fragment.slash ctx.windows ++
              '|' :: ctx.globstar ++ Fragment.slash ctx.windows ++ [')']) := by
            have := ((((hopen.append hslash).append hbar).append hglobstar).append hslash).append
              hclose
            simpa using this
          exact (hpromoted _ hsource).absorbSlash hctx (hne _ id _ 0).2 hleading.2
        case isFalse => exact hpromoted _ hglobstar

end

theorem Mute.secondStar (hjoined : t.Joined) (hkind : t.last.kind = .star)
    (hrun : t.last.isStarRun = false) : (t.secondStar ctx).Mute := by
  unfold Tokenizer.secondStar
  split
  · exact h
  · obtain ⟨before, prior, hstarred, hprevious, hprior⟩ := hjoined.exists_starred hkind hrun
    dsimp only
    split
    · exact h.push_plain hctx hne _ (uncounted_nil false) (by simp) (by simp)
    · rw [hprevious, Option.getD_some, hprior, Option.getD_some]
      exact h.globstarAt hctx hstarred _

theorem Mute.star (hjoined : t.Joined) : (t.star ctx).Mute := by
  unfold Tokenizer.star
  split
  case isTrue hlast =>
    rw [Bool.or_eq_true, decide_eq_true_eq] at hlast
    have hkind : t.last.kind = .globstar ∨ t.last.kind = .star :=
      hlast.imp_right hjoined.kind_last_of_run
    refine h.modifyLast hne (fun token => { token with
      kind := .star, isStarRun := true, value := token.value ++ ['*'],
      source? := some ctx.star }) ?_ ?_ ?_ rfl rfl rfl rfl
    · exact Token.isHushed_of_kind hctx.star (by simp) (by simp)
    · obtain hkind | hkind := hkind <;> simp [hkind]
    · obtain hkind | hkind := hkind <;> simp [hkind, TokenKind.isReferred]
  case isFalse hlast =>
    rw [Bool.or_eq_true, not_or] at hlast
    split
    case isTrue hopens =>
      rw [Bool.and_eq_true, Bool.and_eq_true, decide_eq_true_eq] at hopens
      exact h.openExtglob hctx hne hopens.1.2 _ (by decide)
    case isFalse =>
      split
      case isTrue hkind => exact h.secondStar hctx hne hjoined hkind (eq_false_of_ne_true hlast.2)
      case isFalse =>
        have hsource : Silent (if ctx.options.bash then
            if ctx.options.capture then '(' :: Fragment.anything ++ [')'] else Fragment.anything
            else ctx.star) := by
          rw [hctx.capture]
          split
          · exact fun _ => rfl
          · exact hctx.star
        dsimp only
        split
        case h_1 guard hguard =>
          obtain ⟨hsilent, hmild⟩ := silent_starGuard? hguard
          have hne' : (t.guardLast guard).tokens ≠ [] := mt List.modify_eq_nil_iff.mp hne
          exact (h.guardLast hne hsilent hmild).push_plain hctx hne' _ hsource (by simp) (by simp)
        case h_2 => exact h.push_plain hctx hne _ hsource (by simp) (by simp)

/-! #### Other characters -/

theorem Mute.bang : (t.bang ctx).Mute := by
  unfold Tokenizer.bang
  dsimp only
  split
  case isTrue hopens =>
    rw [Bool.and_eq_true, Bool.and_eq_true, decide_eq_true_eq] at hopens
    exact h.openExtglob hctx hne hopens.1.2 _ (by decide)
  case isFalse =>
    split
    · refine (h.skip fun c hc => ?_).of_same rfl rfl rfl rfl
      rw [mem_take_negations _ c hc]
      decide
    · exact h.plainText hctx hne (by decide)

/-- A closing bracket without an opening one. -/
theorem Mute.closeBracket {t' : Tokenizer} (hok : t.closeBracket ctx = .ok t') : t'.Mute := by
  have hclose : (t.pushText ctx [']'] ['\\', ']']).Mute :=
    h.pushText hctx hne _ (uncounted_backslash false ']')
  unfold Tokenizer.closeBracket at hok
  split at hok
  · cases hok
    exact hclose
  · rw [if_pos (by simp [h.inClass])] at hok
    split at hok
    · exact absurd hok (by simp)
    · cases hok
      exact hclose

end

end Tokenizer

end PathGlob.Pattern
