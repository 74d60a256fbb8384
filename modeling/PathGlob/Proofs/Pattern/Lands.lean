import PathGlob.Proofs.Pattern.Ready
import PathGlob.Proofs.Range.Brackets

/-!
# `PathGlob.Proofs.Pattern.Lands`: what a character leads to

One lemma for each character with a meaning outside of brackets, which says that a state that
is ready for it leads to one that is ready again (`Tokenizer.Lands`). A globstar behind a
separator is the exception: the group that the two become lacks the separator behind it, and at
the end of the text it never comes.
-/

set_option autoImplicit false

namespace PathGlob

namespace Pattern

open Regex

theorem isLoose_of_mem_run {text : List Char} {c : Char}
    (h : c ∈ text.takeWhile fun d => !isSpecial d) : isLoose c = true := by
  have hc := isSpecial_of_mem_run h
  simp only [isSpecial, List.contains_eq_mem, decide_eq_false_iff_not, List.mem_cons,
    List.not_mem_nil, or_false, not_or] at hc
  simp [isLoose, hc]

namespace Tokenizer

variable {ctx : Context} {t : Tokenizer} {token : Token} {frames : List Frame}

/-! ### What a character leads to -/

/-- A dot that is last has no guard. -/
def EndsPlainly (t : Tokenizer) : Prop := t.last.kind = .dot → t.last.source = Fragment.dot

/-- What holds once a character that is no part of a bracket expression has been read. At the
end of the text there may be a globstar that no other token can follow. -/
structure Lands (ctx : Context) (t t' : Tokenizer) : Prop where
  ready : t'.Ready ctx t'.frames ∨ (t'.rest = [] ∧
    Layout ctx.options.capture t'.rebuild t'.frames t'.tokens ∧ t'.Synced)
  inClass : t'.inClass = false
  start : t'.start = t.start
  position : t.position ≤ t'.position
  /-- A dot that is the first token is the only one. -/
  dot : t.tokens = [.bos] → t'.last.kind = .dot → ∃ dot, t'.tokens = [.bos, dot]
  ends : t.EndsPlainly → t'.EndsPlainly

theorem Lands.of_kind_ne {t' : Tokenizer} (hready : t'.Ready ctx t'.frames ∨ (t'.rest = [] ∧
      Layout ctx.options.capture t'.rebuild t'.frames t'.tokens ∧ t'.Synced))
    (hclass : t'.inClass = false) (hstart : t'.start = t.start)
    (hposition : t.position ≤ t'.position) (hkind : t'.last.kind ≠ .dot) : t.Lands ctx t' where
  ready := hready
  inClass := hclass
  start := hstart
  position := hposition
  dot _ hdot := absurd hdot hkind
  ends _ hdot := absurd hdot hkind

theorem last_of_tokens_eq {before : List Token} (h : t.tokens = before ++ [token]) :
    t.last = token := by
  rw [last, h, List.getLast?_concat]
  rfl

theorem kind_last_push (h : t.tokens ≠ []) (ctx : Context) (token : Token) :
    (t.push ctx token).last.kind = token.kind := by
  have hprepared : (t.prepared ctx token).tokens ≠ [] := by
    obtain heq | ⟨-, -, heq⟩ := prepared_cases ctx t token
    · rwa [heq]
    · rw [heq]
      intro hnil
      have := congrArg List.length hnil
      rw [demoteGlobstar, modifyLast, modify, List.length_modify] at this
      exact h (List.eq_nil_of_length_eq_zero this)
  rw [push_eq_prepared]
  generalize t.prepared ctx token = t at hprepared ⊢
  obtain ⟨before, htokens⟩ := exists_tokens_eq hprepared
  have hpushed := pushed_eq htokens token
  by_cases hmerge : t.last.kind = .text && token.kind = .text
  · rw [if_pos hmerge] at hpushed
    rw [Bool.and_eq_true, decide_eq_true_eq, decide_eq_true_eq] at hmerge
    rw [last_of_tokens_eq hpushed, hmerge.1, hmerge.2]
  · rw [if_neg hmerge] at hpushed
    rw [last_of_tokens_eq (hpushed.trans (List.append_cons before _ _))]

/-- A token is added to a state that is not behind the first one. -/
theorem lands_push {s : Tokenizer} (h : (s.push ctx token).Ready ctx (s.push ctx token).frames)
    (hne : s.tokens ≠ []) (hclass : s.inClass = false) (hstart : s.start = t.start)
    (hposition : t.position ≤ s.position) (hdot : token.kind ≠ .dot) :
    t.Lands ctx (s.push ctx token) where
  ready := .inl h
  inClass := by rwa [push_inClass]
  start := by rwa [push_start]
  position := by rwa [push_position]
  dot _ hlast := absurd ((kind_last_push hne ctx token).symm.trans hlast) hdot
  ends _ hlast := absurd ((kind_last_push hne ctx token).symm.trans hlast) hdot

/-- A character that adds nothing. -/
theorem Ready.lands_self (h : t.Ready ctx t.frames) (hclass : t.inClass = false) :
    t.Lands ctx t where
  ready := .inl h
  inClass := hclass
  start := rfl
  position := Nat.le_refl _
  dot htokens hlast := by
    rw [last, htokens] at hlast
    exact absurd hlast (by simp)
  ends := id

/-- A character that adds a token which moves nothing. -/
theorem Ready.lands_push_neutral (hctx : ctx.IsStandard) (h : t.Ready ctx t.frames)
    (hclass : t.inClass = false) (n : Nat) (hneutral : Neutral token.source)
    (hbos : token.kind ≠ .bos) (hdot : token.kind ≠ .dot) (hrun : token.isStarRun = false) :
    t.Lands ctx ((t.skip n).push ctx token) := by
  have hskip : (t.skip n).Ready ctx t.frames := ⟨h.layout, h.settled, h.synced⟩
  exact lands_push (hskip.push_neutral hctx hneutral hbos hrun).of_push h.settled.ne_nil hclass rfl
    (Nat.le_add_right _ _) hdot

section
variable (hctx : ctx.IsStandard) (h : t.Ready ctx t.frames) (hclass : t.inClass = false)
include hctx h hclass

theorem Ready.lands_push (hneutral : Neutral token.source) (hbos : token.kind ≠ .bos)
    (hdot : token.kind ≠ .dot) (hrun : token.isStarRun = false) : t.Lands ctx (t.push ctx token) :=
  h.lands_push_neutral hctx hclass 0 hneutral hbos hdot hrun

theorem Ready.lands_pushText (n : Nat) {source : List Char} (hneutral : Neutral source)
    (value : List Char) : t.Lands ctx ((t.skip n).pushText ctx value source) :=
  h.lands_push_neutral hctx hclass n hneutral (by simp)
    (by simp) rfl

/-! ### Text -/

theorem Ready.lands_plainText {c : Char} (hc : c = '{' ∨ isLoose c = true) :
    t.Lands ctx (t.plainText ctx c) := by
  refine h.lands_pushText hctx hclass _ (Neutral.append ?_ (neutral_loose fun d hd => ?_)) _
  · split
    · exact neutral_backslash c
    · rename_i hne
      refine neutral_of_isLoose (hc.resolve_left fun hbrace => ?_)
      simp [hbrace] at hne
  · exact isLoose_of_mem_run hd

theorem Ready.lands_escape : t.Lands ctx (t.escape ctx) := by
  unfold escape
  split
  · exact h.lands_pushText hctx hclass 0 (neutral_backslash _) _
  · rename_i next _ _
    split
    · exact h.lands_self hclass
    · dsimp only
      rw [if_neg (by simp [skip, hclass])]
      split
      · exact h.lands_pushText hctx hclass 1 (neutral_escapeChar next) _
      · exact h.lands_pushText hctx hclass 1 (neutral_backslash next) _

/-! ### Braces -/

theorem Ready.lands_openBrace : t.Lands ctx (t.openBrace ctx) := by
  let frame : BraceFrame := ⟨Text.byteSize t.output, t.tokens.length, false, false, []⟩
  let s : Tokenizer := { t with frames := .brace frame :: t.frames }
  have hs : s.Ready ctx t.frames := ⟨h.layout, h.settled, h.synced⟩
  have hready : (s.push ctx (.ofSource .brace ['{']
      (Fragment.openGroup ctx.options.capture))).Ready ctx s.frames := by
    refine hs.push_opening hctx (.inr rfl) rfl ?_ rfl fun previous => ⟨?_, ?_, ?_⟩
    · simp [keepsGlobstar, inBrace, s, Frame.isBrace]
    · exact ⟨_, List.getElem?_concat_length, rfl, Fragment.moves_openGroup _⟩
    · exact fun _ hplace => absurd hplace List.not_mem_nil
    · intro hrebuild
      show Text.byteSize t.output = _
      rw [List.take_left]
      exact congrArg Text.byteSize (h.synced hrebuild)
  exact Tokenizer.lands_push hready.of_push h.settled.ne_nil hclass rfl (Nat.le_refl _)
    (by simp)

/-- A range is added in place of the tokens of its group. -/
theorem Ready.lands_range {frame : BraceFrame} {others : List Frame} {texts : List (List Char)}
    (htake : takeFrame? Frame.isBrace t.frames = some (.brace frame, others))
    (htexts : operandTexts? true (t.tokens.drop (frame.token + 1)) = some texts)
    (operands : Range.Operands) :
    t.Lands ctx ({ t with
      frames := others, tokens := t.tokens.take frame.token, rebuild := true }.push ctx
        (.ofSource .brace ['}'] (ctx.options.rangeSource operands))) := by
  obtain ⟨⟨opener, hopener, hkind, -⟩, -⟩ := h.layout.fits_taken htake
  have hkindAt : kindAt t.tokens frame.token = some .brace :=
    Option.map_eq_some_iff.mpr ⟨opener, hopener, hkind⟩
  have hwithin (i : Nat) (token : Token) (hi : frame.token < i)
      (htoken : t.tokens[i]? = some token) :
      token.kind.isPlain = true ∧ token.kind.isReferred = false := by
    have hdrop : (t.tokens.drop (frame.token + 1))[i - (frame.token + 1)]? = some token := by
      rw [List.getElem?_drop, Nat.add_sub_cancel' hi, htoken]
    exact kind_of_operandTexts? htexts token (List.mem_of_getElem? hdrop)
  have hs : Ready ctx others { t with
      frames := others, tokens := t.tokens.take frame.token, rebuild := true } :=
    ⟨h.layout.take htake hwithin, h.settled.take hkindAt (by simp) (by simp) (by simp),
      fun hfalse => absurd hfalse (by simp)⟩
  have hneutral : Neutral (ctx.options.rangeSource operands) := by
    rw [Options.rangeSource, hctx.expandRange]
    exact Range.neutral_expand operands _
  have hpush : Ready ctx others (Tokenizer.push ctx { t with
      frames := others, tokens := t.tokens.take frame.token, rebuild := true }
        (.ofSource .brace ['}'] (ctx.options.rangeSource operands))) :=
    hs.push_neutral hctx hneutral (by simp) rfl
  exact Tokenizer.lands_push hpush.of_push hs.settled.ne_nil hclass rfl (Nat.le_refl _)
    (by simp)

theorem Ready.lands_closeBrace : t.Lands ctx (t.closeBrace ctx) := by
  unfold closeBrace
  split
  case h_2 => exact h.lands_pushText hctx hclass 0 (neutral_backslash _) _
  case h_1 frame frames htake =>
    dsimp only
    split
    case h_1 source hsource =>
      split at hsource
      case isFalse => exact absurd hsource (by simp)
      case isTrue =>
        simp only [rangeSource?, Option.bind_eq_bind, Option.pure_def, Option.bind_eq_some_iff,
          Option.some.injEq] at hsource
        obtain ⟨texts, htexts, operands, -, rfl⟩ := hsource
        exact h.lands_range hctx hclass htake htexts operands
    case h_2 =>
      split
      case isTrue =>
        have hs : Ready ctx frames (({ t with frames } : Tokenizer).push ctx
            (.ofSource .brace ['}'] [')'])) :=
          Ready.push_closing hctx ⟨h.layout, h.settled, h.synced⟩ htake Fragment.moves_close
            (.inr rfl) rfl
        exact Tokenizer.lands_push hs.of_push h.settled.ne_nil hclass rfl (Nat.le_refl _)
          (by simp)
      case isFalse =>
        have hs : Ready ctx frames ({ t with frames }.unbraced frame) :=
          Ready.unbraced ⟨h.layout, h.settled, h.synced⟩ htake
        have hpush : Ready ctx frames (({ t with frames }.unbraced frame).push ctx
            (.ofSource .brace ['\\', '}'] ['\\', '}'])) :=
          hs.push_neutral hctx (neutral_backslash _) (by simp) rfl
        exact Tokenizer.lands_push hpush.of_push hs.settled.ne_nil hclass rfl (Nat.le_refl _)
          (by simp)

theorem Ready.lands_comma : t.Lands ctx (t.comma ctx) := by
  unfold comma
  split
  case h_2 =>
    have hneutral : Neutral (Token.ofSource .comma [','] [',']).source := by decide
    exact h.lands_push hctx hclass hneutral (by simp) (by simp) rfl
  case h_1 frame frames hframes =>
    let note (outer : Frame) : Option Frame :=
      if outer = .brace frame then
        some (.brace { frame with comma := true, commas := frame.commas ++ [t.tokens.length] })
      else none
    let s : Tokenizer := { t with frames := modifyFrame note t.frames }
    have hs : (s.push ctx (.ofSource .comma [','] ['|'])).Ready ctx t.frames :=
      Ready.push_neutral hctx ⟨h.layout, h.settled, h.synced⟩ (by decide) (by simp)
        rfl
    have hnote : (s.push ctx (.ofSource .comma [','] ['|'])).Ready ctx s.frames := by
      refine ⟨hs.layout.modifyFrame fun outer outer' houter => ?_, hs.settled, hs.synced⟩
      obtain ⟨rfl, hchange⟩ := Option.ite_none_right_eq_some.mp houter
      cases hchange
      exact ⟨rfl, fun hfits => hfits.addComma (kindAt_push (by simp) ctx s)⟩
    have hlands : t.Lands ctx (s.push ctx (.ofSource .comma [','] ['|'])) :=
      Tokenizer.lands_push hnote.of_push h.settled.ne_nil hclass rfl (Nat.le_refl _)
        (by simp)
    simp only [s, hframes, modifyFrame, note, if_true] at hlands
    exact hlands

/-! ### Parentheses -/

theorem Ready.lands_openParen : t.Lands ctx (t.openParen ctx) := by
  let s : Tokenizer := { t with frames := .paren t.tokens.length :: t.frames }
  let captures := ctx.options.capture || ctx.hasReference || t.ahead 0 = some '?'
  have hready : (s.push ctx (.ofSource .paren ['('] (Fragment.openGroup captures))).Ready ctx
      s.frames := by
    refine Ready.push_opening hctx ⟨h.layout, h.settled, h.synced⟩ (.inl rfl) rfl ?_ rfl
      fun previous => ⟨_, List.getElem?_concat_length, rfl, Fragment.moves_openGroup _⟩
    simp [keepsGlobstar]
  exact Tokenizer.lands_push hready.of_push h.settled.ne_nil hclass rfl (Nat.le_refl _)
    (by simp)

/-- An operator and the parenthesis behind it. -/
theorem Ready.lands_openExtglob (kind : ExtglobKind) (operator : Char) :
    t.Lands ctx (t.openExtglob ctx kind operator) := by
  let guard := if t.output.isEmpty then Fragment.oneChar else []
  let paren : Token := { Token.ofSource .paren ['(']
    ((if ctx.options.capture then ['('] else []) ++ kind.opening) with isExtglob := true }
  let frame : Frame := .extglob ⟨kind, t.last.kind, t.tokens.length, []⟩
  let s := (t.push ctx (.ofSource (.extglob kind) [operator] guard)).skip 1
  have hopened : t.openExtglob ctx kind operator =
      { s.push ctx paren with frames := frame :: (s.push ctx paren).frames } := rfl
  have hguard : Neutral guard := by
    show Neutral (if t.output.isEmpty then Fragment.oneChar else [])
    split <;> decide
  have hpush : (t.push ctx (.ofSource (.extglob kind) [operator] guard)).Ready ctx t.frames :=
    h.push_neutral hctx hguard (by simp) rfl
  have hs : s.Ready ctx s.frames :=
    ⟨hpush.of_push.layout, hpush.settled, hpush.synced⟩
  have hoperator : kindAt s.tokens t.tokens.length = some (.extglob kind) :=
    kindAt_push (by simp) ctx t
  have hlength : s.tokens.length = t.tokens.length + 1 :=
    length_push (by simp) ctx t
  have hstart : s.start = t.start ∧ t.position ≤ s.position ∧ s.inClass = false := by
    simp [s, skip, hclass]
  have hkind : paren.kind = .paren := rfl
  have hrun : paren.isStarRun = false := rfl
  have hopens : Moves 0 (kind.width ctx.options.capture) paren.source :=
    ExtglobKind.moves_opening _ kind
  have hkeeps : s.keepsGlobstar paren = true := by
    simp [keepsGlobstar, hkind]
  clear_value paren s
  have hopen : (s.push ctx paren).Ready ctx (frame :: s.frames) := by
    refine hs.push_opening hctx (.inl hkind) hrun hkeeps hlength.symm fun previous => ⟨?_, ?_⟩
    · exact Settled.kindAt_append hoperator _
    · rw [← hlength]
      exact ⟨_, List.getElem?_concat_length, hkind, hopens⟩
  have hframes : (s.push ctx paren).frames = s.frames := by
    rw [push_frames, noted, if_pos hkind]
  rw [hopened, hframes]
  have hdot : (s.push ctx paren).last.kind ≠ .dot := by
    rw [kind_last_push hs.settled.ne_nil ctx paren, hkind]
    simp
  refine ⟨.inl ⟨hopen.layout, hopen.settled, hopen.synced⟩, ?_, ?_, ?_,
    fun _ hlast => absurd hlast hdot, fun _ hlast => absurd hlast hdot⟩
  · exact (push_inClass ctx s paren).trans hstart.2.2
  · exact (push_start ctx s paren).trans hstart.1
  · exact Nat.le_trans hstart.2.1 (Nat.le_of_eq (push_position ctx s paren).symm)

section
variable {tail : List Char → Except Error (List Char)}

omit h hclass in
/-- What closes a negated group closes its three parentheses. -/
theorem moves_negateClosing (htail : ∀ text output, tail text = .ok output → Neutral output)
    {s : Tokenizer} {frame : ExtglobFrame} {closing : List Char}
    (hok : s.negateClosing ctx tail frame = .ok closing) : Moves 3 0 closing := by
  have hstar : Neutral (if (1 < Text.byteSize frame.inner && frame.inner.contains '/') = true
      then ctx.globstar else ctx.star) := by
    split
    · exact ctx.neutral_globstar
    · exact hctx.star
  unfold negateClosing at hok
  dsimp only at hok
  generalize (if (1 < Text.byteSize frame.inner && frame.inner.contains '/') = true
    then ctx.globstar else ctx.star) = star at hstar hok
  split at hok
  · obtain ⟨extension, hextension, hok⟩ := bind_eq_ok hok
    cases hok
    have hclose : Moves 3 2 [')'] := by decide
    have hclose' : Moves 2 1 [')'] := by decide
    have hclose'' : Moves 1 0 [')'] := by decide
    have := (((hclose.append_neutral (htail _ _ hextension)).append hclose').append_neutral
      hstar).append hclose''
    simpa using this
  · split at hok
    · cases hok
      exact (show Moves 3 0 [')', '$', ')', ')'] by decide).append_neutral hstar
    · cases hok
      have hclose : Moves 3 1 [')', ')'] := by decide
      have hclose' : Moves 1 0 [')'] := by decide
      exact (hclose.append_neutral (Fragment.neutral_star _)).append hclose'

omit hctx h hclass in
/-- An extended group is closed by a parenthesis that closes what the group opened. -/
theorem exists_closing (hctx : ctx.IsStandard)
    (htail : ∀ text output, tail text = .ok output → Neutral output) {s s' : Tokenizer}
    {frame : ExtglobFrame} (hok : s.closeExtglob ctx tail frame = .ok s') :
    ∃ negatedExtglob optionalGroup, ∃ paren : Token, paren.kind = .paren ∧ paren.isStarRun = false ∧
      Moves (frame.kind.width ctx.options.capture) 0 paren.source ∧
      s' = { ({ s with negatedExtglob }.guarded ctx frame).push ctx paren with optionalGroup } := by
  have hwidth {closing : List Char}
      (hcloses : Moves (if frame.kind = .negate then 3 else 1) 0 closing) :
      Moves (frame.kind.width ctx.options.capture) 0
        (if ctx.options.capture then closing ++ [')'] else closing) := by
    unfold ExtglobKind.width
    cases ctx.options.capture with
    | true => exact (Nat.add_comm 1 _ ▸ hcloses.deepen 1).append Fragment.moves_close
    | false => exact (Nat.zero_add (if frame.kind = .negate then 3 else 1)).symm ▸ hcloses
  -- What follows once it is known what closes the group.
  have hpush {closing : List Char}
      (hcloses : Moves (if frame.kind = .negate then 3 else 1) 0 closing) {s'' : Tokenizer}
      (hs : (if frame.before.beginsSegment && frame.kind.isOptional then
        { s'' with optionalGroup := some s''.lastPlace } else s'') = s')
      (hs'' : s'' = ({ s with negatedExtglob := s.negatedExtglob ||
          (frame.kind = ExtglobKind.negate && frame.before = TokenKind.bos) }.guarded ctx frame).push
        ctx { Token.ofSource .paren [')'] (if ctx.options.capture then closing ++ [')'] else closing)
          with isExtglob := true }) :
      ∃ negatedExtglob optionalGroup, ∃ paren : Token, paren.kind = .paren ∧
        paren.isStarRun = false ∧ Moves (frame.kind.width ctx.options.capture) 0 paren.source ∧
        s' = { ({ s with negatedExtglob }.guarded ctx frame).push ctx paren with optionalGroup } := by
    let paren : Token := { Token.ofSource .paren [')']
      (if ctx.options.capture then closing ++ [')'] else closing) with isExtglob := true }
    have hparen : Moves (frame.kind.width ctx.options.capture) 0 paren.source := hwidth hcloses
    subst hs
    rw [hs'']
    split
    · exact ⟨_, _, paren, rfl, rfl, hparen, rfl⟩
    · exact ⟨_, _, paren, rfl, rfl, hparen, rfl⟩
  unfold closeExtglob at hok
  dsimp only at hok
  split at hok
  case isTrue hnegate =>
    obtain ⟨closing, hclosing, hok⟩ := bind_eq_ok hok
    have hcloses : Moves (if frame.kind = .negate then 3 else 1) 0 closing := by
      rw [if_pos hnegate]
      exact moves_negateClosing hctx htail hclosing
    exact hpush hcloses (Except.ok.inj hok) rfl
  case isFalse hother =>
    have hcloses : Moves (if frame.kind = .negate then 3 else 1) 0 (frame.kind.closing []) := by
      rw [if_neg hother]
      cases hkind : frame.kind with
      | negate => exact absurd hkind hother
      | zeroOrOne | oneOrMore | zeroOrMore | exactlyOne => decide
    exact hpush hcloses (Except.ok.inj hok) rfl

theorem Ready.lands_closeExtglob
    (htail : ∀ text output, tail text = .ok output → Neutral output) {test : Frame → Bool}
    {frame : ExtglobFrame} {others : List Frame}
    (htake : takeFrame? test t.frames = some (.extglob frame, others)) {t' : Tokenizer}
    (hok : { t with frames := others }.closeExtglob ctx tail frame = .ok t') :
    t.Lands ctx t' := by
  obtain ⟨negatedExtglob, optionalGroup, paren, hkind, hrun, hcloses, rfl⟩ :=
    exists_closing hctx htail hok
  let s : Tokenizer := { t with frames := others, negatedExtglob }
  obtain ⟨hframes, hinClass, hstart, hposition⟩ := guarded_same ctx s frame
  have hs : (s.guarded ctx frame).Ready ctx t.frames :=
    Ready.guarded ⟨h.layout, h.settled, h.synced⟩ (h.layout.fits_taken htake).1
  have hclosed : ((s.guarded ctx frame).push ctx paren).Ready ctx (s.guarded ctx frame).frames :=
    hframes ▸ hs.push_closing hctx htake hcloses (.inl hkind) hrun
  have hlands : t.Lands ctx ((s.guarded ctx frame).push ctx paren) :=
    Tokenizer.lands_push hclosed.of_push hs.settled.ne_nil (hinClass.trans hclass) hstart
      (Nat.le_of_eq hposition.symm) (by simp [hkind])
  exact ⟨hlands.ready.imp (fun h => ⟨h.layout, h.settled, h.synced⟩) id, hlands.inClass,
    hlands.start, hlands.position, hlands.dot, hlands.ends⟩

theorem Ready.lands_closeParen
    (htail : ∀ text output, tail text = .ok output → Neutral output) {t' : Tokenizer}
    (hok : t.closeParen ctx tail = .ok t') : t.Lands ctx t' := by
  unfold closeParen at hok
  split at hok
  case h_1 frame frames htake => exact h.lands_closeExtglob hctx hclass htail htake hok
  case h_2 frame frames hother htake =>
    cases hok
    have hparen : ∃ token, frame = .paren token := by
      cases frame with
      | paren token => exact ⟨token, rfl⟩
      | extglob frame => exact (hother frame rfl).elim
      | brace frame => exact absurd (takeFrame?_eq_some htake).1 (by simp [Frame.isBrace])
    obtain ⟨_, rfl⟩ := hparen
    have hs : Ready ctx frames (({ t with frames } : Tokenizer).push ctx
        { kind := .paren, value := [')'] }) :=
      Ready.push_closing hctx ⟨h.layout, h.settled, h.synced⟩ htake Fragment.moves_close
        (.inl rfl) rfl
    exact Tokenizer.lands_push hs.of_push h.settled.ne_nil hclass rfl (Nat.le_refl _) (by simp)
  case h_3 =>
    split at hok
    case isTrue => exact absurd hok (by simp)
    case isFalse =>
      cases hok
      have hneutral : Neutral (Token.ofSource .paren [')'] ['\\', ')']).source := by decide
      exact h.lands_push hctx hclass hneutral (by simp) (by simp)
        rfl

end

/-! ### Wildcards -/

omit hctx in
/-- The dot that makes a pair with the dot before it. -/
theorem Ready.lands_dots (hends : t.EndsPlainly) (hlast : t.last.kind = .dot) :
    t.Lands ctx (((t.modifyLast fun token => { token with
      kind := .dots, value := ['.', '.'], source? := some (Fragment.dot ++ Fragment.dot) }).emit
        Fragment.dot).noteDots) := by
  have hne := h.settled.ne_nil
  have hneutral := h.neutral_last (by simp [hlast]) (by simp [hlast])
  have hdots : Neutral (Fragment.dot ++ Fragment.dot) := by decide
  let change (token : Token) : Token := { token with
    kind := .dots, value := ['.', '.'], source? := some (Fragment.dot ++ Fragment.dot) }
  obtain ⟨before, htokens⟩ := exists_tokens_eq hne
  have hs : ((t.modifyLast change).emit Fragment.dot).Ready ctx t.frames := by
    refine h.modifyLast change rfl (.inl rfl) ?_ (.of_neutral hneutral hdots ?_) (fun _ => rfl)
      (.inr ⟨by simp [hlast], by simp [hlast], by simp [change]⟩) ?_ (by simp [change])
    · intro hrebuild
      have houtput := h.synced hrebuild
      rw [joinSources_of_tokens_eq htokens, hends hlast] at houtput
      rw [joinSources_of_tokens_eq (tokens_modifyLast htokens)]
      show t.output ++ Fragment.dot = _
      rw [houtput, List.append_assoc]
      rfl
    · simp [hlast, TokenKind.isReferred]
    · intro hrun
      have := h.settled.run t.last (by rw [htokens]; simp) hrun
      rw [hlast] at this
      exact absurd this (by simp)
  have hkind : ((t.modifyLast change).emit Fragment.dot).noteDots.last.kind ≠ .dot := by
    show (t.modifyLast change).last.kind ≠ .dot
    rw [last_modifyLast hne]
    simp [change]
  refine ⟨.inl ⟨hs.layout.modifyFrame fun frame frame' hnote => ?_, hs.settled, hs.synced⟩, hclass,
    rfl, Nat.le_refl _, fun _ hdot => absurd hdot hkind, fun _ hdot => absurd hdot hkind⟩
  cases frame with
  | paren | extglob => exact absurd hnote (by simp)
  | brace frame =>
    cases hnote
    exact ⟨rfl, fun hfits => hfits⟩

theorem Ready.lands_dot (hends : t.EndsPlainly) : t.Lands ctx (t.dot ctx) := by
  unfold dot
  split
  case isTrue hlast =>
    rw [Bool.and_eq_true, decide_eq_true_eq] at hlast
    exact h.lands_dots hclass hends hlast.2
  case isFalse =>
    let token := Token.ofSource (if t.frames.isEmpty && !t.last.kind.beginsSegment then .text
      else .dot) ['.'] Fragment.dot
    show t.Lands ctx (t.push ctx token)
    have hneutral : Neutral token.source := show Neutral Fragment.dot by decide
    have hbos : token.kind ≠ .bos := by
      show (if _ then TokenKind.text else .dot) ≠ _
      split <;> simp
    have hsource : token.source = Fragment.dot := rfl
    have hrun : token.isStarRun = false := rfl
    clear_value token
    have hs := h.push_neutral hctx hneutral hbos hrun
    refine ⟨.inl hs.of_push, by simpa, by simp, by simp, fun htokens hdot => ?_, fun _ hdot => ?_⟩
    · have hkind := (kind_last_push h.settled.ne_nil ctx token).symm.trans hdot
      have htext : token.kind ≠ .text := by simp [hkind]
      obtain ⟨previous, hpush⟩ := tokens_push_of_kind_ne htext ctx t
      have hlast : t.last = .bos := by rw [last, htokens]; rfl
      have hprepared : t.prepared ctx token = t := by
        unfold Tokenizer.prepared
        simp [hlast]
      exact ⟨_, by rw [hpush, hprepared, htokens]; rfl⟩
    · have hkind := (kind_last_push h.settled.ne_nil ctx token).symm.trans hdot
      have htext : token.kind ≠ .text := by simp [hkind]
      obtain ⟨previous, hpush⟩ := tokens_push_of_kind_ne htext ctx t
      rw [last_of_tokens_eq hpush]
      exact hsource

theorem Ready.lands_qmark : t.Lands ctx (t.qmark ctx) := by
  unfold qmark
  dsimp only
  split
  · exact h.lands_openExtglob hctx hclass _ _
  · split
    · refine h.lands_pushText hctx hclass 0 ?_ _
      split <;> decide
    · refine h.lands_push hctx hclass ?_ (by simp) (by simp) rfl
      show Neutral (if _ then _ else _)
      split
      · exact Fragment.neutral_anyChar _
      · split
        · exact (Fragment.neutral_noDotsSegment _).append (Fragment.neutral_anyChar _)
        · exact Fragment.neutral_anyCharNoDot _

theorem Ready.lands_operator (kind : ExtglobKind) (c : Char) {other : Token}
    (hneutral : Neutral other.source) (hbos : other.kind ≠ .bos) (hdot : other.kind ≠ .dot)
    (hrun : other.isStarRun = false) : t.Lands ctx (t.operator ctx kind c other) := by
  unfold operator
  split
  · exact h.lands_openExtglob hctx hclass _ _
  · exact h.lands_push hctx hclass hneutral hbos hdot hrun

/-! ### Stars -/

omit hctx hclass in
theorem Ready.guardLast {guard : List Char} (hguard : Neutral guard) :
    (t.guardLast guard).Ready ctx t.frames := by
  obtain ⟨before, htokens⟩ := exists_tokens_eq h.settled.ne_nil
  refine h.modifyLast (fun token => { token with source? := some (token.source ++ guard) }) rfl
    (.inl rfl) ?_ (.guard hguard rfl rfl) (fun _ => rfl) (.inl rfl) ?_ ?_
  · intro hrebuild
    have houtput := h.synced hrebuild
    rw [joinSources_of_tokens_eq htokens] at houtput
    rw [joinSources_of_tokens_eq (tokens_modifyLast htokens)]
    show t.output ++ guard = _
    rw [houtput, List.append_assoc]
    rfl
  · exact h.settled.run t.last (by rw [htokens]; simp)
  · intro hkind
    refine (h.neutral_last ?_ ?_).append hguard
    · obtain hkind | hkind := hkind <;> simp [show t.last.kind = _ from hkind]
    · obtain hkind | hkind := hkind <;> simp [show t.last.kind = _ from hkind]

omit hctx h hclass in
theorem neutral_starGuard? {guard : List Char} (hguard : t.starGuard? ctx = some guard) :
    Neutral guard := by
  unfold starGuard? at hguard
  dsimp only at hguard
  split at hguard
  · cases hguard
    have hneutral : Neutral (if t.last.kind = .dot then Fragment.noDotSegment ctx.windows
        else ctx.dotGuard) := by
      split
      · exact Fragment.neutral_noDotSegment _
      · exact ctx.neutral_dotGuard
    split
    · exact hneutral
    · exact hneutral.append (by decide)
  · split at hguard
    · cases hguard
      exact ctx.neutral_dotGuard
    · exact absurd hguard (by simp)

end

/-- The state ends with a token and a star that is the first of its kind. -/
structure Starred (t : Tokenizer) (before : List Token) (prior star : Token) : Prop where
  tokens : t.tokens = before ++ [prior, star]
  kind : star.kind = .star
  isStarRun : star.isStarRun = false

section
variable {s : Tokenizer} {before : List Token} {prior star : Token} {source : List Char}

theorem Starred.lastPlace (h : t.Starred before prior star) : t.lastPlace = before.length + 1 := by
  simp [Tokenizer.lastPlace, h.tokens]

theorem Starred.last (h : t.Starred before prior star) : t.last = star :=
  last_of_tokens_eq (h.tokens.trans (List.append_cons before prior [star]))

theorem Starred.tokens_promote (h : t.Starred before prior star) (source : List Char) :
    (t.promote (before.length + 1) source).tokens = before ++ [prior, { star with
      kind := .globstar, value := star.value ++ ['*'], source? := some source }] := by
  have : t.tokens.modify t.lastPlace (fun token => { token with
      kind := .globstar, value := token.value ++ ['*'], source? := some source }) = _ :=
    tokens_modifyLast (h.tokens.trans (List.append_cons before prior [star]))
  rw [h.lastPlace] at this
  exact this.trans (List.append_cons before prior _).symm

theorem Ready.neutral_star (h : t.Ready ctx frames) (hstar : t.Starred before prior star) :
    Neutral star.source := by
  have hlast := h.neutral_last (by simp [hstar.last, hstar.kind]) (by simp [hstar.last, hstar.kind])
  rwa [hstar.last] at hlast

/-- The source of the state is that of its tokens, before the star and its own. -/
theorem Ready.output_eq (h : t.Ready ctx frames) (hstar : t.Starred before prior star)
    (hrebuild : t.rebuild = false) :
    t.output = before.flatMap Token.source ++ (prior.source ++ star.source) := by
  rw [h.synced hrebuild, joinSources, hstar.tokens]
  simp

/-- The star becomes a globstar that closes what it opens. -/
theorem Ready.promote (h : t.Ready ctx frames) (hstar : t.Starred before prior star)
    (hsource : Neutral source) (htokens : s.tokens = t.tokens) (hrebuild : s.rebuild = t.rebuild)
    (houtput : t.rebuild = false →
      s.output = before.flatMap Token.source ++ (prior.source ++ source)) :
    (s.promote (before.length + 1) source).Ready ctx frames := by
  have hs : s.Starred before prior star := ⟨htokens.trans hstar.tokens, hstar.kind, hstar.isStarRun⟩
  refine h.modifyLast (fun token => { token with
    kind := .globstar, value := token.value ++ ['*'], source? := some source }) ?_
    (.inl hrebuild) ?_ (.of_neutral ?_ hsource ?_) (fun _ => rfl) (.inr ?_) ?_ fun _ => hsource
  · rw [hstar.lastPlace, ← htokens]
    rfl
  · intro hfalse
    have hjoin : (s.promote (before.length + 1) source).joinSources =
        before.flatMap Token.source ++ (prior.source ++ source) := by
      rw [joinSources, hs.tokens_promote]
      simp [Token.source]
    rw [hjoin]
    exact houtput (hrebuild ▸ hfalse)
  · rw [hstar.last]
    exact h.neutral_star hstar
  · simp [hstar.last, hstar.kind, TokenKind.isReferred]
  · simp [hstar.last, hstar.kind]
  · simp [hstar.last, hstar.isStarRun]

/-- The separator and the star become the beginning and the end of a group. -/
theorem Starred.tokens_globstarAfterSlash (h : s.Starred before prior star) (source : List Char) :
    (s.globstarAfterSlash before.length (before.length + 1) prior star source).tokens =
      before ++ [{ prior with source? := some (['(', '?', ':'] ++ prior.source) }, { star with
        kind := .globstar, value := star.value ++ ['*'], source? := some source }] := by
  have hset : (s.tokens.modify before.length fun token =>
      { token with source? := some (['(', '?', ':'] ++ prior.source) }) =
        before ++ [{ prior with source? := some (['(', '?', ':'] ++ prior.source) }, star] := by
    rw [h.tokens, modify_append_length]
  let opened : Tokenizer := { s with tokens :=
    before ++ [{ prior with source? := some (['(', '?', ':'] ++ prior.source) }, star] }
  have hopened : opened.Starred before
      { prior with source? := some (['(', '?', ':'] ++ prior.source) } star :=
    ⟨rfl, h.kind, h.isStarRun⟩
  rw [← hopened.tokens_promote]
  show List.modify (s.tokens.modify before.length _) _ _ = _
  rw [hset]
  rfl

/-- The layout and the source once a separator and a star have become a group. -/
theorem Ready.globstarAfterSlash (h : t.Ready ctx frames) (hstar : t.Starred before prior star)
    (hprior : prior.kind = .slash) (hsource : Moves 1 0 source) (htokens : s.tokens = t.tokens)
    (hrebuild : s.rebuild = t.rebuild) (houtput : s.output = t.output) :
    let s' := s.globstarAfterSlash before.length (before.length + 1) prior star source
    Layout ctx.options.capture s'.rebuild frames s'.tokens ∧ s'.Synced := by
  have hs : s.Starred before prior star := ⟨htokens.trans hstar.tokens, hstar.kind, hstar.isStarRun⟩
  have hslash : Neutral prior.source := by
    refine h.settled.neutral_slash (i := before.length) ?_ ?_ hprior
    · simp [hstar.tokens]
    · simp [hstar.tokens]
  have hopen : Moves 0 1 (['(', '?', ':'] ++ prior.source) :=
    (Fragment.moves_openGroup false).append_neutral hslash
  refine ⟨?_, fun hfalse => ?_⟩
  · rw [hs.tokens_globstarAfterSlash]
    show Layout _ s.rebuild _ _
    rw [hrebuild]
    exact (hstar.tokens ▸ h.layout).wrap hslash (h.neutral_star hstar)
      (by simp [hprior, TokenKind.isReferred]) (by simp [hstar.kind, TokenKind.isReferred]) hopen
      hsource (by simp [hprior, TokenKind.isPlain]) rfl
  · have hjoin := h.output_eq hstar (hrebuild ▸ hfalse)
    have hcut : Text.dropLastBytes (Text.byteSize prior.source + Text.byteSize star.source)
        s.output = before.flatMap Token.source := by
      rw [houtput, hjoin, ← Text.byteSize_append, Text.dropLastBytes_append]
    rw [joinSources, hs.tokens_globstarAfterSlash]
    show Text.dropLastBytes _ s.output ++ _ = _
    rw [hcut]
    simp [Token.source]

/-- The separator behind a globstar. -/
def absorbed : Token := .ofSource .slash ['/'] []

/-- The separator behind a separator and a star that became a group. -/
theorem Ready.absorb_globstarAfterSlash (h : t.Ready ctx frames)
    (hstar : t.Starred before prior star) (hprior : prior.kind = .slash) (hsource : Moves 1 0 source)
    (htokens : s.tokens = t.tokens) (hrebuild : s.rebuild = t.rebuild)
    (houtput : s.output = t.output) :
    (((s.globstarAfterSlash before.length (before.length + 1) prior star source).skip 1).push ctx
      absorbed).Ready ctx frames := by
  obtain ⟨hlayout, hsynced⟩ :=
    h.globstarAfterSlash hstar hprior hsource htokens hrebuild houtput
  have hs : s.Starred before prior star := ⟨htokens.trans hstar.tokens, hstar.kind, hstar.isStarRun⟩
  have htokens' := hs.tokens_globstarAfterSlash source
  generalize s.globstarAfterSlash before.length (before.length + 1) prior star source = s' at *
  have hne : s'.tokens ≠ [] := by simp [htokens']
  have hprepared : (s'.skip 1).prepared ctx absorbed = s'.skip 1 := by
    unfold Tokenizer.prepared
    simp [keepsGlobstar, absorbed]
  have hpush : ((s'.skip 1).push ctx absorbed).tokens =
      s'.tokens ++ [{ absorbed with previous := some s'.lastPlace }] := by
    rw [push_eq_prepared, hprepared]
    exact pushed_of_kind_ne (by simp [absorbed])
  have hplace : s'.lastPlace = before.length + 1 := by simp [Tokenizer.lastPlace, htokens']
  have hrun : prior.isStarRun = false := by
    cases hprior' : prior.isStarRun with
    | false => rfl
    | true =>
      have := h.settled.run prior (by simp [hstar.tokens]) hprior'
      rw [hprior] at this
      exact absurd this (by simp)
  refine ⟨?_, ?_, ?_⟩
  · rw [hpush, push_rebuild]
    exact hlayout.append neutral_nil
  · rw [hpush, htokens', List.append_assoc]
    refine (hstar.tokens ▸ h.settled).wrap hprior hstar.kind ?_ rfl rfl rfl hrun hstar.isStarRun ?_
      rfl rfl neutral_nil
    · exact hprior
    · exact congrArg some hplace
  · refine synced_push_of_prepared ?_ ?_
    · rwa [hprepared]
    · rw [hprepared]
      exact hsynced

theorem Ready.absorb (hctx : ctx.IsStandard) (h : t.Ready ctx frames) :
    ((t.skip 1).push ctx absorbed).Ready ctx frames :=
  Ready.push_neutral hctx ⟨h.layout, h.settled, h.synced⟩ neutral_nil
    (by simp [absorbed]) rfl

/-- To absorb the separator behind a globstar adds a token, with the same groups open. -/
theorem lands_absorbSlash (hready : ((s.skip 1).push ctx absorbed).Ready ctx t.frames)
    (hne : s.tokens ≠ []) (hframes : s.frames = t.frames) (hclass : s.inClass = false)
    (hstart : s.start = t.start) (hposition : t.position ≤ s.position) :
    t.Lands ctx (s.absorbSlash ctx) := by
  have hready' : ((s.skip 1).push ctx absorbed).Ready ctx (s.skip 1).frames := hframes ▸ hready
  exact Tokenizer.lands_push hready'.of_push hne hclass hstart
    (Nat.le_trans hposition (Nat.le_add_right _ _)) (by simp)

section
variable (h : t.Ready ctx t.frames) (hclass : t.inClass = false)
include h hclass

omit hclass in
/-- At the beginning of a pattern nothing stands before the token before the star. -/
theorem Ready.source_first (hstar : t.Starred before prior star) (hprior : prior.kind = .bos) :
    (t.tokens.head?.getD .bos).source = before.flatMap Token.source ++ prior.source := by
  have hnil : before = [] := by
    obtain hnil | ⟨first, last, rfl⟩ := List.eq_nil_or_concat before
    · exact hnil
    · have := (h.settled.previous first.length prior (by simp [hstar.tokens])).2
      exact absurd hprior this
  rw [hstar.tokens, hnil]
  rfl

/-- A globstar that closes what it opens. -/
theorem Ready.lands_promote (hstar : t.Starred before prior star) (hsource : Neutral source)
    {output : List Char} (houtput : t.rebuild = false →
      output = before.flatMap Token.source ++ (prior.source ++ source)) (n : Nat) :
    t.Lands ctx
      ({ t.skip n with globstar := true, output }.promote (before.length + 1) source) := by
  let s : Tokenizer := { t.skip n with globstar := true, output }
  have hs : s.Starred before prior star := ⟨hstar.tokens, hstar.kind, hstar.isStarRun⟩
  have hready : (s.promote (before.length + 1) source).Ready ctx t.frames :=
    h.promote hstar hsource rfl rfl houtput
  refine .of_kind_ne (.inl hready) hclass rfl (Nat.le_add_right _ _) ?_
  rw [last_of_tokens_eq ((hs.tokens_promote source).trans (List.append_cons before prior _))]
  simp

/-- At the end of a pattern, a globstar that takes the separator before it into a group. -/
theorem Ready.lands_globstarAfterSlash (hstar : t.Starred before prior star)
    (hprior : prior.kind = .slash) (hsource : Moves 1 0 source) {n : Nat}
    (hrest : (t.skip n).rest = []) :
    t.Lands ctx ({ t.skip n with globstar := true }.globstarAfterSlash before.length
      (before.length + 1) prior star source) := by
  let s : Tokenizer := { t.skip n with globstar := true }
  have hs : s.Starred before prior star := ⟨hstar.tokens, hstar.kind, hstar.isStarRun⟩
  have htokens : s.tokens = t.tokens := rfl
  obtain ⟨hlayout, hsynced⟩ := h.globstarAfterSlash hstar hprior hsource htokens rfl rfl
  refine .of_kind_ne (.inr ⟨hrest, hlayout, hsynced⟩) hclass rfl (Nat.le_add_right _ _) ?_
  rw [last_of_tokens_eq ((hs.tokens_globstarAfterSlash _).trans (List.append_cons before _ _))]
  simp

/-- Between two separators, a globstar that takes the first one into a group and has the second
one absorbed. -/
theorem Ready.lands_globstarBetween (hstar : t.Starred before prior star)
    (hprior : prior.kind = .slash) (hsource : Moves 1 0 source) (n : Nat) :
    t.Lands ctx (({ t.skip n with globstar := true }.globstarAfterSlash before.length
      (before.length + 1) prior star source).absorbSlash ctx) := by
  let s : Tokenizer := { t.skip n with globstar := true }
  have hs : s.Starred before prior star := ⟨hstar.tokens, hstar.kind, hstar.isStarRun⟩
  have htokens : s.tokens = t.tokens := rfl
  have hready := h.absorb_globstarAfterSlash hstar hprior hsource htokens rfl rfl
  exact lands_absorbSlash hready (by rw [hs.tokens_globstarAfterSlash]; simp) rfl hclass rfl
    (Nat.le_add_right _ _)

end

end

section
variable {before : List Token} {prior star : Token} {source : List Char}
variable (hctx : ctx.IsStandard) (h : t.Ready ctx t.frames) (hclass : t.inClass = false)
include hctx h hclass

/-- A globstar that closes what it opens, with the separator behind it. -/
theorem Ready.lands_promote_absorb (hstar : t.Starred before prior star) (hsource : Neutral source)
    {output : List Char} (houtput : t.rebuild = false →
      output = before.flatMap Token.source ++ (prior.source ++ source)) (n : Nat) :
    t.Lands ctx (({ t.skip n with globstar := true, output }.promote (before.length + 1)
      source).absorbSlash ctx) := by
  let s : Tokenizer := { t.skip n with globstar := true, output }
  have hready : (s.promote (before.length + 1) source).Ready ctx t.frames :=
    h.promote hstar hsource rfl rfl houtput
  exact lands_absorbSlash (hready.absorb hctx) hready.settled.ne_nil rfl hclass rfl
    (Nat.le_add_right _ _)

theorem Ready.lands_globstarAt (hstar : t.Starred before prior star)
    (beforePrior : Option TokenKind) :
    t.Lands ctx (t.globstarAt ctx star before.length prior beforePrior) := by
  have hslash := Fragment.neutral_slash ctx.windows
  have hbar : Neutral ['|'] := by decide
  unfold globstarAt
  dsimp only
  rw [hstar.lastPlace]
  split
  case isTrue hwhole =>
    refine h.lands_promote hclass hstar ctx.neutral_globstar (fun _ => ?_) _
    rw [← List.append_assoc, ← h.source_first hstar (by simp_all)]
    rfl
  case isFalse =>
    split
    case isTrue hlast =>
      have hclosing : Moves 1 0
          (if ctx.options.strictSlashes then [')'] else ['|', '$', ')']) := by
        split <;> decide
      simp only [Bool.and_eq_true, decide_eq_true_eq, List.isEmpty_iff] at hlast
      exact h.lands_globstarAfterSlash hclass hstar hlast.1.1.1
        (ctx.neutral_globstar.append_moves hclosing) hlast.2
    case isFalse =>
      split
      case isTrue hinner =>
        have hclosing (rest : List Char) : Moves 1 0
            (if 1 < rest.length then ['|', '$', ')'] else [')']) := by
          split <;> decide
        simp only [Bool.and_eq_true, decide_eq_true_eq] at hinner
        exact h.lands_globstarBetween hclass hstar hinner.1.1
          (((ctx.neutral_globstar.append hslash).append (hbar.append hslash)).append_moves
            (hclosing _)) _
      case isFalse =>
        split
        case isTrue hleading =>
          have hsource : Neutral (['(', '?', ':', '^', '|'] ++ Fragment.slash ctx.windows ++
              '|' :: ctx.globstar ++ Fragment.slash ctx.windows ++ [')']) := by
            have := Fragment.neutral_openGroup false (((((show Neutral ['^', '|'] by decide).append
              hslash).append hbar).append ctx.neutral_globstar).append hslash)
            simpa [Fragment.openGroup] using this
          refine h.lands_promote_absorb hctx hclass hstar hsource (fun _ => ?_) _
          rw [← List.append_assoc (before.flatMap Token.source), ← h.source_first hstar (by simp_all)]
          rfl
        case isFalse =>
          refine h.lands_promote hclass hstar ctx.neutral_globstar (fun hrebuild => ?_) _
          show Text.dropLastBytes (Text.byteSize star.source) t.output ++ ctx.globstar = _
          rw [h.output_eq hstar hrebuild, ← List.append_assoc, Text.dropLastBytes_append,
            List.append_assoc]

omit hctx hclass in
/-- Before a star there is a token, which the star knows. -/
theorem Ready.exists_starred (hkind : t.last.kind = .star) (hrun : t.last.isStarRun = false) :
    ∃ before prior, t.Starred before prior t.last ∧ t.last.previous = some before.length ∧
      t.tokens[before.length]? = some prior := by
  obtain ⟨before, htokens⟩ := exists_tokens_eq h.settled.ne_nil
  obtain hnil | ⟨before, prior, rfl⟩ := List.eq_nil_or_concat before
  · have hhead := h.settled.head
    rw [htokens, hnil] at hhead
    exact absurd (hkind.symm.trans (Option.some.inj hhead)) (by simp)
  · have htokens' : t.tokens = before ++ [prior, t.last] := by
      rw [List.concat_eq_append, ← List.append_cons] at htokens
      exact htokens
    refine ⟨before, prior, ⟨htokens', hkind, hrun⟩, ?_, by rw [htokens']; simp⟩
    refine (h.settled.previous before.length t.last ?_).1
    rw [htokens']
    simp

theorem Ready.lands_secondStar (hkind : t.last.kind = .star) (hrun : t.last.isStarRun = false) :
    t.Lands ctx (t.secondStar ctx) := by
  unfold secondStar
  split
  · exact h.lands_self hclass
  · obtain ⟨before, prior, hstar, hprevious, hprior⟩ := h.exists_starred hkind hrun
    dsimp only
    split
    · have hneutral : Neutral (Token.ofSource .star ['*'] []).source := neutral_nil
      exact h.lands_push hctx hclass hneutral (by simp) (by simp)
        rfl
    · rw [hprevious, Option.getD_some, hprior, Option.getD_some]
      exact h.lands_globstarAt hctx hclass hstar _

/-- A third star makes the run a single star again. -/
theorem Ready.lands_starRun (hlast : t.last.kind = .globstar ∨ t.last.isStarRun = true) :
    t.Lands ctx { (t.modifyLast fun token => { token with
      kind := .star, isStarRun := true, value := token.value ++ ['*'],
      source? := some ctx.star }).needRebuild with globstar := true } := by
  have hne := h.settled.ne_nil
  obtain ⟨before, htokens⟩ := exists_tokens_eq hne
  have hkind : t.last.kind = .globstar ∨ t.last.kind = .star :=
    hlast.imp_right (h.settled.run t.last (by rw [htokens]; simp))
  have hneutral : Neutral t.last.source := by
    refine h.neutral_last ?_ ?_ <;> obtain hkind | hkind := hkind <;> simp [hkind]
  let change (token : Token) : Token := { token with
    kind := .star, isStarRun := true, value := token.value ++ ['*'], source? := some ctx.star }
  have hs : Ready ctx t.frames { (t.modifyLast change).needRebuild with globstar := true } := by
    refine h.modifyLast change rfl (.inr rfl) (fun hfalse => absurd hfalse (by simp [needRebuild]))
      (.of_neutral hneutral hctx.star ?_) (fun _ => rfl) (.inr ?_) (fun _ => rfl) (by simp [change])
    · obtain hkind | hkind := hkind <;> simp [hkind, TokenKind.isReferred]
    · obtain hkind | hkind := hkind <;> simp [hkind, change]
  refine .of_kind_ne (.inl hs) hclass rfl (Nat.le_refl _) ?_
  show (t.modifyLast change).last.kind ≠ .dot
  rw [last_modifyLast hne]
  simp [change]

theorem Ready.lands_star : t.Lands ctx (t.star ctx) := by
  unfold star
  split
  case isTrue hlast =>
    rw [Bool.or_eq_true, decide_eq_true_eq] at hlast
    exact h.lands_starRun hctx hclass hlast
  case isFalse hlast =>
    rw [Bool.or_eq_true, not_or] at hlast
    split
    · exact h.lands_openExtglob hctx hclass _ _
    · split
      case isTrue hstar => exact h.lands_secondStar hctx hclass hstar (eq_false_of_ne_true hlast.2)
      case isFalse =>
        let token := Token.ofSource .star ['*'] (if ctx.options.bash then
          if ctx.options.capture then '(' :: Fragment.anything ++ [')'] else Fragment.anything
          else ctx.star)
        have hsource : Neutral token.source := by
          show Neutral (if ctx.options.bash then _ else _)
          split
          · split <;> decide
          · exact hctx.star
        have hpush {s : Tokenizer} (hs : s.Ready ctx s.frames) (hinClass : s.inClass = false)
            (hstart : s.start = t.start) (hposition : t.position ≤ s.position) :
            t.Lands ctx (s.push ctx token) :=
          Tokenizer.lands_push (hs.push_neutral hctx hsource (by simp [token])
            rfl).of_push hs.settled.ne_nil hinClass hstart hposition (by simp [token])
        dsimp only
        split
        case h_1 guard hguard =>
          have hs := h.guardLast (neutral_starGuard? hguard)
          exact hpush hs hclass rfl (Nat.le_refl _)
        case h_2 => exact hpush h hclass rfl (Nat.le_refl _)

end

end Tokenizer

end Pattern

end PathGlob
