import PathGlob.Proofs.Pattern.Lands
import PathGlob.Proofs.Pattern.Shortcut

/-!
# `PathGlob.Proofs.Pattern.Brackets`: translations have matching brackets

Between two characters the tokenizer is in one of few situations (`Tokenizer.Situation`):
outside of brackets, within brackets, or at the end of the text with something that only the
end leaves unfinished. Every step leads from one of them to another, and what is still open at
the end becomes text, so the source of every translation closes what it opens.
-/

set_option autoImplicit false

namespace PathGlob

namespace Pattern

open Regex

namespace Tokenizer

variable {ctx : Context} {t : Tokenizer} {token : Token} {frames : List Frame}

/-! ### Brackets -/

/-- Within brackets: the last token is the bracket with its body so far, which is read as the
body of a class, and the tokens before it are ready for the whole one. -/
structure Bracketing (ctx : Context) (t : Tokenizer) (before : List Token) (bracket : Token) :
    Prop where
  tokens : t.tokens = before ++ [bracket]
  layout : Layout ctx.options.capture t.rebuild t.frames before
  settled : Settled before
  synced : t.Synced
  inClass : t.inClass = true
  quoted : t.quoted = false
  noBracket : ctx.options.noBracket = false
  kind : bracket.kind = .bracket
  source? : bracket.source? = none
  previous : bracket.previous = some (before.length - 1)
  isStarRun : bracket.isStarRun = false
  body : ∃ body part, bracket.value = '[' :: body ∧ ClassMoves .opened part body ∧
    (part = .inside ∨ body = [] ∨ body = ['^'])

section
variable {before : List Token} {bracket : Token}

theorem Bracketing.last (h : t.Bracketing ctx before bracket) : t.last = bracket :=
  last_of_tokens_eq h.tokens

theorem tokens_appendClass (htokens : t.tokens = before ++ [bracket]) (more : List Char) :
    (t.appendClass more).tokens = before ++ [{ bracket with value := bracket.value ++ more }] :=
  tokens_modifyLast htokens

theorem synced_appendClass (htokens : t.tokens = before ++ [bracket])
    (hsource : bracket.source? = none) (h : t.Synced) (more : List Char) :
    (t.appendClass more).Synced := by
  intro hrebuild
  have houtput := h hrebuild
  rw [joinSources_of_tokens_eq htokens] at houtput
  rw [joinSources_of_tokens_eq (tokens_appendClass htokens more)]
  show t.output ++ more = _
  rw [houtput]
  simp [Token.source, hsource]

/-- The body goes on. -/
theorem Bracketing.appendClass (h : t.Bracketing ctx before bracket) {more : List Char}
    (hmore : ∀ body, bracket.value = '[' :: body →
      (∀ part, ClassMoves part .inside more) ∨ (body = [] ∧ more = ['^'])) :
    ∃ bracket', (t.appendClass more).Bracketing ctx before bracket' := by
  refine ⟨{ bracket with value := bracket.value ++ more }, tokens_appendClass h.tokens more,
    h.layout, h.settled, synced_appendClass h.tokens h.source? h.synced more, h.inClass, h.quoted,
    h.noBracket, h.kind, h.source?, h.previous, h.isStarRun, ?_⟩
  obtain ⟨body, part, hvalue, hmoves, -⟩ := h.body
  refine ⟨body ++ more, ?_⟩
  obtain hinside | ⟨rfl, rfl⟩ := hmore body hvalue
  · exact ⟨.inside, by simp [hvalue], hmoves.append (hinside part), .inl rfl⟩
  · exact ⟨.negated, by simp [hvalue], fun _ => rfl, .inr (.inr rfl)⟩

theorem Bracketing.classChar (h : t.Bracketing ctx before bracket)
    (hposix : ctx.options.posix = false) (c : Char) :
    ∃ bracket', (t.appendClass (t.classChar ctx c)).Bracketing ctx before bracket' := by
  refine h.appendClass fun body hvalue => ?_
  unfold Tokenizer.classChar
  dsimp only
  rw [hposix]
  have hfirst (hfirst : t.last.value = ['[']) : body = [] := by
    rw [h.last, hvalue] at hfirst
    exact (List.cons.inj hfirst).2
  repeat' split
  · simp_all
  · exact .inl fun part => classMoves_backslash part _
  · exact .inl fun part => classMoves_backslash part _
  · exact .inl fun _ _ => rfl
  · exact .inl fun part => classMoves_backslash part _
  · exact .inr ⟨hfirst (by simp_all), rfl⟩
  · exact .inr ⟨hfirst (by simp_all), rfl⟩
  · exact .inl fun part => classMoves_escapeClassChar part c

/-- A bracket that opens a class. -/
theorem Ready.exists_bracketing (hctx : ctx.IsStandard) (h : t.Ready ctx t.frames)
    (hquoted : t.quoted = false) (hnoBracket : ctx.options.noBracket = false) :
    ∃ before bracket,
      ({ t with inClass := true }.push ctx { kind := .bracket, value := ['['] }).Bracketing ctx
        before bracket := by
  let s : Tokenizer := { t with inClass := true }
  let token : Token := { kind := .bracket, value := ['['] }
  have hs : s.Ready ctx t.frames := ⟨h.layout, h.settled, h.synced⟩
  have hprepared := hs.prepared hctx token
  refine ⟨(s.prepared ctx token).tokens,
    { token with previous := some (s.prepared ctx token).lastPlace }, ?_, ?_, hprepared.settled,
    synced_push hctx hs token, push_inClass _ _ _, (push_quoted _ _ _).trans hquoted,
    hnoBracket, rfl, rfl, rfl, rfl, [], .opened, rfl, fun _ => rfl, .inr (.inl rfl)⟩
  · rw [push_eq_prepared]
    exact pushed_of_kind_ne (by simp)
  · rw [push_rebuild, push_frames, ← (prepared_same ctx s token).2.1]
    exact layout_noted (t := s) hprepared.layout token

/-- A neutral source in place of the bracket expression. -/
theorem Bracketing.lands (h : t.Bracketing ctx before bracket) {s : Tokenizer} {value : List Char}
    (hvalue : Neutral value) (htokens : s.tokens = before ++ [{ bracket with value }])
    (hsame : s.frames = t.frames ∧ s.start = t.start ∧ s.position = t.position ∧ s.inClass = false)
    (hrebuild : s.rebuild = t.rebuild ∨ s.rebuild = true) (hsynced : s.Synced) :
    t.Lands ctx s := by
  have hneutral : Neutral { bracket with value : Token }.source := by
    rw [Token.source, h.source?]
    exact hvalue
  have hlayout := h.layout.append hneutral
  refine .of_kind_ne (.inl ⟨?_, ?_, hsynced⟩) hsame.2.2.2 hsame.2.1
    (Nat.le_of_eq hsame.2.2.1.symm) ?_
  · rw [htokens, hsame.1]
    obtain hrebuild | hrebuild := hrebuild
    · rw [hrebuild]
      exact hlayout
    · rw [hrebuild]
      exact hlayout.toRebuild
  · rw [htokens]
    refine h.settled.append h.previous ?_ h.isStarRun fun _ => hneutral
    simp [h.kind]
  · rw [last_of_tokens_eq htokens, h.kind]
    simp

/-- The source of a bracket expression that may also be meant literally. -/
def literalBracket (ctx : Context) (value : List Char) : List Char :=
  if ctx.options.literalBrackets = some true then Regex.escape value
  else Fragment.openGroup ctx.options.capture ++ Regex.escape value ++ '|' :: value ++ [')']

theorem neutral_literalBracket (ctx : Context) {value : List Char} (h : Neutral value) :
    Neutral (literalBracket ctx value) := by
  unfold literalBracket
  split
  · exact neutral_escape _
  · have hbar : Neutral ['|'] := by decide
    have := Fragment.neutral_openGroup ctx.options.capture
      (((neutral_escape value).append hbar).append h)
    simpa using this

/-- A bracket expression gets a guard, or stays as it is, or may also be meant literally. -/
theorem finishBracket_cases (ctx : Context) (t : Tokenizer) (body : List Char) (isPosix : Bool) :
    t.finishBracket ctx body isPosix = (t.modifyLast fun token =>
        { token with value := ctx.dotGuard ++ token.value }).needRebuild ∨
      t.finishBracket ctx body isPosix = t ∨
      t.finishBracket ctx body isPosix =
        ((t.cutOutput (Text.byteSize t.last.value)).emit (literalBracket ctx t.last.value)).modifyLast
          fun token => { token with value := literalBracket ctx t.last.value } := by
  unfold finishBracket
  dsimp only
  split
  all_goals
    split
    · exact .inl rfl
    · split
      · exact .inr (.inl rfl)
      · exact .inr (.inr rfl)

/-- What becomes of a bracket expression is neutral, if it is so itself. -/
theorem Bracketing.lands_finishBracket (h : t.Bracketing ctx before bracket) {s : Tokenizer}
    {value : List Char} (hvalue : Neutral value)
    (htokens : s.tokens = before ++ [{ bracket with value }])
    (hsame : s.frames = t.frames ∧ s.start = t.start ∧ s.position = t.position ∧ s.inClass = false)
    (hrebuild : s.rebuild = t.rebuild) (hsynced : s.Synced) (body : List Char) (isPosix : Bool) :
    t.Lands ctx (s.finishBracket ctx body isPosix) := by
  obtain hguard | hkeep | hliteral := finishBracket_cases ctx s body isPosix
  · rw [hguard]
    exact h.lands (ctx.neutral_dotGuard.append hvalue) (tokens_modifyLast htokens) hsame
      (.inr rfl) fun hfalse => absurd hfalse (by simp [needRebuild])
  · rw [hkeep]
    exact h.lands hvalue htokens hsame (.inl hrebuild) hsynced
  · have hlast : s.last.value = value := by rw [last_of_tokens_eq htokens]
    rw [hliteral, hlast]
    have htokens' : s.tokens.modify s.lastPlace (fun token =>
      { token with value := literalBracket ctx value }) = _ := tokens_modifyLast htokens
    refine h.lands (neutral_literalBracket ctx hvalue) htokens' hsame (.inl hrebuild)
      fun hfalse => ?_
    have houtput := hsynced hfalse
    rw [joinSources_of_tokens_eq htokens] at houtput
    rw [joinSources_of_tokens_eq htokens']
    show Text.dropLastBytes (Text.byteSize value) s.output ++ literalBracket ctx value = _
    rw [houtput]
    simp only [Token.source, h.source?, Option.getD_none, Text.dropLastBytes_append]

/-- A closing bracket. -/
theorem Bracketing.lands_closeBracket (h : t.Bracketing ctx before bracket)
    (hvalue : bracket.value ≠ ['['] ∧ bracket.value ≠ ['[', '^']) {t' : Tokenizer}
    (hok : t.closeBracket ctx = .ok t') : t.Lands ctx t' := by
  obtain ⟨body, part, hbody, hmoves, hpart⟩ := h.body
  have hinside : part = .inside := by
    refine hpart.resolve_right ?_
    rintro (rfl | rfl)
    · exact hvalue.1 hbody
    · exact hvalue.2 hbody
  subst hinside
  unfold closeBracket at hok
  rw [if_neg (by simp [h.noBracket]), if_neg (by simp [h.inClass])] at hok
  dsimp only at hok
  cases hok
  generalize hclosing : (if (!t.last.isPosix && decide ((t.last.value.drop 1).head? = some '^') &&
    !(t.last.value.drop 1).contains '/') = true then Fragment.slashClass ctx.windows ++ [']']
    else [']']) = closing
  have hneutral : Neutral (bracket.value ++ closing) := by
    rw [hbody, ← hclosing]
    split
    · have hslash : ClassMoves .inside .inside (Fragment.slashClass ctx.windows) := by
        unfold Fragment.slashClass
        split <;> exact fun _ => rfl
      have := neutral_class (hmoves.append hslash)
      simpa using this
    · exact neutral_class hmoves
  exact h.lands_finishBracket (s := { t with inClass := false }.appendClass closing) hneutral
    (tokens_appendClass h.tokens closing) ⟨rfl, rfl, rfl, rfl⟩ rfl
    (synced_appendClass (t := { t with inClass := false }) h.tokens h.source? h.synced closing) _ _

end

/-! ### Steps -/

/-- The situations between two characters. The last two come up at the end of the text only:
behind a globstar that took a separator into its group, and behind a backslash within
brackets. -/
inductive Situation (ctx : Context) (t : Tokenizer) : Prop where
  | ready (h : t.Ready ctx t.frames) (hclass : t.inClass = false)
  | bracketing (before : List Token) (bracket : Token) (h : t.Bracketing ctx before bracket)
  | ended (hrest : t.rest = []) (hclass : t.inClass = false)
      (hlayout : Layout ctx.options.capture t.rebuild t.frames t.tokens) (hsynced : t.Synced)
  | cut (hrest : t.rest = []) (hclass : t.inClass = true) (before : List Token)
      (bracket text : Token) (htokens : t.tokens = before ++ [bracket, text])
      (hlayout : Layout ctx.options.capture t.rebuild t.frames before)
      (hkind : bracket.kind = .bracket) (hsource : bracket.source? = none)
      (htext : text.kind = .text) (hneutral : Neutral text.source)

/-- The beginning of the pattern: where it is, and what the tokens are there. -/
structure Begun (t : Tokenizer) : Prop where
  start : t.start ≤ t.position
  first : t.position = t.start → t.tokens = [.bos]
  dot : t.position = t.start + 1 → t.last.kind = .dot → ∃ dot, t.tokens = [.bos, dot]
  ends : t.EndsPlainly

theorem Lands.situation {t' : Tokenizer} (h : t.Lands ctx t') : t'.Situation ctx := by
  obtain hready | ⟨hrest, hlayout, hsynced⟩ := h.ready
  · exact .ready hready h.inClass
  · exact .ended hrest h.inClass hlayout hsynced

section
variable {rest : List Char} {c : Char} {t' : Tokenizer}

/-- The state with one character more taken off the rest. -/
def taking (t : Tokenizer) (rest : List Char) : Tokenizer :=
  { t with rest, position := t.position + 1 }

theorem Begun.of_same (h : t.Begun) (hstart : t'.start = t.start)
    (hposition : t.position + 1 ≤ t'.position)
    (hdot : t.tokens = [.bos] → t'.last.kind = .dot → ∃ dot, t'.tokens = [.bos, dot])
    (hends : t'.EndsPlainly) : t'.Begun where
  start := by have := h.start; omega
  first heq := by have := h.start; omega
  dot heq hkind := by
    have := h.start
    exact hdot (h.first (by omega)) hkind
  ends := hends

theorem Lands.begun (h : (t.taking rest).Lands ctx t') (hbegun : t.Begun) : t'.Begun :=
  hbegun.of_same h.start h.position h.dot (h.ends hbegun.ends)

/-- A leading `./` is dropped from the pattern. -/
theorem Begun.dropped (hbegun : t.Begun) (h : t.Ready ctx t.frames) (hkind : t.last.kind = .dot)
    (hplace : t.position = t.start + 1) : t.frames = [] ∧ t.tokens.dropLast = [.bos] := by
  obtain ⟨dot, htokens⟩ := hbegun.dot hplace hkind
  refine ⟨?_, by rw [htokens]; rfl⟩
  have hlast : t.last = dot := by rw [last, htokens]; rfl
  -- Neither token could have opened a group.
  refine List.eq_nil_iff_forall_not_mem.mpr fun frame hframe => ?_
  obtain ⟨kind, hopen, token, htoken, rfl, -⟩ := (h.layout.fits frame hframe).exists_opens
  have hmem := List.mem_of_getElem? htoken
  rw [htokens, List.mem_cons, List.mem_singleton] at hmem
  obtain rfl | rfl := hmem
  · simp at hopen
  · rw [← hlast, hkind] at hopen
    simp at hopen

theorem Ready.step_slash (hctx : ctx.IsStandard) (hbegun : t.Begun) (h : t.Ready ctx t.frames)
    (hclass : t.inClass = false) :
    ((t.taking rest).slash ctx).Situation ctx ∧ ((t.taking rest).slash ctx).Begun := by
  have hs : (t.taking rest).Ready ctx (t.taking rest).frames := ⟨h.layout, h.settled, h.synced⟩
  unfold slash
  split
  case isTrue hdot =>
    rw [Bool.and_eq_true, decide_eq_true_eq, decide_eq_true_eq] at hdot
    have hplace : t.position = t.start + 1 := hdot.2
    obtain ⟨hframes, htokens⟩ := hbegun.dropped h hdot.1 hplace
    let s : Tokenizer := { t.taking rest with
      start := (t.taking rest).place + 1, output := [], tokens := (t.taking rest).tokens.dropLast }
    have htokens' : s.tokens = [.bos] := htokens
    have hlast : s.last = .bos := by rw [last, htokens']; rfl
    refine ⟨.ready ⟨?_, ?_, ?_⟩ hclass, ?_, ?_, ?_, ?_⟩
    · show Layout _ _ t.frames s.tokens
      rw [htokens', hframes]
      exact .singleton _ _ neutral_nil
    · show Settled s.tokens
      rw [htokens']
      exact .singleton neutral_nil rfl rfl
    · intro _
      show [] = s.tokens.flatMap Token.source
      rw [htokens']
      rfl
    · exact Nat.le_refl _
    · exact fun _ => htokens'
    · show _ → s.last.kind = .dot → _
      rw [hlast]
      exact fun _ hkind => absurd hkind (by simp)
    · show s.EndsPlainly
      rw [EndsPlainly, hlast]
      exact fun hkind => absurd hkind (by simp)
  case isFalse =>
    have hlands : (t.taking rest).Lands ctx ((t.taking rest).push ctx
        (.ofSource .slash ['/'] (Fragment.slash ctx.windows))) :=
      hs.lands_push hctx hclass (Fragment.neutral_slash _) (by simp)
        (by simp) rfl
    exact ⟨hlands.situation, hlands.begun hbegun⟩

theorem Ready.step_bang (hctx : ctx.IsStandard) (hbegun : t.Begun) (h : t.Ready ctx t.frames)
    (hclass : t.inClass = false) :
    ((t.taking rest).bang ctx).Situation ctx ∧ ((t.taking rest).bang ctx).Begun := by
  have hs : (t.taking rest).Ready ctx (t.taking rest).frames := ⟨h.layout, h.settled, h.synced⟩
  have hlands {t' : Tokenizer} (h : (t.taking rest).Lands ctx t') : t'.Situation ctx ∧ t'.Begun :=
    ⟨h.situation, h.begun hbegun⟩
  unfold bang
  dsimp only
  split
  · exact hlands (hs.lands_openExtglob hctx hclass _ _)
  · split
    case isFalse => exact hlands (hs.lands_plainText hctx hclass (.inr (by decide)))
    case isTrue hnegate =>
      rw [Bool.and_eq_true, decide_eq_true_eq] at hnegate
      have hposition : t.position = 0 := hnegate.2
      have hstart : t.start = 0 := by have := hbegun.start; omega
      have htokens : t.tokens = [.bos] := hbegun.first (by omega)
      have hlast : t.last = .bos := by rw [last, htokens]; rfl
      refine ⟨.ready ⟨h.layout, h.settled, h.synced⟩ hclass, ?_, fun _ => htokens, ?_, hbegun.ends⟩
      · show _ + 1 ≤ t.position + 1 + _
        omega
      · intro _ hkind
        have : t.last.kind = .dot := hkind
        rw [hlast] at this
        exact absurd this (by simp)

variable {tail : List Char → Except Error (List Char)}

/-- A closing bracket without an opening one. -/
theorem Ready.lands_closeBracket (hctx : ctx.IsStandard) (h : t.Ready ctx t.frames)
    (hclass : t.inClass = false) (hok : t.closeBracket ctx = .ok t') : t.Lands ctx t' := by
  have hlands := h.lands_pushText hctx hclass 0 (neutral_backslash ']') [']']
  unfold closeBracket at hok
  split at hok
  · cases hok
    exact hlands
  · rw [if_pos (by simp [hclass])] at hok
    split at hok
    · exact absurd hok (by simp)
    · cases hok
      exact hlands

theorem Ready.step_openBracket (hctx : ctx.IsStandard) (hbegun : t.Begun)
    (h : t.Ready ctx t.frames) (hclass : t.inClass = false) (hquoted : t.quoted = false)
    (hok : (t.taking rest).openBracket ctx = .ok t') : t'.Situation ctx ∧ t'.Begun := by
  have hs : (t.taking rest).Ready ctx (t.taking rest).frames := ⟨h.layout, h.settled, h.synced⟩
  unfold openBracket at hok
  split at hok
  case isTrue =>
    split at hok
    case isTrue => exact absurd hok (by simp)
    case isFalse =>
      cases hok
      have hneutral : Neutral ({ kind := .bracket, value := ['\\', '['] } : Token).source := by
        decide
      have hlands := hs.lands_push hctx hclass hneutral (by simp) (by simp) rfl
      exact ⟨hlands.situation, hlands.begun hbegun⟩
  case isFalse hnoBracket =>
    cases hok
    have hfalse : ctx.options.noBracket = false := by
      cases hoption : ctx.options.noBracket with
      | false => rfl
      | true => simp [hoption] at hnoBracket
    obtain ⟨before, bracket, hbracketing⟩ := hs.exists_bracketing hctx hquoted hfalse
    have hkind : bracket.kind ≠ .dot := by simp [hbracketing.kind]
    refine ⟨.bracketing before bracket hbracketing, hbegun.of_same (push_start _ _ _) ?_
      (fun _ hdot => ?_) fun hdot => ?_⟩
    · rw [push_position]
      exact Nat.le_refl _
    · rw [hbracketing.last] at hdot
      exact absurd hdot hkind
    · rw [hbracketing.last] at hdot
      exact absurd hdot hkind

/-- A character outside of brackets. -/
theorem Ready.step (hctx : ctx.IsStandard)
    (htail : ∀ text output, tail text = .ok output → Neutral output) (hbegun : t.Begun)
    (h : t.Ready ctx t.frames) (hclass : t.inClass = false)
    (hok : Tokenizer.step ctx tail (t.taking rest) c = .ok t') : t'.Situation ctx ∧ t'.Begun := by
  have hs : (t.taking rest).Ready ctx (t.taking rest).frames := ⟨h.layout, h.settled, h.synced⟩
  have hlands {t' : Tokenizer} (h : (t.taking rest).Lands ctx t') : t'.Situation ctx ∧ t'.Begun :=
    ⟨h.situation, h.begun hbegun⟩
  unfold Tokenizer.step at hok
  split at hok
  · cases hok
    exact hlands (hs.lands_self hclass)
  · split at hok
    · cases hok
      exact hlands (hs.lands_escape hctx hclass)
    · rename_i hnul hbackslash
      rw [if_neg (by simp [taking, hclass])] at hok
      split at hok
      case isTrue =>
        cases hok
        exact hlands (hs.lands_pushText hctx hclass 0 (neutral_escapeChar c) _)
      case isFalse hquoted =>
        split at hok
        case h_1 =>
          -- A quotation mark.
          cases hok
          let s : Tokenizer := { t.taking rest with quoted := !(t.taking rest).quoted }
          have hs' : s.Ready ctx s.frames := ⟨hs.layout, hs.settled, hs.synced⟩
          have hlands' {t' : Tokenizer} (h : s.Lands ctx t') : t'.Situation ctx ∧ t'.Begun :=
            ⟨h.situation, hbegun.of_same h.start h.position h.dot (h.ends hbegun.ends)⟩
          show (if ctx.options.keepQuotes then _ else s).Situation ctx ∧ _
          split
          · exact hlands' (hs'.lands_pushText hctx hclass 0 (by decide) _)
          · exact hlands' (hs'.lands_self hclass)
        case h_2 =>
          cases hok
          exact hlands (hs.lands_openParen hctx hclass)
        case h_3 => exact hlands (hs.lands_closeParen hctx hclass htail hok)
        case h_4 =>
          exact h.step_openBracket hctx hbegun hclass (by simpa [taking] using hquoted) hok
        case h_5 => exact hlands (hs.lands_closeBracket hctx hclass hok)
        case h_6 =>
          cases hok
          split
          · exact hlands (hs.lands_plainText hctx hclass (.inl rfl))
          · exact hlands (hs.lands_openBrace hctx hclass)
        case h_7 =>
          cases hok
          exact hlands (hs.lands_closeBrace hctx hclass)
        case h_8 =>
          cases hok
          have hneutral : Neutral (if (t.taking rest).inParen then ['|'] else ['\\', '|']) := by
            split <;> decide
          exact hlands (hs.lands_pushText hctx hclass 0 hneutral _)
        case h_9 =>
          cases hok
          exact hlands (hs.lands_comma hctx hclass)
        case h_10 =>
          cases hok
          exact h.step_slash hctx hbegun hclass
        case h_11 =>
          cases hok
          exact hlands (hs.lands_dot hctx hclass hbegun.ends)
        case h_12 =>
          cases hok
          exact hlands (hs.lands_qmark hctx hclass)
        case h_13 =>
          cases hok
          exact h.step_bang hctx hbegun hclass
        case h_14 =>
          cases hok
          have hneutral : Neutral (Token.ofSource .plus ['+'] Fragment.plus).source := by decide
          exact hlands (hs.lands_operator hctx hclass _ _ hneutral (by simp)
            (by simp) rfl)
        case h_15 =>
          cases hok
          have hneutral : Neutral (Token.text ['@'] ['@']).source := by decide
          exact hlands (hs.lands_operator hctx hclass _ _ hneutral
            (by simp) (by simp) rfl)
        case h_16 =>
          cases hok
          exact hlands (hs.lands_star hctx hclass)
        case h_17 =>
          cases hok
          refine hlands (hs.lands_plainText hctx hclass (.inr ?_))
          simp_all [isLoose]

section
variable {before : List Token} {bracket : Token}

theorem Bracketing.taking (h : t.Bracketing ctx before bracket) (rest : List Char) :
    (t.taking rest).Bracketing ctx before bracket := { h with tokens := h.tokens }

theorem Bracketing.skip (h : t.Bracketing ctx before bracket) (n : Nat) :
    (t.skip n).Bracketing ctx before bracket := { h with tokens := h.tokens }

/-- Within brackets there is no dot that could belong to a leading `./`. -/
theorem Bracketing.begun (h : t'.Bracketing ctx before bracket) (hbegun : t.Begun)
    (hstart : t'.start = t.start) (hposition : t.position + 1 ≤ t'.position) : t'.Begun := by
  have hkind : t'.last.kind ≠ .dot := by simp [h.last, h.kind]
  exact hbegun.of_same hstart hposition (fun _ hdot => absurd hdot hkind)
    fun hdot => absurd hdot hkind

/-- A backslash within brackets. -/
theorem Bracketing.step_escape (hbegun : t.Begun) (h : t.Bracketing ctx before bracket) :
    ((t.taking rest).escape ctx).Situation ctx ∧ ((t.taking rest).escape ctx).Begun := by
  have hs := h.taking rest
  unfold escape
  split
  case h_1 hrest =>
    -- The backslash is the last character, and becomes a token of its own.
    let token : Token := .text ['\\'] ['\\', '\\']
    have hprepared : (t.taking rest).prepared ctx token = t.taking rest := by
      unfold prepared
      simp [hs.last, h.kind]
    have htokens : ((t.taking rest).push ctx token).tokens =
        before ++ [bracket, { token with previous := some before.length }] := by
      rw [push_eq_prepared, hprepared]
      show (t.taking rest).pushed token = _
      rw [pushed_eq hs.tokens, if_neg (by simp [h.kind])]
    have hkind : ((t.taking rest).push ctx token).last.kind ≠ .dot := by
      rw [kind_last_push (by rw [hs.tokens]; simp)]
      simp [token]
    refine ⟨.cut ((push_rest _ _ _).trans hrest) ((push_inClass _ _ _).trans hs.inClass) before
      bracket _ htokens ?_ h.kind h.source? rfl (neutral_backslash _), ?_⟩
    · show Layout _ ((t.taking rest).push ctx token).rebuild
        ((t.taking rest).push ctx token).frames _
      rw [push_rebuild, push_frames]
      exact layout_noted hs.layout token
    · refine hbegun.of_same (push_start _ _ _) ?_ (fun _ hdot => absurd hdot hkind)
        fun hdot => absurd hdot hkind
      exact Nat.le_of_eq (push_position ctx (t.taking rest) token).symm
  case h_2 next more _ =>
    split
    · exact ⟨.bracketing before bracket hs, hs.begun hbegun rfl (Nat.le_refl _)⟩
    · dsimp only
      rw [if_pos (show ((t.taking rest).skip 1).inClass = true from h.inClass)]
      have hmoves (part : ClassPart) : ClassMoves part .inside
          (if !ctx.options.unescape && (isClassMeta next || isClassEscapeLetter next)
            then ['\\', next] else escapeClassChar next) := by
        split
        · exact classMoves_backslash part next
        · exact classMoves_escapeClassChar part next
      obtain ⟨bracket', h'⟩ := (hs.skip 1).appendClass fun _ _ => .inl hmoves
      exact ⟨.bracketing before bracket' h', h'.begun hbegun rfl (Nat.le_add_right _ _)⟩

/-- A character within brackets. -/
theorem Bracketing.step (hctx : ctx.IsStandard) (hbegun : t.Begun)
    (h : t.Bracketing ctx before bracket)
    (hok : Tokenizer.step ctx tail (t.taking rest) c = .ok t') : t'.Situation ctx ∧ t'.Begun := by
  have hs := h.taking rest
  unfold Tokenizer.step at hok
  split at hok
  · cases hok
    exact ⟨.bracketing before bracket hs, hs.begun hbegun rfl (Nat.le_refl _)⟩
  · split at hok
    · cases hok
      exact h.step_escape hbegun
    · split at hok
      case isTrue =>
        cases hok
        obtain ⟨bracket', h'⟩ := hs.classChar hctx.posix c
        have hinBracket : (t.taking rest).inBracket ctx c =
            (t.taking rest).appendClass ((t.taking rest).classChar ctx c) := by
          unfold inBracket
          rw [if_neg (by simp [hctx.posix])]
        rw [hinBracket]
        exact ⟨.bracketing before bracket' h', h'.begun hbegun rfl (Nat.le_refl _)⟩
      case isFalse hclosing =>
        -- Only a closing bracket is left, and the body is not empty.
        simp only [hs.inClass, Bool.true_and, Bool.or_eq_true, decide_eq_true_eq, not_or,
          Decidable.not_not, hs.last] at hclosing
        obtain ⟨⟨rfl, hempty⟩, hnegated⟩ := hclosing
        rw [if_neg (by simp [hs.quoted])] at hok
        have hlands := hs.lands_closeBracket ⟨hempty, hnegated⟩ hok
        exact ⟨hlands.situation, hlands.begun hbegun⟩

end

/-- Every step leads from one of the situations to another. -/
theorem Situation.step (hctx : ctx.IsStandard)
    (htail : ∀ text output, tail text = .ok output → Neutral output) (h : t.Situation ctx)
    (hbegun : t.Begun) (hrest : t.rest = c :: rest)
    (hok : Tokenizer.step ctx tail (t.taking rest) c = .ok t') : t'.Situation ctx ∧ t'.Begun := by
  cases h with
  | ready h hclass => exact h.step hctx htail hbegun hclass hok
  | bracketing before bracket h => exact h.step hctx hbegun hok
  | ended hnil | cut hnil => exact absurd (hrest.symm.trans hnil) (by simp)

/-- So does a whole run. -/
theorem Situation.run (hctx : ctx.IsStandard)
    (htail : ∀ text output, tail text = .ok output → Neutral output) (n : Nat)
    (h : t.Situation ctx) (hbegun : t.Begun) (hok : Tokenizer.run ctx tail n t = .ok t') :
    t'.Situation ctx := by
  induction n generalizing t with
  | zero =>
    cases hok
    exact h
  | succ n ih =>
    rw [Tokenizer.run] at hok
    split at hok
    case h_1 =>
      cases hok
      exact h
    case h_2 c rest hrest =>
      obtain ⟨next, hstep, hrun⟩ := bind_eq_ok hok
      obtain ⟨hnext, hnextBegun⟩ := h.step hctx htail hbegun hrest hstep
      exact ih hnext hnextBegun hrun

end

/-! ### The end of the text -/

theorem kindAt_modify_of_kind_eq (change : Token → Token)
    (h : ∀ token, (change token).kind = token.kind) (tokens : List Token) (place i : Nat) :
    kindAt (tokens.modify place change) i = kindAt tokens i := by
  rw [kindAt, kindAt, List.getElem?_modify]
  cases tokens[i]? with
  | none => rfl
  | some token =>
    show some _ = some _
    by_cases heq : place = i <;> simp [heq, h]

/-- A plain token gets another source that is neutral. -/
theorem layout_setSource {capture : Bool} {kind : TokenKind} {place : Nat}
    (h : Layout capture true frames t.tokens) (hkind : kindAt t.tokens place = some kind)
    (hplain : kind.isPlain = true) {source : Token → List Char}
    (hsource : ∀ token, Neutral (source token)) :
    Layout capture true frames (t.tokens.modify place fun token =>
      { token with source? := some (source token) }) := by
  refine h.modify (fun token htoken => ?_) fun hfalse => absurd hfalse (by simp)
  have hneutral : Neutral token.source := by
    refine h.plain token (List.mem_of_getElem? htoken) ?_
    rw [kindAt, htoken] at hkind
    rwa [Option.some.inj hkind]
  exact .of_neutral hneutral (hsource token) fun _ => rfl

theorem kindAt_setSource (t : Tokenizer) (place : Nat) (source : List Char) (i : Nat) :
    kindAt (t.setSource place source).tokens i = kindAt t.tokens i :=
  kindAt_modify_of_kind_eq (fun token => { token with source? := some source }) (fun _ => rfl)
    t.tokens place i

theorem layout_setSources {capture : Bool} {kind : TokenKind} (hplain : kind.isPlain = true)
    {source : List Char} (hsource : Neutral source) {places : List Nat}
    (h : Layout capture true frames t.tokens)
    (hkind : ∀ place ∈ places, kindAt t.tokens place = some kind) :
    Layout capture true frames
      (places.foldl (fun t place => t.setSource place source) t).tokens := by
  induction places generalizing t with
  | nil => exact h
  | cons place places ih =>
    rw [List.forall_mem_cons] at hkind
    refine ih (t := t.setSource place source)
      (layout_setSource h hkind.1 hplain fun _ => hsource) fun other hother => ?_
    rw [kindAt_setSource]
    exact hkind.2 other hother

/-- The opening of a group that is still open becomes text, and so do its commas. -/
theorem layout_endFrame {capture : Bool} {frame : Frame}
    (h : Layout capture true (frame :: frames) t.tokens) :
    Layout capture true frames (t.endFrame frame).tokens := by
  have htake : takeFrame? (fun _ => true) (frame :: frames) = some (frame, frames) := rfl
  have hfits := h.fits frame List.mem_cons_self
  have hrelease {t : Tokenizer} (h : Layout capture true (frame :: frames) t.tokens) (c : Char) :
      Layout capture true frames (t.setSource frame.place ['\\', c]).tokens :=
    h.release htake (fun _ _ => ⟨rfl, neutral_backslash c⟩) fun hfalse => absurd hfalse (by simp)
  cases frame with
  | paren place => exact hrelease h '('
  | extglob frame =>
    exact hrelease (t := t.modify frame.operator _)
      (layout_setSource h hfits.1 rfl fun token => neutral_escape token.value) '('
  | brace frame =>
    have hplain : TokenKind.comma.isPlain = true := rfl
    refine layout_setSources hplain (by decide) (hrelease h '{') fun place hplace => ?_
    rw [kindAt_setSource]
    exact hfits.2.1 place hplace

theorem layout_endFrames {capture : Bool} (h : Layout capture true frames t.tokens) :
    Layout capture true [] (frames.foldl endFrame t).tokens := by
  induction frames generalizing t with
  | nil => exact h
  | cons frame frames ih => exact ih (t := t.endFrame frame) (layout_endFrame h)

/-- The last element that passes a test stands before elements that fail it. -/
theorem modifyLastWhere_append {α : Type} {test : α → Bool} {item : α} (h : test item = true)
    {after : List α} (hafter : ∀ item ∈ after, test item = false) (change : α → α)
    (before : List α) : modifyLastWhere test change (before ++ item :: after) =
      before ++ change item :: after := by
  have hgo (items : List α) (hitems : ∀ item ∈ items, test item = false) (rest : List α) :
      modifyLastWhere.go test change (items ++ item :: rest) = items ++ change item :: rest := by
    induction items with
    | nil => rw [List.nil_append, modifyLastWhere.go, if_pos h, List.nil_append]
    | cons other items ih =>
      rw [List.forall_mem_cons] at hitems
      rw [List.cons_append, modifyLastWhere.go, if_neg (by simp [hitems.1]), ih hitems.2,
        List.cons_append]
  rw [modifyLastWhere, List.reverse_append, List.reverse_cons, List.append_assoc,
    List.singleton_append, hgo _ fun item hitem => hafter item (List.mem_reverse.mp hitem)]
  simp

/-- A bracket that is still open becomes text. -/
theorem Situation.endBracket {s : Tokenizer} (h : t.Situation ctx)
    (hok : t.endBracket ctx = .ok s) :
    Layout ctx.options.capture s.rebuild s.frames s.tokens ∧ s.Synced := by
  unfold Tokenizer.endBracket at hok
  have hescape (bracket : Token) (hsource : bracket.source? = none) :
      Neutral { bracket with value := Regex.escape bracket.value : Token }.source := by
    rw [Token.source, hsource]
    exact neutral_escape _
  -- An open class is escaped, whatever stands behind it.
  have hopen (hclass : t.inClass = true) {before after : List Token} {bracket : Token}
      (htokens : t.tokens = before ++ bracket :: after) (hkind : bracket.kind = .bracket)
      (hafter : ∀ token ∈ after, token.kind ≠ .bracket)
      (hlayout : Layout ctx.options.capture true t.frames
        (before ++ { bracket with value := Regex.escape bracket.value } :: after)) :
      Layout ctx.options.capture s.rebuild s.frames s.tokens ∧ s.Synced := by
    rw [hclass] at hok
    split at hok
    case isTrue hfalse => exact absurd hfalse (by simp)
    split at hok
    case isTrue => exact absurd hok (by simp)
    case isFalse =>
      cases hok
      refine ⟨?_, fun hfalse => absurd hfalse (by simp)⟩
      show Layout _ _ _ (modifyLastWhere _ _ t.tokens)
      rw [htokens, modifyLastWhere_append (by simp [hkind])
        fun token htoken => by simp [hafter token htoken]]
      exact hlayout
  cases h with
  | ready h hclass =>
    rw [if_pos (by simp [hclass])] at hok
    cases hok
    exact ⟨h.layout, h.synced⟩
  | ended hrest hclass hlayout hsynced =>
    rw [if_pos (by simp [hclass])] at hok
    cases hok
    exact ⟨hlayout, hsynced⟩
  | bracketing before bracket h =>
    exact hopen h.inClass h.tokens h.kind (by simp)
      (h.layout.toRebuild.append (hescape bracket h.source?))
  | cut hrest hclass before bracket text htokens hlayout hkind hsource htext hneutral =>
    have := (hlayout.toRebuild.append (hescape bracket hsource)).append hneutral
    exact hopen hclass htokens hkind (by simp [htext]) (by rwa [List.append_assoc] at this)

/-- A separator that may be missing at the end. -/
theorem layout_allowSlash (ctx : Context) {capture : Bool}
    (hlayout : Layout capture t.rebuild [] t.tokens) (hsynced : t.Synced) :
    Layout capture (t.allowSlash ctx).rebuild [] (t.allowSlash ctx).tokens ∧
      (t.allowSlash ctx).Synced := by
  unfold allowSlash
  split
  case isFalse => exact ⟨hlayout, hsynced⟩
  case isTrue hlast =>
    rw [Bool.and_eq_true, Bool.or_eq_true, decide_eq_true_eq, decide_eq_true_eq] at hlast
    generalize htoken : Token.ofSource .maybeSlash [] (Fragment.slash ctx.windows ++ ['?']) = token
    have hkind : token.kind ≠ .text := by simp [← htoken]
    have hneutral : Neutral token.source := by
      rw [← htoken]
      exact (Fragment.neutral_slash _).append (by decide)
    have hne : t.tokens ≠ [] := by
      intro hnil
      rw [last, hnil] at hlast
      simp at hlast
    have hprepared : t.prepared ctx token = t := by
      unfold prepared
      obtain hkind | hkind := hlast.2 <;> simp [hkind]
    obtain ⟨previous, htokens⟩ := tokens_push_of_kind_ne hkind ctx t
    rw [hprepared] at htokens
    refine ⟨?_, synced_push_of_prepared ?_ ?_⟩
    · rw [push_rebuild, htokens]
      exact hlayout.append hneutral
    · rwa [hprepared]
    · rwa [hprepared]

/-- With no group open any more, the source is neutral. -/
theorem neutral_of_layout {capture : Bool} (hlayout : Layout capture t.rebuild [] t.tokens)
    (hsynced : t.Synced) :
    Neutral (if t.rebuild then { t with output := t.joinSources } else t).output := by
  have hjoin : Neutral t.joinSources := hlayout.balanced.neutral_join
  split
  case isTrue => exact hjoin
  case isFalse hfalse =>
    rw [hsynced (eq_false_of_ne_true hfalse)]
    exact hjoin

theorem Situation.neutral_finish {s : Tokenizer} (h : t.Situation ctx)
    (hok : t.finish ctx = .ok s) : Neutral s.output := by
  unfold finish at hok
  obtain ⟨bracketed, hbracket, hok⟩ := bind_eq_ok hok
  obtain ⟨hlayout, hsynced⟩ := h.endBracket hbracket
  obtain ⟨framed, hframes, hok⟩ := bind_eq_ok hok
  have hframed : Layout ctx.options.capture framed.rebuild [] framed.tokens ∧ framed.Synced := by
    unfold endFrames at hframes
    split at hframes
    case h_1 hnil =>
      cases hframes
      exact ⟨hnil ▸ hlayout, hsynced⟩
    case h_2 =>
      split at hframes
      case isTrue => exact absurd hframes (by simp)
      case isFalse =>
        cases hframes
        exact ⟨layout_endFrames hlayout.toRebuild, fun hfalse => absurd hfalse (by simp)⟩
  cases hok
  obtain ⟨hlayout, hsynced⟩ := layout_allowSlash ctx hframed.1 hframed.2
  exact neutral_of_layout hlayout hsynced

end Tokenizer

/-! ### Whole patterns -/

theorem Tokenizer.situation_begin (ctx : Context) (body : List Char) :
    Situation ctx { rest := body } :=
  .ready ⟨.singleton _ _ neutral_nil, .singleton neutral_nil rfl rfl, fun _ => rfl⟩ rfl

theorem Tokenizer.begun_begin (body : List Char) : Begun { rest := body } :=
  ⟨Nat.le_refl _, fun _ => rfl, fun hfalse => absurd hfalse (by simp),
    fun hkind => absurd (show TokenKind.bos = .dot from hkind) (by simp)⟩

theorem Context.neutral_tokenize {ctx : Context} (hctx : ctx.IsStandard)
    {tail : List Char → Except Error (List Char)}
    (htail : ∀ text output, tail text = .ok output → Neutral output) {translation : Translation}
    (hok : ctx.tokenize tail = .ok translation) : Neutral translation.output := by
  unfold tokenize at hok
  obtain ⟨t, hrun, hok⟩ := bind_eq_ok hok
  obtain ⟨s, hfinish, hok⟩ := bind_eq_ok hok
  cases hok
  exact ((Tokenizer.situation_begin ctx _).run hctx htail _ (Tokenizer.begun_begin _)
    hrun).neutral_finish hfinish

theorem neutral_translate {options : Options} (hposix : options.posix = false)
    (hexpandRange : options.expandRange = none) {tail : List Char → Except Error (List Char)}
    (htail : ∀ text output, tail text = .ok output → Neutral output) {pattern : List Char}
    {translation : Translation} (hok : translate options tail pattern = .ok translation) :
    Neutral translation.output := by
  have hctx : (Context.ofPattern options pattern).IsStandard :=
    ⟨neutral_starSource options, hposix, hexpandRange⟩
  -- A shortcut has the same source as the tokenizer.
  have hessence := translate_essence options tail pattern
  rw [hok] at hessence
  cases htokenize : (Context.ofPattern options pattern).tokenize tail with
  | error =>
    rw [htokenize] at hessence
    exact absurd hessence (by simp [Except.map])
  | ok slow =>
    rw [htokenize] at hessence
    have hsame : translation.essence = slow.essence := by simpa [Except.map] using hessence
    have houtput : translation.essence.output = slow.essence.output := by rw [hsame]
    rw [show translation.output = slow.output from houtput]
    exact Context.neutral_tokenize hctx htail htokenize

theorem neutral_parseWithin (depth : Nat) {options : Options} (hposix : options.posix = false)
    (hexpandRange : options.expandRange = none) {pattern : List Char} {translation : Translation}
    (hok : parseWithin depth options pattern = .ok translation) :
    Neutral translation.output := by
  induction depth generalizing options pattern translation with
  | zero =>
    unfold parseWithin at hok
    dsimp only at hok
    repeat' split at hok
    case isTrue | isTrue => exact absurd hok (by simp)
    case isFalse =>
      exact neutral_translate hposix hexpandRange (fun _ _ herror => absurd herror (by simp)) hok
  | succ depth ih =>
    unfold parseWithin at hok
    dsimp only at hok
    repeat' split at hok
    case isTrue | isTrue => exact absurd hok (by simp)
    case isFalse =>
      refine neutral_translate hposix hexpandRange (fun text output htail => ?_) hok
      cases hparse : parseWithin depth { options with fastPaths := false } text with
      | error =>
        rw [hparse] at htail
        exact absurd htail (by simp [Except.map])
      | ok inner =>
        rw [hparse] at htail
        cases htail
        have hposix' : { options with fastPaths := false }.posix = false := hposix
        have hexpandRange' : { options with fastPaths := false }.expandRange = none := hexpandRange
        exact ih hposix' hexpandRange' hparse

end Pattern

/-- Whatever is balanced in a pattern or not, its translation has matching brackets. -/
theorem isBracketed_parse {pattern : List Char} {options : Options}
    (hposix : options.posix = false) (hexpandRange : options.expandRange = none)
    {translation : Pattern.Translation} (hok : parse pattern options = .ok translation) :
    Regex.isBracketed false 0 translation.output = true :=
  Regex.isBracketed_of_scan (s := .outside 0)
    (Pattern.neutral_parseWithin pattern.length hposix hexpandRange hok 0)

/-- Groups that cross, groups that stay open, and a negation with an extension behind it. -/
theorem isBracketed_parse_crossing : ∃ translation,
    parse ['(', '{', 'a', ',', ')', '}', '@', '(', '!', '(', '*', ')', '.', 'b'] {} =
      .ok translation ∧ Regex.isBracketed false 0 translation.output = true := by
  have hok : (parse ['(', '{', 'a', ',', ')', '}', '@', '(', '!', '(', '*', ')', '.', 'b']
      {}).toOption.isSome = true := by decide +kernel
  obtain ⟨translation, hparse⟩ := Pattern.exists_eq_ok hok
  exact ⟨translation, hparse, isBracketed_parse rfl rfl hparse⟩

end PathGlob
