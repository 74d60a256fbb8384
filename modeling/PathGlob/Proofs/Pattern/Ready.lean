import PathGlob.Pattern.Parse
import PathGlob.Proofs.Pattern.Layout

/-!
# `PathGlob.Proofs.Pattern.Ready`: tokenizers that are ready for a character

`Tokenizer.Ready` collects what has to hold of the tokens and the source for the next
character to be read: the layout, that the tokens are settled, and that the source is that of
the tokens as long as it is edited along with them. The lemmas of this module keep it through
the operations that all characters are made of.
-/

set_option autoImplicit false

namespace PathGlob

namespace Pattern

open Regex

/-- A step that succeeds only goes on from one that does. -/
theorem bind_eq_ok {α β ε : Type} {x : Except ε α} {f : α → Except ε β} {b : β}
    (h : (x >>= f) = .ok b) : ∃ a, x = .ok a ∧ f a = .ok b := by
  cases x with
  | error => exact absurd h (by simp [bind, Except.bind])
  | ok a => exact ⟨a, rfl, h⟩

theorem exists_eq_ok {α ε : Type} {x : Except ε α} (h : x.toOption.isSome = true) :
    ∃ a, x = .ok a := by
  cases x with
  | error => exact absurd h (by simp [Except.toOption])
  | ok a => exact ⟨a, rfl⟩

/-- What the sources of a context have to do with brackets. -/
structure Context.IsStandard (ctx : Context) : Prop where
  star : Neutral ctx.star
  posix : ctx.options.posix = false
  expandRange : ctx.options.expandRange = none

namespace Context

theorem neutral_dotGuard (ctx : Context) : Neutral ctx.dotGuard := Fragment.neutral_dotGuard _ _

theorem neutral_globstar (ctx : Context) : Neutral ctx.globstar := Fragment.neutral_globstar _ _ _

end Context

/-- A text without backslashes refers back to nothing. -/
theorem refersBack_of_not_mem {text : List Char} (h : '\\' ∉ text) : refersBack text = false := by
  induction text with
  | nil => rfl
  | cons c text ih =>
    rw [List.mem_cons, not_or] at h
    rw [refersBack, ih h.2, Bool.or_false, decide_eq_false (Ne.symm h.1), Bool.false_and]

theorem neutral_starSource (options : Options) : Neutral (starSource options) := by
  have hstar : Neutral (if options.bash then
      Fragment.globstar options.windows options.dot options.capture
      else Fragment.star options.windows) := by
    split
    · exact Fragment.neutral_globstar _ _ _
    · exact Fragment.neutral_star _
  unfold starSource
  dsimp only
  split
  · exact Fragment.neutral_openGroup true hstar
  · exact hstar

namespace Tokenizer

variable {ctx : Context} {t : Tokenizer} {token : Token} {frames : List Frame}

/-- As long as the source is edited along with the tokens, it is their sources together. -/
def Synced (t : Tokenizer) : Prop := t.rebuild = false → t.output = t.joinSources

/-- The tokens are ready for the next character, with the given groups open. -/
structure Ready (ctx : Context) (frames : List Frame) (t : Tokenizer) : Prop where
  layout : Layout ctx.options.capture t.rebuild frames t.tokens
  settled : Settled t.tokens
  synced : t.Synced

theorem joinSources_of_tokens_eq {before : List Token} (h : t.tokens = before ++ [token]) :
    t.joinSources = before.flatMap Token.source ++ token.source := by
  rw [joinSources, h, List.flatMap_append, List.flatMap_singleton]

/-! ### Changing the last token -/

section
variable {change : Token → Token} {t' : Tokenizer}

theorem tokens_modifyLast {before : List Token} (h : t.tokens = before ++ [token]) :
    t.tokens.modify t.lastPlace change = before ++ [change token] := by
  rw [lastPlace, h, List.length_append, List.length_singleton, Nat.add_sub_cancel,
    modify_append_length]

/-- The last token is changed into one like it, and the source with it. -/
theorem Ready.modifyLast (h : t.Ready ctx frames) (change : Token → Token)
    (htokens : t'.tokens = t.tokens.modify t.lastPlace change)
    (hrebuild : t'.rebuild = t.rebuild ∨ t'.rebuild = true) (hsynced : t'.Synced)
    (halike : t.last.Alike (change t.last))
    (hprevious : ∀ token, (change token).previous = token.previous)
    (hkind : (change t.last).kind = t.last.kind ∨
      (t.last.kind ≠ .slash ∧ t.last.kind ≠ .bos ∧ (change t.last).kind ≠ .bos))
    (hrun : (change t.last).isStarRun = true → (change t.last).kind = .star)
    (hneutral : (change t.last).kind = .slash ∨ (change t.last).kind = .globstar →
      Neutral (change t.last).source) : t'.Ready ctx frames := by
  have hne := h.settled.ne_nil
  have hlast := getElem?_lastPlace hne
  have hplace : t.lastPlace + 1 = t.tokens.length := by
    have := List.length_pos_iff.mpr hne
    rw [lastPlace]
    omega
  have hat {token : Token} (htoken : t.tokens[t.lastPlace]? = some token) : t.last = token :=
    Option.some.inj (hlast.symm.trans htoken)
  refine ⟨?_, ?_, hsynced⟩
  · have hlayout := h.layout.modifyLast change fun token htoken => by
      rwa [← hat htoken]
    rw [htokens]
    obtain hsame | htrue := hrebuild
    · rw [hsame]
      exact hlayout
    · rw [htrue]
      exact hlayout.toRebuild
  · rw [htokens]
    refine h.settled.modify hprevious (fun token htoken => ?_) (fun token htoken => ?_)
      fun token htoken => ?_
    · rw [← hat htoken]
      exact hkind.imp_right fun hne => ⟨hplace, hne⟩
    · rw [← hat htoken]
      exact hrun
    · rw [← hat htoken]
      exact hneutral

/-- The last token moves nothing if it is no token of a group. -/
theorem Ready.neutral_last (h : t.Ready ctx frames) (hparen : t.last.kind ≠ .paren)
    (hbrace : t.last.kind ≠ .brace) : Neutral t.last.source := by
  have hne := h.settled.ne_nil
  have hlast := getElem?_lastPlace hne
  have hplace : t.lastPlace + 1 = t.tokens.length := by
    have := List.length_pos_iff.mpr hne
    rw [lastPlace]
    omega
  by_cases hkind : t.last.kind = .slash ∨ t.last.kind = .globstar
  · exact h.settled.neutral_last hlast hplace hkind
  · refine h.layout.plain t.last (List.mem_of_getElem? hlast) ?_
    rw [not_or] at hkind
    cases hlast : t.last.kind <;> simp_all [TokenKind.isPlain]

end

/-! ### Adding a token -/

/-- A globstar at the end is turned into a star first, unless the token keeps it. -/
def prepared (ctx : Context) (t : Tokenizer) (token : Token) : Tokenizer :=
  if t.last.kind = .globstar && !t.keepsGlobstar token then t.demoteGlobstar ctx else t

/-- The frames once a token has been added. -/
def noted (t : Tokenizer) (token : Token) : List Frame :=
  if token.kind = .paren then t.frames else (t.noteInner token.value).frames

theorem prepared_cases (ctx : Context) (t : Tokenizer) (token : Token) :
    t.prepared ctx token = t ∨
      (t.last.kind = .globstar ∧ t.keepsGlobstar token = false ∧
        t.prepared ctx token = t.demoteGlobstar ctx) := by
  unfold prepared
  split
  case isTrue h =>
    rw [Bool.and_eq_true, decide_eq_true_eq, Bool.not_eq_true'] at h
    exact .inr ⟨h.1, h.2, rfl⟩
  case isFalse => exact .inl rfl

theorem push_eq_prepared (ctx : Context) (t : Tokenizer) (token : Token) :
    t.push ctx token = { t.prepared ctx token with
      output := (t.prepared ctx token).output ++ token.source
      tokens := (t.prepared ctx token).pushed token
      frames := t.noted token } := by
  have hframes : (t.prepared ctx token).noted token = t.noted token := by
    obtain h | ⟨-, -, h⟩ := prepared_cases ctx t token
    · rw [h]
    · rw [h]
      rfl
  rw [← hframes]
  show (let t := t.prepared ctx token
    let t := if token.kind = .paren then t else t.noteInner token.value
    let t := t.emit token.source
    if t.last.kind = .text && token.kind = .text then
      t.modifyLast fun last => { last with
        value := last.value ++ token.value
        source? := some (last.source ++ token.source) }
    else { t with tokens := t.tokens ++ [{ token with previous := some t.lastPlace }] }) = _
  generalize t.prepared ctx token = t
  have hlast : (t.emit token.source).last = t.last := rfl
  have hlast' : ((t.noteInner token.value).emit token.source).last = t.last := rfl
  unfold noted pushed
  by_cases hparen : token.kind = .paren
  · simp only [if_pos hparen, hlast]
    split <;> rfl
  · simp only [if_neg hparen, hlast']
    split <;> rfl

section
variable (ctx t token)

theorem prepared_same : (t.prepared ctx token).rest = t.rest ∧
    (t.prepared ctx token).rebuild = t.rebuild ∧ (t.prepared ctx token).inClass = t.inClass ∧
    (t.prepared ctx token).position = t.position ∧ (t.prepared ctx token).start = t.start ∧
    (t.prepared ctx token).quoted = t.quoted := by
  obtain h | ⟨-, -, h⟩ := prepared_cases ctx t token
  · simp [h]
  · simp [h, demoteGlobstar, modifyLast, modify, emit, cutOutput]

@[simp] theorem push_rest : (t.push ctx token).rest = t.rest := by
  rw [push_eq_prepared]
  exact (prepared_same ctx t token).1

@[simp] theorem push_rebuild : (t.push ctx token).rebuild = t.rebuild := by
  rw [push_eq_prepared]
  exact (prepared_same ctx t token).2.1

@[simp] theorem push_inClass : (t.push ctx token).inClass = t.inClass := by
  rw [push_eq_prepared]
  exact (prepared_same ctx t token).2.2.1

@[simp] theorem push_position : (t.push ctx token).position = t.position := by
  rw [push_eq_prepared]
  exact (prepared_same ctx t token).2.2.2.1

@[simp] theorem push_start : (t.push ctx token).start = t.start := by
  rw [push_eq_prepared]
  exact (prepared_same ctx t token).2.2.2.2.1

@[simp] theorem push_quoted : (t.push ctx token).quoted = t.quoted := by
  rw [push_eq_prepared]
  exact (prepared_same ctx t token).2.2.2.2.2

@[simp] theorem push_frames : (t.push ctx token).frames = t.noted token := by
  rw [push_eq_prepared]

@[simp] theorem openExtglob_inClass (kind : ExtglobKind) (operator : Char) :
    (t.openExtglob ctx kind operator).inClass = t.inClass := by
  simp [openExtglob, skip]

end

theorem Ready.demoteGlobstar (hctx : ctx.IsStandard) (h : t.Ready ctx frames)
    (hlast : t.last.kind = .globstar) : (t.demoteGlobstar ctx).Ready ctx frames := by
  have hneutral := h.neutral_last (by simp [hlast]) (by simp [hlast])
  refine h.modifyLast _ rfl (.inl rfl) ?_ (.of_neutral hneutral hctx.star ?_) (fun _ => rfl)
    (.inr ⟨by simp [hlast], by simp [hlast], by simp⟩) (fun _ => rfl) (by simp)
  · obtain ⟨before, htokens⟩ := exists_tokens_eq h.settled.ne_nil
    intro hrebuild
    have houtput := h.synced hrebuild
    rw [joinSources_of_tokens_eq htokens] at houtput
    rw [joinSources_of_tokens_eq (tokens_modifyLast htokens)]
    show Text.dropLastBytes (Text.byteSize t.last.source) t.output ++ ctx.star = _
    rw [houtput, Text.dropLastBytes_append]
    rfl
  · simp [hlast, TokenKind.isReferred]

theorem Ready.prepared (hctx : ctx.IsStandard) (h : t.Ready ctx frames) (token : Token) :
    (t.prepared ctx token).Ready ctx frames := by
  obtain heq | ⟨hlast, -, heq⟩ := prepared_cases ctx t token
  · rwa [heq]
  · rw [heq]
    exact h.demoteGlobstar hctx hlast

theorem synced_push_of_prepared (hne : (t.prepared ctx token).tokens ≠ [])
    (h : (t.prepared ctx token).Synced) : (t.push ctx token).Synced := by
  rw [push_eq_prepared]
  generalize t.prepared ctx token = t at hne h ⊢
  intro hrebuild
  obtain ⟨before, htokens⟩ := exists_tokens_eq hne
  have houtput := h hrebuild
  rw [joinSources_of_tokens_eq htokens] at houtput
  show t.output ++ token.source = (t.pushed token).flatMap Token.source
  rw [pushed_eq htokens, houtput]
  split
  · simp [Token.source]
  · simp [Token.source]

theorem synced_push (hctx : ctx.IsStandard) (h : t.Ready ctx frames) (token : Token) :
    (t.push ctx token).Synced :=
  have hprepared := h.prepared hctx token
  synced_push_of_prepared hprepared.settled.ne_nil hprepared.synced

/-- Pattern text is noted in the groups that are open. -/
theorem layout_noted {capture rebuild : Bool} {tokens : List Token}
    (h : Layout capture rebuild t.frames tokens) (token : Token) :
    Layout capture rebuild (t.noted token) tokens := by
  unfold noted
  split
  · exact h
  · refine h.modifyFrame fun frame frame' hchange => ?_
    cases frame with
    | paren | brace => exact absurd hchange (by simp)
    | extglob frame =>
      cases hchange
      exact ⟨rfl, id⟩

theorem Ready.of_push (h : (t.push ctx token).Ready ctx t.frames) :
    (t.push ctx token).Ready ctx (t.push ctx token).frames := by
  refine ⟨?_, h.settled, h.synced⟩
  rw [push_frames]
  exact layout_noted h.layout token

theorem pushed_of_kind_ne (h : token.kind ≠ .text) :
    t.pushed token = t.tokens ++ [{ token with previous := some t.lastPlace }] := by
  rw [pushed, if_neg (by simp [h])]

/-- A token that moves nothing. -/
theorem Ready.push_neutral (hctx : ctx.IsStandard) (h : t.Ready ctx frames)
    (hneutral : Neutral token.source) (hbos : token.kind ≠ .bos)
    (hrun : token.isStarRun = false) : (t.push ctx token).Ready ctx frames := by
  have hsynced := synced_push hctx h token
  have hprepared := h.prepared hctx token
  rw [push_eq_prepared] at hsynced ⊢
  generalize t.prepared ctx token = t at hsynced hprepared ⊢
  by_cases hmerge : t.last.kind = .text && token.kind = .text
  · -- Text after text is merged into one token.
    have hlast : t.last.kind = .text := by simp_all
    refine hprepared.modifyLast (fun last => { last with
      value := last.value ++ token.value
      source? := some (last.source ++ token.source) }) ?_ (.inl rfl) hsynced
      (.guard hneutral rfl rfl) (fun _ => rfl)
      (.inl rfl) ?_ ?_
    · show t.pushed token = _
      rw [pushed, if_pos hmerge]
    · obtain ⟨before, htokens⟩ := exists_tokens_eq hprepared.settled.ne_nil
      exact hprepared.settled.run t.last (by rw [htokens]; simp)
    · simp [hlast]
  · have htokens : t.pushed token = t.tokens ++ [{ token with previous := some t.lastPlace }] := by
      rw [pushed, if_neg hmerge]
    refine ⟨?_, ?_, hsynced⟩
    · show Layout _ _ _ (t.pushed token)
      rw [htokens]
      exact hprepared.layout.append hneutral
    · show Settled (t.pushed token)
      rw [htokens]
      exact hprepared.settled.append rfl hbos hrun fun _ => hneutral

/-- A parenthesis or brace, given what becomes of the layout. -/
theorem Ready.push_layout {frames' : List Frame} (hctx : ctx.IsStandard) (h : t.Ready ctx frames)
    (hkind : token.kind = .paren ∨ token.kind = .brace) (hrun : token.isStarRun = false)
    (hlayout : Layout ctx.options.capture t.rebuild frames (t.prepared ctx token).tokens →
      Layout ctx.options.capture t.rebuild frames' ((t.prepared ctx token).tokens ++
        [{ token with previous := some (t.prepared ctx token).lastPlace }])) :
    (t.push ctx token).Ready ctx frames' := by
  have hsynced := synced_push hctx h token
  have hprepared := h.prepared hctx token
  have htext : token.kind ≠ .text := by
    obtain hkind | hkind := hkind <;> simp [hkind]
  rw [← (prepared_same ctx t token).2.1] at hlayout
  rw [push_eq_prepared] at hsynced ⊢
  generalize t.prepared ctx token = t at hsynced hprepared hlayout ⊢
  refine ⟨?_, ?_, hsynced⟩
  · show Layout _ _ _ (t.pushed token)
    rw [pushed_of_kind_ne htext]
    exact hlayout hprepared.layout
  · show Settled (t.pushed token)
    rw [pushed_of_kind_ne htext]
    refine hprepared.settled.append rfl ?_ hrun ?_
    · obtain hkind | hkind := hkind <;> simp [hkind]
    · obtain hkind | hkind := hkind <;> simp [hkind]

/-- A token that closes a group. -/
theorem Ready.push_closing {test : Frame → Bool} {found : Frame} {others : List Frame}
    (hctx : ctx.IsStandard) (h : t.Ready ctx frames)
    (htake : takeFrame? test frames = some (found, others))
    (hcloses : Moves (found.width ctx.options.capture) 0 token.source)
    (hkind : token.kind = .paren ∨ token.kind = .brace) (hrun : token.isStarRun = false) :
    (t.push ctx token).Ready ctx others := by
  refine h.push_layout hctx hkind hrun fun hlayout => hlayout.close htake hcloses ?_
  obtain hkind | hkind := hkind <;> simp [hkind, TokenKind.isPlain]

/-- A token that opens a group. -/
theorem Ready.push_opening {frame : Frame} (hctx : ctx.IsStandard) (h : t.Ready ctx frames)
    (hkind : token.kind = .paren ∨ token.kind = .brace) (hrun : token.isStarRun = false)
    (hkeeps : t.keepsGlobstar token = true) (hplace : frame.place = t.tokens.length)
    (hfits : ∀ previous, frame.Fits ctx.options.capture t.rebuild
      (t.tokens ++ [{ token with previous }])) :
    (t.push ctx token).Ready ctx (frame :: frames) := by
  have hprepared : t.prepared ctx token = t := by
    unfold Tokenizer.prepared
    simp [hkeeps]
  refine h.push_layout hctx hkind hrun fun hlayout => ?_
  rw [hprepared] at hlayout ⊢
  refine hlayout.openGroup hplace (hfits _) ?_
  obtain hkind | hkind := hkind <;> simp [hkind, TokenKind.isPlain]

theorem length_prepared (ctx : Context) (t : Tokenizer) (token : Token) :
    (t.prepared ctx token).tokens.length = t.tokens.length := by
  obtain heq | ⟨-, -, heq⟩ := prepared_cases ctx t token
  · rw [heq]
  · rw [heq]
    exact List.length_modify _ _ _

/-- A token that is no text stands behind the others. -/
theorem kindAt_push (h : token.kind ≠ .text) (ctx : Context) (t : Tokenizer) :
    kindAt (t.push ctx token).tokens t.tokens.length = some token.kind := by
  rw [push_eq_prepared]
  show kindAt ((t.prepared ctx token).pushed token) _ = _
  rw [pushed_of_kind_ne h, ← length_prepared ctx t token, kindAt, List.getElem?_concat_length]
  rfl

theorem tokens_push_of_kind_ne (h : token.kind ≠ .text) (ctx : Context) (t : Tokenizer) :
    ∃ previous, (t.push ctx token).tokens =
      (t.prepared ctx token).tokens ++ [{ token with previous }] := by
  rw [push_eq_prepared]
  exact ⟨_, pushed_of_kind_ne h⟩

theorem length_push (h : token.kind ≠ .text) (ctx : Context) (t : Tokenizer) :
    (t.push ctx token).tokens.length = t.tokens.length + 1 := by
  rw [push_eq_prepared]
  show ((t.prepared ctx token).pushed token).length = _
  rw [pushed_of_kind_ne h, List.length_append, length_prepared, List.length_singleton]

/-! ### Changing tokens in the middle -/

/-- The state once a brace group has turned out to be text: its opening token has a new source,
and the source is put together anew from there on. -/
def unbraced (t : Tokenizer) (frame : BraceFrame) : Tokenizer :=
  let tokens := t.tokens.modify frame.token fun token =>
    { token with value := ['\\', '{'], source? := some ['\\', '{'] }
  { t with
    output := Text.takeBytes frame.outputSize t.output ++
      (tokens.drop frame.token).flatMap Token.source
    tokens }

theorem Ready.unbraced {frame : BraceFrame} {others : List Frame} (h : t.Ready ctx frames)
    (htake : takeFrame? Frame.isBrace frames = some (.brace frame, others)) :
    (t.unbraced frame).Ready ctx others := by
  obtain ⟨⟨opener, hopener, hkind, -⟩, -, houtput⟩ := h.layout.fits_taken htake
  refine ⟨h.layout.release htake (fun token _ => ⟨rfl, neutral_backslash _⟩)
    fun _ outer houter hbrace =>
      Nat.le_of_lt (h.layout.place_lt_of_test htake outer houter hbrace), ?_, ?_⟩
  · refine h.settled.modify (fun _ => rfl) (fun _ _ => .inl rfl) (fun token htoken hrun => ?_)
      fun token htoken hslash => ?_
    · exact h.settled.run token (List.mem_of_getElem? htoken) hrun
    · cases hopener.symm.trans htoken
      simp [hkind] at hslash
  · intro hrebuild
    have hjoin (tokens : List Token) : tokens.flatMap Token.source =
        (tokens.take frame.token).flatMap Token.source ++
          (tokens.drop frame.token).flatMap Token.source := by
      rw [← List.flatMap_append, List.take_append_drop]
    have hsynced := h.synced hrebuild
    rw [joinSources, hjoin] at hsynced
    show Text.takeBytes frame.outputSize t.output ++ _ = List.flatMap Token.source _
    rw [hjoin (t.unbraced frame).tokens, hsynced, houtput hrebuild, Text.takeBytes_append]
    unfold Tokenizer.unbraced
    rw [Layout.take_modify (Nat.le_refl _)]

/-- The operator of an extended group is guarded. -/
theorem Ready.guardOperator {place : Nat} {kind : ExtglobKind} (h : t.Ready ctx frames)
    (hplace : kindAt t.tokens place = some (.extglob kind)) {guard : List Char}
    (hguard : Neutral guard) :
    ((t.modify place fun token =>
      { token with source? := some (guard ++ token.source) }).needRebuild).Ready ctx frames := by
  have hat {token : Token} (htoken : t.tokens[place]? = some token) :
      token.kind = .extglob kind := by
    rw [kindAt, htoken] at hplace
    exact Option.some.inj hplace
  refine ⟨h.layout.modify (fun token htoken => ?_) fun hfalse => absurd hfalse (by simp [needRebuild]),
    h.settled.modify (fun _ => rfl) (fun _ _ => .inl rfl) (fun token htoken hrun => ?_)
      fun token htoken hslash => ?_, fun hfalse => absurd hfalse (by simp [needRebuild])⟩
  · have hneutral : Neutral token.source := by
      refine h.layout.plain token (List.mem_of_getElem? htoken) ?_
      rw [hat htoken]
      rfl
    exact .of_neutral hneutral (hguard.append hneutral) fun _ => rfl
  · exact h.settled.run token (List.mem_of_getElem? htoken) hrun
  · have := hat htoken
    simp [this] at hslash

/-- The state with the operator of an extended group guarded, if it needs a guard. -/
def guarded (ctx : Context) (t : Tokenizer) (frame : ExtglobFrame) : Tokenizer :=
  let hasDot := frame.kind ≠ .negate &&
    (Text.pieces '|' frame.inner).any fun alternative => alternative.head? = some '.'
  if frame.before.beginsSegment && !hasDot && frame.operator < t.tokens.length then
    (t.modify frame.operator fun token =>
      { token with source? := some (ctx.dotGuard ++ token.source) }).needRebuild
  else t

theorem guarded_same (ctx : Context) (t : Tokenizer) (frame : ExtglobFrame) :
    (t.guarded ctx frame).frames = t.frames ∧ (t.guarded ctx frame).inClass = t.inClass ∧
      (t.guarded ctx frame).start = t.start ∧ (t.guarded ctx frame).position = t.position := by
  unfold guarded
  dsimp only
  split
  · exact ⟨rfl, rfl, rfl, rfl⟩
  · exact ⟨rfl, rfl, rfl, rfl⟩

theorem Ready.guarded {frame : ExtglobFrame} (h : t.Ready ctx frames)
    (hoperator : kindAt t.tokens frame.operator = some (.extglob frame.kind)) :
    (t.guarded ctx frame).Ready ctx frames := by
  unfold Tokenizer.guarded
  dsimp only
  split
  · exact h.guardOperator hoperator ctx.neutral_dotGuard
  · exact h

/-- Between the ends of a range and its braces there is nothing but text and dots. -/
theorem kind_of_operandTexts? {expectText : Bool} {tokens : List Token} {texts : List (List Char)}
    (h : operandTexts? expectText tokens = some texts) :
    ∀ token ∈ tokens, token.kind.isPlain = true ∧ token.kind.isReferred = false := by
  induction tokens generalizing expectText texts with
  | nil => exact fun _ htoken => absurd htoken List.not_mem_nil
  | cons token tokens ih =>
    rw [operandTexts?] at h
    rw [List.forall_mem_cons]
    split at h
    case isTrue hdots =>
      have hkind : token.kind = .dots := by simp_all
      exact ⟨by simp [hkind, TokenKind.isPlain, TokenKind.isReferred], ih h⟩
    case isFalse =>
      split at h
      case isTrue htext =>
        have hkind : token.kind = .text := by simp_all
        obtain ⟨texts, hrest, -⟩ := Option.map_eq_some_iff.mp h
        exact ⟨by simp [hkind, TokenKind.isPlain, TokenKind.isReferred], ih hrest⟩
      case isFalse => exact absurd h (by simp)

end Tokenizer

end Pattern

end PathGlob
