import PathGlob.Proofs.Pattern.Mute
import PathGlob.Proofs.Pattern.Operators

/-!
# `PathGlob.Proofs.Pattern.Grounded`: open groups point at their own tokens

An open group refers to tokens by their places. Tokens are merged, dropped and cut off meanwhile,
and groups that cross are taken out of the middle of the stack. All the same, a place that an open
group refers to has the token there that the group takes it for (`Frame.RestsOn`), and inner groups
were opened behind outer ones. The two together are `Grounded`.

What open groups refer to are parentheses, braces, commas and operators. No such token is ever
changed at the end of the tokens (`KeepsReferents`), with one exception: a brace group that turns
out to be text, or to be a range, loses its brace. No other open group refers to that brace, since
no two groups have the same one, and a range has nothing behind its brace that a group could refer
to (`Grounded.without_brace`).
-/

set_option autoImplicit false

namespace PathGlob

namespace Pattern

open Regex

/-! ### Groups and tokens -/

/-- The token at a place is of the given kind and stands for the given text. -/
def StandsAt (tokens : List Token) (place : Nat) (kind : TokenKind) (value : List Char) : Prop :=
  ∃ token, tokens[place]? = some token ∧ token.kind = kind ∧ token.value = value

namespace Frame

/-- The place of the first token of the group: of its operator, if it has one. -/
def opener : Frame → Nat
  | .paren token => token
  | .extglob frame => frame.operator
  | .brace frame => frame.token

/-- The tokens that the frame refers to are there: the parenthesis, the operator with a parenthesis
right behind it, or the brace with its commas behind it. -/
def RestsOn (tokens : List Token) : Frame → Prop
  | .paren token => StandsAt tokens token .paren ['(']
  | .extglob frame => kindAt tokens frame.operator = some (.extglob frame.kind) ∧
      StandsAt tokens (frame.operator + 1) .paren ['(']
  | .brace frame => StandsAt tokens frame.token .brace ['{'] ∧
      ∀ place ∈ frame.commas, frame.token < place ∧ kindAt tokens place = some .comma

end Frame

/-- Every open group has its tokens, the outer ones before the inner ones. -/
structure Grounded (tokens : List Token) (frames : List Frame) : Prop where
  ordered : frames.Pairwise fun inner outer => outer.opener < inner.opener
  rests : ∀ frame ∈ frames, frame.RestsOn tokens

/-- What open groups may refer to stays where it is, and stands for the same text. -/
def KeepsReferents (tokens tokens' : List Token) : Prop :=
  ∀ place token, tokens[place]? = some token → token.kind.isReferred = true →
    StandsAt tokens' place token.kind token.value

section
variable {tokens tokens' tokens'' : List Token} {frames others : List Frame} {frame : Frame}
  {place : Nat} {kind : TokenKind} {value : List Char} {change : Token → Token}

theorem StandsAt.kindAt (h : StandsAt tokens place kind value) :
    kindAt tokens place = some kind := by
  obtain ⟨token, htoken, rfl, -⟩ := h
  rw [Pattern.kindAt, htoken]
  rfl

theorem Frame.RestsOn.opener_lt (h : frame.RestsOn tokens) : frame.opener < tokens.length := by
  cases frame with
  | paren token =>
    obtain ⟨token, htoken, -⟩ := h
    exact lt_of_getElem?_eq htoken
  | extglob frame =>
    obtain ⟨token, htoken, -⟩ := Option.map_eq_some_iff.mp h.1
    exact lt_of_getElem?_eq htoken
  | brace frame =>
    obtain ⟨⟨token, htoken, -⟩, -⟩ := h
    exact lt_of_getElem?_eq htoken

/-- A frame keeps its tokens if they stay where they are. A brace matters only to the group that it
opened. -/
theorem Frame.RestsOn.congr (h : frame.RestsOn tokens)
    (hkeeps : ∀ place token, tokens[place]? = some token → token.kind.isReferred = true →
      (token.kind = .brace → place = frame.opener) →
        StandsAt tokens' place token.kind token.value) : frame.RestsOn tokens' := by
  have hkind {place : Nat} {kind : TokenKind} (hplace : Pattern.kindAt tokens place = some kind)
      (hreferred : kind.isReferred = true) (hbrace : kind ≠ .brace) :
      Pattern.kindAt tokens' place = some kind := by
    obtain ⟨token, htoken, rfl⟩ := Option.map_eq_some_iff.mp hplace
    exact (hkeeps place token htoken hreferred fun heq => absurd heq hbrace).kindAt
  have hstands {place : Nat} {kind : TokenKind} {value : List Char}
      (hplace : StandsAt tokens place kind value) (hreferred : kind.isReferred = true)
      (hbrace : kind = .brace → place = frame.opener) : StandsAt tokens' place kind value := by
    obtain ⟨token, htoken, rfl, rfl⟩ := hplace
    exact hkeeps place token htoken hreferred hbrace
  cases frame with
  | paren token => exact hstands h rfl nofun
  | extglob frame => exact ⟨hkind h.1 rfl nofun, hstands h.2 rfl nofun⟩
  | brace frame =>
    refine ⟨hstands h.1 rfl fun _ => rfl, fun place hplace => ?_⟩
    obtain ⟨hlt, hcomma⟩ := h.2 place hplace
    exact ⟨hlt, hkind hcomma rfl nofun⟩

theorem KeepsReferents.refl (tokens : List Token) : KeepsReferents tokens tokens :=
  fun _ token htoken _ => ⟨token, htoken, rfl, rfl⟩

theorem KeepsReferents.trans (h : KeepsReferents tokens tokens')
    (h' : KeepsReferents tokens' tokens'') : KeepsReferents tokens tokens'' := by
  intro place token htoken hreferred
  obtain ⟨token', htoken', hkind, hvalue⟩ := h place token htoken hreferred
  rw [← hkind, ← hvalue]
  exact h' place token' htoken' (hkind ▸ hreferred)

theorem keepsReferents_append (tokens more : List Token) :
    KeepsReferents tokens (tokens ++ more) := by
  intro place token htoken _
  refine ⟨token, ?_, rfl, rfl⟩
  rwa [List.getElem?_append_left (lt_of_getElem?_eq htoken)]

/-- A token is changed that no group refers to, or that stays what it is and stands for the same. -/
theorem keepsReferents_modify
    (hchange : ∀ token, tokens[place]? = some token → token.kind.isReferred = true →
      (change token).kind = token.kind ∧ (change token).value = token.value) :
    KeepsReferents tokens (tokens.modify place change) := by
  intro i token htoken hreferred
  by_cases heq : i = place
  case pos =>
    obtain ⟨hkind, hvalue⟩ := hchange token (heq ▸ htoken) hreferred
    exact ⟨change token, getElem?_modify_iff.mpr (.inl ⟨heq, token, htoken, rfl⟩), hkind, hvalue⟩
  case neg => exact ⟨token, getElem?_modify_iff.mpr (.inr ⟨heq, htoken⟩), rfl, rfl⟩

/-- A token is changed that is of a kind that no group refers to. -/
theorem keepsReferents_modify_of_kindAt (hplace : kindAt tokens place = some kind)
    (hfree : kind.isReferred = false) : KeepsReferents tokens (tokens.modify place change) := by
  refine keepsReferents_modify fun token htoken hreferred => ?_
  rw [kindAt, htoken] at hplace
  rw [Option.some.inj hplace, hfree] at hreferred
  exact absurd hreferred (by simp)

theorem grounded_nil (tokens : List Token) : Grounded tokens [] :=
  ⟨.nil, fun _ hframe => absurd hframe List.not_mem_nil⟩

theorem Grounded.keep (h : Grounded tokens frames) (hkeeps : KeepsReferents tokens tokens') :
    Grounded tokens' frames where
  ordered := h.ordered
  rests frame hframe := (h.rests frame hframe).congr fun place token htoken hreferred _ =>
    hkeeps place token htoken hreferred

theorem Grounded.sublist (h : Grounded tokens frames) (hsub : others.Sublist frames) :
    Grounded tokens others where
  ordered := h.ordered.sublist hsub
  rests frame hframe := h.rests frame (hsub.subset hframe)

/-- A group is opened behind all the others. -/
theorem Grounded.cons (h : Grounded tokens frames) (hframe : frame.RestsOn tokens)
    (hbehind : ∀ outer ∈ frames, outer.opener < frame.opener) :
    Grounded tokens (frame :: frames) where
  ordered := List.pairwise_cons.mpr ⟨hbehind, h.ordered⟩
  rests := List.forall_mem_cons.mpr ⟨hframe, h.rests⟩

/-- A change of frames that leaves alone where the groups begin, and what they rest on. -/
theorem Grounded.modifyFrame {change : Frame → Option Frame} (h : Grounded tokens frames)
    (hchange : ∀ frame frame', change frame = some frame' → frame'.opener = frame.opener ∧
      (frame.RestsOn tokens → frame'.RestsOn tokens)) :
    Grounded tokens (Tokenizer.modifyFrame change frames) := by
  have hopeners : (Tokenizer.modifyFrame change frames).map Frame.opener =
      frames.map Frame.opener := by
    clear h
    induction frames with
    | nil => rfl
    | cons frame frames ih =>
      rw [Tokenizer.modifyFrame]
      split
      case h_1 frame' hframe =>
        exact congrArg (· :: frames.map Frame.opener) (hchange frame frame' hframe).1
      case h_2 => exact congrArg (frame.opener :: ·) ih
  have hordered : ((Tokenizer.modifyFrame change frames).map Frame.opener).Pairwise
      fun inner outer => outer < inner := by
    rw [hopeners]
    exact List.pairwise_map.mpr h.ordered
  exact ⟨List.pairwise_map.mp hordered, Tokenizer.forall_mem_modifyFrame
    (fun frame frame' heq => (hchange frame frame' heq).2) h.rests⟩

/-- A brace group is closed and its brace is given up, perhaps with all that stands behind it. What
the groups that are still open refer to stays as it is. -/
theorem Grounded.without_brace {brace : BraceFrame} (h : Grounded tokens frames)
    (htake : Tokenizer.takeFrame? Frame.isBrace frames = some (.brace brace, others))
    (hkeeps : ∀ place token, place ≠ brace.token → tokens[place]? = some token →
      token.kind.isReferred = true → StandsAt tokens' place token.kind token.value) :
    Grounded tokens' others := by
  obtain ⟨-, above, below, rfl, rfl, -⟩ := Tokenizer.takeFrame?_eq_some htake
  obtain ⟨-, hbelow, habove⟩ := List.pairwise_append.mp h.ordered
  have hsub : (above ++ below).Sublist (above ++ .brace brace :: below) :=
    (List.sublist_cons_self _ _).append_left _
  obtain ⟨⟨opener, hopener, hkind, -⟩, -⟩ : (Frame.brace brace).RestsOn tokens :=
    h.rests _ (by simp)
  -- No other group begins with the same token.
  have hother (frame : Frame) (hframe : frame ∈ above ++ below) : frame.opener ≠ brace.token := by
    obtain hframe | hframe := List.mem_append.mp hframe
    case inl => exact Nat.ne_of_gt (habove frame hframe (.brace brace) List.mem_cons_self)
    case inr => exact Nat.ne_of_lt ((List.pairwise_cons.mp hbelow).1 frame hframe)
  refine ⟨h.ordered.sublist hsub, fun frame hframe => ?_⟩
  refine (h.rests frame (hsub.subset hframe)).congr fun place token htoken hreferred hbrace => ?_
  refine hkeeps place token (fun heq => ?_) htoken hreferred
  rw [heq, hopener] at htoken
  obtain rfl : opener = token := Option.some.inj htoken
  exact hother frame hframe ((hbrace hkind).symm.trans heq)

end

namespace Tokenizer

variable {ctx : Context} {t s : Tokenizer} {token : Token} {frames : List Frame}

/-- The open groups of the state have their tokens. -/
def Grounded (t : Tokenizer) : Prop := Pattern.Grounded t.tokens t.frames

theorem Grounded.congr (h : t.Grounded) (hkeeps : KeepsReferents t.tokens s.tokens)
    (hframes : s.frames = t.frames) : s.Grounded := by
  rw [Grounded, hframes]
  exact Pattern.Grounded.keep h hkeeps

/-- Only the tokens and the open groups matter. -/
theorem Grounded.of_same (h : t.Grounded) (htokens : s.tokens = t.tokens)
    (hframes : s.frames = t.frames) : s.Grounded :=
  h.congr (htokens ▸ .refl _) hframes

/-! ### Adding a token -/

/-- The last token is changed, which is none that a group refers to. -/
theorem keepsReferents_modifyLast (h : t.last.kind.isReferred = false) (change : Token → Token) :
    KeepsReferents t.tokens (t.modifyLast change).tokens := by
  refine keepsReferents_modify fun token htoken hreferred => ?_
  have hne : t.tokens ≠ [] := List.ne_nil_of_mem (List.mem_of_getElem? htoken)
  obtain rfl : t.last = token := Option.some.inj ((getElem?_lastPlace hne).symm.trans htoken)
  exact absurd (h.symm.trans hreferred) (by simp)

/-- A globstar that is demoted and a text that grows are nothing that a group refers to. -/
theorem keepsReferents_push (ctx : Context) (t : Tokenizer) (token : Token) :
    KeepsReferents t.tokens (t.push ctx token).tokens := by
  have hprepared : KeepsReferents t.tokens (t.prepared ctx token).tokens := by
    obtain heq | ⟨hlast, -, heq⟩ := prepared_cases ctx t token
    case inl =>
      rw [heq]
      exact .refl _
    case inr =>
      let s := (t.cutOutput (Text.byteSize t.last.source)).emit ctx.star
      have hfree : s.last.kind.isReferred = false := by
        rw [show s.last = t.last from rfl, hlast]
        rfl
      rw [heq]
      exact keepsReferents_modifyLast hfree _
  refine hprepared.trans ?_
  rw [push_eq_prepared]
  show KeepsReferents _ ((t.prepared ctx token).pushed token)
  unfold pushed
  split
  case isTrue hmerge =>
    rw [Bool.and_eq_true, decide_eq_true_eq, decide_eq_true_eq] at hmerge
    exact keepsReferents_modifyLast (by rw [hmerge.1]; rfl) _
  case isFalse => exact keepsReferents_append _ _

/-- A token that is no text stands behind the others. -/
theorem standsAt_push (h : token.kind ≠ .text) (ctx : Context) (t : Tokenizer) :
    StandsAt (t.push ctx token).tokens t.tokens.length token.kind token.value := by
  obtain ⟨previous, htokens⟩ := tokens_push_of_kind_ne h ctx t
  refine ⟨{ token with previous }, ?_, rfl, rfl⟩
  rw [htokens, ← length_prepared ctx t token, List.getElem?_concat_length]

/-- Text that is noted in a group changes nothing about its tokens. -/
theorem Grounded.noted {tokens : List Token} (h : Pattern.Grounded tokens t.frames)
    (token : Token) :
    Pattern.Grounded tokens (t.noted token) := by
  unfold Tokenizer.noted
  split
  case isTrue => exact h
  case isFalse =>
    refine h.modifyFrame fun frame frame' hchange => ?_
    cases frame with
    | paren | brace => exact absurd hchange (by simp)
    | extglob frame =>
      cases hchange
      exact ⟨rfl, id⟩

/-- A token is added along with new frames, given that these have their tokens then. -/
theorem grounded_push_withFrames
    (h : Pattern.Grounded (({ t with frames } : Tokenizer).push ctx token).tokens frames) :
    (({ t with frames } : Tokenizer).push ctx token).Grounded := by
  rw [Grounded, push_frames]
  exact Grounded.noted (t := { t with frames }) h token

section
variable (h : t.Grounded)
include h

/-- A token is added behind characters that are read over, and perhaps frames are taken away. -/
theorem Grounded.push_sublist (n : Nat) (hsub : frames.Sublist t.frames) :
    (({ t.skip n with frames } : Tokenizer).push ctx token).Grounded :=
  grounded_push_withFrames ((Pattern.Grounded.sublist h hsub).keep
    (keepsReferents_push ctx { t.skip n with frames } token))

theorem Grounded.push (ctx : Context) (token : Token) : (t.push ctx token).Grounded :=
  h.push_sublist 0 (List.Sublist.refl _)

/-- A token is added that opens a group. -/
theorem Grounded.push_opening {frame : Frame} (hopener : frame.opener = t.tokens.length)
    (hframe : frame.RestsOn (({ t with frames := frame :: t.frames } : Tokenizer).push ctx
      token).tokens) :
    (({ t with frames := frame :: t.frames } : Tokenizer).push ctx token).Grounded := by
  have hkeeps := keepsReferents_push ctx { t with frames := frame :: t.frames } token
  refine grounded_push_withFrames ((Pattern.Grounded.keep h hkeeps).cons hframe ?_)
  intro outer houter
  rw [hopener]
  exact (h.rests outer houter).opener_lt

/-! ### Groups -/

theorem Grounded.openParen (ctx : Context) : (t.openParen ctx).Grounded :=
  h.push_opening rfl (standsAt_push (by simp) ctx
    { t with frames := .paren t.tokens.length :: t.frames })

theorem Grounded.openBrace (ctx : Context) : (t.openBrace ctx).Grounded := by
  refine h.push_opening rfl ⟨?_, fun _ hplace => absurd hplace List.not_mem_nil⟩
  exact standsAt_push (by simp) ctx _

/-- The operator stands behind the other tokens, and the parenthesis behind the operator. -/
theorem Grounded.openExtglob (ctx : Context) (kind : ExtglobKind) (operator : Char) :
    (t.openExtglob ctx kind operator).Grounded := by
  let mark := t.pushedOperator kind operator
  let paren := pushedOpening ctx kind
  let s := t.behindOperator ctx kind operator
  have hlength : s.tokens.length = t.tokens.length + 1 :=
    length_push (by simp [pushedOperator]) ctx t
  have hmark : KeepsReferents t.tokens s.tokens := keepsReferents_push ctx t mark
  have hparen : KeepsReferents s.tokens (s.push ctx paren).tokens := keepsReferents_push ctx s paren
  have hframes : (s.push ctx paren).frames = t.noted mark :=
    (push_frames ..).trans ((if_pos rfl).trans (push_frames ctx t mark))
  have hnoted : Pattern.Grounded t.tokens (t.noted mark) := Grounded.noted h mark
  rw [openExtglob_eq_push]
  refine Pattern.Grounded.cons ?_ ⟨?_, ?_⟩ ?_
  case refine_1 =>
    show Pattern.Grounded (s.push ctx paren).tokens (s.push ctx paren).frames
    rw [hframes]
    exact hnoted.keep (hmark.trans hparen)
  case refine_2 =>
    obtain ⟨token, htoken, hkind, -⟩ : StandsAt s.tokens t.tokens.length (.extglob kind) [operator] :=
      standsAt_push (by simp [pushedOperator]) ctx t
    have hkept := hparen t.tokens.length token htoken (by rw [hkind]; rfl)
    rw [hkind] at hkept
    exact hkept.kindAt
  case refine_3 =>
    show StandsAt (s.push ctx paren).tokens (t.tokens.length + 1) .paren ['(']
    rw [← hlength]
    exact standsAt_push (by simp [paren, pushedOpening]) ctx s
  case refine_4 =>
    show ∀ outer ∈ (s.push ctx paren).frames, _
    rw [hframes]
    exact fun outer houter => (hnoted.rests outer houter).opener_lt

/-- A comma of a brace group stands behind the tokens that there are, and so behind the brace. -/
theorem Grounded.comma (ctx : Context) : (t.comma ctx).Grounded := by
  unfold Tokenizer.comma
  split
  case h_2 => exact h.push ctx _
  case h_1 brace frames hframes =>
    let noted : BraceFrame :=
      { brace with comma := true, commas := brace.commas ++ [t.tokens.length] }
    let s : Tokenizer := { t with frames := .brace noted :: frames }
    have hbefore : Pattern.Grounded t.tokens (.brace brace :: frames) := hframes ▸ h
    have hafter := hbefore.keep (keepsReferents_push ctx s (.ofSource .comma [','] ['|']))
    obtain ⟨hbrace, houter⟩ := List.forall_mem_cons.mp hafter.rests
    obtain ⟨hordered, hrest⟩ := List.pairwise_cons.mp hafter.ordered
    refine grounded_push_withFrames ⟨List.pairwise_cons.mpr ⟨hordered, hrest⟩,
      List.forall_mem_cons.mpr ⟨⟨hbrace.1, fun place hplace => ?_⟩, houter⟩⟩
    obtain hplace | hplace := List.mem_append.mp hplace
    case inl => exact hbrace.2 place hplace
    case inr =>
      rw [List.mem_singleton.mp hplace]
      refine ⟨(hbefore.rests (.brace brace) List.mem_cons_self).opener_lt, ?_⟩
      exact (standsAt_push (by simp) ctx s).kindAt

omit h in
/-- The tokens of a range, behind its brace, are nothing that a group refers to. -/
theorem isReferred_of_rangeSource? {frame : BraceFrame} {source : List Char}
    (hsource : t.rangeSource? ctx frame = some source) {place : Nat}
    (hlt : frame.token < place) (htoken : t.tokens[place]? = some token) :
    token.kind.isReferred = false := by
  obtain ⟨texts, htexts, -⟩ := Option.bind_eq_some_iff.mp hsource
  have hmem : token ∈ t.tokens.drop (frame.token + 1) := by
    refine List.mem_of_getElem? (i := place - (frame.token + 1)) ?_
    rw [List.getElem?_drop, Nat.add_sub_cancel' hlt, htoken]
  exact (kind_of_operandTexts? htexts token hmem).2

theorem Grounded.closeBrace (ctx : Context) : (t.closeBrace ctx).Grounded := by
  unfold Tokenizer.closeBrace
  split
  case h_2 => exact h.push ctx _
  case h_1 brace others htake =>
    dsimp only
    split
    case h_1 source hsource =>
      -- What is cut off is the brace, and texts and dots behind it.
      let s : Tokenizer :=
        { t with frames := others, tokens := t.tokens.take brace.token, rebuild := true }
      obtain ⟨-, hrange⟩ := Option.ite_none_right_eq_some.mp hsource
      have hs : s.Grounded := by
        refine Pattern.Grounded.without_brace h htake fun place token hne htoken hreferred => ?_
        have hlt : place < brace.token := by
          refine Nat.lt_of_le_of_ne (Nat.le_of_not_lt fun hlt => ?_) hne
          have hfree := isReferred_of_rangeSource? hrange hlt htoken
          exact absurd (hfree.symm.trans hreferred) (by simp)
        exact ⟨token, by rw [List.getElem?_take, if_pos hlt, htoken], rfl, rfl⟩
      exact hs.push ctx _
    case h_2 =>
      split
      case isTrue => exact h.push_sublist 0 (sublist_of_takeFrame? htake).1
      case isFalse =>
        -- The brace stands for other text now, but it is no longer open.
        let s := ({ t with frames := others } : Tokenizer).unbraced brace
        have hs : s.Grounded := by
          refine Pattern.Grounded.without_brace h htake fun place token hne htoken _ => ?_
          exact ⟨token, getElem?_modify_iff.mpr (.inr ⟨hne, htoken⟩), rfl, rfl⟩
        exact hs.push ctx _

/-- The operator of a group that is closed may get a guard, which is not the text it stands for. -/
theorem Grounded.closeExtglob {tail : List Char → Except Error (List Char)} {frame : ExtglobFrame}
    (hsub : frames.Sublist t.frames)
    (hok : ({ t with frames } : Tokenizer).closeExtglob ctx tail frame = .ok s) : s.Grounded := by
  rw [closeExtglob_eq_map] at hok
  obtain ⟨closing, -, rfl⟩ := exists_of_map_eq_ok hok
  let closed : Tokenizer := { t with
    frames
    negatedExtglob := t.negatedExtglob ||
      (frame.kind = ExtglobKind.negate && frame.before = TokenKind.bos) }
  have hclosed : closed.Grounded := Pattern.Grounded.sublist h hsub
  have hguarded : (closed.guarded ctx frame).Grounded := by
    unfold guarded
    dsimp only
    split
    case isTrue => exact hclosed.congr (keepsReferents_modify fun _ _ _ => ⟨rfl, rfl⟩) rfl
    case isFalse => exact hclosed
  unfold extglobClosed
  dsimp only
  split
  case isTrue => exact (hguarded.push ctx _).of_same rfl rfl
  case isFalse => exact hguarded.push ctx _

theorem Grounded.closeParen {tail : List Char → Except Error (List Char)}
    (hok : t.closeParen ctx tail = .ok s) : s.Grounded := by
  unfold Tokenizer.closeParen at hok
  split at hok
  case h_1 frame frames htake => exact h.closeExtglob (sublist_of_takeFrame? htake).1 hok
  case h_2 frame frames htake =>
    cases hok
    exact h.push_sublist 0 (sublist_of_takeFrame? htake).1
  case h_3 =>
    split at hok
    case isTrue => cases hok
    case isFalse =>
      cases hok
      exact h.push ctx _

/-! ### Wildcards -/

/-- The dot that a second one is joined to is nothing that a group refers to. -/
theorem Grounded.dot (ctx : Context) : (t.dot ctx).Grounded := by
  unfold Tokenizer.dot
  split
  case isFalse => exact h.push ctx _
  case isTrue hlast =>
    rw [Bool.and_eq_true, decide_eq_true_eq] at hlast
    refine Pattern.Grounded.modifyFrame (Pattern.Grounded.keep h
      (keepsReferents_modifyLast (by rw [hlast.2]; rfl) _)) fun frame frame' hnote => ?_
    cases frame with
    | paren | extglob => exact absurd hnote (by simp)
    | brace frame =>
      cases hnote
      exact ⟨rfl, id⟩

theorem Grounded.operator (ctx : Context) (kind : ExtglobKind) (c : Char) (other : Token) :
    (t.operator ctx kind c other).Grounded := by
  unfold Tokenizer.operator
  split
  case isTrue => exact h.openExtglob ctx kind c
  case isFalse => exact h.push ctx other

theorem Grounded.qmark (ctx : Context) : (t.qmark ctx).Grounded := by
  unfold Tokenizer.qmark
  dsimp only
  split
  case isTrue => exact h.openExtglob ctx _ _
  case isFalse => split <;> exact h.push ctx _

theorem Grounded.plainText (ctx : Context) (c : Char) : (t.plainText ctx c).Grounded :=
  h.push_sublist _ (List.Sublist.refl _)

theorem Grounded.bang (ctx : Context) : (t.bang ctx).Grounded := by
  unfold Tokenizer.bang
  dsimp only
  split
  case isTrue => exact h.openExtglob ctx _ _
  case isFalse =>
    split
    case isTrue => exact h.of_same rfl rfl
    case isFalse => exact h.plainText ctx '!'

theorem Grounded.promote {place : Nat} (hplace : kindAt t.tokens place = some .star)
    (source : List Char) : (t.promote place source).Grounded :=
  h.congr (keepsReferents_modify_of_kindAt hplace rfl) rfl

/-- The separator before the star only gets another source. -/
theorem Grounded.globstarAfterSlash {place : Nat} (hplace : kindAt t.tokens place = some .star)
    (slashPlace : Nat) (slash star : Token) (source : List Char) :
    (t.globstarAfterSlash slashPlace place slash star source).Grounded := by
  let opening (token : Token) : Token :=
    { token with source? := some (['(', '?', ':'] ++ slash.source) }
  have hopening : KeepsReferents t.tokens (t.tokens.modify slashPlace opening) :=
    keepsReferents_modify fun _ _ _ => ⟨rfl, rfl⟩
  have hplace' : kindAt (t.tokens.modify slashPlace opening) place = some .star := by
    rw [kindAt_modify_of_kind_eq opening fun _ => rfl]
    exact hplace
  exact h.congr (hopening.trans (keepsReferents_modify_of_kindAt hplace' rfl)) rfl

theorem Grounded.absorbSlash (ctx : Context) : (t.absorbSlash ctx).Grounded :=
  h.push_sublist 1 (List.Sublist.refl _)

theorem Grounded.globstarAt (ctx : Context) (hplace : kindAt t.tokens t.lastPlace = some .star)
    (star : Token) (priorPlace : Nat) (prior : Token) (beforePrior : Option TokenKind) :
    (t.globstarAt ctx star priorPlace prior beforePrior).Grounded := by
  let s : Tokenizer := { t.skip (redundantGlobstars t.rest t.rest.length) with globstar := true }
  have hs : s.Grounded := h.of_same rfl rfl
  have hgrouped (source : List Char) :
      (s.globstarAfterSlash priorPlace t.lastPlace prior star source).Grounded :=
    hs.globstarAfterSlash hplace priorPlace prior star source
  have hpromoted (output source : List Char) :
      (({ s with output } : Tokenizer).promote t.lastPlace source).Grounded :=
    Grounded.promote (t := { s with output }) hs hplace source
  unfold Tokenizer.globstarAt
  dsimp only
  split
  case isTrue => exact hpromoted _ _
  case isFalse =>
  split
  case isTrue => exact hgrouped _
  case isFalse =>
  split
  case isTrue => exact (hgrouped _).absorbSlash ctx
  case isFalse =>
  split
  case isTrue => exact (hpromoted _ _).absorbSlash ctx
  case isFalse => exact hpromoted _ _

/-- Stars and globstars are nothing that a group refers to. -/
theorem Grounded.star (ctx : Context) (hjoined : t.Joined) : (t.star ctx).Grounded := by
  unfold Tokenizer.star
  split
  case isTrue hlast =>
    rw [Bool.or_eq_true, decide_eq_true_eq] at hlast
    have hfree : t.last.kind.isReferred = false := by
      obtain hkind | hrun := hlast
      case inl => rw [hkind]; rfl
      case inr => rw [hjoined.kind_last_of_run hrun]; rfl
    exact h.congr (keepsReferents_modifyLast hfree _) rfl
  case isFalse =>
  split
  case isTrue => exact h.openExtglob ctx _ _
  case isFalse =>
  split
  case isTrue hkind =>
    have hplace : kindAt t.tokens t.lastPlace = some .star := by
      rw [kindAt, getElem?_lastPlace hjoined.ne_nil, Option.map_some, hkind]
    unfold secondStar
    split
    case isTrue => exact h
    case isFalse =>
      dsimp only
      split
      case isTrue => exact h.push ctx _
      case isFalse => exact h.globstarAt ctx hplace _ _ _ _
  case isFalse =>
    dsimp only
    split
    case h_1 guard _ =>
      have hguarded : (t.guardLast guard).Grounded :=
        h.congr (keepsReferents_modify fun _ _ _ => ⟨rfl, rfl⟩) rfl
      exact hguarded.push ctx _
    case h_2 => exact h.push ctx _

end

/-! ### Brackets -/

section
variable (h : t.Grounded) (hlast : kindAt t.tokens t.lastPlace = some .bracket)
include h hlast

theorem Grounded.modifyBracket (change : Token → Token) : (t.modifyLast change).Grounded :=
  h.congr (keepsReferents_modify_of_kindAt hlast rfl) rfl

omit h in
/-- A bracket that is last stays so if it stays a bracket. -/
theorem kindAt_modifyBracket {change : Token → Token}
    (hchange : ∀ token, (change token).kind = token.kind) :
    kindAt (t.modifyLast change).tokens (t.modifyLast change).lastPlace = some .bracket := by
  have hplace : (t.modifyLast change).lastPlace = t.lastPlace := by
    show (t.tokens.modify t.lastPlace change).length - 1 = _
    rw [List.length_modify]
    rfl
  rw [hplace]
  exact (kindAt_modify_of_kind_eq change hchange _ _ _).trans hlast

/-- A class name changes the text of the bracket, and perhaps the source of the first token. -/
theorem Grounded.posixName : t.posixName.1.Grounded := by
  let mark (token : Token) : Token := { token with isPosix := true }
  have hmark : (t.modifyLast mark).Grounded := h.modifyBracket hlast mark
  have hlast' : kindAt (t.modifyLast mark).tokens (t.modifyLast mark).lastPlace = some .bracket :=
    kindAt_modifyBracket hlast fun _ => rfl
  unfold Tokenizer.posixName
  dsimp only
  split
  case isTrue => exact h
  case isFalse =>
  split
  case isTrue => exact hmark
  case isFalse =>
  split
  case h_1 => exact hmark
  case h_2 before name _ =>
  split
  case h_1 => exact hmark
  case h_2 members _ =>
    let s := ((t.modifyLast mark).modifyLast fun token =>
      { token with value := before ++ members }).needRebuild
    have hs : s.Grounded := (hmark.modifyBracket hlast' _).of_same rfl rfl
    have hset (n : Nat) (source : List Char) : ((s.skip n).setSource 0 source).Grounded :=
      hs.congr (keepsReferents_modify fun _ _ _ => ⟨rfl, rfl⟩) rfl
    show Grounded (if _ then Tokenizer.setSource (if _ then s.skip 1 else s) 0 _ else
      if _ then s.skip 1 else s)
    split
    case isTrue =>
      split
      case isTrue => exact hset 1 _
      case isFalse => exact hs.of_same rfl rfl
    case isFalse =>
      split
      case isTrue => exact hset 0 _
      case isFalse => exact hs

theorem Grounded.appendClass (body : List Char) : (t.appendClass body).Grounded :=
  Grounded.modifyBracket (t := t.emit body) h hlast _

end

theorem Bracketed.kindAt_lastPlace (h : t.Bracketed ctx) :
    kindAt t.tokens t.lastPlace = some .bracket := by
  rw [kindAt, getElem?_lastPlace h.joined.ne_nil, Option.map_some, h.kind]

theorem Grounded.inBracket (h : t.Grounded) (hbracket : t.Bracketed ctx) (c : Char) :
    (t.inBracket ctx c).Grounded := by
  have hlast := hbracket.kindAt_lastPlace
  unfold Tokenizer.inBracket
  split
  case isFalse => exact h.appendClass hlast _
  case isTrue =>
    have hname := h.posixName hlast
    dsimp only
    split
    case isTrue => exact hname
    case isFalse => exact hname.appendClass hbracket.posixName.1.kindAt_lastPlace _

theorem Grounded.finishClass (h : t.Grounded) (hbracket : t.Bracketed ctx)
    (hok : t.closeBracket ctx = .ok s) : s.Grounded := by
  unfold Tokenizer.closeBracket at hok
  rw [if_neg (by simp [hbracket.noBracket]), if_neg (by simp [hbracket.inClass])] at hok
  dsimp only at hok
  cases hok
  generalize (if (!t.last.isPosix && decide ((t.last.value.drop 1).head? = some '^') &&
    !(t.last.value.drop 1).contains '/') = true then Fragment.slashClass ctx.windows ++ [']']
    else [']']) = closing
  let closed := ({ t with inClass := false } : Tokenizer).appendClass closing
  have hclosed : closed.Grounded :=
    Grounded.appendClass (t := { t with inClass := false }) h hbracket.kindAt_lastPlace closing
  have hlast : kindAt closed.tokens closed.lastPlace = some .bracket :=
    (hbracket.appendClass closing).kindAt_lastPlace
  obtain hguard | hkeep | hliteral :=
    finishBracket_cases ctx closed (t.last.value.drop 1) t.last.isPosix
  case inl =>
    rw [hguard]
    exact (hclosed.modifyBracket hlast _).of_same rfl rfl
  case inr.inl =>
    rw [hkeep]
    exact hclosed
  case inr.inr =>
    rw [hliteral]
    exact (hclosed.modifyBracket hlast _).of_same rfl rfl

theorem Grounded.closeBracket (h : t.Grounded) (hbracket : t.inClass = true → t.Bracketed ctx)
    (hok : t.closeBracket ctx = .ok s) : s.Grounded := by
  cases hclass : t.inClass with
  | true => exact h.finishClass (hbracket hclass) hok
  | false =>
    unfold Tokenizer.closeBracket at hok
    rw [if_pos (show (!t.inClass) = true by rw [hclass]; rfl)] at hok
    split at hok
    case isTrue =>
      cases hok
      exact h.push ctx _
    case isFalse =>
      split at hok
      case isTrue => cases hok
      case isFalse =>
        cases hok
        exact h.push ctx _

/-! ### Steps -/

section
variable {rest : List Char} {c : Char} {t' : Tokenizer}

/-- Within brackets a backslash takes the next character into the class, if there is one. -/
theorem Grounded.escape (h : t.Grounded) (hbracket : t.inClass = true → t.Bracketed ctx) :
    (t.escape ctx).Grounded := by
  unfold Tokenizer.escape
  split
  case h_1 => exact h.push ctx _
  case h_2 next _ _ =>
  split
  case isTrue => exact h
  case isFalse =>
  dsimp only
  have hskip : (t.skip 1).Grounded := h.of_same rfl rfl
  split
  case isTrue hclass =>
    exact hskip.appendClass (hbracket hclass).kindAt_lastPlace _
  case isFalse => split <;> exact hskip.push ctx _

/-- The dot of a leading `./` is dropped before any group is open. -/
theorem Grounded.slash (h : t.Grounded)
    (hdot : t.last.kind = .dot → t.place = t.start + 1 → t.frames = []) :
    (t.slash ctx).Grounded := by
  unfold Tokenizer.slash
  split
  case isTrue hleading =>
    rw [Bool.and_eq_true, decide_eq_true_eq, decide_eq_true_eq] at hleading
    show Pattern.Grounded t.tokens.dropLast t.frames
    rw [hdot hleading.1 hleading.2]
    exact grounded_nil _
  case isFalse => exact h.push ctx _

/-- Every step keeps the tokens of the groups that are open. -/
theorem Grounded.step {tail : List Char → Except Error (List Char)} (h : t.Grounded)
    (hsound : t.Sound ctx) (hrest : t.rest = c :: rest)
    (hok : Tokenizer.step ctx tail (t.taking rest) c = .ok t') : t'.Grounded := by
  have hbracket (hclass : t.inClass = true) : (t.taking rest).Bracketed ctx := by
    obtain hnil | hbracketed := hsound.brackets hclass
    · exact absurd (hrest.symm.trans hnil) (by simp)
    · exact hbracketed.taking rest
  have hs : (t.taking rest).Grounded := h
  have hjoined : (t.taking rest).Joined := hsound.joined.congr rfl rfl rfl rfl
  unfold Tokenizer.step at hok
  split at hok
  case isTrue =>
    cases hok
    exact hs
  case isFalse =>
  split at hok
  case isTrue =>
    cases hok
    exact hs.escape hbracket
  case isFalse =>
  split at hok
  case isTrue hinside =>
    cases hok
    rw [Bool.and_eq_true] at hinside
    exact hs.inBracket (hbracket hinside.1) c
  case isFalse =>
  split at hok
  case isTrue =>
    cases hok
    exact hs.push ctx _
  case isFalse =>
  split at hok
  case h_1 =>
    cases hok
    have hquoted : ({ t.taking rest with quoted := !(t.taking rest).quoted } : Tokenizer).Grounded :=
      hs
    split
    · exact hquoted.push ctx _
    · exact hquoted
  case h_2 =>
    cases hok
    exact hs.openParen ctx
  case h_3 => exact hs.closeParen hok
  case h_4 =>
    unfold openBracket at hok
    split at hok
    case isTrue =>
      split at hok
      case isTrue => cases hok
      case isFalse =>
        cases hok
        exact hs.push ctx _
    case isFalse =>
      cases hok
      exact Grounded.push (t := { t.taking rest with inClass := true }) hs ctx _
  case h_5 => exact hs.closeBracket hbracket hok
  case h_6 =>
    cases hok
    split
    · exact hs.plainText ctx '{'
    · exact hs.openBrace ctx
  case h_7 =>
    cases hok
    exact hs.closeBrace ctx
  case h_8 =>
    cases hok
    exact hs.push ctx _
  case h_9 =>
    cases hok
    exact hs.comma ctx
  case h_10 =>
    cases hok
    refine hs.slash fun hdot hplace => ?_
    exact (hsound.dot hplace hdot).frames
  case h_11 =>
    cases hok
    exact hs.dot ctx
  case h_12 =>
    cases hok
    exact hs.qmark ctx
  case h_13 =>
    cases hok
    exact hs.bang ctx
  case h_14 =>
    cases hok
    exact hs.operator ctx _ _ _
  case h_15 =>
    cases hok
    exact hs.operator ctx _ _ _
  case h_16 =>
    cases hok
    exact hs.star ctx hjoined
  case h_17 =>
    cases hok
    exact hs.plainText ctx c

/-- So does a whole run. -/
theorem Passes.grounded {tail : List Char → Except Error (List Char)} (hstar : ctx.star ≠ [])
    (hpasses : Passes ctx tail t t') (hsound : t.Sound ctx) (h : t.Grounded) : t'.Grounded := by
  induction hpasses with
  | refl => exact h
  | step hrest hstep _ ih =>
    exact ih (hsound.step hstar hrest hstep) (h.step hsound hrest hstep)

end

end Tokenizer

end Pattern

open Pattern

/-- In every state between two characters the tokens begin with the beginning of the pattern, each
of the others knows the one before it, and the open groups have their tokens, the outer ones before
the inner ones. -/
theorem open_groups_rest_on_tokens {options : Options} {pattern : List Char}
    {tail : List Char → Except Error (List Char)} {t : Tokenizer}
    (h : Tokenizer.Passes (Context.ofPattern options pattern) tail
      { rest := (Context.ofPattern options pattern).body } t) :
    kindAt t.tokens 0 = some .bos ∧
      (∀ i token, t.tokens[i + 1]? = some token → token.previous = some i) ∧
      (∀ frame ∈ t.frames, frame.RestsOn t.tokens) ∧
      t.frames.Pairwise fun inner outer => outer.opener < inner.opener := by
  have hsound := h.sound (starSource_ne_nil options) (Tokenizer.sound_begin _ _)
  have hgrounded : t.Grounded :=
    h.grounded (starSource_ne_nil options) (Tokenizer.sound_begin _ _) (grounded_nil _)
  exact ⟨hsound.joined.linked.head,
    fun i token htoken => (hsound.joined.linked.previous i token htoken).1,
    hgrounded.rests, hgrounded.ordered⟩

/-- A parenthesis closes across a brace group, which stays open with its comma. -/
theorem open_groups_rest_on_tokens_crossed :
    ∃ t, Tokenizer.Passes (Context.ofPattern {} ['(', '{', ',', ')']) (fun _ => .error .empty)
        { rest := (Context.ofPattern {} ['(', '{', ',', ')']).body } t ∧
      t.rest = [] ∧ kindAt t.tokens 4 = some .paren ∧
      t.frames = [.brace ⟨3, 2, true, false, [3]⟩] ∧
      (Frame.brace ⟨3, 2, true, false, [3]⟩).RestsOn t.tokens := by
  have hpasses : Tokenizer.Passes (Context.ofPattern {} ['(', '{', ',', ')'])
      (fun _ => .error .empty) { rest := (Context.ofPattern {} ['(', '{', ',', ')']).body } _ :=
    .step rfl rfl (.step rfl rfl (.step rfl rfl (.step rfl rfl (.refl _))))
  obtain ⟨-, -, hrests, -⟩ := open_groups_rest_on_tokens hpasses
  exact ⟨_, hpasses, rfl, rfl, rfl, hrests _ List.mem_cons_self⟩

end PathGlob
