import PathGlob.Proofs.Pattern.Joined

/-!
# `PathGlob.Proofs.Pattern.Arrives`: characters keep the source with the tokens

One lemma for each character with a meaning outside of brackets, which says that tokens and
source that are joined are so again once it has been read (`Tokenizer.Arrives`).
-/

set_option autoImplicit false

namespace PathGlob.Pattern

open Regex

namespace Tokenizer

variable {ctx : Context} {t : Tokenizer} {token : Token} {frames : List Frame}

/-! ### What a character leads to -/

/-- Nothing has been read but a dot. -/
structure IsDotted (t : Tokenizer) : Prop where
  tokens : ∃ dot, t.tokens = [.bos, dot]
  frames : t.frames = []
  rebuild : t.rebuild = false

/-- What holds once a character that is no part of a bracket expression has been read. -/
structure Arrives (t t' : Tokenizer) : Prop where
  joined : t'.Joined
  inClass : t'.inClass = false
  start : t'.start = t.start
  position : t.position ≤ t'.position
  dot : t.IsFresh → t'.last.kind = .dot → t'.IsDotted
  ends : t.EndsPlainly → t'.EndsPlainly

section
variable {t' : Tokenizer}

theorem Arrives.of_kind_ne (hjoined : t'.Joined) (hclass : t'.inClass = false)
    (hstart : t'.start = t.start) (hposition : t.position ≤ t'.position)
    (hkind : t'.last.kind ≠ .dot) : t.Arrives t' where
  joined := hjoined
  inClass := hclass
  start := hstart
  position := hposition
  dot _ hdot := absurd hdot hkind
  ends _ hdot := absurd hdot hkind

/-- A token is added to a state that is not behind the first one. -/
theorem arrives_push {s : Tokenizer} (h : (s.push ctx token).Joined) (hne : s.tokens ≠ [])
    (hclass : s.inClass = false) (hstart : s.start = t.start) (hposition : t.position ≤ s.position)
    (hdot : token.kind ≠ .dot) : t.Arrives (s.push ctx token) :=
  .of_kind_ne h (by rwa [push_inClass]) (by rwa [push_start]) (by rwa [push_position])
    (by rwa [kind_last_push hne])

end

theorem openGroup_ne_nil (capture : Bool) : Fragment.openGroup capture ≠ [] := by
  unfold Fragment.openGroup
  split <;> simp

theorem slash_ne_nil (windows : Bool) : Fragment.slash windows ≠ [] := by
  unfold Fragment.slash
  split <;> simp

theorem escapeChar_ne_nil (c : Char) : Regex.escapeChar c ≠ [] := by
  unfold Regex.escapeChar
  split <;> simp

section
variable (hstar : ctx.star ≠ []) (h : t.Joined) (hclass : t.inClass = false)
include h hclass

/-- A character that adds nothing. -/
theorem Joined.arrives_self : t.Arrives t where
  joined := h
  inClass := hclass
  start := rfl
  position := Nat.le_refl _
  dot hfresh hdot := by
    rw [last, hfresh.tokens] at hdot
    exact absurd hdot (by simp)
  ends := id

include hstar

/-- A token is added behind characters that are read over, and perhaps frames are taken away. -/
theorem Joined.arrives_push (n : Nat) (hsub : frames.Sublist t.frames) (hinner : token.IsInner)
    (hne : token.source ≠ [] ∨ t.output ≠ []) (hdot : token.kind ≠ .dot) :
    t.Arrives (({ t.skip n with frames } : Tokenizer).push ctx token) :=
  Tokenizer.arrives_push ((h.skip n).push_sublist hstar hinner hne hsub) h.ne_nil hclass rfl
    (Nat.le_add_right _ _) hdot

theorem Joined.arrives_pushText (n : Nat) (value : List Char) {source : List Char}
    (hsource : source ≠ []) : t.Arrives ((t.skip n).pushText ctx value source) :=
  h.arrives_push hstar hclass n (List.Sublist.refl _) (by simp) (.inl hsource) (by simp)

theorem Joined.arrives_escape : t.Arrives (t.escape ctx) := by
  unfold escape
  split
  · exact h.arrives_pushText hstar hclass 0 _ (by simp)
  · split
    · exact h.arrives_self hclass
    · dsimp only
      rw [if_neg (by simp [Tokenizer.skip, hclass])]
      split
      · exact h.arrives_pushText hstar hclass 1 _ (escapeChar_ne_nil _)
      · exact h.arrives_pushText hstar hclass 1 _ (by simp)

/-! #### Groups -/

theorem Joined.arrives_openBrace : t.Arrives (t.openBrace ctx) := by
  let frame : BraceFrame := ⟨Text.byteSize t.output, t.tokens.length, false, false, []⟩
  let token : Token := .ofSource .brace ['{'] (Fragment.openGroup ctx.options.capture)
  have hkeeps : ({ t with frames := .brace frame :: t.frames } : Tokenizer).prepared ctx token =
      { t with frames := .brace frame :: t.frames } := by
    unfold prepared
    simp [keepsGlobstar, inBrace, Frame.isBrace, token]
  have htokens :
      (({ t with frames := .brace frame :: t.frames } : Tokenizer).push ctx token).tokens =
        t.tokens ++ [{ token with previous := some t.lastPlace }] := by
    rw [push_eq_prepared, hkeeps]
    exact pushed_of_kind_ne (by simp [token])
  refine Tokenizer.arrives_push (h.push_withFrames hstar (by simp) ?_ (fun hfalse => ?_)
    (.inl (openGroup_ne_nil _))) h.ne_nil hclass rfl (Nat.le_refl _) (by simp)
  · rw [htokens]
    have hbraced := h.braced.keep
      (keepsBraces_append t.tokens [{ token with previous := some t.lastPlace }])
    refine ⟨List.pairwise_cons.mpr ⟨fun outer houter inner outer' heq heq' => ?_, hbraced.ordered⟩,
      fun found hfound => ?_⟩
    · cases heq
      subst heq'
      obtain ⟨found, hfound, -⟩ := Option.map_eq_some_iff.mp (h.braced.kinds _ houter)
      exact lt_of_getElem?_eq hfound
    · obtain heq | hfound := List.mem_cons.mp hfound
      · cases heq
        rw [kindAt, List.getElem?_concat_length]
        rfl
      · exact hbraced.kinds found hfound
  · rw [htokens]
    intro found hfound
    obtain heq | hfound := List.mem_cons.mp hfound
    · cases heq
      rw [List.take_left]
      exact congrArg Text.byteSize (h.synced hfalse)
    · exact ((h.sized hfalse).keep h.braced (keepsBraces_append _ _)) found hfound

omit hclass in
/-- A brace group that has turned out to be text. -/
theorem Joined.push_unbraced {frame : BraceFrame}
    (htake : takeFrame? Frame.isBrace t.frames = some (.brace frame, frames)) :
    ((({ t with frames } : Tokenizer).unbraced frame).push ctx
      (.ofSource .brace ['\\', '}'] ['\\', '}'])).Joined := by
  obtain ⟨hsub, hkind, hlt⟩ := h.braced.taken htake
  obtain ⟨opener, hopener, -⟩ := Option.map_eq_some_iff.mp hkind
  let change (token : Token) : Token :=
    { token with value := ['\\', '{'], source? := some ['\\', '{'] }
  refine Joined.push hstar ⟨?_, fun hfalse => ?_, ?_, fun hfalse brace hbrace => ?_, fun hnil => ?_⟩
    (by simp) (.inl (by simp [Token.source, Token.ofSource]))
  · exact h.linked.modify_of_same fun _ => ⟨rfl, rfl, rfl⟩
  · have hjoin (tokens : List Token) : tokens.flatMap Token.source =
        (tokens.take frame.token).flatMap Token.source ++
          (tokens.drop frame.token).flatMap Token.source := by
      rw [← List.flatMap_append, List.take_append_drop]
    have hframe : .brace frame ∈ t.frames := by
      obtain ⟨-, above, below, heq, -⟩ := takeFrame?_eq_some htake
      rw [heq]
      simp
    have hsynced := h.synced hfalse
    rw [joinSources, hjoin] at hsynced
    show Text.takeBytes frame.outputSize t.output ++ _ = List.flatMap Token.source _
    rw [hjoin (({ t with frames } : Tokenizer).unbraced frame).tokens, hsynced,
      h.sized hfalse frame hframe, Text.takeBytes_append]
    unfold unbraced
    rw [Layout.take_modify (Nat.le_refl _)]
  · refine ⟨h.braced.ordered.sublist hsub, fun brace hbrace => ?_⟩
    show kindAt (t.tokens.modify frame.token change) _ = _
    rw [kindAt_modify_of_kind_eq change fun _ => rfl]
    exact h.braced.kinds brace (hsub.subset hbrace)
  · rw [h.sized hfalse brace (hsub.subset hbrace)]
    show _ = Text.byteSize ((List.take _ (t.tokens.modify frame.token change)).flatMap _)
    rw [Layout.take_modify (Nat.le_of_lt (hlt brace hbrace))]
  · have hmem : change opener ∈ (t.tokens.modify frame.token change).drop frame.token := by
      refine List.mem_of_getElem? (i := 0) ?_
      rw [List.getElem?_drop]
      exact getElem?_modify_iff.mpr (.inl ⟨rfl, opener, hopener, rfl⟩)
    exact absurd (List.flatMap_eq_nil_iff.mp (List.append_eq_nil_iff.mp hnil).2 _ hmem)
      (by simp [change, Token.source])

theorem Joined.arrives_closeBrace : t.Arrives (t.closeBrace ctx) := by
  unfold closeBrace
  split
  case h_2 => exact h.arrives_pushText hstar hclass 0 _ (by simp)
  case h_1 frame others htake =>
    obtain ⟨hsub, hkind, hlt⟩ := h.braced.taken htake
    have hne := h.output_ne_nil_of_frames (sublist_of_takeFrame? htake).2
    dsimp only
    split
    case h_1 source hsource =>
      let s : Tokenizer :=
        { t with frames := others, tokens := t.tokens.take frame.token, rebuild := true }
      have hs : s.Joined := by
        refine joined_of_rebuild (h.linked.take hkind) ⟨h.braced.ordered.sublist hsub,
          fun brace hbrace => ?_⟩ rfl hne
        show kindAt (t.tokens.take frame.token) _ = _
        rw [kindAt, List.getElem?_take, if_pos (hlt brace hbrace)]
        exact h.braced.kinds brace (hsub.subset hbrace)
      exact Tokenizer.arrives_push (hs.push hstar (by simp) (.inr hne)) hs.ne_nil hclass rfl
        (Nat.le_refl _) (by simp)
    case h_2 =>
      split
      case isTrue => exact h.arrives_push hstar hclass 0 hsub (by simp) (.inr hne) (by simp)
      case isFalse =>
        refine Tokenizer.arrives_push (h.push_unbraced hstar htake) ?_ hclass rfl (Nat.le_refl _)
          (by simp)
        show t.tokens.modify _ _ ≠ []
        rw [ne_eq, ← List.length_eq_zero_iff, List.length_modify, List.length_eq_zero_iff]
        exact h.ne_nil

theorem Joined.arrives_comma : t.Arrives (t.comma ctx) := by
  unfold comma
  split
  case h_2 =>
    exact h.arrives_push hstar hclass 0 (List.Sublist.refl _) (by simp)
      (.inl (List.cons_ne_nil _ _)) (by simp)
  case h_1 frame frames hframes =>
    let note (outer : Frame) : Option Frame :=
      if outer = .brace frame then
        some (.brace { frame with comma := true, commas := frame.commas ++ [t.tokens.length] })
      else none
    have hnote : KeepsPlaces note := by
      intro outer outer' houter brace heq
      obtain ⟨rfl, hchange⟩ := Option.ite_none_right_eq_some.mp houter
      cases hchange
      cases heq
      exact ⟨frame, rfl, rfl, rfl⟩
    have hs := h.modifyFrame hnote
    have hnoted : Tokenizer.modifyFrame note t.frames = .brace { frame with
        comma := true, commas := frame.commas ++ [t.tokens.length] } :: frames := by
      rw [hframes, Tokenizer.modifyFrame]
      simp [note]
    rw [hnoted] at hs
    exact Tokenizer.arrives_push (hs.push hstar (by simp) (.inl (List.cons_ne_nil _ _))) h.ne_nil
      hclass rfl (Nat.le_refl _) (by simp)

theorem Joined.arrives_openParen : t.Arrives (t.openParen ctx) := by
  refine Tokenizer.arrives_push (h.push_opening hstar (by simp) ?_ rfl) h.ne_nil hclass rfl
    (Nat.le_refl _) (by simp)
  exact openGroup_ne_nil _

omit h hclass hstar in
/-- A parenthesis is noted nowhere, so the frames make no difference to it. -/
theorem push_paren (hparen : token.kind = .paren) (frames : List Frame) :
    ({ t with frames } : Tokenizer).push ctx token = { t.push ctx token with frames } := by
  have hprepared (t : Tokenizer) : t.prepared ctx token = t := by
    unfold prepared
    simp [keepsGlobstar, hparen]
  simp only [push_eq_prepared, hprepared, noted, if_pos hparen]
  rfl

theorem Joined.arrives_openExtglob (kind : ExtglobKind) (operator : Char) :
    t.Arrives (t.openExtglob ctx kind operator) := by
  let guard := if t.output.isEmpty then Fragment.oneChar else []
  let paren : Token := { Token.ofSource .paren ['(']
    ((if ctx.options.capture then ['('] else []) ++ kind.opening) with isExtglob := true }
  let frame : Frame := .extglob ⟨kind, t.last.kind, t.tokens.length, []⟩
  let s := (t.push ctx (.ofSource (.extglob kind) [operator] guard)).skip 1
  have hs : s.Joined := by
    refine Joined.skip (h.push hstar (by simp) ?_) 1
    show guard ≠ [] ∨ _
    by_cases houtput : t.output = []
    · exact .inl (by simp [guard, houtput, Fragment.oneChar])
    · exact .inr houtput
  have hopened : t.openExtglob ctx kind operator =
      ({ s with frames := frame :: s.frames } : Tokenizer).push ctx paren := by
    have hframes : (s.push ctx paren).frames = s.frames := (push_frames ..).trans (if_pos rfl)
    rw [push_paren rfl, ← hframes]
    rfl
  have hopening : paren.source ≠ [] := by
    show (if ctx.options.capture then ['('] else []) ++ kind.opening ≠ []
    cases kind <;> simp [ExtglobKind.opening]
  have hpush := hs.push_opening hstar ⟨by simp [paren], rfl⟩ hopening
    (rfl : frame.isBrace = false)
  rw [hopened]
  refine Tokenizer.arrives_push hpush hs.ne_nil ?_ ?_ ?_ (by simp [paren])
  · simp [s, Tokenizer.skip, hclass]
  · simp [s, Tokenizer.skip]
  · simp [s, Tokenizer.skip]

omit hclass hstar in
theorem Joined.guarded {frame : ExtglobFrame} (hsub : frames.Sublist t.frames)
    (negatedExtglob : Bool) (hne : t.frames ≠ []) :
    (({ t with frames, negatedExtglob } : Tokenizer).guarded ctx frame).Joined ∧
      (({ t with frames, negatedExtglob } : Tokenizer).guarded ctx frame).output ≠ [] := by
  have houtput := h.output_ne_nil_of_frames hne
  have hs : ({ t with frames, negatedExtglob } : Tokenizer).Joined :=
    ⟨h.linked, h.synced, h.braced.sublist hsub, fun hfalse => (h.sized hfalse).sublist hsub,
      fun hnil => absurd hnil houtput⟩
  unfold Tokenizer.guarded
  dsimp only
  split
  · refine ⟨joined_of_rebuild (h.linked.modify_of_same fun _ => ⟨rfl, rfl, rfl⟩)
      ⟨hs.braced.ordered, fun brace hbrace => ?_⟩ rfl houtput, houtput⟩
    let change (token : Token) : Token :=
      { token with source? := some (ctx.dotGuard ++ token.source) }
    show kindAt (t.tokens.modify frame.operator change) _ = _
    rw [kindAt_modify_of_kind_eq change fun _ => rfl]
    exact hs.braced.kinds brace hbrace
  · exact ⟨hs, houtput⟩

omit hstar h hclass in
theorem closeExtglob_eq_map (ctx : Context) (tail : List Char → Except Error (List Char))
    (t : Tokenizer) (frame : ExtglobFrame) :
    t.closeExtglob ctx tail frame =
      (if frame.kind = .negate then t.negateClosing ctx tail frame
        else .ok (frame.kind.closing [])).map (t.extglobClosed ctx frame) := by
  unfold closeExtglob
  dsimp only
  split
  · cases t.negateClosing ctx tail frame <;> rfl
  · rfl

theorem Joined.arrives_extglobClosed {frame : ExtglobFrame} (hsub : frames.Sublist t.frames)
    (hne : t.frames ≠ []) (closing : List Char) :
    t.Arrives (({ t with frames } : Tokenizer).extglobClosed ctx frame closing) := by
  let negatedExtglob := t.negatedExtglob ||
    (frame.kind = ExtglobKind.negate && frame.before = TokenKind.bos)
  let paren : Token := { Token.ofSource .paren [')']
    (if ctx.options.capture then closing ++ [')'] else closing) with isExtglob := true }
  obtain ⟨hguarded, houtput⟩ := h.guarded hsub negatedExtglob hne
  obtain ⟨-, hinClass, hstart, hposition⟩ :=
    guarded_same ctx { t with frames, negatedExtglob } frame
  have harrives : t.Arrives (((({ t with frames, negatedExtglob } : Tokenizer).guarded ctx
      frame)).push ctx paren) :=
    Tokenizer.arrives_push (hguarded.push hstar ⟨by simp [paren], rfl⟩ (.inr houtput))
      hguarded.ne_nil (hinClass.trans hclass) hstart (Nat.le_of_eq hposition.symm) (by simp [paren])
  unfold extglobClosed
  dsimp only
  split
  · refine ⟨harrives.joined.congr rfl rfl rfl rfl, harrives.inClass, harrives.start,
      harrives.position, fun hfresh hdot => ?_, harrives.ends⟩
    obtain ⟨htokens, hframes, hrebuild⟩ := harrives.dot hfresh hdot
    exact ⟨htokens, hframes, hrebuild⟩
  · exact harrives

theorem Joined.arrives_closeParen {tail : List Char → Except Error (List Char)} {t' : Tokenizer}
    (hok : t.closeParen ctx tail = .ok t') : t.Arrives t' := by
  unfold closeParen at hok
  split at hok
  case h_1 frame frames htake =>
    obtain ⟨hsub, hne⟩ := sublist_of_takeFrame? htake
    rw [closeExtglob_eq_map] at hok
    obtain ⟨closing, -, rfl⟩ := exists_of_map_eq_ok hok
    exact h.arrives_extglobClosed hstar hclass hsub hne closing
  case h_2 frame frames hother htake =>
    cases hok
    exact h.arrives_push hstar hclass 0 (sublist_of_takeFrame? htake).1 ⟨by simp, rfl⟩
      (.inl (List.cons_ne_nil _ _)) (by simp)
  case h_3 =>
    split at hok
    case isTrue => exact absurd hok (by simp)
    case isFalse =>
      cases hok
      exact h.arrives_push hstar hclass 0 (List.Sublist.refl _) (by simp)
        (.inl (List.cons_ne_nil _ _)) (by simp)

/-! #### Wildcards -/

omit hstar in
/-- The dot that makes a pair with the dot before it. -/
theorem Joined.arrives_dots (hends : t.EndsPlainly) (hlast : t.last.kind = .dot) :
    t.Arrives (((t.modifyLast fun token => { token with
      kind := .dots, value := ['.', '.'], source? := some (Fragment.dot ++ Fragment.dot) }).emit
        Fragment.dot).noteDots) := by
  let change (token : Token) : Token := { token with
    kind := .dots, value := ['.', '.'], source? := some (Fragment.dot ++ Fragment.dot) }
  have hs : ((t.modifyLast change).emit Fragment.dot).Joined := by
    have hrun (htrue : t.last.isStarRun = true) : (change t.last).kind = .star ∨
        (t.last.isStarRun = true ∧ (change t.last).kind = t.last.kind) :=
      absurd ((h.kind_last_of_run htrue).symm.trans hlast) (by simp)
    refine h.modifyLast change rfl rfl (fun _ => rfl) (.inr (by simp [hlast, change])) hrun id
      (fun _ before houtput => ?_) (List.append_ne_nil_of_right_ne_nil _ (by decide))
    show t.output ++ Fragment.dot = before ++ (Fragment.dot ++ Fragment.dot)
    rw [houtput, hends hlast, List.append_assoc]
  refine .of_kind_ne (hs.modifyFrame fun frame frame' hnote brace heq => ?_) hclass rfl
    (Nat.le_refl _) ?_
  · cases frame with
    | paren | extglob => exact absurd hnote (by simp)
    | brace frame =>
      cases hnote
      cases heq
      exact ⟨frame, rfl, rfl, rfl⟩
  · show (t.modifyLast change).last.kind ≠ .dot
    rw [last_modifyLast h.ne_nil]
    simp [change]

theorem Joined.arrives_dot (hends : t.EndsPlainly) : t.Arrives (t.dot ctx) := by
  unfold dot
  split
  case isTrue hlast =>
    rw [Bool.and_eq_true, decide_eq_true_eq] at hlast
    exact h.arrives_dots hclass hends hlast.2
  case isFalse =>
    let token := Token.ofSource (if t.frames.isEmpty && !t.last.kind.beginsSegment then .text
      else .dot) ['.'] Fragment.dot
    show t.Arrives (t.push ctx token)
    have hinner : token.IsInner := by
      refine ⟨?_, rfl⟩
      show (if _ then TokenKind.text else .dot) ≠ _
      split <;> simp
    have hsource : token.source = Fragment.dot := rfl
    clear_value token
    have hpushed (hdot : (t.push ctx token).last.kind = .dot) : ∃ previous,
        (t.push ctx token).tokens = (t.prepared ctx token).tokens ++ [{ token with previous }] := by
      have hkind := (kind_last_push h.ne_nil ctx token).symm.trans hdot
      exact tokens_push_of_kind_ne (by simp [hkind]) ctx t
    have hne : token.source ≠ [] := by simp [hsource, Fragment.dot]
    refine ⟨h.push hstar hinner (.inl hne), by simpa, by simp, by simp, fun hfresh hdot => ?_,
      fun _ hdot => ?_⟩
    · obtain ⟨previous, hpush⟩ := hpushed hdot
      have hlast : t.last = .bos := by rw [last, hfresh.tokens]; rfl
      have hprepared : t.prepared ctx token = t := by
        unfold Tokenizer.prepared
        simp [hlast]
      refine ⟨⟨_, by rw [hpush, hprepared, hfresh.tokens]; rfl⟩, ?_,
        by rw [push_rebuild, hfresh.rebuild]⟩
      rw [push_frames]
      exact Classical.not_not.mp (mt noted_ne_nil_iff.mp (Classical.not_not.mpr hfresh.frames))
    · obtain ⟨previous, hpush⟩ := hpushed hdot
      rw [last_of_tokens_eq hpush]
      exact hsource

theorem Joined.arrives_qmark : t.Arrives (t.qmark ctx) := by
  unfold qmark
  dsimp only
  split
  · exact h.arrives_openExtglob hstar hclass _ _
  · split
    · exact h.arrives_pushText hstar hclass 0 _ (by split <;> simp)
    · refine h.arrives_push hstar hclass 0 (List.Sublist.refl _) (by simp) (.inl ?_) (by simp)
      show (if _ then _ else _) ≠ []
      repeat' split
      all_goals exact List.cons_ne_nil _ _

theorem Joined.arrives_operator (kind : ExtglobKind) (c : Char) {other : Token}
    (hinner : other.IsInner) (hne : other.source ≠ []) (hdot : other.kind ≠ .dot) :
    t.Arrives (t.operator ctx kind c other) := by
  unfold operator
  split
  · exact h.arrives_openExtglob hstar hclass _ _
  · exact h.arrives_push hstar hclass 0 (List.Sublist.refl _) hinner (.inl hne) hdot

/-! #### Stars -/

omit hstar hclass in
theorem Joined.guardLast {guard : List Char} (hguard : guard ≠ []) :
    (t.guardLast guard).Joined := by
  refine h.modifyLast (fun token => { token with source? := some (token.source ++ guard) }) rfl rfl
    (fun _ => rfl) (.inl rfl) (fun htrue => .inr ⟨htrue, rfl⟩) id (fun _ before houtput => ?_)
    (List.append_ne_nil_of_right_ne_nil _ hguard)
  show t.output ++ guard = before ++ (t.last.source ++ guard)
  rw [houtput, List.append_assoc]

omit hstar h hclass in
theorem starGuard?_ne_nil {guard : List Char} (hguard : t.starGuard? ctx = some guard) :
    guard ≠ [] := by
  have hdot : ctx.dotGuard ≠ [] := by
    unfold Context.dotGuard Fragment.dotGuard
    split <;> exact List.cons_ne_nil _ _
  have hsegment : Fragment.noDotSegment ctx.windows ≠ [] := List.cons_ne_nil _ _
  unfold starGuard? at hguard
  dsimp only at hguard
  repeat' split at hguard
  all_goals cases hguard
  · assumption
  · assumption
  · exact List.append_ne_nil_of_left_ne_nil hsegment _
  · exact List.append_ne_nil_of_left_ne_nil hdot _
  · assumption

end

section
variable {s : Tokenizer} {before : List Token} {prior star : Token} {source : List Char}
variable (h : t.Joined) (hclass : t.inClass = false) (hstarred : t.Starred before prior star)
include h hstarred

/-- The source of the state is that of its tokens, before the star and its own. -/
theorem Joined.output_eq (hrebuild : t.rebuild = false) :
    t.output = before.flatMap Token.source ++ (prior.source ++ star.source) := by
  rw [h.synced hrebuild, joinSources, hstarred.tokens]
  simp

theorem Joined.source_first (hprior : prior.kind = .bos) :
    (t.tokens.head?.getD .bos).source = before.flatMap Token.source ++ prior.source := by
  have hnil : before = [] := by
    obtain hnil | ⟨first, last, rfl⟩ := List.eq_nil_or_concat before
    · exact hnil
    · have := (h.linked.previous first.length prior (by simp [hstarred.tokens])).2
      exact absurd hprior this
  rw [hstarred.tokens, hnil]
  rfl

/-- The star becomes a globstar. -/
theorem Joined.promote (source : List Char) (htokens : s.tokens = t.tokens)
    (hrebuild : s.rebuild = t.rebuild)
    (hframes : s.frames = t.frames) (hne : s.output ≠ []) (houtput : t.rebuild = false →
      s.output = before.flatMap Token.source ++ (prior.source ++ source)) :
    (s.promote (before.length + 1) source).Joined ∧
      (s.promote (before.length + 1) source).last.kind = .globstar := by
  have hs : s.Starred before prior star :=
    ⟨htokens.trans hstarred.tokens, hstarred.kind, hstarred.isStarRun⟩
  let change (token : Token) : Token := { token with
    kind := .globstar, value := token.value ++ ['*'], source? := some source }
  have hrun (htrue : t.last.isStarRun = true) : (change t.last).kind = .star ∨
      (t.last.isStarRun = true ∧ (change t.last).kind = t.last.kind) := by
    rw [hstarred.last, hstarred.isStarRun] at htrue
    exact absurd htrue (by simp)
  refine ⟨?_, ?_⟩
  · refine h.modifyLast change ?_ hframes (fun _ => rfl)
      (.inr (by simp [hstarred.last, hstarred.kind, change])) hrun (fun hfalse => hrebuild ▸ hfalse)
      (fun hfalse found hfound => ?_) hne
    · rw [hstarred.lastPlace, ← htokens]
      rfl
    · have hfalse' : s.rebuild = false := hfalse
      rw [hrebuild] at hfalse'
      have hcut := h.output_eq hstarred hfalse'
      rw [hfound, hstarred.last, ← List.append_assoc] at hcut
      rw [List.append_cancel_right hcut]
      exact (houtput hfalse').trans (List.append_assoc _ _ _).symm
  · rw [last_of_tokens_eq ((hs.tokens_promote source).trans (List.append_cons before prior _))]

/-- The separator and the star become the beginning and the end of a group. -/
theorem Joined.globstarAfterSlash (source : List Char) (hprior : prior.kind = .slash)
    (htokens : s.tokens = t.tokens) (hrebuild : s.rebuild = t.rebuild) (hframes : s.frames = t.frames)
    (houtput : s.output = t.output) :
    (s.globstarAfterSlash before.length (before.length + 1) prior star source).Joined ∧
      (s.globstarAfterSlash before.length (before.length + 1) prior star source).last.kind =
        .globstar := by
  have hs : s.Starred before prior star :=
    ⟨htokens.trans hstarred.tokens, hstarred.kind, hstarred.isStarRun⟩
  have hnew := hs.tokens_globstarAfterSlash source
  generalize hs' : s.globstarAfterSlash before.length (before.length + 1) prior star source = s'
    at hnew
  have hkeeps : KeepsBraces t.tokens s'.tokens := by
    rw [hnew, hstarred.tokens]
    refine keepsBraces_of_last (fun hbrace => ?_) fun i hbrace => ?_
    · simp [kindAt, hprior] at hbrace
    · cases i with
      | zero => simp [kindAt, hstarred.kind] at hbrace
      | succ i => simp [kindAt] at hbrace
  have hlinked : Linked s'.tokens := by
    subst hs'
    let opened := s.setSource before.length (['(', '?', ':'] ++ prior.source)
    have hat {token : Token} (htoken : opened.tokens[before.length + 1]? = some token) :
        token = star := by
      obtain ⟨hi, -⟩ | ⟨-, hfound⟩ := getElem?_modify_iff.mp htoken
      · exact absurd hi (by omega)
      · rw [hs.tokens, List.getElem?_append_right (by omega), Nat.add_sub_cancel_left] at hfound
        exact (Option.some.inj hfound).symm
    refine Linked.modify
      (Linked.modify_of_same (htokens ▸ h.linked) fun _ => ⟨rfl, rfl, rfl⟩) (fun _ => rfl)
      (fun token htoken => .inr ⟨?_, by simp⟩) fun token htoken htrue => ?_
    · simp [hat htoken, hstarred.kind]
    · have hfalse : token.isStarRun = true := htrue
      rw [hat htoken, hstarred.isStarRun] at hfalse
      exact absurd hfalse (by simp)
  have hsame : s'.rebuild = t.rebuild ∧ s'.frames = t.frames ∧ s'.output ≠ [] := by
    subst hs'
    refine ⟨hrebuild, hframes, ?_⟩
    show Text.dropLastBytes _ _ ++ (['(', '?', ':'] ++ prior.source ++ source) ≠ []
    simp
  refine ⟨⟨hlinked, fun hfalse => ?_, ?_, fun hfalse => ?_,
    fun hnil => absurd hnil hsame.2.2⟩, ?_⟩
  · have hjoin := h.output_eq hstarred (hsame.1 ▸ hfalse)
    have hcut : Text.dropLastBytes (Text.byteSize prior.source + Text.byteSize star.source)
        s.output = before.flatMap Token.source := by
      rw [houtput, hjoin, ← Text.byteSize_append, Text.dropLastBytes_append]
    rw [joinSources, hnew]
    subst hs'
    show Text.dropLastBytes _ s.output ++ _ = _
    rw [hcut]
    simp [Token.source]
  · rw [hsame.2.1]
    exact h.braced.keep hkeeps
  · rw [hsame.2.1]
    exact (h.sized (hsame.1 ▸ hfalse)).keep h.braced hkeeps
  · rw [last_of_tokens_eq (hnew.trans (List.append_cons before _ _))]

end


section
variable {s : Tokenizer} {before : List Token} {prior star : Token}
variable (hstar : ctx.star ≠ []) (h : t.Joined) (hclass : t.inClass = false)
include hstar h hclass

omit h hclass in
/-- The separator behind a globstar adds a token without a source. -/
theorem Joined.arrives_absorbSlash (hs : s.Joined) (hlast : s.last.kind = .globstar)
    (hclass : s.inClass = false) (hstart : s.start = t.start)
    (hposition : t.position ≤ s.position) : t.Arrives (s.absorbSlash ctx) :=
  Tokenizer.arrives_push ((hs.skip 1).push hstar (by simp)
    (.inr (hs.output_ne_nil_of_kind (by simp [hlast])))) hs.ne_nil hclass hstart
    (Nat.le_trans hposition (Nat.le_add_right _ _)) (by simp)

theorem Joined.arrives_globstarAt (hstarred : t.Starred before prior star)
    (beforePrior : Option TokenKind) :
    t.Arrives (t.globstarAt ctx star before.length prior beforePrior) := by
  have hglobstar : ctx.globstar ≠ [] := by
    unfold Context.globstar Fragment.globstar
    simp
  unfold globstarAt
  dsimp only
  rw [hstarred.lastPlace]
  split
  case isTrue hwhole =>
    rw [Bool.and_eq_true, decide_eq_true_eq] at hwhole
    obtain ⟨hpromoted, hkind⟩ := h.promote hstarred _
      (s := { t.skip (redundantGlobstars t.rest t.rest.length) with
        globstar := true, output := (t.tokens.head?.getD .bos).source ++ ctx.globstar })
      rfl rfl rfl (List.append_ne_nil_of_right_ne_nil _ hglobstar) fun _ => by
        rw [← List.append_assoc, ← h.source_first hstarred hwhole.1]
    exact .of_kind_ne hpromoted hclass rfl (Nat.le_add_right _ _)
      fun hdot => absurd (hkind.symm.trans hdot) (by simp)
  case isFalse =>
    split
    case isTrue hlast =>
      simp only [Bool.and_eq_true, decide_eq_true_eq] at hlast
      obtain ⟨hgrouped, hkind⟩ := h.globstarAfterSlash hstarred
        (ctx.globstar ++ if ctx.options.strictSlashes then [')'] else ['|', '$', ')'])
        (s := { t.skip (redundantGlobstars t.rest t.rest.length) with globstar := true })
        hlast.1.1.1 rfl rfl rfl rfl
      exact .of_kind_ne hgrouped hclass rfl (Nat.le_add_right _ _)
        fun hdot => absurd (hkind.symm.trans hdot) (by simp)
    case isFalse =>
      split
      case isTrue hinner =>
        simp only [Bool.and_eq_true, decide_eq_true_eq] at hinner
        obtain ⟨hgrouped, hkind⟩ := h.globstarAfterSlash hstarred _
          (s := { t.skip (redundantGlobstars t.rest t.rest.length) with globstar := true })
          hinner.1.1 rfl rfl rfl rfl
        exact Joined.arrives_absorbSlash hstar hgrouped hkind hclass rfl (Nat.le_add_right _ _)
      case isFalse =>
        split
        case isTrue hleading =>
          rw [Bool.and_eq_true, decide_eq_true_eq] at hleading
          obtain ⟨hpromoted, hkind⟩ := h.promote hstarred _
            (s := { t.skip (redundantGlobstars t.rest t.rest.length) with
              globstar := true, output := (t.tokens.head?.getD .bos).source ++
                (['(', '?', ':', '^', '|'] ++ Fragment.slash ctx.windows ++
                  '|' :: ctx.globstar ++ Fragment.slash ctx.windows ++ [')']) })
            rfl rfl rfl (by simp) fun _ => by
              rw [← List.append_assoc (before.flatMap Token.source),
                ← h.source_first hstarred hleading.1]
          exact Joined.arrives_absorbSlash hstar hpromoted hkind hclass rfl (Nat.le_add_right _ _)
        case isFalse =>
          obtain ⟨hpromoted, hkind⟩ := h.promote hstarred ctx.globstar
            (s := ({ t.skip (redundantGlobstars t.rest t.rest.length) with
              globstar := true }.cutOutput (Text.byteSize star.source)).emit ctx.globstar)
            rfl rfl rfl (List.append_ne_nil_of_right_ne_nil _ hglobstar) fun hrebuild => by
              show Text.dropLastBytes (Text.byteSize star.source) t.output ++ ctx.globstar = _
              rw [h.output_eq hstarred hrebuild, ← List.append_assoc, Text.dropLastBytes_append,
                List.append_assoc]
          exact .of_kind_ne hpromoted hclass rfl (Nat.le_add_right _ _)
            fun hdot => absurd (hkind.symm.trans hdot) (by simp)

omit hstar hclass in
/-- Before a star there is a token, which the star knows. -/
theorem Joined.exists_starred (hkind : t.last.kind = .star) (hrun : t.last.isStarRun = false) :
    ∃ before prior, t.Starred before prior t.last ∧ t.last.previous = some before.length ∧
      t.tokens[before.length]? = some prior := by
  obtain ⟨before, htokens⟩ := exists_tokens_eq h.ne_nil
  obtain hnil | ⟨before, prior, rfl⟩ := List.eq_nil_or_concat before
  · have hhead := h.linked.head
    rw [htokens, hnil] at hhead
    exact absurd (hkind.symm.trans (Option.some.inj hhead)) (by simp)
  · have htokens' : t.tokens = before ++ [prior, t.last] := by
      rw [List.concat_eq_append, ← List.append_cons] at htokens
      exact htokens
    refine ⟨before, prior, ⟨htokens', hkind, hrun⟩, ?_, by rw [htokens']; simp⟩
    refine (h.linked.previous before.length t.last ?_).1
    rw [htokens']
    simp

theorem Joined.arrives_secondStar (hkind : t.last.kind = .star) (hrun : t.last.isStarRun = false) :
    t.Arrives (t.secondStar ctx) := by
  unfold secondStar
  split
  · exact h.arrives_self hclass
  · obtain ⟨before, prior, hstarred, hprevious, hprior⟩ := h.exists_starred hkind hrun
    dsimp only
    split
    · exact h.arrives_push hstar hclass 0 (List.Sublist.refl _) (by simp)
        (.inr (h.output_ne_nil_of_kind (by simp [hkind]))) (by simp)
    · rw [hprevious, Option.getD_some, hprior, Option.getD_some]
      exact h.arrives_globstarAt hstar hclass hstarred _

omit hstar in
/-- A third star makes the run a single star again. -/
theorem Joined.arrives_starRun (hlast : t.last.kind = .globstar ∨ t.last.isStarRun = true) :
    t.Arrives { (t.modifyLast fun token => { token with
      kind := .star, isStarRun := true, value := token.value ++ ['*'],
      source? := some ctx.star }).needRebuild with globstar := true } := by
  have hkind : t.last.kind = .globstar ∨ t.last.kind = .star := hlast.imp_right h.kind_last_of_run
  have hne : t.output ≠ [] := h.output_ne_nil_of_kind (by
    obtain hkind | hkind := hkind <;> simp [hkind])
  let change (token : Token) : Token := { token with
    kind := .star, isStarRun := true, value := token.value ++ ['*'], source? := some ctx.star }
  have hs : Joined { (t.modifyLast change).needRebuild with globstar := true } := by
    refine h.modifyLast change rfl rfl (fun _ => rfl) (.inr ?_) (fun _ => .inl rfl)
      (fun hfalse => absurd hfalse (by simp [needRebuild]))
      (fun hfalse => absurd hfalse (by simp [needRebuild])) hne
    obtain hkind | hkind := hkind <;> simp [hkind, change]
  refine .of_kind_ne hs hclass rfl (Nat.le_refl _) ?_
  show (t.modifyLast change).last.kind ≠ .dot
  rw [last_modifyLast h.ne_nil]
  simp [change]

theorem Joined.arrives_star : t.Arrives (t.star ctx) := by
  unfold star
  split
  case isTrue hlast =>
    rw [Bool.or_eq_true, decide_eq_true_eq] at hlast
    exact h.arrives_starRun hclass hlast
  case isFalse hlast =>
    rw [Bool.or_eq_true, not_or] at hlast
    split
    · exact h.arrives_openExtglob hstar hclass _ _
    · split
      case isTrue hkind =>
        exact h.arrives_secondStar hstar hclass hkind (eq_false_of_ne_true hlast.2)
      case isFalse =>
        let token := Token.ofSource .star ['*'] (if ctx.options.bash then
          if ctx.options.capture then '(' :: Fragment.anything ++ [')'] else Fragment.anything
          else ctx.star)
        have hsource : token.source ≠ [] := by
          show (if ctx.options.bash then _ else _) ≠ []
          split
          · split <;> exact List.cons_ne_nil _ _
          · exact hstar
        have hpush {s : Tokenizer} (hs : s.Joined) (hinClass : s.inClass = false)
            (hstart : s.start = t.start) (hposition : t.position ≤ s.position) :
            t.Arrives (s.push ctx token) :=
          Tokenizer.arrives_push (hs.push hstar (by simp [token]) (.inl hsource)) hs.ne_nil hinClass
            hstart hposition (by simp [token])
        dsimp only
        split
        case h_1 guard hguard =>
          exact hpush (h.guardLast (starGuard?_ne_nil hguard)) hclass rfl (Nat.le_refl _)
        case h_2 => exact hpush h hclass rfl (Nat.le_refl _)

/-! #### Other characters -/

theorem Joined.arrives_plainText (c : Char) : t.Arrives (t.plainText ctx c) := by
  refine h.arrives_pushText hstar hclass _ _ (List.append_ne_nil_of_left_ne_nil ?_ _)
  split <;> simp

/-- A closing bracket without an opening one. -/
theorem Joined.arrives_closeBracket {t' : Tokenizer} (hok : t.closeBracket ctx = .ok t') :
    t.Arrives t' := by
  have harrives := h.arrives_pushText hstar hclass 0 [']']
    (List.cons_ne_nil '\\' [']'])
  unfold closeBracket at hok
  split at hok
  · cases hok
    exact harrives
  · rw [if_pos (by simp [hclass])] at hok
    split at hok
    · exact absurd hok (by simp)
    · cases hok
      exact harrives

end
end Tokenizer

end PathGlob.Pattern
