import PathGlob.Proofs.Pattern.Brackets

/-!
# `PathGlob.Proofs.Pattern.Joined`: editing the source along with the tokens

The tokenizer edits the source along with the tokens: it adds to both, cuts the end off the
source when the last tokens change, and remembers in bytes how much source stands before a brace
group. Where it leaves the source behind, it asks for putting it together anew.

`Tokenizer.Joined` is what holds of the tokens and the source between two characters, whatever
the pattern and the options. The lemmas of this module keep it through the operations that all
characters are made of.
-/

set_option autoImplicit false

namespace PathGlob.Pattern

open Regex

/-! ### Brace groups -/

/-- Every brace group among the frames has its brace among the tokens, the outer ones before the
inner ones. -/
structure Braced (tokens : List Token) (frames : List Frame) : Prop where
  ordered : frames.Pairwise fun inner outer =>
    ∀ frame frame', inner = .brace frame → outer = .brace frame' → frame'.token < frame.token
  kinds : ∀ frame, .brace frame ∈ frames → kindAt tokens frame.token = some .brace

/-- Every brace group among the frames knows the size of the source before it. -/
def Sized (tokens : List Token) (frames : List Frame) : Prop :=
  ∀ frame, .brace frame ∈ frames →
    frame.outputSize = Text.byteSize ((tokens.take frame.token).flatMap Token.source)

/-- Every brace stays where it is, and so do the tokens before it. -/
def KeepsBraces (tokens tokens' : List Token) : Prop :=
  ∀ place, kindAt tokens place = some .brace →
    kindAt tokens' place = some .brace ∧ tokens'.take place = tokens.take place

/-- Every token but the first knows the one before it, only the first is the beginning, and a run
of stars is a star. -/
structure Linked (tokens : List Token) : Prop where
  head : kindAt tokens 0 = some .bos
  previous : ∀ i token, tokens[i + 1]? = some token → token.previous = some i ∧ token.kind ≠ .bos
  run : ∀ token ∈ tokens, token.isStarRun = true → token.kind = .star

/-- The token may be added behind another one. -/
def Token.IsInner (token : Token) : Prop := token.kind ≠ .bos ∧ token.isStarRun = false

@[simp] theorem Token.isInner_ofSource {kind : TokenKind} {value source : List Char} :
    (Token.ofSource kind value source).IsInner ↔ kind ≠ .bos := and_iff_left rfl

@[simp] theorem Token.isInner_text (value source : List Char) : (Token.text value source).IsInner :=
  isInner_ofSource.mpr (by simp)

section
variable {tokens tokens' before after after' : List Token} {frames frames' : List Frame}

theorem KeepsBraces.refl (tokens : List Token) : KeepsBraces tokens tokens :=
  fun _ h => ⟨h, rfl⟩

theorem KeepsBraces.trans {tokens'' : List Token} (h : KeepsBraces tokens tokens')
    (h' : KeepsBraces tokens' tokens'') : KeepsBraces tokens tokens'' := fun place hplace =>
  have ⟨hkind, htake⟩ := h place hplace
  have ⟨hkind', htake'⟩ := h' place hkind
  ⟨hkind', htake'.trans htake⟩

theorem keepsBraces_append (tokens more : List Token) : KeepsBraces tokens (tokens ++ more) := by
  intro place h
  obtain ⟨token, htoken, -⟩ := Option.map_eq_some_iff.mp h
  have hlt := lt_of_getElem?_eq htoken
  refine ⟨?_, List.take_append_of_le_length (Nat.le_of_lt hlt)⟩
  rwa [kindAt, List.getElem?_append_left hlt]

theorem kindAt_append_right (before after : List Token) (i : Nat) :
    kindAt (before ++ after) (before.length + i) = kindAt after i := by
  rw [kindAt, List.getElem?_append_right (Nat.le_add_right _ _), Nat.add_sub_cancel_left]
  rfl

/-- Only tokens at the end are changed, and none of them is a brace, but perhaps the first. -/
theorem keepsBraces_of_last
    (hhead : kindAt after 0 = some .brace → kindAt after' 0 = some .brace)
    (hafter : ∀ i, kindAt after (i + 1) ≠ some .brace) :
    KeepsBraces (before ++ after) (before ++ after') := by
  intro place h
  by_cases hlt : place < before.length
  · rw [kindAt, List.getElem?_append_left hlt] at h
    refine ⟨by rwa [kindAt, List.getElem?_append_left hlt], ?_⟩
    rw [List.take_append_of_le_length (Nat.le_of_lt hlt),
      List.take_append_of_le_length (Nat.le_of_lt hlt)]
  · obtain ⟨i, rfl⟩ := Nat.exists_eq_add_of_le (Nat.le_of_not_lt hlt)
    rw [kindAt_append_right] at h ⊢
    cases i with
    | zero => exact ⟨hhead h, by simp⟩
    | succ i => exact absurd h (hafter i)

theorem Braced.keep (h : Braced tokens frames) (hkeeps : KeepsBraces tokens tokens') :
    Braced tokens' frames :=
  ⟨h.ordered, fun frame hframe => (hkeeps _ (h.kinds frame hframe)).1⟩

theorem Sized.keep (h : Sized tokens frames) (hbraced : Braced tokens frames)
    (hkeeps : KeepsBraces tokens tokens') : Sized tokens' frames := fun frame hframe => by
  rw [(hkeeps _ (hbraced.kinds frame hframe)).2]
  exact h frame hframe

theorem Braced.sublist (h : Braced tokens frames) (hsub : frames'.Sublist frames) :
    Braced tokens frames' :=
  ⟨h.ordered.sublist hsub, fun frame hframe => h.kinds frame (hsub.subset hframe)⟩

theorem Sized.sublist (h : Sized tokens frames) (hsub : frames'.Sublist frames) :
    Sized tokens frames' :=
  fun frame hframe => h frame (hsub.subset hframe)

/-- A frame of another group makes no difference. -/
theorem Braced.cons {frame : Frame} (h : Braced tokens frames) (hframe : frame.isBrace = false) :
    Braced tokens (frame :: frames) := by
  have hne (brace : BraceFrame) : frame ≠ .brace brace := by
    rintro rfl
    exact absurd hframe (by simp [Frame.isBrace])
  refine ⟨List.pairwise_cons.mpr ⟨fun _ _ brace _ heq => absurd heq (hne brace), h.ordered⟩,
    fun brace hbrace => ?_⟩
  exact h.kinds brace ((List.mem_cons.mp hbrace).resolve_left (hne brace).symm)

theorem Sized.cons {frame : Frame} (h : Sized tokens frames) (hframe : frame.isBrace = false) :
    Sized tokens (frame :: frames) := fun brace hbrace => by
  refine h brace ((List.mem_cons.mp hbrace).resolve_left ?_)
  rintro rfl
  exact absurd hframe (by simp [Frame.isBrace])

/-- The frames around the innermost brace group, and the others above it. -/
theorem Braced.taken {brace : BraceFrame} (h : Braced tokens frames)
    (htake : Tokenizer.takeFrame? Frame.isBrace frames = some (.brace brace, frames')) :
    frames'.Sublist frames ∧ kindAt tokens brace.token = some .brace ∧
      ∀ other, .brace other ∈ frames' → other.token < brace.token := by
  obtain ⟨-, above, below, rfl, rfl, habove⟩ := Tokenizer.takeFrame?_eq_some htake
  refine ⟨(List.sublist_cons_self _ _).append_left _, h.kinds brace (by simp),
    fun other hother => ?_⟩
  obtain hother | hother := List.mem_append.mp hother
  · exact absurd (habove _ hother) (by simp [Frame.isBrace])
  · obtain ⟨-, hbelow, -⟩ := List.pairwise_append.mp h.ordered
    exact (List.pairwise_cons.mp hbelow).1 _ hother brace other rfl rfl

theorem sublist_of_takeFrame? {test : Frame → Bool} {found : Frame}
    (h : Tokenizer.takeFrame? test frames = some (found, frames')) :
    frames'.Sublist frames ∧ frames ≠ [] := by
  obtain ⟨-, above, below, rfl, rfl, -⟩ := Tokenizer.takeFrame?_eq_some h
  exact ⟨(List.sublist_cons_self _ _).append_left _, by simp⟩

/-- A change that leaves alone where brace groups are. -/
def KeepsPlaces (change : Frame → Option Frame) : Prop :=
  ∀ frame frame', change frame = some frame' → ∀ brace, frame' = .brace brace →
    ∃ brace', frame = .brace brace' ∧ brace.token = brace'.token ∧
      brace.outputSize = brace'.outputSize

theorem KeepsPlaces.exists_of_mem {change : Frame → Option Frame} (hchange : KeepsPlaces change)
    {brace : BraceFrame} (hbrace : .brace brace ∈ Tokenizer.modifyFrame change frames) :
    ∃ brace', .brace brace' ∈ frames ∧ brace.token = brace'.token ∧
      brace.outputSize = brace'.outputSize := by
  induction frames with
  | nil => exact absurd hbrace List.not_mem_nil
  | cons frame frames ih =>
    rw [Tokenizer.modifyFrame] at hbrace
    split at hbrace
    case h_1 frame' hframe =>
      obtain heq | hbrace := List.mem_cons.mp hbrace
      · obtain ⟨brace', rfl, hsame⟩ := hchange frame frame' hframe brace heq.symm
        exact ⟨brace', List.mem_cons_self, hsame⟩
      · exact ⟨brace, List.mem_cons_of_mem _ hbrace, rfl, rfl⟩
    case h_2 =>
      obtain heq | hbrace := List.mem_cons.mp hbrace
      · exact ⟨brace, heq ▸ List.mem_cons_self, rfl, rfl⟩
      · obtain ⟨brace', hbrace', hsame⟩ := ih hbrace
        exact ⟨brace', List.mem_cons_of_mem _ hbrace', hsame⟩

theorem Sized.modifyFrame {change : Frame → Option Frame} (h : Sized tokens frames)
    (hchange : KeepsPlaces change) : Sized tokens (Tokenizer.modifyFrame change frames) := by
  intro brace hbrace
  obtain ⟨brace', hbrace', htoken, hsize⟩ := hchange.exists_of_mem hbrace
  rw [htoken, hsize]
  exact h brace' hbrace'

theorem Braced.modifyFrame {change : Frame → Option Frame} (h : Braced tokens frames)
    (hchange : KeepsPlaces change) : Braced tokens (Tokenizer.modifyFrame change frames) := by
  refine ⟨?_, fun brace hbrace => ?_⟩
  · have hordered := h.ordered
    clear h
    induction frames with
    | nil => exact .nil
    | cons frame frames ih =>
      obtain ⟨hhead, htail⟩ := List.pairwise_cons.mp hordered
      rw [Tokenizer.modifyFrame]
      split
      case h_1 frame' hframe =>
        refine List.pairwise_cons.mpr ⟨fun outer houter brace outer' heq heq' => ?_, htail⟩
        obtain ⟨brace', rfl, htoken, -⟩ := hchange frame frame' hframe brace heq
        rw [htoken]
        exact hhead outer houter brace' outer' rfl heq'
      case h_2 =>
        refine List.pairwise_cons.mpr ⟨fun outer houter brace outer' heq heq' => ?_, ih htail⟩
        subst heq'
        obtain ⟨outer'', houter'', htoken, -⟩ := hchange.exists_of_mem houter
        rw [htoken]
        exact hhead _ houter'' brace outer'' heq rfl
  · obtain ⟨brace', hbrace', htoken, -⟩ := hchange.exists_of_mem hbrace
    rw [htoken]
    exact h.kinds brace' hbrace'

/-! ### Links -/

theorem linked_bos : Linked [.bos] := by
  refine ⟨rfl, fun i token htoken => absurd htoken (by simp), fun token htoken htrue => ?_⟩
  rw [List.mem_singleton.mp htoken] at htrue
  exact absurd htrue (by simp [Token.bos, Token.ofSource])

theorem Linked.ne_nil (h : Linked tokens) : tokens ≠ [] := by
  rintro rfl
  exact absurd h.head (by simp [kindAt])

theorem Linked.append {token : Token} (h : Linked tokens)
    (hprevious : token.previous = some (tokens.length - 1)) (hinner : token.IsInner) :
    Linked (tokens ++ [token]) := by
  refine ⟨Settled.kindAt_append h.head _, fun i found hfound => ?_, fun found hfound htrue => ?_⟩
  · obtain hfound | ⟨hi, rfl⟩ := getElem?_concat_iff.mp hfound
    · exact h.previous i found hfound
    · rw [hprevious, ← hi]
      exact ⟨rfl, hinner.1⟩
  · obtain hfound | hfound := List.mem_append.mp hfound
    · exact h.run found hfound htrue
    · rw [List.mem_singleton.mp hfound, hinner.2] at htrue
      exact absurd htrue (by simp)

theorem Linked.modify {place : Nat} {change : Token → Token} (h : Linked tokens)
    (hprevious : ∀ token, (change token).previous = token.previous)
    (hkind : ∀ token, tokens[place]? = some token → (change token).kind = token.kind ∨
      (token.kind ≠ .bos ∧ (change token).kind ≠ .bos))
    (hrun : ∀ token, tokens[place]? = some token → (change token).isStarRun = true →
      (change token).kind = .star ∨ (token.isStarRun = true ∧ (change token).kind = token.kind)) :
    Linked (tokens.modify place change) := by
  refine ⟨?_, fun i token htoken => ?_, fun token htoken htrue => ?_⟩
  · obtain ⟨first, hfirst, hbos⟩ := Option.map_eq_some_iff.mp h.head
    by_cases hplace : place = 0
    · subst hplace
      refine Option.map_eq_some_iff.mpr ⟨change first, ?_, ?_⟩
      · exact getElem?_modify_iff.mpr (.inl ⟨rfl, first, hfirst, rfl⟩)
      · exact ((hkind first hfirst).resolve_right fun hne => hne.1 hbos).trans hbos
    · exact Option.map_eq_some_iff.mpr
        ⟨first, getElem?_modify_iff.mpr (.inr ⟨fun h => hplace h.symm, hfirst⟩), hbos⟩
  · obtain ⟨hi, found, hfound, rfl⟩ | ⟨-, hfound⟩ := getElem?_modify_iff.mp htoken
    · obtain ⟨hlink, hne⟩ := h.previous i found hfound
      refine ⟨(hprevious found).trans hlink, ?_⟩
      obtain heq | hne' := hkind found (hi ▸ hfound)
      · rwa [heq]
      · exact hne'.2
    · exact h.previous i token hfound
  · obtain ⟨i, hi⟩ := List.mem_iff_getElem?.mp htoken
    obtain ⟨rfl, found, hfound, rfl⟩ | ⟨-, hfound⟩ := getElem?_modify_iff.mp hi
    · obtain hstar | ⟨hfoundRun, hsame⟩ := hrun found hfound htrue
      · exact hstar
      · exact hsame.trans (h.run found (List.mem_of_getElem? hfound) hfoundRun)
    · exact h.run token (List.mem_of_getElem? hfound) htrue

/-- A change of what a token stands for, but not of what it is. -/
theorem Linked.modify_of_same {place : Nat} {change : Token → Token} (h : Linked tokens)
    (hsame : ∀ token, (change token).previous = token.previous ∧
      (change token).kind = token.kind ∧ (change token).isStarRun = token.isStarRun) :
    Linked (tokens.modify place change) :=
  h.modify (fun token => (hsame token).1) (fun token _ => .inl (hsame token).2.1)
    fun token _ htrue => .inr ⟨(hsame token).2.2.symm.trans htrue, (hsame token).2.1⟩

theorem Linked.take (h : Linked tokens) {place : Nat} (hplace : kindAt tokens place = some .brace) :
    Linked (tokens.take place) := by
  have hpos : place ≠ 0 := by
    rintro rfl
    rw [h.head] at hplace
    exact absurd hplace (by simp)
  refine ⟨?_, fun i token htoken => ?_, fun token htoken =>
    h.run token (List.mem_of_mem_take htoken)⟩
  · rw [kindAt, List.getElem?_take, if_pos (Nat.pos_of_ne_zero hpos)]
    exact h.head
  · rw [List.getElem?_take] at htoken
    split at htoken
    · exact h.previous i token htoken
    · exact absurd htoken (by simp)

end

/-! ### Tokens and source -/

namespace Tokenizer

variable {ctx : Context} {t : Tokenizer} {token : Token} {frames : List Frame}

/-- Nothing has been read but what is no part of the pattern proper. -/
structure IsFresh (t : Tokenizer) : Prop where
  tokens : t.tokens = [.bos]
  frames : t.frames = []
  rebuild : t.rebuild = false

/-- What holds of the tokens and the source between two characters. -/
structure Joined (t : Tokenizer) : Prop where
  linked : Linked t.tokens
  synced : t.Synced
  braced : Braced t.tokens t.frames
  sized : t.rebuild = false → Sized t.tokens t.frames
  fresh : t.output = [] → t.IsFresh

theorem Joined.ne_nil (h : t.Joined) : t.tokens ≠ [] := h.linked.ne_nil

/-- A run of stars that is last is a star. -/
theorem Joined.kind_last_of_run (h : t.Joined) (hrun : t.last.isStarRun = true) :
    t.last.kind = .star :=
  h.linked.run _ (List.mem_of_getElem? (getElem?_lastPlace h.ne_nil)) hrun

/-- Only the tokens, the source and the open groups matter. -/
theorem Joined.congr {t' : Tokenizer} (h : t.Joined) (htokens : t'.tokens = t.tokens)
    (houtput : t'.output = t.output) (hframes : t'.frames = t.frames)
    (hrebuild : t'.rebuild = t.rebuild) : t'.Joined where
  linked := htokens ▸ h.linked
  synced hfalse := by
    rw [houtput, joinSources, htokens]
    exact h.synced (hrebuild ▸ hfalse)
  braced := by
    rw [htokens, hframes]
    exact h.braced
  sized hfalse := by
    rw [htokens, hframes]
    exact h.sized (hrebuild ▸ hfalse)
  fresh hnil :=
    have ⟨htokens', hframes', hrebuild'⟩ := h.fresh (houtput ▸ hnil)
    ⟨htokens.trans htokens', hframes.trans hframes', hrebuild.trans hrebuild'⟩

theorem Joined.skip (h : t.Joined) (n : Nat) : (t.skip n).Joined := h.congr rfl rfl rfl rfl

theorem Joined.output_ne_nil_of_frames (h : t.Joined) (hframes : t.frames ≠ []) : t.output ≠ [] :=
  fun hnil => hframes (h.fresh hnil).frames

theorem Joined.output_ne_nil_of_kind (h : t.Joined) (hkind : t.last.kind ≠ .bos) :
    t.output ≠ [] := fun hnil => hkind (by
  rw [last, (h.fresh hnil).tokens]
  rfl)

theorem Joined.modifyFrame {change : Frame → Option Frame} (h : t.Joined)
    (hchange : KeepsPlaces change) :
    ({ t with frames := modifyFrame change t.frames } : Tokenizer).Joined where
  linked := h.linked
  synced := h.synced
  braced := h.braced.modifyFrame hchange
  sized hfalse := (h.sized hfalse).modifyFrame hchange
  fresh hnil := by
    obtain ⟨htokens, hframes, hrebuild⟩ := h.fresh hnil
    refine ⟨htokens, ?_, hrebuild⟩
    show Tokenizer.modifyFrame change t.frames = []
    rw [hframes]
    rfl

/-- The source is put together anew, whatever the tokens are now. -/
theorem joined_of_rebuild (hlinked : Linked t.tokens) (hbraced : Braced t.tokens t.frames)
    (hrebuild : t.rebuild = true) (houtput : t.output ≠ []) : t.Joined :=
  ⟨hlinked, fun hfalse => absurd hfalse (by simp [hrebuild]), hbraced,
    fun hfalse => absurd hfalse (by simp [hrebuild]), fun hnil => absurd hnil houtput⟩

theorem exists_of_map_eq_ok {α β ε : Type} {x : Except ε α} {f : α → β} {b : β}
    (h : x.map f = .ok b) : ∃ a, x = .ok a ∧ f a = b := by
  cases x with
  | error => exact absurd h (by simp [Except.map])
  | ok a => exact ⟨a, rfl, Except.ok.inj h⟩

/-- The state once an extended group is closed by the given source. -/
def extglobClosed (ctx : Context) (t : Tokenizer) (frame : ExtglobFrame) (closing : List Char) :
    Tokenizer :=
  let t := { t with
    negatedExtglob := t.negatedExtglob ||
      (frame.kind = ExtglobKind.negate && frame.before = TokenKind.bos) }
  let t := (t.guarded ctx frame).push ctx { Token.ofSource .paren [')']
    (if ctx.options.capture then closing ++ [')'] else closing) with isExtglob := true }
  if frame.before.beginsSegment && frame.kind.isOptional then
    { t with optionalGroup := some t.lastPlace }
  else t

/-! #### Changing the last token -/

section
variable {change : Token → Token} {t' : Tokenizer}

theorem keepsBraces_modifyLast (hne : t.tokens ≠ [])
    (hkind : t.last.kind = .brace → (change t.last).kind = .brace) :
    KeepsBraces t.tokens (t.tokens.modify t.lastPlace change) := by
  obtain ⟨before, htokens⟩ := exists_tokens_eq hne
  rw [tokens_modifyLast htokens]
  conv => arg 1; rw [htokens]
  exact keepsBraces_of_last (fun h => congrArg some (hkind (Option.some.inj h)))
    fun i h => absurd h (by simp [kindAt])

theorem Joined.linked_modifyLast (h : t.Joined)
    (hprevious : ∀ token, (change token).previous = token.previous)
    (hkind : (change t.last).kind = t.last.kind ∨
      (t.last.kind ≠ .bos ∧ (change t.last).kind ≠ .bos))
    (hrun : (change t.last).isStarRun = true → (change t.last).kind = .star ∨
      (t.last.isStarRun = true ∧ (change t.last).kind = t.last.kind)) :
    Linked (t.tokens.modify t.lastPlace change) := by
  have hlast {token : Token} (htoken : t.tokens[t.lastPlace]? = some token) : t.last = token :=
    Option.some.inj ((getElem?_lastPlace h.ne_nil).symm.trans htoken)
  refine h.linked.modify hprevious (fun token htoken => ?_) fun token htoken => ?_
  · exact hlast htoken ▸ hkind
  · exact hlast htoken ▸ hrun

/-- The last token is changed, and the source with it, unless that is put together anew. -/
theorem Joined.modifyLast (h : t.Joined) (change : Token → Token)
    (htokens : t'.tokens = t.tokens.modify t.lastPlace change) (hframes : t'.frames = t.frames)
    (hprevious : ∀ token, (change token).previous = token.previous)
    (hkind : (change t.last).kind = t.last.kind ∨
      (t.last.kind ≠ .bos ∧ t.last.kind ≠ .brace ∧ (change t.last).kind ≠ .bos))
    (hrun : (change t.last).isStarRun = true → (change t.last).kind = .star ∨
      (t.last.isStarRun = true ∧ (change t.last).kind = t.last.kind))
    (hrebuild : t'.rebuild = false → t.rebuild = false)
    (houtput : t'.rebuild = false → ∀ before, t.output = before ++ t.last.source →
      t'.output = before ++ (change t.last).source)
    (hne : t'.output ≠ []) : t'.Joined := by
  obtain ⟨before, hbefore⟩ := exists_tokens_eq h.ne_nil
  have htokens' : t'.tokens = before ++ [change t.last] := htokens.trans (tokens_modifyLast hbefore)
  have hkeeps : KeepsBraces t.tokens t'.tokens := by
    rw [htokens]
    refine keepsBraces_modifyLast h.ne_nil fun hbrace => ?_
    obtain heq | ⟨-, hne, -⟩ := hkind
    · exact heq.trans hbrace
    · exact absurd hbrace hne
  refine ⟨?_, fun hfalse => ?_, ?_, fun hfalse => ?_, fun hnil => absurd hnil hne⟩
  · rw [htokens]
    exact h.linked_modifyLast hprevious (hkind.imp_right fun hne => ⟨hne.1, hne.2.2⟩) hrun
  · have hsynced := h.synced (hrebuild hfalse)
    rw [joinSources_of_tokens_eq hbefore] at hsynced
    rw [joinSources_of_tokens_eq htokens']
    exact houtput hfalse _ hsynced
  · rw [hframes]
    exact h.braced.keep hkeeps
  · rw [hframes]
    exact (h.sized (hrebuild hfalse)).keep h.braced hkeeps

end

/-! #### Adding a token -/

theorem Joined.demoteGlobstar (hstar : ctx.star ≠ []) (h : t.Joined)
    (hlast : t.last.kind = .globstar) : (t.demoteGlobstar ctx).Joined := by
  refine h.modifyLast _ rfl rfl (fun _ => rfl) (.inr (by simp [hlast])) (fun _ => .inl rfl) id
    (fun _ before houtput => ?_) (List.append_ne_nil_of_right_ne_nil _ hstar)
  show Text.dropLastBytes (Text.byteSize t.last.source) t.output ++ ctx.star = _
  rw [houtput, Text.dropLastBytes_append]
  rfl

/-- Adding a token behind a globstar may turn that into a star first; either way the tokens and
the source are joined, whatever frames are put in place of those that are open. -/
theorem Joined.exists_prepared (hstar : ctx.star ≠ []) (h : t.Joined) (frames : List Frame)
    (token : Token) : ∃ s : Tokenizer, s.Joined ∧ s.rebuild = t.rebuild ∧
      (t.output ≠ [] → s.output ≠ []) ∧ KeepsBraces t.tokens s.tokens ∧
      ({ t with frames } : Tokenizer).prepared ctx token = { s with frames } := by
  obtain heq | ⟨hlast, -, heq⟩ := prepared_cases ctx { t with frames } token
  · exact ⟨t, h, rfl, id, .refl _, heq⟩
  · have hlast' : t.last.kind = .globstar := hlast
    exact ⟨t.demoteGlobstar ctx, h.demoteGlobstar hstar hlast', rfl,
      fun _ => List.append_ne_nil_of_right_ne_nil _ hstar,
      keepsBraces_modifyLast h.ne_nil (by simp [hlast']), heq⟩

/-- Pattern text is noted in the groups that are open. -/
theorem exists_noted (t : Tokenizer) (token : Token) :
    ∃ change, KeepsPlaces change ∧ t.noted token = modifyFrame change t.frames := by
  unfold noted
  split
  · exact ⟨fun _ => none, fun _ _ hchange => absurd hchange (by simp),
      (modifyFrame_of_forall_eq_none fun _ _ => rfl).symm⟩
  · refine ⟨_, fun frame frame' hchange brace heq => ?_, rfl⟩
    cases frame with
    | paren | brace => exact absurd hchange (by simp)
    | extglob frame =>
      cases hchange
      cases heq

theorem noted_ne_nil_iff : t.noted token ≠ [] ↔ t.frames ≠ [] := by
  obtain ⟨change, -, heq⟩ := t.exists_noted token
  rw [heq]
  cases t.frames with
  | nil => rfl
  | cons frame frames =>
    rw [modifyFrame]
    split <;> simp

/-- The tokens once one more is added. -/
theorem Joined.pushed (h : t.Joined) (hinner : token.IsInner) :
    Linked (t.pushed token) ∧ KeepsBraces t.tokens (t.pushed token) ∧
      (t.pushed token).flatMap Token.source = t.joinSources ++ token.source := by
  obtain ⟨before, htokens⟩ := exists_tokens_eq h.ne_nil
  have hpushed := pushed_eq htokens token
  refine ⟨?_, ?_, ?_⟩
  · unfold Tokenizer.pushed
    split
    · refine h.linked_modifyLast ?_ (.inl rfl) fun htrue => .inr ⟨htrue, rfl⟩
      exact fun _ => rfl
    · exact h.linked.append rfl hinner
  · unfold Tokenizer.pushed
    split
    case isTrue hmerge => exact keepsBraces_modifyLast h.ne_nil (by simp_all)
    case isFalse => exact keepsBraces_append _ _
  · rw [joinSources_of_tokens_eq htokens, hpushed]
    split <;> simp [Token.source]

theorem keepsBraces_push (hstar : ctx.star ≠ []) (h : t.Joined) (frames : List Frame)
    (hinner : token.IsInner) :
    KeepsBraces t.tokens (({ t with frames } : Tokenizer).push ctx token).tokens := by
  obtain ⟨s, hs, -, -, hkeeps, heq⟩ := h.exists_prepared hstar frames token
  rw [push_eq_prepared, heq]
  exact hkeeps.trans (hs.pushed hinner).2.1

/-- A token is added along with new frames, given what becomes of the brace groups. -/
theorem Joined.push_withFrames (hstar : ctx.star ≠ []) (h : t.Joined) (hinner : token.IsInner)
    (hbraced : Braced (({ t with frames } : Tokenizer).push ctx token).tokens frames)
    (hsized : t.rebuild = false →
      Sized (({ t with frames } : Tokenizer).push ctx token).tokens frames)
    (hne : token.source ≠ [] ∨ t.output ≠ []) :
    (({ t with frames } : Tokenizer).push ctx token).Joined := by
  obtain ⟨s, hs, hrebuild, hkeeps, -, heq⟩ := h.exists_prepared hstar frames token
  have hpush := push_eq_prepared ctx { t with frames } token
  rw [heq] at hpush
  obtain ⟨hlinked, -, hjoin⟩ := hs.pushed hinner
  obtain ⟨change, hchange, hnoted⟩ := ({ t with frames } : Tokenizer).exists_noted token
  rw [hpush] at hbraced hsized ⊢
  refine ⟨hlinked, fun hfalse => ?_, ?_, fun hfalse => ?_, fun hnil => absurd hnil ?_⟩
  · exact (congrArg (· ++ token.source) (hs.synced hfalse)).trans hjoin.symm
  · show Braced _ (({ t with frames } : Tokenizer).noted token)
    rw [hnoted]
    exact hbraced.modifyFrame hchange
  · show Sized _ (({ t with frames } : Tokenizer).noted token)
    have hfalse' : s.rebuild = false := hfalse
    rw [hnoted]
    exact (hsized (hrebuild ▸ hfalse')).modifyFrame hchange
  · show s.output ++ token.source ≠ []
    obtain hsource | houtput := hne
    · exact List.append_ne_nil_of_right_ne_nil _ hsource
    · exact List.append_ne_nil_of_left_ne_nil (hkeeps houtput) _

/-- A token is added, and perhaps frames are taken away that are no longer open. -/
theorem Joined.push_sublist (hstar : ctx.star ≠ []) (h : t.Joined) (hinner : token.IsInner)
    (hne : token.source ≠ [] ∨ t.output ≠ []) (hsub : frames.Sublist t.frames) :
    (({ t with frames } : Tokenizer).push ctx token).Joined := by
  have hkeeps := keepsBraces_push hstar h frames hinner
  exact h.push_withFrames hstar hinner ((h.braced.keep hkeeps).sublist hsub)
    (fun hfalse => ((h.sized hfalse).keep h.braced hkeeps).sublist hsub) hne

/-- A token is added that opens a group, but no brace group. -/
theorem Joined.push_opening (hstar : ctx.star ≠ []) (h : t.Joined) (hinner : token.IsInner)
    (hne : token.source ≠ []) {frame : Frame} (hframe : frame.isBrace = false) :
    (({ t with frames := frame :: t.frames } : Tokenizer).push ctx token).Joined := by
  have hkeeps := keepsBraces_push hstar h (frame :: t.frames) hinner
  exact h.push_withFrames hstar hinner ((h.braced.keep hkeeps).cons hframe)
    (fun hfalse => ((h.sized hfalse).keep h.braced hkeeps).cons hframe) (.inl hne)

theorem Joined.push (hstar : ctx.star ≠ []) (h : t.Joined) (hinner : token.IsInner)
    (hne : token.source ≠ [] ∨ t.output ≠ []) : (t.push ctx token).Joined :=
  h.push_sublist hstar hinner hne (List.Sublist.refl _)

end Tokenizer

end PathGlob.Pattern
