import PathGlob.Proofs.Pattern.Levels
import PathGlob.Proofs.Pattern.Ungrouped

/-!
# `PathGlob.Proofs.Pattern.Layout`: what open groups know about the tokens

An open group refers to tokens by their places: to the one that opened it, to an operator, to
its commas. `Layout` says that these are what the group takes them for, and that the tokens are
balanced with the opening ones held back. `Settled` says what a token and its neighbours have to
be for the next token to be read.

Both are kept by the ways in which tokens change: one is added at the end, one is changed into
one like it, a group is closed or becomes text, the tokens of a group are dropped, or a separator
and a star become the two ends of a group.
-/

set_option autoImplicit false

namespace PathGlob.Pattern

open Regex

/-! ### Open groups -/

/-- A token of this kind moves nothing, wherever it stands. -/
def TokenKind.isPlain : TokenKind → Bool
  | .slash | .globstar | .paren | .brace => false
  | _ => true

/-- Open groups refer to tokens of this kind. -/
def TokenKind.isReferred : TokenKind → Bool
  | .paren | .brace | .comma | .extglob _ => true
  | _ => false

/-- The number of parentheses that the source of an extended group opens. -/
def ExtglobKind.width (capture : Bool) (kind : ExtglobKind) : Nat :=
  (if capture then 1 else 0) + (if kind = .negate then 3 else 1)

theorem ExtglobKind.moves_opening (capture : Bool) (kind : ExtglobKind) :
    Moves 0 (kind.width capture) ((if capture then ['('] else []) ++ kind.opening) := by
  cases capture <;> cases kind <;> decide

@[simp] theorem Token.kind_ofSource (kind : TokenKind) (value source : List Char) :
    (Token.ofSource kind value source).kind = kind := rfl

@[simp] theorem Token.kind_text (value source : List Char) :
    (Token.text value source).kind = .text := rfl

@[simp] theorem Token.kind_bos : Token.bos.kind = .bos := rfl

/-- The kind of the token at a place. -/
def kindAt (tokens : List Token) (place : Nat) : Option TokenKind := tokens[place]?.map Token.kind

/-- The token at a place is of the given kind and opens so many parentheses. -/
def Opens (tokens : List Token) (place : Nat) (kind : TokenKind) (width : Nat) : Prop :=
  ∃ token, tokens[place]? = some token ∧ token.kind = kind ∧ Moves 0 width token.source

namespace Frame

/-- The place of the token that opened the group. -/
def place : Frame → Nat
  | .paren token => token
  | .extglob frame => frame.operator + 1
  | .brace frame => frame.token

/-- The number of parentheses that opened with the group. -/
def width (capture : Bool) : Frame → Nat
  | .extglob frame => frame.kind.width capture
  | _ => 1

/-- What the frame says about the tokens. As long as the source is edited along with the
tokens, a brace group knows how much of it stands before the group. -/
def Fits (capture rebuild : Bool) (tokens : List Token) : Frame → Prop
  | .paren token => Opens tokens token .paren 1
  | .extglob frame => kindAt tokens frame.operator = some (.extglob frame.kind) ∧
      Opens tokens (frame.operator + 1) .paren (frame.kind.width capture)
  | .brace frame => Opens tokens frame.token .brace 1 ∧
      (∀ place ∈ frame.commas, kindAt tokens place = some .comma) ∧
      (rebuild = false → frame.outputSize =
        Text.byteSize ((tokens.take frame.token).flatMap Token.source))

section
variable {capture rebuild rebuild' : Bool} {tokens tokens' : List Token} {frame : Frame}

theorem Fits.exists_opens (h : frame.Fits capture rebuild tokens) :
    ∃ kind, (kind = .paren ∨ kind = .brace) ∧
      Opens tokens frame.place kind (frame.width capture) := by
  cases frame with
  | paren token => exact ⟨.paren, .inl rfl, h⟩
  | extglob frame => exact ⟨.paren, .inl rfl, h.2⟩
  | brace frame => exact ⟨.brace, .inr rfl, h.1⟩

theorem Fits.place_lt (h : frame.Fits capture rebuild tokens) : frame.place < tokens.length := by
  obtain ⟨_, _, token, htoken, _⟩ := h.exists_opens
  exact lt_of_getElem?_eq htoken

/-- A brace group may note one more comma. -/
theorem Fits.addComma {frame : BraceFrame} (h : (Frame.brace frame).Fits capture rebuild tokens)
    {place : Nat} (hplace : kindAt tokens place = some .comma) :
    (Frame.brace { frame with comma := true, commas := frame.commas ++ [place] }).Fits capture
      rebuild tokens := by
  obtain ⟨hopens, hcommas, hsize⟩ := h
  refine ⟨hopens, fun other hother => ?_, hsize⟩
  obtain hother | hother := List.mem_append.mp hother
  · exact hcommas other hother
  · rw [List.mem_singleton.mp hother]
    exact hplace

/-- The frame still fits if the tokens it refers to keep their kinds, the opening token keeps
what it opens, and the source before a brace group stays the same. -/
theorem Fits.congr (h : frame.Fits capture rebuild tokens)
    (hkind : ∀ place kind, kindAt tokens place = some kind → kind.isReferred = true →
      kind.isPlain = true → kindAt tokens' place = some kind)
    (hopens : ∀ kind width, kind.isReferred = true → Opens tokens frame.place kind width →
      Opens tokens' frame.place kind width)
    (hsize : rebuild' = false → rebuild = false ∧
      (frame.isBrace = true → (tokens'.take frame.place).flatMap Token.source =
        (tokens.take frame.place).flatMap Token.source)) :
    frame.Fits capture rebuild' tokens' := by
  cases frame with
  | paren token => exact hopens _ _ rfl h
  | extglob frame => exact ⟨hkind _ _ h.1 rfl rfl, hopens _ _ rfl h.2⟩
  | brace frame =>
    obtain ⟨hopener, hcommas, houtput⟩ := h
    refine ⟨hopens _ _ rfl hopener, fun place hplace => hkind _ _ (hcommas place hplace) rfl rfl, ?_⟩
    intro hrebuild
    rw [houtput (hsize hrebuild).1]
    exact congrArg Text.byteSize ((hsize hrebuild).2 rfl).symm

end

end Frame

/-- The first frame that passes the test is taken out of its place. -/
theorem Tokenizer.takeFrame?_eq_some {test : Frame → Bool} {frames others : List Frame}
    {found : Frame} (h : takeFrame? test frames = some (found, others)) :
    test found = true ∧ ∃ above below, frames = above ++ found :: below ∧
      others = above ++ below ∧ ∀ frame ∈ above, test frame = false := by
  induction frames generalizing others with
  | nil => exact absurd h (by simp [takeFrame?])
  | cons frame frames ih =>
    rw [takeFrame?] at h
    split at h
    case isTrue htest =>
      cases h
      exact ⟨htest, [], _, rfl, rfl, by simp⟩
    case isFalse htest =>
      rw [Option.map_eq_some_iff] at h
      obtain ⟨⟨found, others⟩, hfound, heq⟩ := h
      cases heq
      obtain ⟨hpass, above, below, rfl, rfl, habove⟩ := ih hfound
      refine ⟨hpass, frame :: above, below, rfl, rfl, ?_⟩
      rw [List.forall_mem_cons]
      exact ⟨by simpa using htest, habove⟩

/-- What a change keeps of a frame holds of the frames once the first it applies to is changed. -/
theorem Tokenizer.forall_mem_modifyFrame {P : Frame → Prop} {change : Frame → Option Frame}
    (hchange : ∀ frame frame', change frame = some frame' → P frame → P frame')
    {frames : List Frame} (h : ∀ frame ∈ frames, P frame) :
    ∀ frame ∈ modifyFrame change frames, P frame := by
  induction frames with
  | nil => exact h
  | cons frame frames ih =>
    rw [List.forall_mem_cons] at h
    rw [modifyFrame]
    split
    case h_1 frame' hframe' =>
      exact List.forall_mem_cons.mpr ⟨hchange _ _ hframe' h.1, h.2⟩
    case h_2 => exact List.forall_mem_cons.mpr ⟨h.1, ih h.2⟩

/-- The tokens, and what the open groups know about them, fit together. -/
structure Layout (capture rebuild : Bool) (frames : List Frame) (tokens : List Token) : Prop where
  balanced : Balanced (frames.map Frame.place) tokens
  /-- Inner groups were opened later. -/
  ordered : frames.Pairwise fun inner outer => outer.place < inner.place
  fits : ∀ frame ∈ frames, frame.Fits capture rebuild tokens
  plain : ∀ token ∈ tokens, token.kind.isPlain = true → Neutral token.source

/-- What may become of a token: it moves what it moved, and stays of its kind if open groups
refer to it. -/
structure Token.Alike (token token' : Token) : Prop where
  moves : ∀ a b, Moves a b token.source → Moves a b token'.source
  referred : token.kind.isReferred = true → token'.kind = token.kind
  plain : token'.kind.isPlain = true → token.kind.isPlain = true ∨ Neutral token'.source

theorem Token.Alike.of_neutral {token token' : Token} (h : Neutral token.source)
    (h' : Neutral token'.source) (hkind : token.kind.isReferred = true → token'.kind = token.kind) :
    token.Alike token' where
  moves _ _ hmoves := h'.moves_iff.mpr (h.moves_iff.mp hmoves)
  referred := hkind
  plain _ := .inr h'

/-- A neutral source is put behind the token's own. -/
theorem Token.Alike.guard {token token' : Token} {guard : List Char} (h : Neutral guard)
    (hsource : token'.source = token.source ++ guard) (hkind : token'.kind = token.kind) :
    token.Alike token' where
  moves _ _ hmoves := hsource ▸ hmoves.append_neutral h
  referred _ := hkind
  plain hplain := .inl (hkind ▸ hplain)

namespace Layout

variable {capture rebuild : Bool} {frames others : List Frame} {tokens : List Token}
  {token : Token}

theorem singleton (capture rebuild : Bool) (h : Neutral token.source) :
    Layout capture rebuild [] [token] where
  balanced := .singleton h
  ordered := .nil
  fits _ hframe := absurd hframe List.not_mem_nil
  plain found hfound _ := by
    rw [List.mem_singleton] at hfound
    rwa [hfound]

theorem fits_append {frame : Frame} (h : frame.Fits capture rebuild tokens) (token : Token) :
    frame.Fits capture rebuild (tokens ++ [token]) := by
  have hkeep {i : Nat} {found : Token} (hfound : tokens[i]? = some found) :
      (tokens ++ [token])[i]? = some found := getElem?_concat_iff.mpr (.inl hfound)
  refine h.congr ?_ ?_ fun hrebuild => ⟨hrebuild, fun _ => ?_⟩
  · intro place kind hkind _ _
    obtain ⟨found, hfound, rfl⟩ := Option.map_eq_some_iff.mp hkind
    rw [kindAt, hkeep hfound]
    rfl
  · exact fun kind width _ ⟨found, hfound, hopens⟩ => ⟨found, hkeep hfound, hopens⟩
  · rw [List.take_append_of_le_length (Nat.le_of_lt h.place_lt)]

theorem plain_append (h : Layout capture rebuild frames tokens)
    (htoken : token.kind.isPlain = true → Neutral token.source) :
    ∀ found ∈ tokens ++ [token], found.kind.isPlain = true → Neutral found.source := by
  intro found hfound
  rw [List.mem_append, List.mem_singleton] at hfound
  obtain hfound | rfl := hfound
  · exact h.plain found hfound
  · exact htoken

/-- A token that moves nothing. -/
theorem append (h : Layout capture rebuild frames tokens) (htoken : Neutral token.source) :
    Layout capture rebuild frames (tokens ++ [token]) where
  balanced := h.balanced.append (fun _ _ => Iff.rfl) (.inr htoken)
  ordered := h.ordered
  fits frame hframe := fits_append (h.fits frame hframe) token
  plain := h.plain_append fun _ => htoken

/-- A token that opens a group. -/
theorem openGroup (h : Layout capture rebuild frames tokens) {frame : Frame}
    (hplace : frame.place = tokens.length)
    (hfits : frame.Fits capture rebuild (tokens ++ [token]))
    (hkind : token.kind.isPlain = false) :
    Layout capture rebuild (frame :: frames) (tokens ++ [token]) where
  balanced := by
    refine h.balanced.append (fun i hi => ?_) (.inl ?_)
    · rw [List.map_cons, List.mem_cons, hplace]
      exact or_iff_right (Nat.ne_of_lt hi)
    · rw [List.map_cons, hplace]
      exact List.mem_cons_self
  ordered := by
    refine List.pairwise_cons.mpr ⟨fun outer houter => ?_, h.ordered⟩
    rw [hplace]
    exact (h.fits outer houter).place_lt
  fits := by
    refine List.forall_mem_cons.mpr ⟨hfits, fun outer houter => ?_⟩
    exact fits_append (h.fits outer houter) token
  plain := h.plain_append fun hplain => absurd (hkind.symm.trans hplain) (by simp)

/-! ### Taking a frame off the stack -/

section
variable {test : Frame → Bool} {found : Frame}

theorem fits_taken (h : Layout capture rebuild frames tokens)
    (htake : Tokenizer.takeFrame? test frames = some (found, others)) :
    found.Fits capture rebuild tokens := by
  obtain ⟨-, above, below, rfl, rfl, -⟩ := Tokenizer.takeFrame?_eq_some htake
  exact h.fits found (by simp)

theorem fits_others (h : Layout capture rebuild frames tokens)
    (htake : Tokenizer.takeFrame? test frames = some (found, others)) :
    ∀ frame ∈ others, frame.Fits capture rebuild tokens := by
  obtain ⟨-, above, below, rfl, rfl, -⟩ := Tokenizer.takeFrame?_eq_some htake
  intro frame hframe
  refine h.fits frame ?_
  rw [List.mem_append] at hframe
  rw [List.mem_append, List.mem_cons]
  exact hframe.imp_right .inr

theorem ordered_others (h : Layout capture rebuild frames tokens)
    (htake : Tokenizer.takeFrame? test frames = some (found, others)) :
    others.Pairwise fun inner outer => outer.place < inner.place := by
  obtain ⟨-, above, below, rfl, rfl, -⟩ := Tokenizer.takeFrame?_eq_some htake
  exact h.ordered.sublist (List.Sublist.append_left (List.sublist_cons_self _ _) _)

theorem balanced_taken (h : Layout capture rebuild frames tokens)
    (htake : Tokenizer.takeFrame? test frames = some (found, others)) :
    Balanced (found.place :: others.map Frame.place) tokens := by
  obtain ⟨-, above, below, rfl, rfl, -⟩ := Tokenizer.takeFrame?_eq_some htake
  refine h.balanced.congr fun i => ?_
  rw [List.map_append, List.map_append, List.map_cons, List.mem_append, List.mem_cons,
    List.mem_cons, List.mem_append]
  exact or_left_comm

theorem place_ne_others (h : Layout capture rebuild frames tokens)
    (htake : Tokenizer.takeFrame? test frames = some (found, others)) :
    ∀ frame ∈ others, frame.place ≠ found.place := by
  obtain ⟨-, above, below, rfl, rfl, -⟩ := Tokenizer.takeFrame?_eq_some htake
  obtain ⟨-, hbelow, habove⟩ := List.pairwise_append.mp h.ordered
  rw [List.pairwise_cons] at hbelow
  intro frame hframe
  obtain hframe | hframe := List.mem_append.mp hframe
  · exact Nat.ne_of_gt (habove frame hframe found List.mem_cons_self)
  · exact Nat.ne_of_lt (hbelow.1 frame hframe)

/-- The other frames that pass the test belong to groups further out. -/
theorem place_lt_of_test (h : Layout capture rebuild frames tokens)
    (htake : Tokenizer.takeFrame? test frames = some (found, others)) :
    ∀ frame ∈ others, test frame = true → frame.place < found.place := by
  obtain ⟨-, above, below, rfl, rfl, hfail⟩ := Tokenizer.takeFrame?_eq_some htake
  obtain ⟨-, hbelow, -⟩ := List.pairwise_append.mp h.ordered
  rw [List.pairwise_cons] at hbelow
  intro frame hframe htest
  obtain hframe | hframe := List.mem_append.mp hframe
  · rw [hfail frame hframe] at htest
    exact absurd htest (by simp)
  · exact hbelow.1 frame hframe

/-- A token that closes a group. -/
theorem close (h : Layout capture rebuild frames tokens)
    (htake : Tokenizer.takeFrame? test frames = some (found, others))
    (hcloses : Moves (found.width capture) 0 token.source) (hkind : token.kind.isPlain = false) :
    Layout capture rebuild others (tokens ++ [token]) where
  balanced := by
    obtain ⟨_, _, opener, hopener, _, hopens⟩ := (h.fits_taken htake).exists_opens
    refine (h.balanced_taken htake).close ?_ ?_ hopener hopens hcloses
    · intro hplace
      obtain ⟨frame, hframe, heq⟩ := List.mem_map.mp hplace
      exact h.place_ne_others htake frame hframe heq
    · intro i hi
      obtain ⟨frame, hframe, rfl⟩ := List.mem_map.mp hi
      exact (h.fits_others htake frame hframe).place_lt
  ordered := h.ordered_others htake
  fits frame hframe := fits_append (h.fits_others htake frame hframe) token
  plain := h.plain_append fun hplain => absurd (hkind.symm.trans hplain) (by simp)

end

/-! ### Changing tokens -/

section
variable {place : Nat} {change : Token → Token}

/-- A change of one token that keeps the kind of a token that open groups refer to. -/
theorem kindAt_modify
    (hchange : ∀ token, tokens[place]? = some token → token.kind.isReferred = true →
      (change token).kind = token.kind) (i : Nat) (kind : TokenKind)
    (hkind : kindAt tokens i = some kind) (hreferred : kind.isReferred = true) :
    kindAt (tokens.modify place change) i = some kind := by
  obtain ⟨token, htoken, rfl⟩ := Option.map_eq_some_iff.mp hkind
  refine Option.map_eq_some_iff.mpr ?_
  by_cases heq : i = place
  · refine ⟨change token, getElem?_modify_iff.mpr (.inl ⟨heq, token, htoken, rfl⟩), ?_⟩
    exact hchange token (heq ▸ htoken) hreferred
  · exact ⟨token, getElem?_modify_iff.mpr (.inr ⟨heq, htoken⟩), rfl⟩

theorem take_modify {n : Nat} (h : n ≤ place) :
    (tokens.modify place change).take n = tokens.take n := by
  refine List.ext_getElem? fun i => ?_
  rw [List.getElem?_take, List.getElem?_take, List.getElem?_modify]
  split
  case isTrue hlt =>
    have hne : place ≠ i := by omega
    simp [hne]
  case isFalse => rfl

/-- A token is changed into one like it. As long as the source is edited along with the
tokens, no brace group that is open may have it within the source that it knows. -/
theorem modify {rebuild' : Bool} (h : Layout capture rebuild frames tokens)
    (hchange : ∀ token, tokens[place]? = some token → token.Alike (change token))
    (hrebuild : rebuild' = false → rebuild = false ∧
      ∀ frame ∈ frames, frame.isBrace = true → frame.place ≤ place) :
    Layout capture rebuild' frames (tokens.modify place change) where
  balanced := h.balanced.modify fun token htoken => (hchange token htoken).moves
  ordered := h.ordered
  fits frame hframe := by
    refine (h.fits frame hframe).congr (fun i kind hkind hreferred _ =>
      kindAt_modify (fun token htoken => (hchange token htoken).referred) i kind hkind hreferred)
      ?_ fun hfalse =>
      ⟨(hrebuild hfalse).1, fun hbrace => by
        rw [take_modify ((hrebuild hfalse).2 frame hframe hbrace)]⟩
    intro kind width hreferred ⟨token, htoken, hkind, hopens⟩
    by_cases heq : frame.place = place
    · refine ⟨change token, getElem?_modify_iff.mpr (.inl ⟨heq, token, htoken, rfl⟩), ?_⟩
      have halike := hchange token (heq ▸ htoken)
      exact ⟨(halike.referred (hkind ▸ hreferred)).trans hkind, halike.moves _ _ hopens⟩
    · exact ⟨token, getElem?_modify_iff.mpr (.inr ⟨heq, htoken⟩), hkind, hopens⟩
  plain found hfound hplain := by
    obtain ⟨i, hi⟩ := List.mem_iff_getElem?.mp hfound
    obtain ⟨rfl, token, htoken, rfl⟩ | ⟨-, htoken⟩ := getElem?_modify_iff.mp hi
    · have halike := hchange token htoken
      obtain hplain | hneutral := halike.plain hplain
      · have := h.plain token (List.mem_of_getElem? htoken) hplain
        exact halike.moves 0 0 this
      · exact hneutral
    · exact h.plain found (List.mem_of_getElem? htoken) hplain

/-- The last token is changed into one like it. -/
theorem modifyLast (h : Layout capture rebuild frames tokens) (change : Token → Token)
    (hchange : ∀ token, tokens[tokens.length - 1]? = some token → token.Alike (change token)) :
    Layout capture rebuild frames (tokens.modify (tokens.length - 1) change) := by
  refine h.modify hchange fun hfalse => ⟨hfalse, fun frame hframe _ => ?_⟩
  have := (h.fits frame hframe).place_lt
  omega

/-- The token that opened a group becomes text, and the group is forgotten. -/
theorem release {test : Frame → Bool} {found : Frame} (h : Layout capture rebuild frames tokens)
    (htake : Tokenizer.takeFrame? test frames = some (found, others))
    (hchange : ∀ token, tokens[found.place]? = some token →
      (change token).kind = token.kind ∧ Neutral (change token).source)
    (hbrace : rebuild = false → ∀ frame ∈ others, frame.isBrace = true →
      frame.place ≤ found.place) :
    Layout capture rebuild others (tokens.modify found.place change) where
  balanced := (h.balanced_taken htake).release fun token htoken => (hchange token htoken).2
  ordered := h.ordered_others htake
  fits frame hframe := by
    refine (h.fits_others htake frame hframe).congr (fun i kind hkind hreferred _ =>
      kindAt_modify (fun token htoken _ => (hchange token htoken).1) i kind hkind hreferred)
      ?_ fun hfalse =>
      ⟨hfalse, fun hisBrace => by rw [take_modify (hbrace hfalse frame hframe hisBrace)]⟩
    intro kind width _ ⟨token, htoken, hopens⟩
    have hne := h.place_ne_others htake frame hframe
    exact ⟨token, getElem?_modify_iff.mpr (.inr ⟨hne, htoken⟩), hopens⟩
  plain found' hfound' hplain := by
    obtain ⟨i, hi⟩ := List.mem_iff_getElem?.mp hfound'
    obtain ⟨rfl, token, htoken, rfl⟩ | ⟨-, htoken⟩ := getElem?_modify_iff.mp hi
    · exact (hchange token htoken).2
    · exact h.plain found' (List.mem_of_getElem? htoken) hplain

end

/-- With the source to be put together again, the frames know nothing about it. -/
theorem toRebuild (h : Layout capture rebuild frames tokens) : Layout capture true frames tokens where
  balanced := h.balanced
  ordered := h.ordered
  fits frame hframe := (h.fits frame hframe).congr (fun _ _ hkind _ _ => hkind)
    (fun _ _ _ hopens => hopens) fun hfalse => absurd hfalse (by simp)
  plain := h.plain

/-- The tokens of a group whose frame was taken off the stack are dropped with it, if no group
within refers to them and they move nothing. -/
theorem take {test : Frame → Bool} {found : Frame} (h : Layout capture rebuild frames tokens)
    (htake : Tokenizer.takeFrame? test frames = some (found, others))
    (hwithin : ∀ i token, found.place < i → tokens[i]? = some token →
      token.kind.isPlain = true ∧ token.kind.isReferred = false) :
    Layout capture true others (tokens.take found.place) := by
  have hplace := (h.fits_taken htake).place_lt
  -- No other group was opened behind the group.
  have hothers : ∀ frame ∈ others, frame.place < found.place := by
    intro frame hframe
    have hne := h.place_ne_others htake frame hframe
    obtain ⟨kind, hkind, token, htoken, rfl, -⟩ := (h.fits_others htake frame hframe).exists_opens
    obtain hlt | hle := Nat.lt_or_ge frame.place found.place
    · exact hlt
    · have := (hwithin frame.place token (by omega) htoken).1
      obtain hkind | hkind := hkind <;> rw [hkind] at this <;> exact absurd this (by decide)
  have hkeep {i : Nat} {token : Token} (hi : i < found.place) (htoken : tokens[i]? = some token) :
      (tokens.take found.place)[i]? = some token := by
    rw [List.getElem?_take, if_pos hi, htoken]
  refine ⟨?_, h.ordered_others htake, fun frame hframe => ?_, fun token htoken =>
    h.plain token (List.mem_of_mem_take htoken)⟩
  · refine (h.balanced_taken htake).take (Nat.le_of_lt hplace) (fun i hi => ?_) ?_
    · rw [List.mem_cons]
      exact (or_iff_right (Nat.ne_of_lt hi)).symm
    · intro i token hi htoken
      by_cases heq : i = found.place
      · exact .inl (heq ▸ List.mem_cons_self)
      · right
        have := (hwithin i token (by omega) htoken).1
        exact h.plain token (List.mem_of_getElem? htoken) this
  · refine (h.fits_others htake frame hframe).congr ?_ ?_ fun hfalse => absurd hfalse (by simp)
    · intro i kind hkind hreferred hplain
      obtain ⟨token, htoken, rfl⟩ := Option.map_eq_some_iff.mp hkind
      refine Option.map_eq_some_iff.mpr ⟨token, hkeep ?_ htoken, rfl⟩
      obtain hlt | heq | hgt := Nat.lt_trichotomy i found.place
      · exact hlt
      · -- The token that opened the group is no comma and no operator.
        obtain ⟨kind, hkind, opener, hopener, rfl, -⟩ := (h.fits_taken htake).exists_opens
        cases htoken.symm.trans (heq ▸ hopener)
        obtain hkind | hkind := hkind <;> rw [hkind] at hplain <;> exact absurd hplain (by decide)
      · rw [(hwithin i token hgt htoken).2] at hreferred
        exact absurd hreferred (by simp)
    · exact fun kind width _ ⟨token, htoken, hopens⟩ =>
        ⟨token, hkeep (hothers frame hframe) htoken, hopens⟩

/-- Two neutral tokens at the end, which no group refers to, become the beginning and the end
of a group. -/
theorem wrap {before : List Token} {x y x' y' : Token} {width : Nat}
    (h : Layout capture rebuild frames (before ++ [x, y])) (hx : Neutral x.source)
    (hy : Neutral y.source) (hxkind : x.kind.isReferred = false)
    (hykind : y.kind.isReferred = false) (hx' : Moves 0 width x'.source)
    (hy' : Moves width 0 y'.source) (hxkind' : x'.kind.isPlain = false)
    (hykind' : y'.kind.isPlain = false) :
    Layout capture rebuild frames (before ++ [x', y']) := by
  have hend {i : Nat} {token : Token} (htoken : (before ++ [x, y])[i]? = some token)
      (hreferred : token.kind.isReferred = true) : i < before.length := by
    obtain hbefore | ⟨-, rfl⟩ | ⟨-, rfl⟩ := getElem?_append_two_iff.mp htoken
    · exact lt_of_getElem?_eq hbefore
    · exact absurd (hxkind.symm.trans hreferred) (by simp)
    · exact absurd (hykind.symm.trans hreferred) (by simp)
  have hkeep {i : Nat} {token : Token} (hi : i < before.length)
      (htoken : (before ++ [x, y])[i]? = some token) :
      (before ++ [x', y'])[i]? = some token := by
    rw [List.getElem?_append_left hi] at htoken ⊢
    exact htoken
  have hplace : ∀ frame ∈ frames, frame.place < before.length := by
    intro frame hframe
    obtain ⟨kind, hkind, token, htoken, rfl, -⟩ := (h.fits frame hframe).exists_opens
    refine hend htoken ?_
    obtain hkind | hkind := hkind <;> rw [hkind] <;> rfl
  refine ⟨h.balanced.wrap hx hy (fun i hi => ?_) hx' hy', h.ordered, fun frame hframe => ?_, ?_⟩
  · obtain ⟨frame, hframe, rfl⟩ := List.mem_map.mp hi
    exact hplace frame hframe
  · refine (h.fits frame hframe).congr ?_ ?_ fun hfalse => ⟨hfalse, fun _ => ?_⟩
    · intro i kind hkind hreferred _
      obtain ⟨token, htoken, rfl⟩ := Option.map_eq_some_iff.mp hkind
      exact Option.map_eq_some_iff.mpr ⟨token, hkeep (hend htoken hreferred) htoken, rfl⟩
    · exact fun kind width _ ⟨token, htoken, hopens⟩ =>
        ⟨token, hkeep (hplace frame hframe) htoken, hopens⟩
    · have := Nat.le_of_lt (hplace frame hframe)
      rw [List.take_append_of_le_length this, List.take_append_of_le_length this]
  · intro token htoken hplain
    rw [List.mem_append, List.mem_cons, List.mem_singleton] at htoken
    obtain htoken | rfl | rfl := htoken
    · exact h.plain token (List.mem_append_left _ htoken) hplain
    · exact absurd (hxkind'.symm.trans hplain) (by simp)
    · exact absurd (hykind'.symm.trans hplain) (by simp)

/-- The first frame that a change applies to may note more about its group. -/
theorem modifyFrame {change : Frame → Option Frame} (h : Layout capture rebuild frames tokens)
    (hchange : ∀ frame frame', change frame = some frame' → frame'.place = frame.place ∧
      (frame.Fits capture rebuild tokens → frame'.Fits capture rebuild tokens)) :
    Layout capture rebuild (Tokenizer.modifyFrame change frames) tokens := by
  have hplaces (frames : List Frame) :
      (Tokenizer.modifyFrame change frames).map Frame.place = frames.map Frame.place := by
    induction frames with
    | nil => rfl
    | cons frame frames ih =>
      rw [Tokenizer.modifyFrame]
      split
      case h_1 frame' hframe' => rw [List.map_cons, List.map_cons, (hchange _ _ hframe').1]
      case h_2 => rw [List.map_cons, List.map_cons, ih]
  have hordered : (frames.map Frame.place).Pairwise fun inner outer => outer < inner :=
    List.pairwise_map.mpr h.ordered
  rw [← hplaces] at hordered
  exact ⟨(hplaces frames).symm ▸ h.balanced, List.pairwise_map.mp hordered,
    Tokenizer.forall_mem_modifyFrame (fun frame frame' hframe => (hchange frame frame' hframe).2)
      h.fits, h.plain⟩

end Layout

/-! ### Tokens that are ready for the next one -/

/-- What holds of the tokens as long as there is text to read: each one knows the one before it,
and a separator that became the beginning of a group has its globstar behind it and another
separator behind that. -/
structure Settled (tokens : List Token) : Prop where
  head : kindAt tokens 0 = some .bos
  previous : ∀ i token, tokens[i + 1]? = some token → token.previous = some i ∧ token.kind ≠ .bos
  run : ∀ token ∈ tokens, token.isStarRun = true → token.kind = .star
  slash : ∀ i token, tokens[i]? = some token → token.kind = .slash →
    Neutral token.source ∨ (kindAt tokens (i + 1) = some .globstar ∧
      kindAt tokens (i + 2) = some .slash)
  globstar : ∀ i token, tokens[i]? = some token → token.kind = .globstar →
    Neutral token.source ∨ kindAt tokens (i + 1) = some .slash

namespace Settled

variable {tokens : List Token} {token : Token}

theorem ne_nil (h : Settled tokens) : tokens ≠ [] := by
  rintro rfl
  exact absurd h.head (by simp [kindAt])

theorem singleton {token : Token} (h : Neutral token.source) (hkind : token.kind = .bos)
    (hrun : token.isStarRun = false) : Settled [token] where
  head := congrArg some hkind
  previous i found hfound := absurd hfound (by simp)
  run found hfound htrue := by
    rw [List.mem_singleton] at hfound
    rw [hfound, hrun] at htrue
    exact absurd htrue (by simp)
  slash i found hfound _ := by
    rw [List.mem_singleton.mp (List.mem_of_getElem? hfound)]
    exact .inl h
  globstar i found hfound _ := by
    rw [List.mem_singleton.mp (List.mem_of_getElem? hfound)]
    exact .inl h

theorem kindAt_append {place : Nat} {kind : TokenKind} (h : kindAt tokens place = some kind)
    (more : List Token) : kindAt (tokens ++ more) place = some kind := by
  obtain ⟨found, hfound, rfl⟩ := Option.map_eq_some_iff.mp h
  rw [kindAt, List.getElem?_append_left (lt_of_getElem?_eq hfound), hfound]
  rfl

/-- A token that moves nothing, or is neither a separator nor a globstar. -/
theorem append (h : Settled tokens) (hprevious : token.previous = some (tokens.length - 1))
    (hbos : token.kind ≠ .bos) (hrun : token.isStarRun = false)
    (hneutral : token.kind = .slash ∨ token.kind = .globstar → Neutral token.source) :
    Settled (tokens ++ [token]) where
  head := kindAt_append h.head _
  previous i found hfound := by
    obtain hfound | ⟨hi, rfl⟩ := getElem?_concat_iff.mp hfound
    · exact h.previous i found hfound
    · rw [hprevious, ← hi]
      exact ⟨rfl, hbos⟩
  run found hfound htrue := by
    rw [List.mem_append, List.mem_singleton] at hfound
    obtain hfound | rfl := hfound
    · exact h.run found hfound htrue
    · rw [hrun] at htrue
      exact absurd htrue (by simp)
  slash i found hfound hkind := by
    obtain hfound | ⟨-, rfl⟩ := getElem?_concat_iff.mp hfound
    · exact (h.slash i found hfound hkind).imp_right fun hnext =>
        ⟨kindAt_append hnext.1 _, kindAt_append hnext.2 _⟩
    · exact .inl (hneutral (.inl hkind))
  globstar i found hfound hkind := by
    obtain hfound | ⟨-, rfl⟩ := getElem?_concat_iff.mp hfound
    · exact (h.globstar i found hfound hkind).imp_right fun hnext => kindAt_append hnext _
    · exact .inl (hneutral (.inr hkind))

/-- The last token moves nothing, unless it opens or closes a group. -/
theorem neutral_last (h : Settled tokens) {i : Nat} (htoken : tokens[i]? = some token)
    (hlast : i + 1 = tokens.length) (hkind : token.kind = .slash ∨ token.kind = .globstar) :
    Neutral token.source := by
  have hnone : kindAt tokens (i + 1) = none := by
    rw [kindAt, List.getElem?_eq_none (by omega)]
    rfl
  obtain hkind | hkind := hkind
  · refine (h.slash i token htoken hkind).resolve_right fun hnext => ?_
    rw [hnone] at hnext
    exact absurd hnext.1 (by simp)
  · refine (h.globstar i token htoken hkind).resolve_right fun hnext => ?_
    rw [hnone] at hnext
    exact absurd hnext (by simp)

/-- A separator with only one token behind it moves nothing. -/
theorem neutral_slash (h : Settled tokens) {i : Nat} (htoken : tokens[i]? = some token)
    (hlast : i + 2 = tokens.length) (hkind : token.kind = .slash) : Neutral token.source := by
  refine (h.slash i token htoken hkind).resolve_right fun hnext => ?_
  rw [kindAt, kindAt, List.getElem?_eq_none (by omega : tokens.length ≤ i + 2)] at hnext
  exact absurd hnext.2 (by simp)

/-- A token is changed that is no separator, or stays one. Its kind may only change at the end. -/
theorem modify {place : Nat} {change : Token → Token} (h : Settled tokens)
    (hprevious : ∀ token, (change token).previous = token.previous)
    (hkind : ∀ token, tokens[place]? = some token → (change token).kind = token.kind ∨
      (place + 1 = tokens.length ∧ token.kind ≠ .slash ∧ token.kind ≠ .bos ∧
        (change token).kind ≠ .bos))
    (hrun : ∀ token, tokens[place]? = some token → (change token).isStarRun = true →
      (change token).kind = .star)
    (hneutral : ∀ token, tokens[place]? = some token → (change token).kind = .slash ∨
      (change token).kind = .globstar → Neutral (change token).source) :
    Settled (tokens.modify place change) := by
  -- Behind a separator or a globstar, what stands there still stands there.
  have hkindAt (i : Nat) (kind : TokenKind) (hi : kindAt tokens i = some kind)
      (hstays : kind = .slash ∨ kind = .bos ∨ i + 1 < tokens.length) :
      kindAt (tokens.modify place change) i = some kind := by
    obtain ⟨token, htoken, rfl⟩ := Option.map_eq_some_iff.mp hi
    refine Option.map_eq_some_iff.mpr ?_
    by_cases heq : i = place
    · refine ⟨change token, getElem?_modify_iff.mpr (.inl ⟨heq, token, htoken, rfl⟩), ?_⟩
      obtain hsame | ⟨hlast, hslash, hbos, -⟩ := hkind token (heq ▸ htoken)
      · exact hsame
      · exact absurd hstays (not_or.mpr ⟨hslash, not_or.mpr ⟨hbos, by omega⟩⟩)
    · exact ⟨token, getElem?_modify_iff.mpr (.inr ⟨heq, htoken⟩), rfl⟩
  refine ⟨hkindAt _ _ h.head (.inr (.inl rfl)), ?_, ?_, ?_, ?_⟩
  · intro i found hfound
    obtain ⟨rfl, token, htoken, rfl⟩ | ⟨-, hfound⟩ := getElem?_modify_iff.mp hfound
    · obtain ⟨hbefore, hbos⟩ := h.previous i token htoken
      refine ⟨(hprevious token).trans hbefore, ?_⟩
      obtain hsame | ⟨-, -, -, hne⟩ := hkind token htoken
      · rwa [hsame]
      · exact hne
    · exact h.previous i found hfound
  · intro found hfound htrue
    obtain ⟨i, hi⟩ := List.mem_iff_getElem?.mp hfound
    obtain ⟨rfl, token, htoken, rfl⟩ | ⟨-, htoken⟩ := getElem?_modify_iff.mp hi
    · exact hrun token htoken htrue
    · exact h.run found (List.mem_of_getElem? htoken) htrue
  · intro i found hfound hslash
    obtain ⟨rfl, token, htoken, rfl⟩ | ⟨-, htoken⟩ := getElem?_modify_iff.mp hfound
    · exact .inl (hneutral token htoken (.inl hslash))
    · refine (h.slash i found htoken hslash).imp_right fun ⟨hnext, hthird⟩ => ?_
      obtain ⟨third, hthird', -⟩ := Option.map_eq_some_iff.mp hthird
      have := lt_of_getElem?_eq hthird'
      exact ⟨hkindAt _ _ hnext (.inr (.inr (by omega))), hkindAt _ _ hthird (.inl rfl)⟩
  · intro i found hfound hglobstar
    obtain ⟨rfl, token, htoken, rfl⟩ | ⟨-, htoken⟩ := getElem?_modify_iff.mp hfound
    · exact .inl (hneutral token htoken (.inr hglobstar))
    · exact (h.globstar i found htoken hglobstar).imp_right fun hnext =>
        hkindAt _ _ hnext (.inl rfl)

/-- The tokens before one that is neither a separator nor a globstar. -/
theorem take {place : Nat} {kind : TokenKind} (h : Settled tokens)
    (hkind : kindAt tokens place = some kind) (hbos : kind ≠ .bos) (hslash : kind ≠ .slash)
    (hglobstar : kind ≠ .globstar) : Settled (tokens.take place) := by
  obtain ⟨token, htoken, rfl⟩ := Option.map_eq_some_iff.mp hkind
  have hlt := lt_of_getElem?_eq htoken
  have htake {i : Nat} {found : Token} (hfound : (tokens.take place)[i]? = some found) :
      i < place ∧ tokens[i]? = some found := by
    rw [List.getElem?_take] at hfound
    split at hfound
    case isTrue hlt => exact ⟨hlt, hfound⟩
    case isFalse => exact absurd hfound (by simp)
  have hkindAt {i : Nat} {kind : TokenKind} (hi : i ≤ place) (h : kindAt tokens i = some kind)
      (hne : token.kind ≠ kind) : kindAt (tokens.take place) i = some kind ∧ i + 1 ≤ place := by
    obtain hlt | rfl := Nat.lt_or_eq_of_le hi
    · rw [kindAt, List.getElem?_take, if_pos hlt]
      exact ⟨h, hlt⟩
    · rw [kindAt, htoken] at h
      exact absurd (Option.some.inj h) hne
  refine ⟨(hkindAt (Nat.zero_le _) h.head hbos).1,
    fun i found hfound => h.previous i found (htake hfound).2,
    fun found hfound => h.run found (List.mem_of_mem_take hfound), fun i found hfound heq => ?_,
    fun i found hfound heq => ?_⟩
  · obtain ⟨hi, hfound⟩ := htake hfound
    refine (h.slash i found hfound heq).imp_right fun ⟨hnext, hthird⟩ => ?_
    obtain ⟨hnext', hle⟩ := hkindAt hi hnext hglobstar
    exact ⟨hnext', (hkindAt hle hthird hslash).1⟩
  · obtain ⟨hi, hfound⟩ := htake hfound
    exact (h.globstar i found hfound heq).imp_right fun hnext => (hkindAt hi hnext hslash).1

/-- A separator and a star that became a group, with another separator behind them. -/
theorem wrap {before : List Token} {slash star slash' star' next : Token}
    (h : Settled (before ++ [slash, star])) (hkind : slash.kind = .slash)
    (hstar : star.kind = .star) (hkind' : slash'.kind = .slash) (hstar' : star'.kind = .globstar)
    (hprevious : slash'.previous = slash.previous) (hprevious' : star'.previous = star.previous)
    (hrun : slash'.isStarRun = false) (hrun' : star'.isStarRun = false)
    (hnext : next.previous = some (before.length + 1)) (hnextKind : next.kind = .slash)
    (hnextRun : next.isStarRun = false) (hneutral : Neutral next.source) :
    Settled (before ++ [slash', star', next]) := by
  have hold : kindAt (before ++ [slash, star]) before.length = some .slash := by
    simp [kindAt, hkind]
  have hnew : kindAt (before ++ [slash', star', next]) before.length = some .slash := by
    simp [kindAt, hkind']
  have hthird : kindAt (before ++ [slash', star', next]) (before.length + 2) = some .slash := by
    simp [kindAt, hnextKind]
  -- The separators and globstars that were there are still there.
  have hkindAt {i : Nat} {kind : TokenKind} (hi : kindAt (before ++ [slash, star]) i = some kind)
      (hstays : kind = .slash ∨ kind = .globstar ∨ kind = .bos) :
      kindAt (before ++ [slash', star', next]) i = some kind := by
    obtain ⟨token, htoken, rfl⟩ := Option.map_eq_some_iff.mp hi
    obtain hbefore | ⟨rfl, rfl⟩ | ⟨rfl, rfl⟩ := getElem?_append_two_iff.mp htoken
    · exact Option.map_eq_some_iff.mpr ⟨token, getElem?_append_three_iff.mpr (.inl hbefore), rfl⟩
    · rw [hnew, ← hold, hi]
    · rw [hstar] at hstays
      exact absurd hstays (by simp)
  refine ⟨hkindAt h.head (.inr (.inr rfl)), ?_, ?_, ?_, ?_⟩
  · intro i found hfound
    obtain hbefore | ⟨hi, rfl⟩ | ⟨hi, rfl⟩ | ⟨hi, rfl⟩ := getElem?_append_three_iff.mp hfound
    · exact h.previous i found (getElem?_append_two_iff.mpr (.inl hbefore))
    · have := h.previous i slash (getElem?_append_two_iff.mpr (.inr (.inl ⟨hi, rfl⟩)))
      rw [hprevious, hkind']
      exact ⟨this.1, by simp⟩
    · have := h.previous i star (getElem?_append_two_iff.mpr (.inr (.inr ⟨hi, rfl⟩)))
      rw [hprevious', hstar']
      exact ⟨this.1, by simp⟩
    · rw [hnext, hnextKind]
      exact ⟨congrArg some (by omega), by simp⟩
  · intro found hfound htrue
    simp only [List.mem_append, List.mem_cons, List.not_mem_nil, or_false] at hfound
    obtain hfound | rfl | rfl | rfl := hfound
    · exact h.run found (List.mem_append_left _ hfound) htrue
    · exact absurd (hrun.symm.trans htrue) (by simp)
    · exact absurd (hrun'.symm.trans htrue) (by simp)
    · exact absurd (hnextRun.symm.trans htrue) (by simp)
  · intro i found hfound hslash
    obtain hbefore | ⟨rfl, rfl⟩ | ⟨rfl, rfl⟩ | ⟨rfl, rfl⟩ := getElem?_append_three_iff.mp hfound
    · exact (h.slash i found (getElem?_append_two_iff.mpr (.inl hbefore)) hslash).imp_right
        fun hnext => ⟨hkindAt hnext.1 (.inr (.inl rfl)), hkindAt hnext.2 (.inl rfl)⟩
    · exact .inr ⟨by simp [kindAt, hstar'], hthird⟩
    · exact absurd (hstar'.symm.trans hslash) (by simp)
    · exact .inl hneutral
  · intro i found hfound hglobstar
    obtain hbefore | ⟨rfl, rfl⟩ | ⟨rfl, rfl⟩ | ⟨rfl, rfl⟩ := getElem?_append_three_iff.mp hfound
    · exact (h.globstar i found (getElem?_append_two_iff.mpr (.inl hbefore)) hglobstar).imp_right
        fun hnext => hkindAt hnext (.inl rfl)
    · exact absurd (hkind'.symm.trans hglobstar) (by simp)
    · exact .inr hthird
    · exact .inl hneutral

end Settled

end PathGlob.Pattern
