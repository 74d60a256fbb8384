import PathGlob.Proofs.Pattern.Arrives
import PathGlob.Proofs.Pattern.Thins

/-!
# `PathGlob.Proofs.Pattern.Alike`: states that differ in their sources

What the tokenizer does next depends on the kinds and the texts of its tokens, and on the groups
that are open, but never on the sources. Two states that differ in nothing but the sources and the
text that is left (`Tokenizer.Alike`) stay so, whatever is done to both of them.
-/

set_option autoImplicit false

namespace PathGlob.Pattern

open Regex

/-! ### Tokens and frames -/

/-- The token without its source. -/
def Token.bare (token : Token) : Token := { token with source? := none }

theorem Token.bare_eq_iff {token token' : Token} : token'.bare = token.bare ↔
    token'.kind = token.kind ∧ token'.value = token.value ∧ token'.previous = token.previous ∧
      token'.isExtglob = token.isExtglob ∧ token'.isStarRun = token.isStarRun ∧
        token'.isPosix = token.isPosix := by
  cases token
  cases token'
  simp [bare]

/-- The frame without the length of the source before it. -/
def Frame.bare : Frame → Frame
  | .brace frame => .brace { frame with outputSize := 0 }
  | frame => frame

@[simp] theorem Frame.isBrace_bare (frame : Frame) : frame.bare.isBrace = frame.isBrace := by
  cases frame <;> rfl

theorem map_modify_congr {α β : Type} {f : α → β} {items items' : List α} (place : Nat)
    {change change' : α → α} (h : items'.map f = items.map f)
    (hchange : ∀ a a', f a' = f a → f (change' a') = f (change a)) :
    (items'.modify place change').map f = (items.modify place change).map f := by
  induction items generalizing items' place with
  | nil =>
    rw [List.map_eq_nil_iff.mp h]
    simp
  | cons a items ih =>
    cases items' with
    | nil => cases h
    | cons a' items' =>
      obtain ⟨ha, hitems⟩ := List.cons.inj h
      cases place with
      | zero => simp [hchange a a' ha, hitems]
      | succ place => simp [ha, ih place hitems]

namespace Tokenizer

theorem modifyFrame_bare {change : Frame → Option Frame}
    (hchange : ∀ frame, change frame.bare = (change frame).map Frame.bare) (frames : List Frame) :
    modifyFrame change (frames.map Frame.bare) = (modifyFrame change frames).map Frame.bare := by
  induction frames with
  | nil => rfl
  | cons frame frames ih =>
    rw [List.map_cons, modifyFrame, modifyFrame, hchange]
    cases change frame with
    | none => exact congrArg _ ih
    | some frame => rfl

theorem modifyFrame_congr {change : Frame → Option Frame} {frames frames' : List Frame}
    (hchange : ∀ frame, change frame.bare = (change frame).map Frame.bare)
    (hframes : frames'.map Frame.bare = frames.map Frame.bare) :
    (modifyFrame change frames').map Frame.bare = (modifyFrame change frames).map Frame.bare := by
  rw [← modifyFrame_bare hchange, ← modifyFrame_bare hchange, hframes]

theorem takeFrame?_bare {test : Frame → Bool} (htest : ∀ frame, test frame.bare = test frame)
    (frames : List Frame) : takeFrame? test (frames.map Frame.bare) =
      (takeFrame? test frames).map (Prod.map Frame.bare (List.map Frame.bare)) := by
  induction frames with
  | nil => rfl
  | cons frame frames ih =>
    rw [List.map_cons, takeFrame?, takeFrame?, htest, ih]
    cases test frame with
    | true => rfl
    | false => simp [Option.map_map, Function.comp_def]

/-- The states differ in nothing but the sources and the text that is left. -/
structure Alike (t t' : Tokenizer) : Prop where
  tokens : t'.tokens.map Token.bare = t.tokens.map Token.bare
  frames : t'.frames.map Frame.bare = t.frames.map Frame.bare
  position : t'.position = t.position
  start : t'.start = t.start
  inClass : t'.inClass = t.inClass
  quoted : t'.quoted = t.quoted

namespace Alike

theorem refl (t : Tokenizer) : t.Alike t := ⟨rfl, rfl, rfl, rfl, rfl, rfl⟩

theorem symm {t t' : Tokenizer} (h : t.Alike t') : t'.Alike t :=
  ⟨h.tokens.symm, h.frames.symm, h.position.symm, h.start.symm, h.inClass.symm, h.quoted.symm⟩

theorem trans {t t' t'' : Tokenizer} (h : t.Alike t') (h' : t'.Alike t'') : t.Alike t'' :=
  ⟨h'.tokens.trans h.tokens, h'.frames.trans h.frames, h'.position.trans h.position,
    h'.start.trans h.start, h'.inClass.trans h.inClass, h'.quoted.trans h.quoted⟩

/-- What is alike to one of two states that are alike is alike to what is alike to the other. -/
theorem between {t t' s s' : Tokenizer} (h : t.Alike t') (hs : t.Alike s) (hs' : t'.Alike s') :
    s.Alike s' := hs.symm.trans (h.trans hs')

theorem ite {p p' : Prop} [Decidable p] [Decidable p'] {a b a' b' : Tokenizer} (hp : p' ↔ p)
    (ha : a.Alike a') (hb : b.Alike b') : (if p then a else b).Alike (if p' then a' else b') := by
  by_cases h : p
  · rwa [if_pos h, if_pos (hp.mpr h)]
  · rwa [if_neg h, if_neg (mt hp.mp h)]

theorem of_modify (t : Tokenizer) (place : Nat) {change : Token → Token}
    (hchange : ∀ token, (change token).bare = token.bare) : t.Alike (t.modify place change) := by
  have hsame : (t.tokens.modify place change).map Token.bare =
      (t.tokens.modify place id).map Token.bare :=
    map_modify_congr place rfl fun token token' htoken => (hchange token').trans htoken
  rw [List.modify_id] at hsame
  exact { refl t with tokens := hsame }

theorem of_setSource (t : Tokenizer) (b : Bool) (place : Nat) (source : List Char) :
    t.Alike (if b then t.setSource place source else t) := by
  cases b with
  | false => exact refl t
  | true => exact of_modify t place fun token => rfl

theorem of_guardLast (t : Tokenizer) (guard : List Char) : t.Alike (t.guardLast guard) :=
  have hguarded : t.Alike (t.modify t.lastPlace fun token =>
      { token with source? := some (token.source ++ guard) }) := of_modify t _ fun _ => rfl
  { hguarded with }

section
variable {ctx ctx' : Context} {t t' : Tokenizer} (h : t.Alike t')
include h

/-! ### What is the same -/

theorem length_tokens : t'.tokens.length = t.tokens.length := by
  simpa using congrArg List.length h.tokens

theorem lastPlace : t'.lastPlace = t.lastPlace := by
  rw [Tokenizer.lastPlace, Tokenizer.lastPlace, h.length_tokens]

theorem place : t'.place = t.place := by
  rw [Tokenizer.place, Tokenizer.place, h.position]

theorem last : t'.last.bare = t.last.bare := by
  have hlast := congrArg List.getLast? h.tokens
  rw [List.getLast?_map, List.getLast?_map] at hlast
  have hbare (t : Tokenizer) :
      t.last.bare = (t.tokens.getLast?.map Token.bare).getD (Token.bare .bos) := by
    rw [Tokenizer.last]
    cases t.tokens.getLast? <;> rfl
  rw [hbare, hbare, hlast]

theorem kind_last : t'.last.kind = t.last.kind := (Token.bare_eq_iff.mp h.last).1

theorem value_last : t'.last.value = t.last.value := (Token.bare_eq_iff.mp h.last).2.1

theorem previous_last : t'.last.previous = t.last.previous := (Token.bare_eq_iff.mp h.last).2.2.1

theorem isStarRun_last : t'.last.isStarRun = t.last.isStarRun :=
  (Token.bare_eq_iff.mp h.last).2.2.2.2.1

theorem isPosix_last : t'.last.isPosix = t.last.isPosix :=
  (Token.bare_eq_iff.mp h.last).2.2.2.2.2

theorem tokenAt (place : Nat) :
    t'.tokens[place]?.map Token.bare = t.tokens[place]?.map Token.bare := by
  have := congrArg (·[place]?) h.tokens
  simpa using this

theorem bareAt (place : Nat) :
    (t'.tokens[place]?.getD .bos).bare = (t.tokens[place]?.getD .bos).bare := by
  have hbare (t : Tokenizer) : (t.tokens[place]?.getD .bos).bare =
      (t.tokens[place]?.map Token.bare).getD (Token.bare .bos) := by
    cases t.tokens[place]? <;> rfl
  rw [hbare, hbare, h.tokenAt]

theorem any_frames {test : Frame → Bool} (htest : ∀ frame, test frame.bare = test frame) :
    t'.frames.any test = t.frames.any test := by
  have hany (frames : List Frame) : (frames.map Frame.bare).any test = frames.any test := by
    rw [List.any_map]
    exact congrArg frames.any (funext htest)
  rw [← hany, h.frames, hany]

theorem inBrace : t'.inBrace = t.inBrace := h.any_frames Frame.isBrace_bare

theorem inParen : t'.inParen = t.inParen := h.any_frames fun frame => by rw [Frame.isBrace_bare]

theorem isEmpty_frames : t'.frames.isEmpty = t.frames.isEmpty := by
  have hempty := congrArg List.isEmpty h.frames
  simpa using hempty

/-! ### What is done to both -/

theorem modify (place : Nat) {change change' : Token → Token}
    (hchange : ∀ token token', token'.bare = token.bare →
      (change' token').bare = (change token).bare) :
    (t.modify place change).Alike (t'.modify place change') :=
  { h with tokens := map_modify_congr place h.tokens hchange }

theorem modifyLast {change change' : Token → Token}
    (hchange : ∀ token token', token'.bare = token.bare →
      (change' token').bare = (change token).bare) :
    (t.modifyLast change).Alike (t'.modifyLast change') := by
  rw [Tokenizer.modifyLast, Tokenizer.modifyLast, h.lastPlace]
  exact h.modify _ hchange

theorem noteInner (value : List Char) : (t.noteInner value).Alike (t'.noteInner value) where
  __ := h
  frames := modifyFrame_congr (by rintro (_ | _ | _) <;> rfl) h.frames

theorem skip (n : Nat) : (t.skip n).Alike (t'.skip n) :=
  { h with position := congrArg (· + n) h.position }

/-- The source put out so far makes no difference. -/
theorem with_output (output output' : List Char) :
    Alike { t with output } { t' with output := output' } := { h with }

theorem emit (source source' : List Char) : (t.emit source).Alike (t'.emit source') :=
  h.with_output ..

theorem needRebuild : t.needRebuild.Alike t'.needRebuild := { h with }

theorem with_frames {frames frames' : List Frame}
    (hframes : frames'.map Frame.bare = frames.map Frame.bare) :
    Alike { t with frames } { t' with frames := frames' } :=
  { h with frames := hframes }

theorem setSource (place : Nat) (source source' : List Char) :
    (t.setSource place source).Alike (t'.setSource place source') :=
  h.modify place fun token token' htoken => by simp_all [Token.bare_eq_iff]

theorem with_frame {frame frame' : Frame} (hframe : frame'.bare = frame.bare) :
    Alike { t with frames := frame :: t.frames } { t' with frames := frame' :: t'.frames } :=
  h.with_frames (by rw [List.map_cons, List.map_cons, hframe, h.frames])

theorem keepsGlobstar {token token' : Token} (htoken : token'.bare = token.bare) :
    t'.keepsGlobstar token' = t.keepsGlobstar token := by
  obtain ⟨hkind, -, -, hextglob, -⟩ := Token.bare_eq_iff.mp htoken
  simp only [Tokenizer.keepsGlobstar, h.inBrace, hkind, hextglob]

theorem prepared (ctx ctx' : Context) {token token' : Token} (htoken : token'.bare = token.bare) :
    (t.prepared ctx token).Alike (t'.prepared ctx' token') := by
  unfold Tokenizer.prepared
  rw [h.kind_last, h.keepsGlobstar htoken]
  split
  · exact { h.modifyLast fun token token' htoken => by simp_all [Token.bare_eq_iff] with }
  · exact h

theorem push (ctx ctx' : Context) {token token' : Token} (htoken : token'.bare = token.bare) :
    (t.push ctx token).Alike (t'.push ctx' token') := by
  have hprepared := h.prepared ctx ctx' htoken
  obtain ⟨hkind, hvalue, -⟩ := Token.bare_eq_iff.mp htoken
  rw [push_eq_prepared, push_eq_prepared]
  refine { hprepared with tokens := ?_, frames := ?_ }
  case refine_1 =>
    unfold pushed
    dsimp only
    rw [hprepared.kind_last, hkind, hprepared.lastPlace]
    split
    case isTrue =>
      exact map_modify_congr _ hprepared.tokens fun a a' ha => by
        simp_all [Token.bare_eq_iff]
    case isFalse =>
      rw [List.map_append, List.map_append, hprepared.tokens]
      simp_all [Token.bare_eq_iff]
  case refine_2 =>
    unfold noted
    dsimp only
    rw [hkind, hvalue]
    split
    case isTrue => exact h.frames
    case isFalse => exact (h.noteInner _).frames

theorem pushText (ctx ctx' : Context) (value source source' : List Char) :
    (t.pushText ctx value source).Alike (t'.pushText ctx' value source') :=
  h.push ctx ctx' rfl

/-! ### What the tokenizer does without looking ahead -/

theorem slash (ctx ctx' : Context) : (t.slash ctx).Alike (t'.slash ctx') := by
  unfold Tokenizer.slash
  rw [h.kind_last, h.place, h.start]
  split
  case isTrue =>
    exact { h with
      tokens := by rw [List.map_dropLast, List.map_dropLast, h.tokens]
      start := rfl }
  case isFalse => exact h.push ctx ctx' rfl

theorem noteDots : t.noteDots.Alike t'.noteDots where
  __ := h
  frames := modifyFrame_congr (by rintro (_ | _ | _) <;> rfl) h.frames

theorem dot (ctx ctx' : Context) : (t.dot ctx).Alike (t'.dot ctx') := by
  unfold Tokenizer.dot
  rw [h.inBrace, h.kind_last, h.isEmpty_frames]
  split
  case isTrue =>
    exact ((h.modifyLast fun token token' htoken => by
      simp_all [Token.bare_eq_iff]).emit ..).noteDots
  case isFalse => exact h.push ctx ctx' rfl

theorem openExtglob (ctx ctx' : Context) (kind : ExtglobKind) (operator : Char) :
    (t.openExtglob ctx kind operator).Alike (t'.openExtglob ctx' kind operator) := by
  let mark (guard : List Char) : Token := .ofSource (.extglob kind) [operator] guard
  let paren (opening : List Char) : Token :=
    { Token.ofSource .paren ['('] opening with isExtglob := true }
  have hpush (guard guard' opening opening' : List Char) :
      (((t.push ctx (mark guard)).skip 1).push ctx (paren opening)).Alike
        (((t'.push ctx' (mark guard')).skip 1).push ctx' (paren opening')) :=
    ((h.push ctx ctx' (by rfl)).skip 1).push ctx ctx' (by rfl)
  exact (hpush _ _ _ _).with_frame (by rw [h.kind_last, h.length_tokens])

theorem openParen (ctx ctx' : Context) : (t.openParen ctx).Alike (t'.openParen ctx') :=
  (h.with_frame (by rw [h.length_tokens])).push ctx ctx' rfl

theorem openBrace (ctx ctx' : Context) : (t.openBrace ctx).Alike (t'.openBrace ctx') :=
  (h.with_frame (by rw [h.length_tokens]; rfl)).push ctx ctx' rfl

theorem literalBrace (ctx ctx' : Context) {frame frame' : BraceFrame}
    (hframe : frame'.token = frame.token) :
    (t.literalBrace ctx frame).Alike (t'.literalBrace ctx' frame') := by
  unfold Tokenizer.literalBrace
  rw [hframe]
  exact (((h.with_output ..).modify _ fun token token' htoken => by
    simp_all [Token.bare_eq_iff]).emit ..).push ctx ctx' rfl

theorem rangeSource? (hoptions : ctx'.options = ctx.options) {frame frame' : BraceFrame}
    (hframe : frame'.token = frame.token) :
    t'.rangeSource? ctx' frame' = t.rangeSource? ctx frame := by
  have htexts : operandTexts? true (t'.tokens.drop (frame.token + 1)) =
      operandTexts? true (t.tokens.drop (frame.token + 1)) := by
    refine operandTexts?_congr true ?_
    have := congrArg (List.map fun token : Token => (token.kind, token.value)) h.tokens
    rw [List.map_map, List.map_map] at this
    rw [List.map_drop, List.map_drop]
    exact congrArg _ this
  rw [Tokenizer.rangeSource?, Tokenizer.rangeSource?, hframe, htexts, hoptions]

theorem closeBrace (hoptions : ctx'.options = ctx.options) :
    (t.closeBrace ctx).Alike (t'.closeBrace ctx') := by
  have htake := takeFrame?_bare Frame.isBrace_bare t'.frames
  rw [h.frames, takeFrame?_bare Frame.isBrace_bare] at htake
  unfold Tokenizer.closeBrace
  cases htaken : takeFrame? Frame.isBrace t.frames with
  | none =>
    rw [htaken] at htake
    rw [Option.map_eq_none_iff.mp htake.symm]
    exact h.pushText ctx ctx' ..
  | some taken =>
    rw [htaken] at htake
    obtain ⟨⟨found', others'⟩, htaken', hbare⟩ := Option.map_eq_some_iff.mp htake.symm
    rw [htaken']
    obtain ⟨found, others⟩ := taken
    obtain ⟨hfound, hothers⟩ := Prod.mk.inj hbare
    have hrest := h.with_frames hothers
    cases found with
    | paren | extglob =>
      cases found' <;> cases hfound
      exact h.pushText ctx ctx' ..
    | brace frame =>
      obtain ⟨frame', rfl⟩ : ∃ frame', found' = .brace frame' := by
        cases found' with
        | paren | extglob => cases hfound
        | brace frame' => exact ⟨frame', rfl⟩
      have hbrace : frame'.token = frame.token ∧ frame'.comma = frame.comma ∧
          frame'.dots = frame.dots := by
        cases frame
        cases frame'
        simp_all [Frame.bare]
      dsimp only
      rw [hbrace.2.1, hbrace.2.2, hrest.rangeSource? hoptions hbrace.1]
      split
      case h_1 source =>
        have htaken : Alike
            { t with frames := others, tokens := t.tokens.take frame.token, rebuild := true }
            { t' with frames := others', tokens := t'.tokens.take frame'.token, rebuild := true } :=
          { hrest with tokens := by rw [hbrace.1, List.map_take, List.map_take, h.tokens] }
        exact htaken.push ctx ctx' rfl
      case h_2 =>
        split
        case isTrue => exact hrest.push ctx ctx' rfl
        case isFalse => exact hrest.literalBrace ctx ctx' hbrace.1

theorem comma (ctx ctx' : Context) : (t.comma ctx).Alike (t'.comma ctx') := by
  have hframes := h.frames
  unfold Tokenizer.comma
  cases ht : t.frames with
  | nil =>
    rw [ht] at hframes
    rw [List.map_eq_nil_iff.mp hframes]
    exact h.push ctx ctx' rfl
  | cons found others =>
    rw [ht] at hframes
    obtain ⟨found', others', ht', hfound, hothers⟩ := List.map_eq_cons_iff.mp hframes
    rw [ht']
    cases found with
    | paren | extglob =>
      cases found' <;> cases hfound
      exact h.push ctx ctx' rfl
    | brace frame =>
      cases found' with
      | paren | extglob => cases hfound
      | brace frame' =>
        refine (h.with_frames ?_).push ctx ctx' rfl
        cases frame
        cases frame'
        simp_all [Frame.bare, h.length_tokens]

/-! ### What the tokenizer does in view of what is ahead -/

theorem plainText (ctx ctx' : Context) (c : Char)
    (hrun : (t'.rest.takeWhile fun d => !isSpecial d) = t.rest.takeWhile fun d => !isSpecial d) :
    (t.plainText ctx c).Alike (t'.plainText ctx' c) := by
  unfold Tokenizer.plainText
  rw [hrun]
  exact (h.skip _).pushText ctx ctx' ..

theorem appendClass (body : List Char) : (t.appendClass body).Alike (t'.appendClass body) :=
  (h.emit body body).modifyLast fun token token' htoken => by simp_all [Token.bare_eq_iff]

theorem escape (hoptions : ctx'.options = ctx.options) (hnext : t'.rest.head? = t.rest.head?) :
    (t.escape ctx).Alike (t'.escape ctx') := by
  unfold Tokenizer.escape
  cases ht : t.rest with
  | nil =>
    rw [ht, List.head?_nil, List.head?_eq_none_iff] at hnext
    rw [hnext]
    exact h.pushText ctx ctx' ..
  | cons c rest =>
    rw [ht, List.head?_cons, List.head?_eq_some_iff] at hnext
    obtain ⟨rest', ht'⟩ := hnext
    have hskip := h.skip 1
    rw [ht']
    dsimp only
    rw [hoptions, hskip.inClass]
    split
    case isTrue => exact h
    case isFalse =>
      split
      case isTrue => exact hskip.appendClass _
      case isFalse => split <;> exact hskip.pushText ctx ctx' ..

theorem operator (hopens : t'.opensExtglob ctx' = t.opensExtglob ctx) (kind : ExtglobKind)
    (c : Char) (other : Token) :
    (t.operator ctx kind c other).Alike (t'.operator ctx' kind c other) := by
  unfold Tokenizer.operator
  rw [hopens]
  split
  case isTrue => exact h.openExtglob ..
  case isFalse => exact h.push ctx ctx' rfl

theorem qmark (hopens : t'.opensExtglob ctx' = t.opensExtglob ctx) :
    (t.qmark ctx).Alike (t'.qmark ctx') := by
  unfold Tokenizer.qmark
  dsimp only
  rw [hopens, h.value_last, h.kind_last]
  split
  case isTrue => exact h.openExtglob ..
  case isFalse =>
    split
    case isTrue => exact h.pushText ..
    case isFalse => exact h.push ctx ctx' rfl

theorem posixName (hclosing : t'.ahead 0 = some ']' ↔ t.ahead 0 = some ']') :
    t.posixName.1.Alike t'.posixName.1 ∧ t'.posixName.2 = t.posixName.2 := by
  have hmarked : (t.modifyLast fun token => { token with isPosix := true }).Alike
      (t'.modifyLast fun token => { token with isPosix := true }) :=
    h.modifyLast fun token token' htoken => by simp_all [Token.bare_eq_iff]
  unfold Tokenizer.posixName
  dsimp only
  rw [h.value_last, hmarked.value_last]
  split
  case isTrue => exact ⟨h, rfl⟩
  case isFalse =>
    split
    case isTrue => exact ⟨hmarked, rfl⟩
    case isFalse =>
      split
      case h_1 => exact ⟨hmarked, rfl⟩
      case h_2 before name _ =>
        split
        case h_1 => exact ⟨hmarked, rfl⟩
        case h_2 members _ =>
          refine ⟨?_, rfl⟩
          have hreplaced (token token' : Token) (htoken : token'.bare = token.bare) :
              Token.bare { token' with value := before ++ members } =
                Token.bare { token with value := before ++ members } := by
            simp_all [Token.bare_eq_iff]
          have hnamed := (hmarked.modifyLast hreplaced).needRebuild
          have hskipped := ite hclosing (hnamed.skip 1) hnamed
          exact (of_setSource ..).symm.trans (hskipped.trans (of_setSource ..))

theorem classChar (hoptions : ctx'.options = ctx.options)
    (hclosing : t'.ahead 0 = some ']' ↔ t.ahead 0 = some ']')
    (hcolon : t'.ahead 0 = some ':' ↔ t.ahead 0 = some ':') (c : Char) :
    t'.classChar ctx' c = t.classChar ctx c := by
  unfold Tokenizer.classChar
  simp only [hoptions, hclosing, hcolon, h.value_last]

theorem inBracket (hoptions : ctx'.options = ctx.options)
    (hclosing : t'.ahead 0 = some ']' ↔ t.ahead 0 = some ']')
    (hcolon : t'.ahead 0 = some ':' ↔ t.ahead 0 = some ':') (c : Char) :
    (t.inBracket ctx c).Alike (t'.inBracket ctx' c) := by
  have hchar := h.classChar hoptions hclosing hcolon c
  unfold Tokenizer.inBracket
  rw [hoptions, hchar]
  split
  case isFalse => exact h.appendClass _
  case isTrue hname =>
    obtain ⟨hposix, hreplaced⟩ := h.posixName hclosing
    have hc : c = ':' := by simp at hname; exact hname.1
    have hchar (ctx : Context) (t : Tokenizer) : t.classChar ctx c = escapeClassChar ':' := by
      simp [Tokenizer.classChar, hc]
    dsimp only
    rw [hreplaced, hchar, hchar]
    split
    case isTrue => exact hposix
    case isFalse => exact hposix.appendClass _

theorem kind_at? (place? : Option Nat) :
    (place?.bind (t'.tokens[·]?)).map Token.kind = (place?.bind (t.tokens[·]?)).map Token.kind := by
  cases place? with
  | none => rfl
  | some place =>
    have htoken := congrArg (Option.map Token.kind) (h.tokenAt place)
    rwa [Option.map_map, Option.map_map] at htoken

theorem finishBracket (hoptions : ctx'.options = ctx.options) (body : List Char) (isPosix : Bool) :
    (t.finishBracket ctx body isPosix).Alike (t'.finishBracket ctx' body isPosix) := by
  have hguard : ctx'.dotGuard = ctx.dotGuard := by simp only [Context.dotGuard, hoptions]
  have hprevious := h.kind_at? t.last.previous
  unfold Tokenizer.finishBracket
  dsimp only
  rw [hguard, hoptions, h.value_last, h.previous_last]
  generalize t.last.previous.bind (t.tokens[·]?) = previous,
    t.last.previous.bind (t'.tokens[·]?) = previous' at hprevious ⊢
  refine ite ?_ ?_ (ite Iff.rfl h ?_)
  case refine_1 =>
    cases previous <;> cases previous' <;> simp_all
  case refine_2 =>
    exact (h.modifyLast fun token token' htoken => by simp_all [Token.bare_eq_iff]).needRebuild
  case refine_3 =>
    exact (h.with_output _ _).modifyLast fun token token' htoken => by
      simp_all [Token.bare_eq_iff]

variable {next : Tokenizer}

theorem openBracket (hoptions : ctx'.options = ctx.options)
    (hcloses : t'.rest.contains ']' = t.rest.contains ']') (hok : t.openBracket ctx = .ok next) :
    ∃ next', t'.openBracket ctx' = .ok next' ∧ next.Alike next' := by
  unfold Tokenizer.openBracket at hok ⊢
  rw [hoptions, hcloses]
  split at hok
  case isTrue hliteral =>
    rw [if_pos hliteral]
    split at hok
    case isTrue => cases hok
    case isFalse hstrict =>
      cases hok
      exact ⟨_, if_neg hstrict, h.push ctx ctx' rfl⟩
  case isFalse hclass =>
    cases hok
    have hopen : Alike { t with inClass := true } { t' with inClass := true } :=
      { h with inClass := rfl }
    exact ⟨_, if_neg hclass, hopen.push ctx ctx' rfl⟩

theorem closeBracket (hoptions : ctx'.options = ctx.options)
    (hok : t.closeBracket ctx = .ok next) :
    ∃ next', t'.closeBracket ctx' = .ok next' ∧ next.Alike next' := by
  have hwindows : ctx'.windows = ctx.windows := congrArg Options.windows hoptions
  unfold Tokenizer.closeBracket at hok ⊢
  rw [hoptions, h.inClass, h.value_last, h.isPosix_last, hwindows]
  split at hok
  case isTrue hoff =>
    cases hok
    exact ⟨_, if_pos hoff, h.pushText ..⟩
  case isFalse hon =>
    rw [if_neg hon]
    split at hok
    case isTrue hout =>
      rw [if_pos hout]
      split at hok
      case isTrue => cases hok
      case isFalse hstrict =>
        cases hok
        exact ⟨_, if_neg hstrict, h.pushText ..⟩
    case isFalse hin =>
      cases hok
      have hclosed : Alike { t with inClass := false } { t' with inClass := false } :=
        { h with inClass := rfl }
      exact ⟨_, if_neg hin, (hclosed.appendClass _).finishBracket hoptions _ _⟩

theorem guarded (ctx ctx' : Context) (frame : ExtglobFrame) :
    (t.guarded ctx frame).Alike (t'.guarded ctx' frame) := by
  unfold Tokenizer.guarded
  rw [h.length_tokens]
  exact ite Iff.rfl (h.modify _ fun token token' htoken => by
    simp_all [Token.bare_eq_iff]).needRebuild h

theorem extglobClosed (ctx ctx' : Context) (frame : ExtglobFrame) (closing closing' : List Char) :
    (t.extglobClosed ctx frame closing).Alike (t'.extglobClosed ctx' frame closing') := by
  have hnegated (b b' : Bool) :
      Alike { t with negatedExtglob := b } { t' with negatedExtglob := b' } := { h with }
  have hpush (b b' : Bool) (source source' : List Char) :
      ((({ t with negatedExtglob := b } : Tokenizer).guarded ctx frame).push ctx
          { Token.ofSource .paren [')'] source with isExtglob := true }).Alike
        ((({ t' with negatedExtglob := b' } : Tokenizer).guarded ctx' frame).push ctx'
          { Token.ofSource .paren [')'] source' with isExtglob := true }) :=
    ((hnegated b b').guarded ctx ctx' frame).push ctx ctx' (by rfl)
  have hoptional {s s' : Tokenizer} (hs : s.Alike s') (place place' : Option Nat) :
      Alike { s with optionalGroup := place } { s' with optionalGroup := place' } := { hs with }
  exact ite Iff.rfl (hoptional (hpush _ _ _ _) _ _) (hpush _ _ _ _)

/-- If both groups can be closed, the states stay alike. -/
theorem closeParen {tail tail' : List Char → Except Error (List Char)}
    (hoptions : ctx'.options = ctx.options)
    (hclosing : ∀ frame frames frames' closing,
      takeFrame? (fun frame => !frame.isBrace) t.frames = some (.extglob frame, frames) →
        frame.kind = .negate →
          ({ t with frames } : Tokenizer).negateClosing ctx tail frame = .ok closing →
            ∃ closing', ({ t' with frames := frames' } : Tokenizer).negateClosing ctx' tail' frame =
              .ok closing')
    (hok : t.closeParen ctx tail = .ok next) :
    ∃ next', t'.closeParen ctx' tail' = .ok next' ∧ next.Alike next' := by
  have htest (frame : Frame) : (!frame.bare.isBrace) = !frame.isBrace := by
    rw [Frame.isBrace_bare]
  have htaken (frames : List Frame) := @takeFrame?_bare (fun frame => !frame.isBrace) htest frames
  have htake := htaken t'.frames
  rw [h.frames, htaken] at htake
  unfold Tokenizer.closeParen at hok ⊢
  cases htakes : takeFrame? (fun frame => !frame.isBrace) t.frames with
  | none =>
    rw [htakes] at htake hok
    rw [Option.map_eq_none_iff.mp htake.symm, hoptions]
    dsimp only at hok ⊢
    split at hok
    case isTrue => cases hok
    case isFalse hstrict =>
      cases hok
      exact ⟨_, if_neg hstrict, h.push ctx ctx' rfl⟩
  | some taken =>
    rw [htakes] at htake hok
    obtain ⟨⟨found', others'⟩, htaken', hbare⟩ := Option.map_eq_some_iff.mp htake.symm
    rw [htaken']
    obtain ⟨found, others⟩ := taken
    obtain ⟨hfound, hothers⟩ := Prod.mk.inj hbare
    have hrest := h.with_frames hothers
    cases found with
    | paren | brace =>
      cases hok
      cases found' with
      | extglob => cases hfound
      | paren | brace => exact ⟨_, rfl, hrest.push ctx ctx' rfl⟩
    | extglob frame =>
      cases found' with
      | paren | brace => cases hfound
      | extglob frame' =>
        obtain rfl : frame' = frame := by cases hfound; rfl
        dsimp only at hok ⊢
        rw [closeExtglob_eq_map] at hok ⊢
        obtain ⟨closing, hclosed, rfl⟩ := exists_of_map_eq_ok hok
        obtain ⟨closing', hclosed'⟩ : ∃ closing', (if frame'.kind = .negate then
            ({ t' with frames := others' } : Tokenizer).negateClosing ctx' tail' frame'
              else .ok (frame'.kind.closing [])) = .ok closing' := by
          split at hclosed
          case isTrue hkind =>
            rw [if_pos hkind]
            exact hclosing _ _ _ _ htakes hkind hclosed
          case isFalse hkind => exact ⟨_, if_neg hkind⟩
        rw [hclosed']
        exact ⟨_, rfl, hrest.extglobClosed ..⟩

end

end Alike

end Tokenizer

end PathGlob.Pattern
