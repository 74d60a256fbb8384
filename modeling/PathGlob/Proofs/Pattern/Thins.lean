import Mathlib.Data.List.Forall2
import PathGlob.Proofs.Pattern.Brackets
import PathGlob.Proofs.Pattern.Globstar
import PathGlob.Proofs.Pattern.Shift

/-!
# `PathGlob.Proofs.Pattern.Thins`: tokens that differ in the guards of stars

The guard of a star asks for one more character, unless another star follows: the tokenizer looks
ahead for a globstar before it knows whether there may be one. `Thins` says that two lists of tokens
differ in nothing but this, and `Parallels` that two states do, which have no groups open but
braces. Whatever the tokenizer does next, done to both states, keeps them parallel, up to the end
of the pattern (`Parallels.finish`).
-/

set_option autoImplicit false

namespace PathGlob.Pattern

open Regex

/-! ### Tokens -/

/-- The source of a token that a star gets a guard behind. -/
def TokenKind.leadSource? : TokenKind → Option (List Char)
  | .bos => some []
  | .slash => some ['/']
  | .dot => some Fragment.dot
  | _ => none

theorem TokenKind.leadSource?_eq_none {kind : TokenKind} (h : kind.needsGuard = false) :
    kind.leadSource? = none := by
  cases kind <;> first | rfl | cases h

theorem TokenKind.ne_of_needsGuard {kind : TokenKind} (h : kind.needsGuard = true) :
    kind ≠ .star ∧ kind ≠ .text := by
  cases kind <;> simp [needsGuard, beginsSegment] at h ⊢

/-- The token is no globstar, no run of more than two stars and no parenthesis. -/
structure Token.IsOrdinary (token : Token) : Prop where
  not_globstar : token.kind ≠ .globstar
  not_paren : token.kind ≠ .paren
  isStarRun : token.isStarRun = false

/-- The token is ordinary, and it has no guard. -/
structure Token.IsCommon (token : Token) : Prop extends token.IsOrdinary where
  source_eq : ∀ source, token.kind.leadSource? = some source → token.source = source

theorem Token.IsCommon.of_isOrdinary {token : Token} (h : token.IsOrdinary)
    (hneeds : token.kind.needsGuard = false) : token.IsCommon where
  toIsOrdinary := h
  source_eq lead hlead := by
    rw [TokenKind.leadSource?_eq_none hneeds] at hlead
    cases hlead

theorem Token.isCommon_ofSource {kind : TokenKind} (hglobstar : kind ≠ .globstar)
    (hparen : kind ≠ .paren) (hneeds : kind.needsGuard = false) (value source : List Char) :
    (Token.ofSource kind value source).IsCommon :=
  .of_isOrdinary ⟨hglobstar, hparen, rfl⟩ hneeds

theorem Token.IsCommon.behind {token : Token} (h : token.IsCommon) (previous : Option Nat) :
    { token with previous }.IsCommon :=
  ⟨⟨h.not_globstar, h.not_paren, h.isStarRun⟩, h.source_eq⟩

/-- The second tokens are the first ones with all the guards of stars complete. With `first`, the
tokens are those from the beginning on. -/
inductive Thins (ctx : Context) : Bool → List Token → List Token → Prop where
  | nil {first : Bool} : Thins ctx first [] []
  | common {first : Bool} {token : Token} {tokens tokens' : List Token} (htoken : token.IsCommon)
      (hfirst : token.kind = .bos → first = true) (h : Thins ctx false tokens tokens') :
      Thins ctx first (token :: tokens) (token :: tokens')
  | guarded {first : Bool} {lead star : Token} {oneChar : List Char} {tokens tokens' : List Token}
      (hlead : lead.IsCommon) (hneeds : lead.kind.needsGuard = true)
      (hfirst : lead.kind = .bos → first = true)
      (hone : oneChar = [] ∨ oneChar = Fragment.oneChar) (hstar : star.IsCommon)
      (hkind : star.kind = .star) (hsource : star.source = ctx.star)
      (h : Thins ctx false tokens tokens') :
      Thins ctx first
        (lead.guarded (ctx.starGuard lead.kind ++ oneChar) :: star :: tokens)
        (lead.guarded (ctx.starGuard lead.kind ++ Fragment.oneChar) :: star :: tokens')

namespace Thins

variable {ctx : Context} {first : Bool} {tokens tokens' : List Token}

/-- What does not depend on the guards. -/
theorem map_eq {α : Type} {f : Token → α} (hf : ∀ token guard, f (token.guarded guard) = f token)
    (h : Thins ctx first tokens tokens') : tokens'.map f = tokens.map f := by
  induction h with
  | nil => rfl
  | common _ _ _ ih => rw [List.map_cons, List.map_cons, ih]
  | guarded _ _ _ _ _ _ _ _ ih => simp only [List.map_cons, hf, ih]

theorem length_eq (h : Thins ctx first tokens tokens') : tokens'.length = tokens.length := by
  have := congrArg List.length (h.map_eq (f := fun _ => ()) fun _ _ => rfl)
  simpa using this

theorem append {added added' : List Token} (h : Thins ctx first tokens tokens')
    (hadded : Thins ctx (first && tokens.isEmpty) added added') :
    Thins ctx first (tokens ++ added) (tokens' ++ added') := by
  induction h with
  | nil => simpa using hadded
  | common htoken hfirst _ ih => exact .common htoken hfirst (ih (by simpa using hadded))
  | guarded hlead hneeds hfirst hone hstar hkind hsource _ ih =>
    exact .guarded hlead hneeds hfirst hone hstar hkind hsource (ih (by simpa using hadded))

theorem concat {token : Token} (h : Thins ctx first tokens tokens') (htoken : token.IsCommon)
    (hbos : token.kind ≠ .bos) : Thins ctx first (tokens ++ [token]) (tokens' ++ [token]) :=
  h.append (.common htoken (fun heq => absurd heq hbos) .nil)

/-- Unless it is a star, the last token is the same. -/
theorem exists_last (h : Thins ctx first tokens tokens') {before : List Token} {last : Token}
    (htokens : tokens = before ++ [last]) (hlast : last.kind ≠ .star) :
    ∃ before', tokens' = before' ++ [last] ∧ Thins ctx first before before' ∧ last.IsCommon ∧
      (last.kind = .bos → (first && before.isEmpty) = true) := by
  induction h generalizing before with
  | nil => exact absurd htokens (by simp)
  | @common first token tokens tokens' htoken hfirst h ih =>
    cases before with
    | nil =>
      obtain ⟨rfl, rfl⟩ : token = last ∧ tokens = [] := by simpa using htokens
      cases h
      exact ⟨[], rfl, .nil, htoken, by simpa using hfirst⟩
    | cons a before =>
      obtain ⟨rfl, hrest⟩ : token = a ∧ tokens = before ++ [last] := by simpa using htokens
      obtain ⟨before', rfl, hbefore, hcommon, hbos⟩ := ih hrest
      exact ⟨token :: before', rfl, .common htoken hfirst hbefore, hcommon, by simpa using hbos⟩
  | @guarded first lead star one tokens tokens' hlead hneeds hfirst hone hstar hkind hsource h ih =>
    match before, htokens with
    | [_], htokens =>
      obtain ⟨-, rfl, -⟩ : _ ∧ star = last ∧ tokens = [] := by simpa using htokens
      exact absurd hkind hlast
    | a :: b :: before, htokens =>
      obtain ⟨rfl, rfl, hrest⟩ : lead.guarded _ = a ∧ star = b ∧ tokens = before ++ [last] := by
        simpa using htokens
      obtain ⟨before', rfl, hbefore, hcommon, hbos⟩ := ih hrest
      exact ⟨_ :: star :: before', rfl,
        .guarded hlead hneeds hfirst hone hstar hkind hsource hbefore, hcommon, by simpa using hbos⟩

/-- A token of a kind that gets no guard is changed in the one list and in the other. -/
theorem modify (h : Thins ctx first tokens tokens') {place : Nat} {kind : TokenKind}
    (hkind : kindAt tokens place = some kind) (hneeds : kind.needsGuard = false)
    (hstar : kind ≠ .star) (change : Token → Token)
    (hchange : ∀ token, token.IsCommon → token.kind = kind →
      (change token).IsCommon ∧ (change token).kind ≠ .bos) :
    Thins ctx first (tokens.modify place change) (tokens'.modify place change) := by
  induction h generalizing place with
  | nil => exact absurd hkind (by simp [kindAt])
  | common htoken hfirst h ih =>
    cases place with
    | zero =>
      obtain ⟨hcommon, hbos⟩ := hchange _ htoken (by simpa [kindAt] using hkind)
      exact .common hcommon (fun heq => absurd heq hbos) h
    | succ place => exact .common htoken hfirst (ih hkind)
  | @guarded first lead star one tokens tokens' hlead hneedsLead hfirst hone hcommon hkindStar
      hsource h ih =>
    cases place with
    | zero =>
      obtain rfl : lead.kind = kind := by simpa [kindAt, Token.guarded] using hkind
      exact absurd (hneedsLead.symm.trans hneeds) (by simp)
    | succ place =>
      cases place with
      | zero =>
        obtain rfl : star.kind = kind := by simpa [kindAt] using hkind
        exact absurd hkindStar hstar
      | succ place =>
        exact .guarded hlead hneedsLead hfirst hone hcommon hkindStar hsource (ih hkind)

/-- A star stays with its guard. -/
theorem take (h : Thins ctx first tokens tokens') {n : Nat} (hn : kindAt tokens n ≠ some .star) :
    Thins ctx first (tokens.take n) (tokens'.take n) := by
  induction h generalizing n with
  | nil => simpa using Thins.nil
  | common htoken hfirst _ ih =>
    cases n with
    | zero => exact .nil
    | succ n => exact .common htoken hfirst (ih hn)
  | @guarded first lead star one tokens tokens' hlead hneeds hfirst hone hcommon hkind hsource _
      ih =>
    match n with
    | 0 => exact .nil
    | 1 => exact absurd (congrArg some hkind) hn
    | n + 2 => exact .guarded hlead hneeds hfirst hone hcommon hkind hsource (ih hn)

theorem isOrdinary (h : Thins ctx first tokens tokens') :
    (∀ token ∈ tokens, token.IsOrdinary) ∧ ∀ token ∈ tokens', token.IsOrdinary := by
  induction h with
  | nil => simp
  | common htoken _ _ ih =>
    have hhead := htoken.toIsOrdinary
    exact ih.imp (fun h => List.forall_mem_cons.mpr ⟨hhead, h⟩)
      fun h => List.forall_mem_cons.mpr ⟨hhead, h⟩
  | @guarded _ lead _ _ _ _ hlead _ _ _ hstar _ _ _ ih =>
    have hhead (guard : List Char) : (lead.guarded guard).IsOrdinary :=
      ⟨hlead.not_globstar, hlead.not_paren, hlead.isStarRun⟩
    have hnext := hstar.toIsOrdinary
    exact ih.imp
      (fun h => List.forall_mem_cons.mpr ⟨hhead _, List.forall_mem_cons.mpr ⟨hnext, h⟩⟩)
      fun h => List.forall_mem_cons.mpr ⟨hhead _, List.forall_mem_cons.mpr ⟨hnext, h⟩⟩

end Thins

/-- Paths are separated by slashes, and nothing is a globstar. -/
structure Context.IgnoresGlobstars (ctx : Context) : Prop where
  windows : ctx.options.windows = false
  bash : ctx.options.bash = false
  noGlobstar : ctx.options.noGlobstar = true
  strictBrackets : ctx.options.strictBrackets = false

/-! ### States -/

/-- Brace groups that differ in the length of the source before them. -/
def Frame.SameBrace (frame frame' : Frame) : Prop :=
  ∃ brace size, frame = .brace brace ∧ frame' = .brace { brace with outputSize := size }

/-- The texts of a range are found by the kinds and the texts of the tokens. -/
theorem operandTexts?_congr (expectText : Bool) {tokens tokens' : List Token}
    (h : tokens'.map (fun token => (token.kind, token.value)) =
      tokens.map fun token => (token.kind, token.value)) :
    operandTexts? expectText tokens' = operandTexts? expectText tokens := by
  induction tokens generalizing expectText tokens' with
  | nil => rw [List.map_eq_nil_iff.mp h]
  | cons token tokens ih =>
    cases tokens' with
    | nil => exact absurd h (by simp)
    | cons token' tokens' =>
      simp only [List.map_cons, List.cons.injEq, Prod.mk.injEq] at h
      obtain ⟨⟨hkind, hvalue⟩, htokens⟩ := h
      simp only [operandTexts?, hkind, hvalue, ih _ htokens]

namespace Tokenizer

/-- The states have the same groups open, all of them braces, and the same tokens but for the
guards of stars. -/
structure Parallels (ctx : Context) (t t' : Tokenizer) : Prop where
  tokens : Thins ctx true t.tokens t'.tokens
  frames : List.Forall₂ Frame.SameBrace t.frames t'.frames
  start : t'.start = t.start
  negated : t'.negated = t.negated
  inClass : t.inClass = false
  inClass' : t'.inClass = false
  quoted : t.quoted = false
  quoted' : t'.quoted = false
  optionalGroup : t.optionalGroup = none
  optionalGroup' : t'.optionalGroup = none

section
variable {ctx : Context} {t t' : Tokenizer}

theorem any_eq_of_sameBrace {frames frames' : List Frame}
    (h : List.Forall₂ Frame.SameBrace frames frames') (test : Frame → Bool) {b : Bool}
    (htest : ∀ brace, test (.brace brace) = b) : frames.any test = frames'.any test := by
  induction h with
  | nil => rfl
  | cons hframe _ ih =>
    obtain ⟨brace, size, rfl, rfl⟩ := hframe
    rw [List.any_cons, List.any_cons, htest, htest, ih]

theorem any_eq_false_of_sameBrace {frames frames' : List Frame}
    (h : List.Forall₂ Frame.SameBrace frames frames') {test : Frame → Bool}
    (htest : ∀ brace, test (.brace brace) = false) :
    frames.any test = false ∧ frames'.any test = false := by
  induction h with
  | nil => exact ⟨rfl, rfl⟩
  | cons hframe _ ih =>
    obtain ⟨brace, size, rfl, rfl⟩ := hframe
    simp [htest, ih]

namespace Parallels

variable (h : Parallels ctx t t')
include h

theorem lastPlace_eq : t'.lastPlace = t.lastPlace := by
  rw [lastPlace, lastPlace, h.tokens.length_eq]

theorem kind_last : t'.last.kind = t.last.kind := by
  have hkinds := h.tokens.map_eq (f := Token.kind) fun _ _ => rfl
  have hlast := congrArg List.getLast? hkinds
  rw [List.getLast?_map, List.getLast?_map] at hlast
  rw [last, last]
  cases ht : t.tokens.getLast? <;> cases ht' : t'.tokens.getLast? <;> simp_all

theorem isOrdinary_last : t.last.IsOrdinary ∧ t'.last.IsOrdinary := by
  have hlast {tokens : List Token} (htokens : ∀ token ∈ tokens, token.IsOrdinary) :
      (tokens.getLast?.getD .bos).IsOrdinary := by
    cases hcase : tokens.getLast? with
    | none => exact ⟨by simp, by simp, rfl⟩
    | some token => exact htokens token (List.mem_of_getLast? hcase)
  exact h.tokens.isOrdinary.imp hlast hlast

theorem inExtglob : t.inExtglob = false ∧ t'.inExtglob = false :=
  any_eq_false_of_sameBrace h.frames fun _ => rfl

theorem inParen : t.inParen = false ∧ t'.inParen = false :=
  any_eq_false_of_sameBrace h.frames fun _ => rfl

theorem inBrace_eq : t'.inBrace = t.inBrace :=
  (any_eq_of_sameBrace h.frames Frame.isBrace fun _ => rfl).symm

theorem isEmpty_frames : t'.frames.isEmpty = t.frames.isEmpty := by
  have := h.frames.length_eq
  cases ht : t.frames <;> cases ht' : t'.frames <;> simp_all

/-- The tokens are all that matters of what a state has put out. -/
theorem with_tokens {tokens tokens' : List Token} (htokens : Thins ctx true tokens tokens')
    (output output' : List Char) (rebuild rebuild' : Bool) :
    Parallels ctx { t with tokens, output, rebuild }
      { t' with tokens := tokens', output := output', rebuild := rebuild' } :=
  { h with tokens := htokens }

theorem skip (n m : Nat) : Parallels ctx (t.skip n) (t'.skip m) := { h with }

theorem with_frames {frames frames' : List Frame}
    (hframes : List.Forall₂ Frame.SameBrace frames frames') :
    Parallels ctx { t with frames } { t' with frames := frames' } :=
  { h with frames := hframes }

/-- Either no group is open, or the innermost one is a brace group. -/
theorem frames_cases : (t.frames = [] ∧ t'.frames = []) ∨ ∃ brace size frames frames',
    t.frames = .brace brace :: frames ∧
      t'.frames = .brace { brace with outputSize := size } :: frames' ∧
      List.Forall₂ Frame.SameBrace frames frames' := by
  have hframes := h.frames
  generalize t.frames = frames, t'.frames = frames' at hframes
  cases hframes with
  | nil => exact .inl ⟨rfl, rfl⟩
  | cons hframe hframes =>
    obtain ⟨brace, size, rfl, rfl⟩ := hframe
    exact .inr ⟨brace, size, _, _, rfl, rfl, hframes⟩

/-- Both states go on with the same token. -/
theorem push (other : Context) {token : Token} (htoken : token.IsCommon)
    (hbos : token.kind ≠ .bos) :
    Parallels ctx (t.push ctx token) (t'.push (ctx.over other) token) := by
  obtain ⟨hlast, hlast'⟩ := h.isOrdinary_last
  rw [push_eq ctx h.inExtglob.1 fun heq => absurd heq hlast.not_globstar,
    push_eq (ctx.over other) h.inExtglob.2 fun heq => absurd heq hlast'.not_globstar]
  refine h.with_tokens ?_ _ _ _ _
  unfold pushed
  rw [h.kind_last, h.lastPlace_eq]
  split
  case isTrue htext =>
    have hkind : t.last.kind = .text := by simp at htext; exact htext.1
    have hne : t.tokens ≠ [] := by
      intro hnil
      simp [last, hnil] at hkind
    obtain ⟨before, htokens⟩ := exists_tokens_eq hne
    have hplace : kindAt t.tokens t.lastPlace = some .text := by
      rw [kindAt, getElem?_lastPlace hne, Option.map_some, hkind]
    refine h.tokens.modify hplace rfl (by simp) _ fun found hfound hfoundKind =>
      ⟨.of_isOrdinary ⟨hfound.not_globstar, hfound.not_paren, hfound.isStarRun⟩ ?_, ?_⟩
    · exact hfoundKind ▸ rfl
    · simp [hfoundKind]
  case isFalse =>
    exact h.tokens.concat (htoken.behind _) hbos

/-- Both states go on with the same text. -/
theorem pushText (other : Context) (value source : List Char) :
    Parallels ctx (t.pushText ctx value source) (t'.pushText (ctx.over other) value source) :=
  h.push other (Token.isCommon_ofSource (by simp) (by simp) rfl _ _) (by simp)

/-- The last token is changed in both states, unless it is a star. -/
theorem modifyLast (change : Token → Token) (hstar : t.last.kind ≠ .star)
    (hne : t.tokens ≠ []) (hchange : (change t.last).IsCommon ∧ (change t.last).kind ≠ .bos)
    (output output' : List Char) :
    Parallels ctx { t with tokens := t.tokens.modify t.lastPlace change, output }
      { t' with tokens := t'.tokens.modify t'.lastPlace change, output := output' } := by
  obtain ⟨before, htokens⟩ := exists_tokens_eq hne
  obtain ⟨before', htokens', hbefore, -, -⟩ := h.tokens.exists_last htokens hstar
  refine h.with_tokens ?_ _ _ _ _
  rw [tokens_modifyLast htokens, tokens_modifyLast htokens']
  exact hbefore.concat hchange.1 hchange.2

theorem dot (other : Context) :
    Parallels ctx (t.dot ctx) (t'.dot (ctx.over other)) := by
  unfold Tokenizer.dot
  rw [h.inBrace_eq, h.kind_last, h.isEmpty_frames]
  split
  case isTrue hdots =>
    rw [Bool.and_eq_true, decide_eq_true_eq] at hdots
    have hne : t.tokens ≠ [] := by
      intro hnil
      simp [last, hnil] at hdots
    have hlast := h.modifyLast (fun token => { token with
      kind := .dots, value := ['.', '.'], source? := some (Fragment.dot ++ Fragment.dot) })
      (by simp [hdots.2]) hne
      ⟨⟨⟨by simp, by simp, h.isOrdinary_last.1.isStarRun⟩, by simp [TokenKind.leadSource?]⟩,
        by simp⟩
      (t.output ++ Fragment.dot) (t'.output ++ Fragment.dot)
    obtain ⟨hnil, hnil'⟩ | ⟨brace, size, frames, frames', hcons, hcons', hframes⟩ := h.frames_cases
    · simp [Tokenizer.inBrace, hnil] at hdots
    · have hnote (output : List Char) (tokens : List Token) (frames : List Frame)
          (brace : BraceFrame) (s : Tokenizer) (hs : s.frames = .brace brace :: frames) :
          ({ s with output, tokens } : Tokenizer).noteDots =
            { s with output, tokens, frames := .brace { brace with dots := true } :: frames } := by
        simp [noteDots, modifyFrame, hs]
      have := hlast.with_frames (.cons ⟨{ brace with dots := true }, size, rfl, rfl⟩ hframes)
      rw [← hnote _ _ _ _ _ hcons, ← hnote _ _ _ _ _ hcons'] at this
      exact this
  case isFalse =>
    refine h.push other ⟨⟨?_, ?_, rfl⟩, ?_⟩ ?_
    all_goals split <;> simp [TokenKind.leadSource?, Token.source, Token.ofSource]

theorem qmark (other : Context) (hparen : t.rest.head? ≠ some '(')
    (hparen' : t'.rest.head? ≠ some '(') :
    Parallels ctx (t.qmark ctx) (t'.qmark (ctx.over other)) := by
  have hopens : t.opensExtglob ctx = false := opensExtglob_eq ctx hparen
  have hopens' : t'.opensExtglob (ctx.over other) = false := opensExtglob_eq _ hparen'
  unfold Tokenizer.qmark
  simp only [hopens, hopens', Bool.and_false, Bool.false_eq_true, if_false, h.kind_last,
    if_neg h.isOrdinary_last.1.not_paren]
  exact h.push other (Token.isCommon_ofSource (by simp) (by simp) rfl _ _) (by simp)

theorem comma (other : Context) : Parallels ctx (t.comma ctx) (t'.comma (ctx.over other)) := by
  have hcommon (source : List Char) : (Token.ofSource .comma [','] source).IsCommon :=
    Token.isCommon_ofSource (by simp) (by simp) rfl _ _
  unfold Tokenizer.comma
  rw [h.tokens.length_eq]
  obtain ⟨hnil, hnil'⟩ | ⟨brace, size, frames, frames', hcons, hcons', hframes⟩ := h.frames_cases
  · rw [hnil, hnil']
    exact h.push other (hcommon _) (by simp)
  · rw [hcons, hcons']
    exact (h.with_frames (.cons ⟨_, size, rfl, rfl⟩ hframes)).push other (hcommon _) (by simp)

theorem openBrace (other : Context) :
    Parallels ctx (t.openBrace ctx) (t'.openBrace (ctx.over other)) := by
  unfold Tokenizer.openBrace
  rw [h.tokens.length_eq]
  exact (h.with_frames (.cons ⟨_, Text.byteSize t'.output, rfl, rfl⟩ h.frames)).push other
    (Token.isCommon_ofSource (by simp) (by simp) rfl _ _) (by simp)

/-- What a brace group has for a range is in the texts of its tokens. -/
theorem rangeSource?_eq (other : Context) (brace : BraceFrame) (size : Nat) :
    t'.rangeSource? (ctx.over other) { brace with outputSize := size } =
      t.rangeSource? ctx brace := by
  have hmap := h.tokens.map_eq (f := fun token => (token.kind, token.value)) fun _ _ => rfl
  have hdrop := congrArg (List.drop (brace.token + 1)) hmap
  rw [← List.map_drop, ← List.map_drop] at hdrop
  unfold rangeSource?
  rw [operandTexts?_congr true hdrop]
  rfl

/-- A brace group that is only text: the token of the opening brace is changed. -/
theorem literalBrace (other : Context) {brace : BraceFrame} (size : Nat)
    (hplace : kindAt t.tokens brace.token = some .brace) :
    Parallels ctx (t.literalBrace ctx brace)
      (t'.literalBrace (ctx.over other) { brace with outputSize := size }) := by
  have htokens := h.tokens.modify hplace rfl (by simp) (fun token =>
    { token with value := ['\\', '{'], source? := some ['\\', '{'] })
    fun token htoken hkind =>
      ⟨.of_isOrdinary ⟨htoken.not_globstar, htoken.not_paren, htoken.isStarRun⟩ (hkind ▸ rfl),
        by simp [hkind]⟩
  exact (h.with_tokens htokens _ _ _ _).push other
    (Token.isCommon_ofSource (by simp) (by simp) rfl _ _) (by simp)

theorem closeBrace (other : Context)
    (hfits : ∀ brace, Frame.brace brace ∈ t.frames → kindAt t.tokens brace.token = some .brace) :
    Parallels ctx (t.closeBrace ctx) (t'.closeBrace (ctx.over other)) := by
  have hcommon (value source : List Char) : (Token.ofSource .brace value source).IsCommon :=
    Token.isCommon_ofSource (by simp) (by simp) rfl _ _
  unfold Tokenizer.closeBrace
  obtain ⟨hnil, hnil'⟩ | ⟨brace, size, frames, frames', hcons, hcons', hframes⟩ := h.frames_cases
  · rw [hnil, hnil']
    exact h.pushText other _ _
  · have hplace : kindAt t.tokens brace.token = some .brace := hfits brace (by simp [hcons])
    have hclosed := h.with_frames hframes
    simp only [hcons, hcons', takeFrame?, Frame.isBrace, if_true]
    rw [hclosed.rangeSource?_eq other brace size]
    generalize (if (brace.dots && !brace.comma) = true then
      ({ t with frames } : Tokenizer).rangeSource? ctx brace else none) = range?
    cases range? with
    | some source =>
      exact (hclosed.with_tokens (h.tokens.take (n := brace.token) (by simp [hplace])) _ _ _ _).push
        other (hcommon _ _) (by simp)
    | none =>
      dsimp only
      split
      · exact hclosed.push other (hcommon _ _) (by simp)
      · exact hclosed.literalBrace other size hplace

/-- A guard is put behind the last token, complete in the second state, and a star follows. -/
theorem guard (other : Context) (hne : t.tokens ≠ []) (hneeds : t.last.kind.needsGuard = true)
    {oneChar : List Char} (hone : oneChar = [] ∨ oneChar = Fragment.oneChar) :
    Parallels ctx
      ((t.guardLast (ctx.starGuard t.last.kind ++ oneChar)).push ctx
        (.ofSource .star ['*'] ctx.star))
      ((t'.guardLast (ctx.starGuard t.last.kind ++ Fragment.oneChar)).push (ctx.over other)
        (.ofSource .star ['*'] ctx.star)) := by
  have hlast := h.isOrdinary_last.1
  have hkind := TokenKind.ne_of_needsGuard hneeds
  obtain ⟨before, htokens⟩ := exists_tokens_eq hne
  obtain ⟨before', htokens', hbefore, hcommon, hbos⟩ := h.tokens.exists_last htokens hkind.1
  have hpush (ctx : Context) {t : Tokenizer} {before : List Token} {last : Token}
      (htokens : t.tokens = before ++ [last]) (hextglob : t.inExtglob = false)
      (hkind : last.kind ≠ .globstar ∧ last.kind ≠ .text) (guard star : List Char) :
      (t.guardLast guard).push ctx (.ofSource .star ['*'] star) =
        { t with
          output := t.output ++ guard ++ star
          tokens := before ++ [last.guarded guard,
            { Token.ofSource .star ['*'] star with previous := some before.length }] } := by
    have hguarded : (t.guardLast guard).tokens = before ++ [last.guarded guard] :=
      tokens_modifyLast htokens
    have hlast : (t.guardLast guard).last = last.guarded guard := by
      rw [Tokenizer.last, hguarded, List.getLast?_concat]
      rfl
    have hglobstar : (t.guardLast guard).last.kind ≠ .globstar := by
      rw [hlast]
      exact hkind.1
    rw [push_eq (t := t.guardLast guard) ctx hextglob fun heq => absurd heq hglobstar,
      pushed_eq hguarded, if_neg (by simp [Token.guarded, hkind.2])]
    rfl
  rw [hpush ctx htokens h.inExtglob.1 ⟨hlast.not_globstar, hkind.2⟩,
    hpush (ctx.over other) htokens' h.inExtglob.2 ⟨hlast.not_globstar, hkind.2⟩, hbefore.length_eq]
  refine h.with_tokens (hbefore.append ?_) _ _ _ _
  exact .guarded hcommon hneeds hbos hone
    ((Token.isCommon_ofSource (by simp) (by simp) rfl ['*'] ctx.star).behind _) rfl rfl .nil

end Parallels

end

/-! ### The end of the pattern -/

section
variable {ctx : Context} {t t' : Tokenizer} (other : Context)

/-- A token that open groups refer to is changed in both states. -/
theorem Parallels.setSource (h : Parallels ctx t t') {place : Nat} {kind : TokenKind}
    (hkind : kindAt t.tokens place = some kind) (hreferred : kind = .brace ∨ kind = .comma)
    (source : List Char) :
    Parallels ctx (t.setSource place source) (t'.setSource place source) := by
  have hplain : kind.needsGuard = false ∧ kind ≠ .star ∧ kind ≠ .bos := by
    obtain rfl | rfl := hreferred <;> simp [TokenKind.needsGuard, TokenKind.beginsSegment]
  have htokens := h.tokens.modify hkind hplain.1 hplain.2.1
    (fun token => { token with source? := some source }) fun token htoken hkind =>
      ⟨.of_isOrdinary ⟨htoken.not_globstar, htoken.not_paren, htoken.isStarRun⟩ (hkind ▸ hplain.1),
        fun hbos => hplain.2.2 (hkind.symm.trans hbos)⟩
  exact h.with_tokens htokens _ _ _ _

theorem kindAt_foldl_setSource (t : Tokenizer) (places : List Nat) (source : List Char) (i : Nat) :
    kindAt (places.foldl (fun t place => t.setSource place source) t).tokens i =
      kindAt t.tokens i := by
  induction places generalizing t with
  | nil => rfl
  | cons place places ih => exact (ih _).trans (kindAt_setSource t place source i)

/-- What opens a group stays of its kind when it becomes text. -/
theorem kindAt_endFrame (t : Tokenizer) (frame : Frame) (i : Nat) :
    kindAt (t.endFrame frame).tokens i = kindAt t.tokens i := by
  cases frame with
  | paren place => exact kindAt_setSource ..
  | extglob frame =>
    exact (kindAt_setSource ..).trans (kindAt_modify_of_kind_eq
      (fun token => { token with source? := some (Regex.escape token.value) }) (fun _ => rfl) ..)
  | brace frame => exact (kindAt_foldl_setSource ..).trans (kindAt_setSource ..)

theorem Parallels.setSources {places : List Nat} (source : List Char)
    (h : Parallels ctx t t') (hkind : ∀ place ∈ places, kindAt t.tokens place = some .comma) :
    Parallels ctx (places.foldl (fun t place => t.setSource place source) t)
      (places.foldl (fun t place => t.setSource place source) t') := by
  induction places generalizing t t' with
  | nil => exact h
  | cons place places ih =>
    rw [List.forall_mem_cons] at hkind
    refine ih (h.setSource hkind.1 (.inr rfl) source) fun other hother => ?_
    rw [kindAt_setSource]
    exact hkind.2 other hother

/-- What a brace group refers to. -/
def Refers (t : Tokenizer) (brace : BraceFrame) : Prop :=
  kindAt t.tokens brace.token = some .brace ∧
    ∀ place ∈ brace.commas, kindAt t.tokens place = some .comma

theorem Parallels.endFrames {frames frames' : List Frame}
    (hframes : List.Forall₂ Frame.SameBrace frames frames') (h : Parallels ctx t t')
    (hrefers : ∀ brace, Frame.brace brace ∈ frames → t.Refers brace) :
    Parallels ctx (frames.foldl endFrame t) (frames'.foldl endFrame t') := by
  induction hframes generalizing t t' with
  | nil => exact h
  | cons hframe _ ih =>
    obtain ⟨brace, size, rfl, rfl⟩ := hframe
    obtain ⟨hopening, hcommas⟩ := hrefers brace List.mem_cons_self
    have hopened := h.setSource hopening (.inl rfl) ['\\', '{']
    refine ih (hopened.setSources [','] fun place hplace => ?_) fun other hother => ?_
    · rw [kindAt_setSource]
      exact hcommas place hplace
    · have hkinds := kindAt_endFrame t (.brace brace)
      obtain ⟨hopening, hcommas⟩ := hrefers other (List.mem_cons_of_mem _ hother)
      exact ⟨(hkinds _).trans hopening, fun place hplace => (hkinds _).trans (hcommas place hplace)⟩

theorem Parallels.allowSlash (h : Parallels ctx t t') :
    Parallels ctx (t.allowSlash ctx) (t'.allowSlash (ctx.over other)) := by
  by_cases hends :
      (!ctx.options.strictSlashes && (t.last.kind = .star || t.last.kind = .bracket)) = true
  · have hpush : t'.allowSlash (ctx.over other) = t'.push (ctx.over other)
        (.ofSource .maybeSlash [] (Fragment.slash ctx.windows ++ ['?'])) := by
      unfold Tokenizer.allowSlash
      rw [h.kind_last]
      exact if_pos hends
    rw [hpush, Tokenizer.allowSlash, if_pos hends]
    exact h.push other (Token.isCommon_ofSource (by simp) (by simp) rfl _ _) (by simp)
  · have hsame : t'.allowSlash (ctx.over other) = t' := by
      unfold Tokenizer.allowSlash
      rw [h.kind_last]
      exact if_neg hends
    rw [hsame, Tokenizer.allowSlash, if_neg hends]
    exact h

/-- Outside of brackets, the groups and the tokens fit together. -/
theorem Situation.layout (h : t.Situation ctx) (hclass : t.inClass = false) :
    Layout ctx.options.capture t.rebuild t.frames t.tokens := by
  cases h with
  | ready h => exact h.layout
  | bracketing before bracket h => exact absurd (h.inClass.symm.trans hclass) (by simp)
  | ended _ _ hlayout => exact hlayout
  | cut _ hclass' => exact absurd (hclass'.symm.trans hclass) (by simp)

theorem Parallels.finish (hctx : ctx.IgnoresGlobstars) (h : Parallels ctx t t')
    (hsituation : t.Situation ctx) : ∃ s s', t.finish ctx = .ok s ∧
      t'.finish (ctx.over other) = .ok s' ∧ Thins ctx true s.tokens s'.tokens ∧
        s'.negated = s.negated := by
  -- No bracket is open. Groups that are become text in both states.
  have hends : ∃ s s', t.endFrames ctx = .ok s ∧ t'.endFrames (ctx.over other) = .ok s' ∧
      Parallels ctx s s' := by
    obtain ⟨hnil, hnil'⟩ | ⟨brace, size, frames, frames', hcons, hcons', hframes⟩ := h.frames_cases
    · exact ⟨t, t', by rw [Tokenizer.endFrames, hnil], by rw [Tokenizer.endFrames, hnil'], h⟩
    · have hrefers (brace : BraceFrame) (hbrace : .brace brace ∈ t.frames) : t.Refers brace := by
        obtain ⟨⟨token, htoken, hkind, -⟩, hcommas, -⟩ :=
          (hsituation.layout h.inClass).fits _ hbrace
        exact ⟨Option.map_eq_some_iff.mpr ⟨token, htoken, hkind⟩, hcommas⟩
      have hopen := h.endFrames h.frames hrefers
      exact ⟨{ t.frames.foldl endFrame t with frames := [], rebuild := true },
        { t'.frames.foldl endFrame t' with frames := [], rebuild := true },
        by simp [Tokenizer.endFrames, hcons, hctx.strictBrackets],
        by simp [Tokenizer.endFrames, hcons', Context.over, hctx.strictBrackets],
        { hopen with frames := .nil }⟩
  obtain ⟨s, s', hs, hs', hparallels⟩ := hends
  have hallow := hparallels.allowSlash other
  refine ⟨_, _, finish_of_endFrames _ h.inClass hs, finish_of_endFrames _ h.inClass' hs', ?_, ?_⟩
  · split <;> split <;> exact hallow.tokens
  · split <;> split <;> exact hallow.negated

end

end Tokenizer

end PathGlob.Pattern
