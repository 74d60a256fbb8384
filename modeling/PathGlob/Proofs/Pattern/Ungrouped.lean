import PathGlob.Pattern.Parse

/-!
# `PathGlob.Proofs.Pattern.Ungrouped`: patterns without groups, character by character

In a pattern that opens no group, begins with no negation and has no globstar, each
character adds its own source to what is there, and that source depends on the kind of the
last token only. `Context.textSource` is this translation as a function of the text, and
`Tokenizer.run_ungrouped` says that the tokenizer computes it.

The tokenizer keeps more than a kind. `Tokenizer.Quiet` collects what has to hold of the
rest of its state for the kind to be enough, and every step preserves it.
-/

set_option autoImplicit false

namespace PathGlob.Pattern

open Regex

/-! ### The translation as a function of the text -/

namespace TokenKind

/-- The kind of the last token once the character has been read. -/
def after (kind : TokenKind) (c : Char) : TokenKind :=
  if c = '/' then .slash
  else if c = '.' then if kind.beginsSegment then .dot else .text
  else if c = '?' then .qmark
  else if c = '*' then .star
  else if c = ',' then .comma
  else if c = '+' then .plus
  else .text

/-- A star after a token of this kind needs a guard. -/
def needsGuard (kind : TokenKind) : Bool := kind.beginsSegment || kind = .dot

/-- The character, with what stands next to it, opens no group, negates nothing and is no
part of a leading `./` or of a globstar. -/
def Admits (kind : TokenKind) (c : Char) (next : Option Char) : Prop :=
  (c = '/' ∨ isStructural c = false) ∧ (kind = .bos → c ≠ '!') ∧
    (kind = .bos → c = '.' → next ≠ some '/') ∧
    (kind.needsGuard = true → c = '*' → next ≠ some '*')

/-- All characters of the text are admitted where they stand, given what comes after the
text. -/
def AdmitsAll (rest : List Char) : TokenKind → List Char → Prop
  | _, [] => True
  | kind, c :: more => kind.Admits c (more ++ rest).head? ∧ AdmitsAll rest (kind.after c) more

theorem AdmitsAll.drop {rest : List Char} {kind : TokenKind} {a b : List Char}
    (h : AdmitsAll rest kind (a ++ b)) : AdmitsAll rest (a.foldl after kind) b := by
  induction a generalizing kind with
  | nil => exact h
  | cons c a ih => exact ih h.2

end TokenKind

namespace Context

/-- The source of a star that is not the second of two. -/
def starOutput (ctx : Context) : List Char :=
  if ctx.options.bash then
    if ctx.options.capture then '(' :: Fragment.anything ++ [')'] else Fragment.anything
  else ctx.star

/-- The guard of a star after a token of the given kind. -/
def starGuard (ctx : Context) (kind : TokenKind) : List Char :=
  if kind = .dot then Fragment.noDotSegment ctx.windows else ctx.dotGuard

/-- What a character adds to the source. -/
def charSource (ctx : Context) (kind : TokenKind) (c : Char) : List Char :=
  if c = '/' then Fragment.slash ctx.windows
  else if c = '?' then
    if !kind.beginsSegment then Fragment.anyChar ctx.windows
    else if ctx.options.dot then
      Fragment.noDotsSegment ctx.windows ++ Fragment.anyChar ctx.windows
    else Fragment.anyCharNoDot ctx.windows
  else if c = '*' then
    if kind = .star then []
    else if kind.needsGuard then ctx.starGuard kind ++ Fragment.oneChar ++ ctx.starOutput
    else ctx.starOutput
  else escapeChar c

/-- What a text adds to the source. -/
def textSource (ctx : Context) : TokenKind → List Char → List Char
  | _, [] => []
  | kind, c :: text => ctx.charSource kind c ++ textSource ctx (kind.after c) text

theorem textSource_append (ctx : Context) (kind : TokenKind) (a b : List Char) :
    ctx.textSource kind (a ++ b) =
      ctx.textSource kind a ++ ctx.textSource (a.foldl TokenKind.after kind) b := by
  induction a generalizing kind with
  | nil => rfl
  | cons c a ih => simp only [List.cons_append, textSource, ih, List.append_assoc, List.foldl_cons]

end Context

theorem isStructural_of_not_isSpecial {c : Char} (h : isSpecial c = false) :
    isStructural c = false := by
  simp only [isSpecial, isStructural, List.contains_eq_mem, decide_eq_false_iff_not,
    List.mem_cons, List.not_mem_nil, or_false, not_or] at h ⊢
  simp [h]

theorem ne_of_not_isSpecial {c d : Char} (h : isSpecial c = false) (hd : isSpecial d = true) :
    c ≠ d := by
  rintro rfl
  exact absurd (h.symm.trans hd) Bool.false_ne_true

/-- Plain text is read up to the next character with a meaning of its own. -/
theorem isSpecial_of_mem_run {text : List Char} {c : Char}
    (h : c ∈ text.takeWhile fun d => !isSpecial d) : isSpecial c = false := by
  simpa using List.all_eq_true.mp List.all_takeWhile c h

/-- A character without a meaning in patterns has none in sources either. -/
theorem isMeta_of_not_isSpecial {c : Char} (h : isSpecial c = false) : isMeta c = false := by
  simp only [isSpecial, isMeta, List.contains_eq_mem, decide_eq_false_iff_not,
    List.mem_cons, List.not_mem_nil, or_false, not_or] at h ⊢
  simp [h]

theorem escapeChar_of_not_isSpecial {c : Char} (h : isSpecial c = false) : escapeChar c = [c] := by
  rw [escapeChar, isMeta_of_not_isSpecial h]
  rfl

theorem TokenKind.after_of_not_isSpecial {c : Char} (h : isSpecial c = false) (kind : TokenKind) :
    kind.after c = .text := by
  simp only [isSpecial, List.contains_eq_mem, decide_eq_false_iff_not, List.mem_cons,
    List.not_mem_nil, or_false, not_or] at h
  simp [TokenKind.after, h]

theorem Context.charSource_of_not_isSpecial {c : Char} (h : isSpecial c = false) (ctx : Context)
    (kind : TokenKind) : ctx.charSource kind c = [c] := by
  have hne : c ≠ '/' ∧ c ≠ '?' ∧ c ≠ '*' := by
    refine ⟨?_, ?_, ?_⟩ <;> rintro rfl <;> exact absurd h (by decide)
  rw [charSource, if_neg hne.1, if_neg hne.2.1, if_neg hne.2.2, escapeChar_of_not_isSpecial h]

/-- Plain text is its own source. -/
theorem Context.textSource_plain (ctx : Context) (kind : TokenKind) {text : List Char}
    (h : ∀ c ∈ text, isSpecial c = false) : ctx.textSource kind text = text := by
  induction text generalizing kind with
  | nil => rfl
  | cons c text ih =>
    rw [textSource, charSource_of_not_isSpecial (h c List.mem_cons_self),
      ih _ fun d hd => h d (List.mem_cons_of_mem c hd)]
    rfl

theorem TokenKind.foldl_after_plain {text : List Char} (h : ∀ c ∈ text, isSpecial c = false) :
    text.foldl TokenKind.after .text = .text := by
  induction text with
  | nil => rfl
  | cons c text ih =>
    rw [List.foldl_cons, after_of_not_isSpecial (h c List.mem_cons_self),
      ih fun d hd => h d (List.mem_cons_of_mem c hd)]

/-! ### The state in between -/

theorem modify_append_length (before after : List Token) (token : Token)
    (change : Token → Token) :
    (before ++ token :: after).modify before.length change = before ++ change token :: after := by
  induction before with
  | nil => rfl
  | cons first before ih => simp [ih]

namespace Tokenizer

/-- The tokens once a token has been added, unless the last one is a globstar. -/
def pushed (t : Tokenizer) (token : Token) : List Token :=
  if t.last.kind = .text && token.kind = .text then
    t.tokens.modify t.lastPlace fun last => { last with
      value := last.value ++ token.value
      source? := some (last.source ++ token.source) }
  else t.tokens ++ [{ token with previous := some t.lastPlace }]

/-- The tokens once a token has been added, in terms of the last one. -/
theorem pushed_eq {t : Tokenizer} {before : List Token} {last : Token}
    (h : t.tokens = before ++ [last]) (token : Token) : t.pushed token =
      if last.kind = .text && token.kind = .text then
        before ++ [{ last with
          value := last.value ++ token.value
          source? := some (last.source ++ token.source) }]
      else before ++ [last, { token with previous := some before.length }] := by
  have hlast : t.last = last := by rw [Tokenizer.last, h, List.getLast?_concat]; rfl
  have hplace : t.lastPlace = before.length := by simp [lastPlace, h]
  rw [pushed, hlast, hplace, h, modify_append_length]
  split
  · rfl
  · rw [List.append_assoc]
    rfl

theorem exists_tokens_eq {t : Tokenizer} (h : t.tokens ≠ []) :
    ∃ before, t.tokens = before ++ [t.last] := by
  refine ⟨t.tokens.dropLast, ?_⟩
  rw [last, List.getLast?_eq_some_getLast h]
  exact (List.dropLast_concat_getLast h).symm

theorem getElem?_lastPlace {t : Tokenizer} (h : t.tokens ≠ []) :
    t.tokens[t.lastPlace]? = some t.last := by
  rw [lastPlace, ← List.getLast?_eq_getElem?, last, List.getLast?_eq_some_getLast h]
  rfl

/-- Changing the last token changes it and keeps it last. -/
theorem last_modifyLast {t : Tokenizer} (h : t.tokens ≠ []) (change : Token → Token) :
    (t.modifyLast change).last = change t.last := by
  have hget := getElem?_lastPlace h
  rw [lastPlace] at hget
  simp only [last, modifyLast, modify, lastPlace, List.getLast?_eq_getElem?, List.length_modify,
    List.getElem?_modify_eq]
  rw [hget]
  rfl

theorem modifyFrame_of_forall_eq_none {change : Frame → Option Frame} {frames : List Frame}
    (h : ∀ frame ∈ frames, change frame = none) : modifyFrame change frames = frames := by
  induction frames with
  | nil => rfl
  | cons frame frames ih =>
    rw [modifyFrame, h frame List.mem_cons_self, ih fun a ha => h a (List.mem_cons_of_mem _ ha)]

/-- Outside of extended groups no text is noted for one. -/
theorem noteInner_of_not_inExtglob {t : Tokenizer} (h : t.inExtglob = false)
    (value : List Char) : t.noteInner value = t := by
  refine congrArg (fun frames => { t with frames })
    (modifyFrame_of_forall_eq_none fun frame hframe => ?_)
  cases frame with
  | extglob => exact absurd rfl (List.any_eq_false.mp h _ hframe)
  | paren | brace => rfl

/-- Outside of extended groups a token is added and nothing else happens. -/
theorem push_eq {t : Tokenizer} (ctx : Context) (hextglob : t.inExtglob = false) {token : Token}
    (hglobstar : t.last.kind = .globstar → token.kind = .slash) :
    t.push ctx token = { t with output := t.output ++ token.source, tokens := t.pushed token } := by
  have hkeep : (t.last.kind = .globstar && !t.keepsGlobstar token) = false := by
    by_cases hlast : t.last.kind = .globstar
    · simp [keepsGlobstar, hglobstar hlast]
    · simp [hlast]
  unfold push pushed
  simp only [hkeep, Bool.false_eq_true, if_false, noteInner_of_not_inExtglob hextglob, ite_self]
  have hlast : (t.emit token.source).last = t.last := rfl
  rw [hlast]
  split <;> rfl

theorem not_inExtglob_of_frames_eq {t : Tokenizer} (hframes : t.frames = []) :
    t.inExtglob = false := by
  rw [inExtglob, hframes]
  rfl

/-- Nothing is open. -/
structure Idle (t : Tokenizer) : Prop where
  frames : t.frames = []
  inClass : t.inClass = false
  quoted : t.quoted = false
  start : t.start = 0
  optionalGroup : t.optionalGroup = none

/-- Nothing is open, and the last token is an ordinary one of the given kind. -/
structure Still (t : Tokenizer) (kind : TokenKind) : Prop extends Idle t where
  tokens : t.tokens ≠ []
  last : t.last.kind = kind
  isStarRun : t.last.isStarRun = false
  not_globstar : kind ≠ .globstar
  not_paren : kind ≠ .paren
  not_bracket : kind ≠ .bracket

/-- The token before the last one begins neither a segment nor a group. -/
def FollowsText (t : Tokenizer) : Prop :=
  ∃ place prior, t.last.previous = some place ∧ t.tokens[place]? = some prior ∧
    prior.kind.beginsSegment = false ∧ prior.kind ≠ .paren

/-- The kind of the last token tells all there is to know about what has been read: it is
the first one only at the start, the leading dot of a `./` has not been read, and a star
that another one follows is no globstar with it. -/
structure Quiet (t : Tokenizer) (kind : TokenKind) : Prop extends Still t kind where
  bos : t.position = 0 ↔ kind = .bos
  dot : kind = .dot → t.position = 1 → t.rest.head? ≠ some '/'
  star : kind = .star → t.rest.head? = some '*' → t.FollowsText

section
variable {t : Tokenizer} {kind : TokenKind}

theorem Still.push_eq (h : t.Still kind) (ctx : Context) (token : Token) :
    t.push ctx token = { t with output := t.output ++ token.source, tokens := t.pushed token } :=
  Tokenizer.push_eq ctx (not_inExtglob_of_frames_eq h.frames) fun hlast =>
    absurd (h.last.symm.trans hlast) h.not_globstar

/-- A token of an ordinary kind is last once it has been added, if only as a part of the
last token. -/
theorem Still.push (h : t.Still kind) (ctx : Context) {next : TokenKind}
    (hnext : next ∉ [.bos, .globstar, .paren, .bracket]) (value source : List Char) :
    (t.push ctx (.ofSource next value source)).Still next := by
  have hne : t.pushed (.ofSource next value source) ≠ [] := by
    unfold pushed
    split <;> simp [h.tokens]
  -- Text after text becomes a part of the last token, and all else a token of its own.
  have hlast : ((t.pushed (.ofSource next value source)).getLast?.getD .bos).kind = next ∧
      ((t.pushed (.ofSource next value source)).getLast?.getD .bos).isStarRun = false := by
    unfold pushed
    split
    · rename_i hmerge
      simp only [Bool.and_eq_true, decide_eq_true_eq] at hmerge
      have hmodify := last_modifyLast h.tokens fun last => { last with
        value := last.value ++ value
        source? := some (last.source ++ (Token.ofSource next value source).source) }
      simp only [Tokenizer.last, modifyLast, modify] at hmodify
      exact ⟨(congrArg Token.kind hmodify).trans (hmerge.1.trans hmerge.2.symm),
        (congrArg Token.isStarRun hmodify).trans h.isStarRun⟩
    · rw [List.getLast?_concat]
      exact ⟨rfl, rfl⟩
  simp only [List.mem_cons, List.not_mem_nil, or_false, not_or] at hnext
  rw [h.push_eq]
  exact {
    frames := h.frames
    inClass := h.inClass
    quoted := h.quoted
    start := h.start
    optionalGroup := h.optionalGroup
    tokens := hne
    last := hlast.1
    isStarRun := hlast.2
    not_globstar := hnext.2.1
    not_paren := hnext.2.2.1
    not_bracket := hnext.2.2.2 }

/-- A star after a token within a segment follows text. -/
theorem Still.followsText_push (h : t.Still kind) (ctx : Context) (value source : List Char)
    (hbegins : kind.beginsSegment = false) :
    (t.push ctx (.ofSource .star value source)).FollowsText := by
  -- A star is never merged, so the token before it stays where it is.
  have hpushed : t.pushed (.ofSource .star value source) =
      t.tokens ++ [{ Token.ofSource .star value source with previous := some t.lastPlace }] := by
    simp [pushed, Token.ofSource]
  refine ⟨t.lastPlace, t.last, ?_, ?_, by rw [h.last]; exact hbegins,
    by rw [h.last]; exact h.not_paren⟩
  · rw [h.push_eq, Tokenizer.last]
    simp only [hpushed, List.getLast?_concat]
    rfl
  · have hpos := List.length_pos_iff.mpr h.tokens
    rw [h.push_eq]
    simp only [hpushed]
    rw [List.getElem?_append_left (by rw [lastPlace]; omega)]
    exact getElem?_lastPlace h.tokens

/-- A guard behind the last token changes only its source. -/
theorem Still.guardLast (h : t.Still kind) (guard : List Char) :
    (t.guardLast guard).Still kind := by
  have hlast : (t.guardLast guard).last =
      { t.last with source? := some (t.last.source ++ guard) } :=
    last_modifyLast (t := t.emit guard) h.tokens _
  exact {
    frames := h.frames
    inClass := h.inClass
    quoted := h.quoted
    start := h.start
    optionalGroup := h.optionalGroup
    tokens := by
      have := h.tokens
      simpa [Tokenizer.guardLast, modifyLast, modify, emit] using this
    last := by rw [hlast]; exact h.last
    isStarRun := by rw [hlast]; exact h.isStarRun
    not_globstar := h.not_globstar
    not_paren := h.not_paren
    not_bracket := h.not_bracket }

theorem Still.quiet_push (h : t.Still kind) (ctx : Context) {next : TokenKind}
    (hnext : next ∉ [.bos, .globstar, .paren, .bracket]) (value source : List Char)
    (hposition : t.position ≠ 0)
    (hdot : next = .dot → t.position = 1 → t.rest.head? ≠ some '/')
    (hstar : next = .star → t.rest.head? = some '*' → kind.beginsSegment = false) :
    (t.push ctx (.ofSource next value source)).Quiet next where
  toStill := h.push ctx hnext value source
  bos := by
    rw [h.push_eq]
    exact iff_of_false hposition fun heq => hnext (by simp [heq])
  dot := by
    rw [h.push_eq]
    exact hdot
  star := by
    rintro rfl hfollowed
    refine h.followsText_push ctx value source (hstar rfl ?_)
    rw [h.push_eq] at hfollowed
    exact hfollowed

end

/-- The second state is the first one after reading up to the given rest and adding to the
source; apart from that only tokens may differ. -/
def Grows (t : Tokenizer) (source rest : List Char) (t' : Tokenizer) : Prop :=
  ∃ position tokens, t' = { t with rest, position, output := t.output ++ source, tokens }

theorem Grows.refl {t : Tokenizer} {rest : List Char} (h : t.rest = rest) : t.Grows [] rest t :=
  ⟨t.position, t.tokens, by rw [List.append_nil, ← h]⟩

theorem Grows.trans {t t' t'' : Tokenizer} {a b rest rest' : List Char}
    (h : t.Grows a rest t') (h' : t'.Grows b rest' t'') : t.Grows (a ++ b) rest' t'' := by
  obtain ⟨_, _, rfl⟩ := h
  obtain ⟨position, tokens, rfl⟩ := h'
  exact ⟨position, tokens, by rw [List.append_assoc]⟩

theorem Grows.rest_eq {t t' : Tokenizer} {source rest : List Char} (h : t.Grows source rest t') :
    t'.rest = rest := by
  obtain ⟨_, _, rfl⟩ := h
  rfl

/-! ### One step -/

section
variable {t : Tokenizer} {kind : TokenKind} (ctx : Context)

theorem dot_eq (h : t.Still kind) : t.dot ctx = t.push ctx
    (.ofSource (if kind.beginsSegment then .dot else .text) ['.'] Fragment.dot) := by
  unfold dot inBrace
  rw [h.frames, h.last]
  cases kind.beginsSegment <;> rfl

theorem opensExtglob_eq (hparen : t.rest.head? ≠ some '(') : t.opensExtglob ctx = false := by
  have : t.ahead 0 ≠ some '(' := by rwa [ahead, ← List.head?_eq_getElem?]
  simp [opensExtglob, this]

theorem qmark_eq (h : t.Still kind) (hparen : t.rest.head? ≠ some '(') : t.qmark ctx =
    t.push ctx (.ofSource .qmark ['?'] (ctx.charSource kind '?')) := by
  unfold qmark
  simp [opensExtglob_eq ctx hparen, h.last, h.not_paren, Context.charSource]

theorem operator_eq (hparen : t.rest.head? ≠ some '(') (extglob : ExtglobKind) (c : Char)
    (other : Token) : t.operator ctx extglob c other = t.push ctx other := by
  rw [operator, opensExtglob_eq ctx hparen]
  rfl

theorem comma_eq (h : t.Still kind) : t.comma ctx = t.push ctx (.ofSource .comma [','] [',']) := by
  rw [comma, h.frames]

theorem slash_eq (h : t.Still kind) (hdot : kind = .dot → t.place ≠ 1) :
    t.slash ctx = t.push ctx (.ofSource .slash ['/'] (Fragment.slash ctx.windows)) := by
  rw [slash, h.last, h.start, if_neg (by simpa using hdot)]

theorem ahead_zero (t : Tokenizer) : t.ahead 0 = t.rest.head? := List.head?_eq_getElem?.symm

/-- A star that follows a star within a segment adds nothing to the source. -/
theorem star_of_star_eq (h : t.Still .star) (hfollows : t.FollowsText)
    (hparen : t.rest.head? ≠ some '(') : t.star ctx =
      if ctx.options.noGlobstar then t else t.push ctx (.ofSource .star ['*'] []) := by
  obtain ⟨place, prior, hplace, hprior, hbegins, hnotParen⟩ := hfollows
  have hbrace : t.inBrace = false := by rw [inBrace, h.frames]; rfl
  unfold star
  simp only [h.last, h.isStarRun, ahead_zero, hparen]
  unfold secondStar
  simp only [hplace, Option.getD_some, hprior, hbegins, hbrace]
  simp [hnotParen]

/-- A star that follows no star. -/
theorem star_eq (h : t.Still kind) (hkind : kind ≠ .star) (hplace : t.place = 0 ↔ kind = .bos)
    (hnext : kind.needsGuard = true → t.rest.head? ≠ some '*')
    (hparen : t.rest.head? ≠ some '(') : t.star ctx =
      (if kind.needsGuard then t.guardLast (ctx.starGuard kind ++ Fragment.oneChar) else t).push ctx
        (.ofSource .star ['*'] ctx.starOutput) := by
  -- What the tokenizer asks of the place and of the next character depends on the kind only.
  have hguard : t.starGuard? ctx =
      if kind.needsGuard then some (ctx.starGuard kind ++ Fragment.oneChar) else none := by
    unfold starGuard?
    simp only [h.start, h.last, h.optionalGroup, hplace, ahead_zero]
    by_cases hneeds : kind.needsGuard = true
    · rw [if_pos hneeds, if_pos, if_neg (hnext hneeds)]
      · rfl
      · cases kind <;> simp_all [TokenKind.needsGuard, TokenKind.beginsSegment]
    · rw [if_neg hneeds, if_neg, if_neg (by simp)]
      cases kind <;> simp_all [TokenKind.needsGuard, TokenKind.beginsSegment]
  unfold star
  simp only [h.last, h.not_globstar, h.isStarRun, ahead_zero, hparen, hkind, hguard]
  cases kind.needsGuard <;> simp [Context.starOutput]

end

section
variable (ctx : Context) (tail : List Char → Except Error (List Char)) {t : Tokenizer}
  {kind : TokenKind} {c : Char} {more : List Char}

/-- The state in which a character is read that has been taken off the rest. -/
def reading (t : Tokenizer) (rest : List Char) : Tokenizer :=
  { t with rest, position := t.position + 1 }

theorem Still.reading (h : t.Still kind) (rest : List Char) : (t.reading rest).Still kind :=
  ⟨⟨h.frames, h.inClass, h.quoted, h.start, h.optionalGroup⟩, h.tokens, h.last, h.isStarRun,
    h.not_globstar, h.not_paren, h.not_bracket⟩

/-- A step that adds a token. -/
theorem Quiet.grows_push (h : t.Quiet kind) {next : TokenKind}
    (hnext : next ∉ [.bos, .globstar, .paren, .bracket]) (value source : List Char)
    (hdot : next = .dot → kind = .bos → more.head? ≠ some '/')
    (hstar : next = .star → more.head? = some '*' → kind.beginsSegment = false) :
    t.Grows source more ((t.reading more).push ctx (.ofSource next value source)) ∧
      ((t.reading more).push ctx (.ofSource next value source)).Quiet next := by
  have hr := h.toStill.reading more
  refine ⟨⟨t.position + 1, _, hr.push_eq ctx _⟩, ?_⟩
  exact hr.quiet_push ctx hnext value source (Nat.succ_ne_zero _)
    (fun heq hposition => hdot heq (h.bos.mp (Nat.succ.inj hposition))) hstar

/-- A star adds its source, behind a guard where it needs one. -/
theorem Quiet.grows_star (h : t.Quiet kind) (hrest : t.rest = '*' :: more)
    (hadmits : kind.Admits '*' more.head?) (hparen : more.head? ≠ some '(') :
    t.Grows (ctx.charSource kind '*') more ((t.reading more).star ctx) ∧
      ((t.reading more).star ctx).Quiet .star := by
  have hr := h.toStill.reading more
  by_cases hkind : kind = .star
  · subst hkind
    -- A star after a star adds nothing to the source.
    have hfollows : t.FollowsText := h.star rfl (by rw [hrest]; rfl)
    rw [star_of_star_eq ctx hr hfollows hparen]
    split
    · refine ⟨⟨t.position + 1, t.tokens, by simp [reading, Context.charSource]⟩, ⟨hr, ?_, ?_, ?_⟩⟩
      · exact iff_of_false (Nat.succ_ne_zero _) (by decide)
      · exact fun hdot => absurd hdot (by decide)
      · exact fun _ _ => hfollows
    · exact h.grows_push ctx (by decide) ['*'] [] (fun hdot => absurd hdot (by decide))
        fun _ _ => rfl
  · have hplace : (t.reading more).place = 0 ↔ kind = .bos := h.bos
    have hnext : kind.needsGuard = true → more.head? ≠ some '*' :=
      fun hneeds => hadmits.2.2.2 hneeds rfl
    rw [star_eq ctx hr hkind hplace hnext hparen]
    split
    · -- The guard goes behind the last token, and the star comes after it.
      rename_i hneeds
      have hguarded := hr.guardLast (ctx.starGuard kind ++ Fragment.oneChar)
      refine ⟨?_, hguarded.quiet_push ctx (by decide) ['*'] ctx.starOutput (Nat.succ_ne_zero _)
        (fun hdot => absurd hdot (by decide)) fun _ hfollowed => absurd hfollowed (hnext hneeds)⟩
      have hsource : ctx.charSource kind '*' =
          ctx.starGuard kind ++ Fragment.oneChar ++ ctx.starOutput := by
        simp [Context.charSource, hkind, hneeds]
      rw [hguarded.push_eq, hsource]
      refine ⟨t.position + 1, ((t.reading more).guardLast (ctx.starGuard kind ++
        Fragment.oneChar)).pushed (.ofSource .star ['*'] ctx.starOutput), ?_⟩
      rw [← List.append_assoc]
      rfl
    · -- Within a segment a star needs no guard.
      rename_i hneeds
      have hbegins : kind.beginsSegment = false :=
        (Bool.or_eq_false_iff.mp (Bool.not_eq_true _ ▸ hneeds)).1
      have hsource : ctx.charSource kind '*' = ctx.starOutput := by
        simp [Context.charSource, hkind, hneeds]
      rw [hsource]
      exact h.grows_push ctx (by decide) ['*'] ctx.starOutput
        (fun hdot => absurd hdot (by decide)) fun _ _ => hbegins

/-- A character that is neither plain nor structural takes one step and adds its source. -/
theorem Quiet.step_special (h : t.Quiet kind) (hrest : t.rest = c :: more)
    (hadmits : kind.Admits c more.head?) (hparen : more.head? ≠ some '(')
    (hc : c ∈ ['/', '.', '?', '*', ',', '+', '@']) :
    ∃ t', step ctx tail (t.reading more) c = .ok t' ∧
      t.Grows (ctx.charSource kind c) more t' ∧ t'.Quiet (kind.after c) := by
  have hr := h.toStill.reading more
  have hclass : (t.reading more).inClass = false := hr.inClass
  have hquoted : (t.reading more).quoted = false := hr.quoted
  simp only [List.mem_cons, List.not_mem_nil, or_false] at hc
  rcases hc with rfl | rfl | rfl | rfl | rfl | rfl | rfl
  case inl =>
    refine ⟨(t.reading more).slash ctx, by simp [step, hclass, hquoted], ?_⟩
    rw [slash_eq ctx hr fun hdot hplace => h.dot hdot hplace (by rw [hrest]; rfl)]
    exact h.grows_push ctx (by decide) ['/'] (Fragment.slash ctx.windows)
      (fun hdot => absurd hdot (by decide)) fun hstar => absurd hstar (by decide)
  case inr.inl =>
    refine ⟨(t.reading more).dot ctx, by simp [step, hclass, hquoted], ?_⟩
    rw [dot_eq ctx hr]
    exact h.grows_push ctx (by split <;> decide) ['.'] Fragment.dot
      (fun _ hbos => hadmits.2.2.1 hbos rfl) fun hstar => absurd hstar (by split <;> decide)
  case inr.inr.inl =>
    refine ⟨(t.reading more).qmark ctx, by simp [step, hclass, hquoted], ?_⟩
    rw [qmark_eq ctx hr hparen]
    exact h.grows_push ctx (by decide) ['?'] (ctx.charSource kind '?')
      (fun hdot => absurd hdot (by decide)) fun hstar => absurd hstar (by decide)
  case inr.inr.inr.inl =>
    exact ⟨(t.reading more).star ctx, by simp [step, hclass, hquoted],
      h.grows_star ctx hrest hadmits hparen⟩
  case inr.inr.inr.inr.inl =>
    refine ⟨(t.reading more).comma ctx, by simp [step, hclass, hquoted], ?_⟩
    rw [comma_eq ctx hr]
    exact h.grows_push ctx (by decide) [','] [',']
      (fun hdot => absurd hdot (by decide)) fun hstar => absurd hstar (by decide)
  case inr.inr.inr.inr.inr.inl =>
    refine ⟨_, by simp [step, hclass, hquoted]; rfl, ?_⟩
    rw [operator_eq ctx hparen]
    exact h.grows_push ctx (by decide) ['+'] Fragment.plus
      (fun hdot => absurd hdot (by decide)) fun hstar => absurd hstar (by decide)
  case inr.inr.inr.inr.inr.inr =>
    refine ⟨_, by simp [step, hclass, hquoted]; rfl, ?_⟩
    rw [operator_eq ctx hparen]
    exact h.grows_push ctx (by decide) ['@'] ['@']
      (fun hdot => absurd hdot (by decide)) fun hstar => absurd hstar (by decide)

/-- A character that begins plain text has the same source there as on its own. -/
theorem plainSource_eq (kind : TokenKind) (hstructural : isStructural c = false)
    (hc : c ∉ ['/', '.', '?', '*', ',', '+', '@']) :
    (if c = '$' || c = '^' || c = '{' then ['\\', c] else [c]) = ctx.charSource kind c := by
  simp only [isStructural, List.contains_eq_mem, decide_eq_false_iff_not, List.mem_cons,
    List.not_mem_nil, or_false, not_or] at hstructural hc
  have hmeta : isMeta c = (c = '$' || c = '^' || c = '{' : Bool) := by
    simp [isMeta, hstructural, hc, Bool.or_comm]
  simp [Context.charSource, escapeChar, hmeta, hc]

/-- Plain text takes one step. -/
theorem Quiet.grows_plainText (h : t.Quiet kind) {run : List Char}
    (hstructural : isStructural c = false) (hc : c ∉ ['/', '.', '?', '*', ',', '+', '@'])
    (hrun : ∀ d ∈ run, isSpecial d = false)
    (hmore : ∀ d, more.head? = some d → isSpecial d = true) :
    t.Grows (ctx.charSource kind c ++ run) more ((t.reading (run ++ more)).plainText ctx c) ∧
      ((t.reading (run ++ more)).plainText ctx c).Quiet .text := by
  have htake : (run ++ more).takeWhile (fun d => !isSpecial d) = run := by
    rw [List.takeWhile_append_of_pos fun d hd => by simp [hrun d hd]]
    cases more with
    | nil => exact List.append_nil run
    | cons d more => simp [hmore d rfl]
  -- The run is taken off the text before the token is added.
  have hskip : (t.reading (run ++ more)).skip run.length =
      { t with rest := more, position := t.position + 1 + run.length } := by
    simp [skip, reading]
  have hr : ((t.reading (run ++ more)).skip run.length).Still kind := by
    rw [hskip]
    exact ⟨⟨h.frames, h.inClass, h.quoted, h.start, h.optionalGroup⟩, h.tokens, h.last,
      h.isStarRun, h.not_globstar, h.not_paren, h.not_bracket⟩
  have hrest : (t.reading (run ++ more)).rest = run ++ more := rfl
  unfold plainText
  rw [hrest, htake, plainSource_eq ctx kind hstructural hc]
  refine ⟨?_, hr.quiet_push ctx (by decide) _ _ ?_ ?_ ?_⟩
  · rw [pushText, hr.push_eq, hskip]
    exact ⟨_, _, rfl⟩
  · simp [skip, reading]
  · exact fun hdot => absurd hdot (by decide)
  · exact fun hstar => absurd hstar (by decide)

theorem Quiet.step_plain (h : t.Quiet kind) {run : List Char}
    (hbang : kind = .bos → c ≠ '!') (hparen : (run ++ more).head? ≠ some '(')
    (hstructural : isStructural c = false) (hc : c ∉ ['/', '.', '?', '*', ',', '+', '@'])
    (hrun : ∀ d ∈ run, isSpecial d = false)
    (hmore : ∀ d, more.head? = some d → isSpecial d = true) :
    ∃ t', step ctx tail (t.reading (run ++ more)) c = .ok t' ∧
      t.Grows (ctx.charSource kind c ++ run) more t' ∧ t'.Quiet .text := by
  have hr := h.toStill.reading (run ++ more)
  have hclass : (t.reading (run ++ more)).inClass = false := hr.inClass
  have hquoted : (t.reading (run ++ more)).quoted = false := hr.quoted
  have hplain := h.grows_plainText ctx hstructural hc hrun hmore
  refine ⟨_, ?_, hplain⟩
  simp only [isStructural, List.contains_eq_mem, decide_eq_false_iff_not, List.mem_cons,
    List.not_mem_nil, or_false, not_or] at hstructural hc
  -- An exclamation mark is plain text unless it begins the pattern or a negated group.
  by_cases heq : c = '!'
  · subst heq
    have hplace : (t.reading (run ++ more)).place ≠ 0 := fun hplace => hbang (h.bos.mp hplace) rfl
    have hnext : (t.reading (run ++ more)).ahead 0 ≠ some '(' := by rwa [ahead_zero]
    simp [step, hclass, hquoted, bang, hplace, hnext]
  · simp [step, hclass, hquoted, hstructural]
    split <;> simp_all

/-! ### The whole text -/

theorem run_of_rest_eq (hrest : t.rest = c :: more) (n : Nat) :
    run ctx tail (n + 1) t = (step ctx tail (t.reading more) c).bind (run ctx tail n) := by
  rw [run, hrest]
  rfl

theorem run_of_rest_nil (hrest : t.rest = []) (n : Nat) : run ctx tail n t = .ok t := by
  cases n with
  | zero => rfl
  | succ n => rw [run, hrest]

/-- No parenthesis follows a character that is admitted. -/
theorem head?_ne_of_admitsAll {rest body : List Char} (hend : rest = [] ∨ rest.head? = some '/')
    (hadmits : kind.AdmitsAll rest body) : (body ++ rest).head? ≠ some '(' := by
  cases body with
  | nil => rcases hend with rfl | hend <;> simp [*]
  | cons d body =>
    rintro heq
    obtain rfl : d = '(' := Option.some.inj heq
    exact absurd hadmits.1.1 (by decide)

theorem after_eq_text (hc : c ∉ ['/', '.', '?', '*', ',', '+', '@']) (kind : TokenKind) :
    kind.after c = .text := by
  simp only [List.mem_cons, List.not_mem_nil, or_false, not_or] at hc
  simp [TokenKind.after, hc]

/-- No plain character follows a run of plain characters that is taken as a whole. -/
theorem isSpecial_of_head?_dropWhile {rest body : List Char}
    (hend : rest = [] ∨ rest.head? = some '/') {d : Char}
    (hd : (body.dropWhile (fun d => !isSpecial d) ++ rest).head? = some d) :
    isSpecial d = true := by
  cases hothers : body.dropWhile fun d => !isSpecial d with
  | nil =>
    rw [hothers, List.nil_append] at hd
    rcases hend with rfl | hend
    · exact absurd hd (by simp)
    · exact Option.some.inj (hend.symm.trans hd) ▸ by decide
  | cons e others =>
    have hhead := List.head?_dropWhile_not (fun d => !isSpecial d) body
    rw [hothers] at hhead hd
    obtain rfl : e = d := Option.some.inj hd
    simpa using hhead

/-- A step takes a character, with the plain ones after it if it begins plain text. It adds
their source and leaves the state quiet. -/
theorem Quiet.step_ungrouped (h : t.Quiet kind) {rest body : List Char}
    (hend : rest = [] ∨ rest.head? = some '/') (hrest : t.rest = c :: (body ++ rest))
    (hadmits : kind.AdmitsAll rest (c :: body)) :
    ∃ plain others t', body = plain ++ others ∧
      step ctx tail (t.reading (body ++ rest)) c = .ok t' ∧
      t.Grows (ctx.textSource kind (c :: plain)) (others ++ rest) t' ∧
      t'.Quiet ((c :: plain).foldl TokenKind.after kind) := by
  have hparen := head?_ne_of_admitsAll hend hadmits.2
  by_cases hc : c ∈ ['/', '.', '?', '*', ',', '+', '@']
  · -- One character makes one token.
    obtain ⟨t', hstep, hgrows, hquiet⟩ := h.step_special ctx tail hrest hadmits.1 hparen hc
    have hsource : ctx.textSource kind [c] = ctx.charSource kind c := List.append_nil _
    exact ⟨[], body, t', rfl, hstep, hsource ▸ hgrows, hquiet⟩
  · -- Plain text is read in one step up to the next special character.
    have hstructural : isStructural c = false :=
      hadmits.1.1.resolve_left fun heq => hc (by simp [heq])
    let plain := body.takeWhile fun d => !isSpecial d
    let others := body.dropWhile fun d => !isSpecial d
    have hbody : body = plain ++ others := List.takeWhile_append_dropWhile.symm
    have hplain : ∀ d ∈ plain, isSpecial d = false := fun d hd => by
      simpa using List.all_eq_true.mp List.all_takeWhile d hd
    have hjoin : body ++ rest = plain ++ (others ++ rest) := by
      rw [hbody, List.append_assoc]
    rw [hjoin] at hparen ⊢
    obtain ⟨t', hstep, hgrows, hquiet⟩ := h.step_plain ctx tail hadmits.1.2.1 hparen hstructural hc
      hplain fun d hd => isSpecial_of_head?_dropWhile hend hd
    have hkind := after_eq_text hc kind
    have hsource : ctx.textSource kind (c :: plain) = ctx.charSource kind c ++ plain := by
      rw [Context.textSource, hkind, Context.textSource_plain ctx _ hplain]
    have hfold : (c :: plain).foldl TokenKind.after kind = .text := by
      rw [List.foldl_cons, hkind, TokenKind.foldl_after_plain hplain]
    exact ⟨plain, others, t', hbody, hstep, hsource ▸ hgrows, hfold ▸ hquiet⟩

/-- The tokenizer translates a text without groups, and what is left of the text is as if
nothing else had been read. -/
theorem run_ungrouped {rest : List Char} (hend : rest = [] ∨ rest.head? = some '/') (n : Nat)
    {body : List Char} (h : t.Quiet kind) (hrest : t.rest = body ++ rest)
    (hadmits : kind.AdmitsAll rest body) (hn : (body ++ rest).length ≤ n) :
    ∃ m t', run ctx tail n t = run ctx tail m t' ∧ rest.length ≤ m ∧
      t.Grows (ctx.textSource kind body) rest t' ∧
      t'.Quiet (body.foldl TokenKind.after kind) := by
  -- The bound is generalized along with the state, since a step may take several characters.
  induction n generalizing t kind body with
  | zero =>
    obtain ⟨rfl, rfl⟩ := List.append_eq_nil_iff.mp (List.length_eq_zero_iff.mp (Nat.le_zero.mp hn))
    exact ⟨0, t, rfl, Nat.le_refl 0, .refl hrest, h⟩
  | succ n ih =>
    cases body with
    | nil => exact ⟨n + 1, t, rfl, hn, .refl hrest, h⟩
    | cons c body =>
      rw [List.cons_append] at hrest
      have hrun := run_of_rest_eq ctx tail hrest n
      obtain ⟨plain, others, t₁, rfl, hstep, hgrows, hquiet⟩ :=
        h.step_ungrouped ctx tail hend hrest hadmits
      have hlen : (others ++ rest).length ≤ n := by
        simp only [List.length_append, List.length_cons] at hn ⊢
        omega
      rw [← List.cons_append] at hadmits
      obtain ⟨m, t', heq, hm, hgrows', hquiet'⟩ := ih hquiet hgrows.rest_eq hadmits.drop hlen
      refine ⟨m, t', by rw [hrun, hstep]; exact heq, hm, ?_, ?_⟩
      · rw [← List.cons_append, Context.textSource_append]
        exact hgrows.trans hgrows'
      · rw [← List.cons_append, List.foldl_append]
        exact hquiet'

/-! ### The end of the text -/

theorem endBracket_eq (hclass : t.inClass = false) : t.endBracket ctx = .ok t := by
  rw [endBracket, hclass]
  rfl

theorem endFrames_eq (hframes : t.frames = []) : t.endFrames ctx = .ok t := by
  rw [endFrames, hframes]

/-- With no class open, only the open groups are ended, and a separator may be allowed. -/
theorem finish_of_endFrames (hclass : t.inClass = false) {s : Tokenizer}
    (hframes : t.endFrames ctx = .ok s) :
    t.finish ctx = .ok (if (s.allowSlash ctx).rebuild then
        { s.allowSlash ctx with output := (s.allowSlash ctx).joinSources }
      else s.allowSlash ctx) := by
  rw [finish, endBracket_eq ctx hclass]
  show (t.endFrames ctx).bind _ = _
  rw [hframes]
  rfl

/-- With nothing open and nothing to put together, only a separator may be allowed. -/
theorem finish_eq (hframes : t.frames = []) (hclass : t.inClass = false)
    (hrebuild : (t.allowSlash ctx).rebuild = false) :
    t.finish ctx = .ok (t.allowSlash ctx) := by
  rw [finish_of_endFrames ctx hclass (endFrames_eq ctx hframes), hrebuild]
  rfl

end

end Tokenizer

/-- What is added at the end of a pattern whose last token is of the given kind. -/
def Context.closing (ctx : Context) (kind : TokenKind) : List Char :=
  if !ctx.options.strictSlashes && kind = .star then Fragment.slash ctx.windows ++ ['?'] else []

namespace Tokenizer

variable {t : Tokenizer} {kind : TokenKind}

theorem Still.finish_eq (h : t.Still kind) (ctx : Context) (hrebuild : t.rebuild = false) :
    ∃ tokens, t.finish ctx = .ok { t with output := t.output ++ ctx.closing kind, tokens } := by
  have hallow : ∃ tokens,
      t.allowSlash ctx = { t with output := t.output ++ ctx.closing kind, tokens } := by
    unfold allowSlash Context.closing
    rw [h.last, decide_eq_false h.not_bracket, Bool.or_false]
    split
    · exact ⟨_, h.push_eq ctx _⟩
    · exact ⟨t.tokens, by rw [List.append_nil]⟩
  obtain ⟨tokens, heq⟩ := hallow
  refine ⟨tokens, ?_⟩
  rw [← heq]
  exact Tokenizer.finish_eq ctx h.frames h.inClass (by rw [heq]; exact hrebuild)

/-- From a quiet state to the end of a pattern without groups. -/
theorem Quiet.complete (h : t.Quiet kind) (ctx : Context)
    (tail : List Char → Except Error (List Char)) (hadmits : kind.AdmitsAll [] t.rest)
    (hrebuild : t.rebuild = false) {n : Nat} (hn : t.rest.length ≤ n) :
    ∃ position tokens, (run ctx tail n t).bind (finish ctx) = .ok { t with
      rest := []
      position
      output := t.output ++
        (ctx.textSource kind t.rest ++ ctx.closing (t.rest.foldl TokenKind.after kind))
      tokens } := by
  obtain ⟨m, t', hrun, _, ⟨position, tokens, rfl⟩, hquiet⟩ :=
    run_ungrouped ctx tail (.inl rfl) n h (List.append_nil _).symm hadmits (by simpa using hn)
  obtain ⟨tokens', hfinish⟩ := hquiet.toStill.finish_eq ctx hrebuild
  refine ⟨position, tokens', ?_⟩
  rw [hrun, run_of_rest_nil ctx tail rfl, ← List.append_assoc]
  exact hfinish

/-- At the start of a text nothing has happened yet. -/
theorem quiet_initial (rest : List Char) : ({ rest } : Tokenizer).Quiet .bos where
  frames := rfl
  inClass := rfl
  quoted := rfl
  start := rfl
  optionalGroup := rfl
  tokens := by simp
  last := rfl
  isStarRun := rfl
  not_globstar := by decide
  not_paren := by decide
  not_bracket := by decide
  bos := by simp
  dot := by simp
  star := by simp

end Tokenizer

/-- The translation that a run and the end of the pattern arrive at. -/
theorem Context.tokenize_eq {ctx : Context} {tail : List Char → Except Error (List Char)}
    {t : Tokenizer} (h : (Tokenizer.run ctx tail ctx.body.length { rest := ctx.body }).bind
      (Tokenizer.finish ctx) = .ok t) : ctx.tokenize tail = .ok {
        input := ctx.pattern
        output := t.output
        dotSlash := ctx.dotSlash
        negated := t.negated
        negatedExtglob := t.negatedExtglob
        globstar := t.globstar
        fastPath := false
        tokens := t.tokens } := by
  unfold tokenize
  rw [← bind_assoc]
  simp only [bind] at h ⊢
  rw [h]
  rfl

/-- The translation of a pattern without groups. -/
theorem Context.tokenize_ungrouped (ctx : Context) (tail : List Char → Except Error (List Char))
    (hadmits : TokenKind.AdmitsAll [] .bos ctx.body) :
    ∃ tokens, ctx.tokenize tail = .ok {
      input := ctx.pattern
      output := ctx.textSource .bos ctx.body ++ ctx.closing (ctx.body.foldl TokenKind.after .bos)
      dotSlash := ctx.dotSlash
      negated := false
      negatedExtglob := false
      globstar := false
      fastPath := false
      tokens } := by
  obtain ⟨position, tokens, hcomplete⟩ := (Tokenizer.quiet_initial ctx.body).complete ctx tail
    hadmits rfl (Nat.le_refl _)
  exact ⟨tokens, tokenize_eq hcomplete⟩

end PathGlob.Pattern
