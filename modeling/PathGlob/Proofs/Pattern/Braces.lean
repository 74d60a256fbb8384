import PathGlob.Proofs.Pattern.Runs

/-!
# `PathGlob.Proofs.Pattern.Braces`: brace groups, nested to any depth

`BraceWord` is the language of plain characters, slashes and brace groups. The tokenizer
translates a word piece by piece (`BraceWord.source`), although it learns only at the end of a
group whether that is an alternation: the source of a group that turns out to be text is
thrown away and put together anew from the tokens. For that to give the right source, reading
a word may change only what stands behind the tokens that were there before it; this is
`Extends`, and `leads_word` carries it through the groups of a word by induction on the word.
-/

set_option autoImplicit false

namespace PathGlob.Pattern

open Regex

/-! ### Words with brace groups -/

mutual

/-- A sequence of plain characters, slashes and brace groups. -/
inductive BraceWord where
  | nil
  | char (c : Char) (hc : isSpecial c = false ∨ c = '/') (rest : BraceWord)
  | group (words : BraceWords) (rest : BraceWord)

/-- The words of a group, of which there is at least one. -/
inductive BraceWords where
  | one (word : BraceWord)
  | more (word : BraceWord) (others : BraceWords)

end

/-- There are two words or more. -/
def BraceWords.isAlternation : BraceWords → Bool
  | .one _ => false
  | .more _ _ => true

mutual

/-- The pattern text of a word. -/
def BraceWord.text : BraceWord → List Char
  | .nil => []
  | .char c _ rest => c :: rest.text
  | .group words rest => '{' :: words.text ++ '}' :: rest.text

/-- The words with commas between them. -/
def BraceWords.text : BraceWords → List Char
  | .one word => word.text
  | .more word others => word.text ++ ',' :: others.text

end

mutual

/-- The source of a word. -/
def BraceWord.source (capture : Bool) : BraceWord → List Char
  | .nil => []
  | .char c _ rest => c :: rest.source capture
  | .group words rest =>
    (if words.isAlternation then Fragment.openGroup capture ++ words.source capture ++ [')']
      else ['\\', '{'] ++ words.source capture ++ ['\\', '}']) ++ rest.source capture

/-- The sources of the words with bars between them. -/
def BraceWords.source (capture : Bool) : BraceWords → List Char
  | .one word => word.source capture
  | .more word others => word.source capture ++ '|' :: others.source capture

end

namespace Tokenizer

/-- Nothing but brace groups is open, and the last token is none that the next character
could change. -/
structure Calm (t : Tokenizer) : Prop where
  inClass : t.inClass = false
  quoted : t.quoted = false
  braces : ∀ frame ∈ t.frames, frame.isBrace = true
  tokens : t.tokens ≠ []
  last : t.last.kind ∈ [.bos, .text, .slash, .brace, .comma]

/-- The second state has read up to the rest, added to the source, and is calm again. -/
structure Adds (t : Tokenizer) (source rest : List Char) (t' : Tokenizer) : Prop where
  grows : t.Grows source rest t'
  calm : t'.Calm
  extended : Extends t.tokens source t'.tokens

theorem Adds.trans {t t' t'' : Tokenizer} {a b rest rest' : List Char} (h : t.Adds a rest t')
    (h' : t'.Adds b rest' t'') : t.Adds (a ++ b) rest' t'' :=
  ⟨h.grows.trans h'.grows, h'.calm, h.extended.trans h'.extended⟩

section
variable {t : Tokenizer} (h : t.Calm)
include h

theorem Calm.not_inExtglob : t.inExtglob = false := by
  rw [inExtglob, List.any_eq_false]
  intro frame hframe
  cases frame with
  | extglob => exact absurd (h.braces _ hframe) (by simp [Frame.isBrace])
  | paren | brace => simp [Frame.isExtglob]

theorem Calm.not_globstar : t.last.kind ≠ .globstar := by
  intro hlast
  have hmem := h.last
  rw [hlast] at hmem
  exact absurd hmem (by decide)

theorem Calm.push_eq (ctx : Context) (token : Token) :
    t.push ctx token = { t with output := t.output ++ token.source, tokens := t.pushed token } :=
  Tokenizer.push_eq ctx h.not_inExtglob fun hlast => absurd hlast h.not_globstar

theorem Calm.reading (rest : List Char) : (t.reading rest).Calm :=
  ⟨h.inClass, h.quoted, h.braces, h.tokens, h.last⟩

/-- A token of an ordinary kind. -/
theorem Calm.push (ctx : Context) (token : Token)
    (hkind : token.kind ∈ [.text, .slash, .brace, .comma]) :
    t.Adds token.source t.rest (t.push ctx token) := by
  obtain ⟨before, htokens⟩ := exists_tokens_eq h.tokens
  have hpushed := pushed_eq htokens token
  rw [h.push_eq ctx]
  refine ⟨⟨t.position, t.pushed token, rfl⟩, ⟨h.inClass, h.quoted, h.braces, ?_, ?_⟩, ?_⟩
  · show t.pushed token ≠ []
    rw [hpushed]
    split <;> simp
  · show ((t.pushed token).getLast?.getD .bos).kind ∈ _
    rw [hpushed]
    split
    case isTrue => simpa using h.last
    case isFalse => simpa using List.mem_cons_of_mem TokenKind.bos hkind
  · exact extends_pushed h.tokens token

theorem Calm.pushText (ctx : Context) (value source : List Char) :
    t.Adds source t.rest (t.pushText ctx value source) :=
  h.push ctx (.text value source) (by simp [Token.text, Token.ofSource])

end

/-! ### Reading a word -/

section
variable (ctx : Context) (tail : List Char → Except Error (List Char)) {t t' t'' : Tokenizer}
  {c : Char} {more : List Char}

/-- The state after a character has been read that adds a token. -/
theorem Adds.of_reading {source : List Char} (h : (t.reading more).Adds source more t') :
    t.Adds source more t' :=
  let ⟨position, tokens, heq⟩ := h.grows
  ⟨⟨position, tokens, heq⟩, h.calm, h.extended⟩

/-- A plain character or a slash. -/
theorem leads_char (hwindows : ctx.windows = false) (h : t.Calm) (hrest : t.rest = c :: more)
    (hc : isSpecial c = false ∨ c = '/') :
    ∃ t', Leads ctx tail t t' ∧ t.Adds [c] more t' := by
  have hr := h.reading more
  cases hc with
  | inl hplain =>
    exact ⟨_, leads_plain ctx tail h.inClass h.quoted h.tokens h.not_globstar hrest hplain,
      .of_reading (hr.pushText ctx [c] [c])⟩
  | inr hslash =>
    subst hslash
    have hadds := hr.push ctx (.ofSource .slash ['/'] (Fragment.slash ctx.windows))
      (by simp [Token.ofSource])
    have hsource : (Token.ofSource .slash ['/'] (Fragment.slash ctx.windows)).source = ['/'] := by
      rw [hwindows]
      rfl
    rw [hsource] at hadds
    have hdot : (t.reading more).last.kind ≠ .dot := by
      intro heq
      have hlast := hr.last
      rw [heq] at hlast
      exact absurd hlast (by decide)
    have hstep : step ctx tail (t.reading more) '/' = .ok ((t.reading more).push ctx
        (.ofSource .slash ['/'] (Fragment.slash ctx.windows))) := by
      simp [step, hr.inClass, hr.quoted, slash, hdot]
    exact ⟨_, .of_step hrest hstep (Nat.le_of_eq (congrArg List.length hadds.grows.rest_eq)),
      .of_reading hadds⟩

/-- The frame of a brace group that opens in the given state. -/
def braceFrame (t : Tokenizer) : BraceFrame :=
  ⟨Text.byteSize t.output, t.tokens.length, false, false, []⟩

/-- Within the group. -/
def within (t : Tokenizer) (frame : BraceFrame) (frames : List Frame) : Tokenizer :=
  { t with frames := .brace frame :: frames }

theorem Calm.within (h : t.Calm) (frame : BraceFrame) {frames : List Frame}
    (hframes : ∀ frame ∈ frames, frame.isBrace = true) : (t.within frame frames).Calm :=
  ⟨h.inClass, h.quoted, List.forall_mem_cons.mpr ⟨rfl, hframes⟩, h.tokens, h.last⟩

/-- An opening brace. -/
theorem leads_openBrace (hbrace : ctx.options.noBrace = false) (h : t.Calm)
    (hrest : t.rest = '{' :: more) :
    ∃ t', Leads ctx tail t t' ∧
      (t.within t.braceFrame t.frames).Adds (Fragment.openGroup ctx.options.capture) more t' ∧
      ∃ brace, t'.tokens = t.tokens ++ [brace] ∧ brace.kind = .brace := by
  have hr := (h.reading more).within t.braceFrame h.braces
  have hadds := hr.push ctx
    (.ofSource .brace ['{'] (Fragment.openGroup ctx.options.capture)) (by simp [Token.ofSource])
  have hstep : step ctx tail (t.reading more) '{' = .ok ((t.reading more).openBrace ctx) := by
    simp [step, (h.reading more).inClass, (h.reading more).quoted, hbrace]
  refine ⟨_, .of_step hrest hstep (Nat.le_of_eq (congrArg List.length hadds.grows.rest_eq)),
    .of_reading (t := t.within t.braceFrame t.frames) hadds, ?_⟩
  obtain ⟨before, htokens⟩ := exists_tokens_eq h.tokens
  have hpushed := pushed_eq (t := (t.reading more).within t.braceFrame t.frames) htokens
    (.ofSource .brace ['{'] (Fragment.openGroup ctx.options.capture))
  rw [if_neg (by simp [Token.ofSource]), List.append_cons, ← htokens] at hpushed
  refine ⟨{ Token.ofSource .brace ['{'] (Fragment.openGroup ctx.options.capture) with
    previous := some before.length }, ?_, rfl⟩
  show (((t.reading more).within t.braceFrame t.frames).push ctx _).tokens = _
  rw [hr.push_eq]
  exact hpushed

/-- A comma within a group. -/
theorem leads_comma (h : t.Calm) (hrest : t.rest = ',' :: more) {frame : BraceFrame}
    {frames : List Frame} (hframes : t.frames = .brace frame :: frames) :
    ∃ t' commas, Leads ctx tail t t' ∧
      (t.within { frame with comma := true, commas } frames).Adds ['|'] more t' := by
  have hbraces : ∀ frame ∈ frames, frame.isBrace = true := fun frame hframe =>
    h.braces frame (hframes ▸ List.mem_cons_of_mem _ hframe)
  let frame' : BraceFrame :=
    { frame with comma := true, commas := frame.commas ++ [t.tokens.length] }
  have hr := (h.reading more).within frame' hbraces
  have hadds := hr.push ctx (.ofSource .comma [','] ['|']) (by simp [Token.ofSource])
  have hframes' : (t.reading more).frames = .brace frame :: frames := hframes
  have hstep : step ctx tail (t.reading more) ',' =
      .ok (((t.reading more).within frame' frames).push ctx (.ofSource .comma [','] ['|'])) := by
    have hcomma : step ctx tail (t.reading more) ',' = .ok ((t.reading more).comma ctx) := by
      simp [step, (h.reading more).inClass, (h.reading more).quoted]
    rw [hcomma, comma, hframes']
    rfl
  exact ⟨_, _, .of_step hrest hstep (Nat.le_of_eq (congrArg List.length hadds.grows.rest_eq)),
    .of_reading (t := t.within frame' frames) hadds⟩

/-- The closing brace of an alternation. -/
theorem leads_closeBrace (h : t.Calm) (hrest : t.rest = '}' :: more) {frame : BraceFrame}
    {frames : List Frame} (hframes : t.frames = .brace frame :: frames)
    (hcomma : frame.comma = true) :
    ∃ t', Leads ctx tail t t' ∧ ({ t with frames } : Tokenizer).Adds [')'] more t' := by
  have hbraces : ∀ frame ∈ frames, frame.isBrace = true := fun frame hframe =>
    h.braces frame (hframes ▸ List.mem_cons_of_mem _ hframe)
  have hr : ({ t.reading more with frames } : Tokenizer).Calm :=
    ⟨h.inClass, h.quoted, hbraces, h.tokens, h.last⟩
  have hadds := hr.push ctx (.ofSource .brace ['}'] [')']) (by simp [Token.ofSource])
  have hframes' : (t.reading more).frames = .brace frame :: frames := hframes
  have hstep : step ctx tail (t.reading more) '}' = .ok
      (({ t.reading more with frames } : Tokenizer).push ctx (.ofSource .brace ['}'] [')'])) := by
    simp [step, (h.reading more).inClass, (h.reading more).quoted, closeBrace, hframes', takeFrame?,
      Frame.isBrace, hcomma]
  exact ⟨_, .of_step hrest hstep (Nat.le_of_eq (congrArg List.length hadds.grows.rest_eq)),
    .of_reading (t := { t with frames }) hadds⟩

/-- Which groups are open makes no difference to what is added. -/
theorem Adds.frames {source rest : List Char} (h : t.Adds source rest t') {frames : List Frame}
    (hframes : ∀ frame ∈ frames, frame.isBrace = true) :
    ({ t with frames } : Tokenizer).Adds source rest { t' with frames } := by
  obtain ⟨position, tokens, rfl⟩ := h.grows
  exact ⟨⟨position, tokens, rfl⟩,
    ⟨h.calm.inClass, h.calm.quoted, hframes, h.calm.tokens, h.calm.last⟩, h.extended⟩

/-- The closing brace of a group that is only text. Its tokens tell what the text is. -/
theorem leads_literalBrace (h : t.Calm) {opening source : List Char}
    (hadds : (t.within t.braceFrame t.frames).Adds (opening ++ source) ('}' :: more) t')
    {brace : Token} {inner : List Token} (htokens : t'.tokens = t.tokens ++ brace :: inner)
    (hbrace : brace.kind = .brace) (hinner : inner.flatMap Token.source = source) :
    ∃ t'', Leads ctx tail t' t'' ∧
      t.Adds (['\\', '{'] ++ source ++ ['\\', '}']) more t'' := by
  have hcalm := hadds.calm
  obtain ⟨position, tokens, rfl⟩ := hadds.grows
  obtain rfl : tokens = t.tokens ++ brace :: inner := htokens
  -- The state in which the group has been put together anew, but for the closing brace.
  let opened : Token := { brace with value := ['\\', '{'], source? := some ['\\', '{'] }
  let u : Tokenizer :=
    { t with
      rest := more
      position := position + 1
      output := t.output ++ (['\\', '{'] ++ source)
      tokens := t.tokens ++ opened :: inner }
  have hu : u.Calm := by
    refine ⟨h.inClass, h.quoted, h.braces, by simp [u], ?_⟩
    show ((t.tokens ++ opened :: inner).getLast?.getD .bos).kind ∈ _
    cases inner with
    | nil => simp [opened, hbrace]
    | cons x inner => simpa [Tokenizer.last, within] using hcalm.last
  have hadds' : t.Adds (['\\', '{'] ++ source) more u := by
    refine ⟨⟨_, _, rfl⟩, hu, ?_⟩
    have := extends_append t.tokens (opened :: inner)
    rw [List.flatMap_cons, hinner] at this
    exact this
  have hclose := hu.push ctx (.ofSource .brace ['\\', '}'] ['\\', '}'])
    (by simp [Token.ofSource])
  -- The source is cut where the group began, and what the tokens say is added again.
  obtain ⟨s, hs⟩ : ∃ s : Tokenizer, s = { t.within t.braceFrame t.frames with
      rest := more
      position := position + 1
      output := t.output ++ (opening ++ source)
      tokens := t.tokens ++ brace :: inner } := ⟨_, rfl⟩
  have hframe : s.closeBrace ctx = { s with frames := t.frames }.literalBrace ctx t.braceFrame := by
    subst hs
    rfl
  have hliteral : { s with frames := t.frames }.literalBrace ctx t.braceFrame =
      u.push ctx (.ofSource .brace ['\\', '}'] ['\\', '}']) := by
    subst hs
    simp only [literalBrace, braceFrame, within, modify, emit, Text.takeBytes_append,
      modify_append_length, List.drop_left, List.flatMap_cons, hinner]
    rfl
  have hstep : step ctx tail s '}' = .ok (s.closeBrace ctx) := by
    have hclass : s.inClass = false := by rw [hs]; exact h.inClass
    have hquoted : s.quoted = false := by rw [hs]; exact h.quoted
    simp [step, hclass, hquoted]
  rw [hframe, hliteral, hs] at hstep
  exact ⟨_, .of_step rfl hstep (Nat.le_of_eq (congrArg List.length hclose.grows.rest_eq)),
    hadds'.trans hclose⟩

theorem Adds.frames_eq {source rest : List Char} (h : t.Adds source rest t') :
    t'.frames = t.frames := by
  obtain ⟨_, _, rfl⟩ := h.grows
  rfl

/-- A group of two words or more, given how its words are read. -/
theorem leads_alternation (hbrace : ctx.options.noBrace = false) (h : t.Calm)
    {text source : List Char} (hrest : t.rest = '{' :: (text ++ '}' :: more))
    (hwords : ∀ t₁ : Tokenizer, t₁.Calm → t₁.rest = text ++ '}' :: more →
      t₁.frames = .brace t.braceFrame :: t.frames →
      ∃ t₂ commas, Leads ctx tail t₁ t₂ ∧
        (t₁.within { t.braceFrame with comma := true, commas } t.frames).Adds source
          ('}' :: more) t₂) :
    ∃ t', Leads ctx tail t t' ∧
      t.Adds (Fragment.openGroup ctx.options.capture ++ source ++ [')']) more t' := by
  obtain ⟨t₁, hleads₁, hadds₁, -⟩ := leads_openBrace ctx tail hbrace h hrest
  obtain ⟨t₂, commas, hleads₂, hadds₂⟩ :=
    hwords t₁ hadds₁.calm hadds₁.grows.rest_eq hadds₁.frames_eq
  obtain ⟨t₃, hleads₃, hadds₃⟩ := leads_closeBrace ctx tail hadds₂.calm
    hadds₂.grows.rest_eq hadds₂.frames_eq rfl
  refine ⟨t₃, (hleads₁.trans hleads₂).trans hleads₃, ?_⟩
  -- Seen from outside, the frame of the group comes and goes.
  exact ((hadds₁.frames h.braces).trans (hadds₂.frames h.braces)).trans hadds₃

/-- A group of one word, given how the word is read. -/
theorem leads_singleton (hbrace : ctx.options.noBrace = false) (h : t.Calm)
    {text source : List Char} (hrest : t.rest = '{' :: (text ++ '}' :: more))
    (hword : ∀ t₁ : Tokenizer, t₁.Calm → t₁.rest = text ++ '}' :: more →
      ∃ t₂, Leads ctx tail t₁ t₂ ∧ t₁.Adds source ('}' :: more) t₂) :
    ∃ t', Leads ctx tail t t' ∧ t.Adds (['\\', '{'] ++ source ++ ['\\', '}']) more t' := by
  obtain ⟨t₁, hleads₁, hadds₁, brace, htokens, hkind⟩ :=
    leads_openBrace ctx tail hbrace h hrest
  obtain ⟨t₂, hleads₂, hadds₂⟩ := hword t₁ hadds₁.calm hadds₁.grows.rest_eq
  obtain ⟨inner, htokens', hinner⟩ := hadds₂.extended t.tokens brace [] htokens
    (by rw [hkind]; decide)
  obtain ⟨t₃, hleads₃, hadds₃⟩ := leads_literalBrace ctx tail h
    (hadds₁.trans hadds₂) htokens' hkind hinner
  exact ⟨t₃, (hleads₁.trans hleads₂).trans hleads₃, hadds₃⟩

mutual

/-- From a calm state, a word adds its source. -/
theorem leads_word (hwindows : ctx.windows = false) (hbrace : ctx.options.noBrace = false)
    (word : BraceWord) {t : Tokenizer} {more : List Char} (h : t.Calm)
    (hrest : t.rest = word.text ++ more) :
    ∃ t', Leads ctx tail t t' ∧ t.Adds (word.source ctx.options.capture) more t' := by
  cases word with
  | nil => exact ⟨t, .refl t, .refl hrest, h, .refl t.tokens⟩
  | char c hc rest =>
    obtain ⟨t₁, hleads, hadds⟩ := leads_char ctx tail hwindows h hrest hc
    obtain ⟨t₂, hleads', hadds'⟩ := leads_word hwindows hbrace rest hadds.calm hadds.grows.rest_eq
    exact ⟨t₂, hleads.trans hleads', hadds.trans hadds'⟩
  | group words rest =>
    rw [BraceWord.text, List.append_assoc, List.cons_append] at hrest
    have hgroup : ∃ t', Leads ctx tail t t' ∧ t.Adds
        (if words.isAlternation then
            Fragment.openGroup ctx.options.capture ++ words.source ctx.options.capture ++ [')']
          else ['\\', '{'] ++ words.source ctx.options.capture ++ ['\\', '}'])
        (rest.text ++ more) t' := by
      cases words with
      | one word =>
        exact leads_singleton ctx tail hbrace h hrest fun t₁ h₁ hrest₁ =>
          leads_word hwindows hbrace word h₁ hrest₁
      | more word others =>
        exact leads_alternation ctx tail hbrace h hrest fun t₁ h₁ hrest₁ hframes =>
          leads_words hwindows hbrace (.more word others) h₁ hrest₁ hframes
    obtain ⟨t₁, hleads, hadds⟩ := hgroup
    obtain ⟨t₂, hleads', hadds'⟩ := leads_word hwindows hbrace rest hadds.calm hadds.grows.rest_eq
    exact ⟨t₂, hleads.trans hleads', hadds.trans hadds'⟩

/-- Within a group, the words up to its end add their sources, and the group knows whether
there were commas. -/
theorem leads_words (hwindows : ctx.windows = false) (hbrace : ctx.options.noBrace = false)
    (words : BraceWords) {t : Tokenizer} {more : List Char} (h : t.Calm)
    (hrest : t.rest = words.text ++ '}' :: more) {frame : BraceFrame} {frames : List Frame}
    (hframes : t.frames = .brace frame :: frames) :
    ∃ t' commas, Leads ctx tail t t' ∧
      (t.within { frame with comma := frame.comma || words.isAlternation, commas } frames).Adds
        (words.source ctx.options.capture) ('}' :: more) t' := by
  cases words with
  | one word =>
    obtain ⟨t₁, hleads, hadds⟩ := leads_word hwindows hbrace word h hrest
    have hsame : t.within { frame with comma := frame.comma || false, commas := frame.commas }
        frames = t := by
      rw [Bool.or_false, within, ← hframes]
    exact ⟨t₁, frame.commas, hleads, hsame.symm ▸ hadds⟩
  | more word others =>
    rw [BraceWords.text, List.append_assoc, List.cons_append] at hrest
    obtain ⟨t₁, hleads₁, hadds₁⟩ := leads_word hwindows hbrace word h hrest
    obtain ⟨t₂, commas, hleads₂, hadds₂⟩ := leads_comma ctx tail hadds₁.calm
      hadds₁.grows.rest_eq (hadds₁.frames_eq.trans hframes)
    obtain ⟨t₃, commas', hleads₃, hadds₃⟩ := leads_words hwindows hbrace others hadds₂.calm
      hadds₂.grows.rest_eq hadds₂.frames_eq
    refine ⟨t₃, commas', (hleads₁.trans hleads₂).trans hleads₃, ?_⟩
    -- What the frame knows of commas changes on the way.
    have hbraces : ∀ frame' ∈ Frame.brace
        { frame with comma := true, commas := commas' } :: frames, frame'.isBrace = true := by
      have hall := h.braces
      rw [hframes] at hall
      exact List.forall_mem_cons.mpr ⟨rfl, (List.forall_mem_cons.mp hall).2⟩
    have hall := ((hadds₁.frames hbraces).trans (hadds₂.frames hbraces)).trans hadds₃
    rw [List.append_assoc] at hall
    rw [BraceWords.isAlternation, Bool.or_true, BraceWords.source]
    exact hall

end

end

end Tokenizer

/-- At the end of a word nothing is open, and nothing is added. -/
theorem Tokenizer.Calm.finish_eq {t : Tokenizer} (h : t.Calm) (ctx : Context)
    (hframes : t.frames = []) (hrebuild : t.rebuild = false) : t.finish ctx = .ok t := by
  have hlast := h.last
  have hallow : t.allowSlash ctx = t := by
    refine if_neg fun hand => ?_
    simp only [Bool.and_eq_true, Bool.or_eq_true, decide_eq_true_eq] at hand
    cases hand.2 with
    | inl hstar =>
      rw [hstar] at hlast
      exact absurd hlast (by decide)
    | inr hbracket =>
      rw [hbracket] at hlast
      exact absurd hlast (by decide)
  rw [Tokenizer.finish_eq ctx hframes h.inClass (by rw [hallow, hrebuild]), hallow]

/-- The translation of a word is its source. -/
theorem Context.tokenize_braceWord {ctx : Context} (hwindows : ctx.windows = false)
    (hbrace : ctx.options.noBrace = false) (word : BraceWord) (hbody : ctx.body = word.text)
    (tail : List Char → Except Error (List Char)) :
    ∃ translation, ctx.tokenize tail = .ok translation ∧
      translation.output = word.source ctx.options.capture ∧ translation.negated = false := by
  have hcalm : ({ rest := ctx.body } : Tokenizer).Calm :=
    ⟨rfl, rfl, by simp, by simp, by simp [Tokenizer.last, Token.bos, Token.ofSource]⟩
  obtain ⟨t, hleads, hadds⟩ := Tokenizer.leads_word ctx tail hwindows hbrace word hcalm
    (hbody.trans (List.append_nil _).symm)
  have hrun := hleads.run_eq hadds.grows.rest_eq
  have hfinish := hadds.calm
  obtain ⟨position, tokens, rfl⟩ := hadds.grows
  exact ⟨_, tokenize_eq ((congrArg (Except.bind · (Tokenizer.finish ctx)) hrun).trans
    (hfinish.finish_eq ctx rfl rfl)), rfl, rfl⟩

end PathGlob.Pattern
