import PathGlob.Proofs.Pattern.Excluded
import PathGlob.Proofs.Pattern.Unclosed
import PathGlob.Proofs.Range.Values

/-!
# `PathGlob.Proofs.Pattern.Ranges`: a brace group of words with dots between them

`ranged before words after` is a text, a brace group of words with two dots between each, and another
text. Within the braces, every word is one token and so are the dots (`AreOperands`), so at the
closing brace the tokenizer finds the words again (`leads_operands`). Either they are the operands of
a range, and a token with the source of the range replaces those of the group, or the tokens of the
group become text (`At.exists_closeBrace`).

The source is that of the tokens in the end, so it is the tokens that are followed (`At`).
-/

set_option autoImplicit false

namespace PathGlob.Pattern

open Regex Range

/-- A text, a brace group of words with two dots between them, and a text. -/
def ranged (before : List Char) (words : List (List Char)) (after : List Char) : List Char :=
  before ++ '{' :: dotted words ++ '}' :: after

/-- The source of a brace group of words with two dots between them. -/
def Context.braceSource (ctx : Context) (words : List (List Char)) : List Char :=
  match Operands.ofTexts? words with
  | some operands => ctx.options.rangeSource operands
  | none => escape ('{' :: dotted words ++ ['}'])

/-- Two dots within braces. -/
def dotsToken : Token := .ofSource .dots ['.', '.'] (Fragment.dot ++ Fragment.dot)

/-- The tokens stand for the words with two dots between them. -/
structure AreOperands (words : List (List Char)) (tokens : List Token) : Prop where
  texts : operandTexts? true tokens = some words
  source : tokens.flatMap Token.source = escape (dotted words)
  last : ∃ before token, tokens = before ++ [token] ∧ token.kind = .text

namespace AreOperands

variable {word : List Char} {previous previous' : Option Nat}

theorem singleton (h : ∀ c ∈ word, isSpecial c = false) :
    AreOperands [word] [{ Token.text word word with previous }] := by
  refine ⟨rfl, ?_, [], _, rfl, rfl⟩
  rw [show dotted [word] = word by simp [dotted], escape_plain h]
  simp [Token.source, Token.text, Token.ofSource]

theorem cons (h : ∀ c ∈ word, isSpecial c = false) {words : List (List Char)} {tokens : List Token}
    (hne : words ≠ []) (hwords : AreOperands words tokens) :
    AreOperands (word :: words)
      ({ Token.text word word with previous } :: { dotsToken with previous := previous' } ::
        tokens) := by
  obtain ⟨next, words, rfl⟩ := List.exists_cons_of_ne_nil hne
  obtain ⟨before, token, rfl, hkind⟩ := hwords.last
  refine ⟨?_, ?_, _ :: _ :: before, token, rfl, hkind⟩
  · have htexts : operandTexts? true ({ Token.text word word with previous } ::
        { dotsToken with previous := previous' } :: (before ++ [token])) =
          (operandTexts? true (before ++ [token])).map (word :: ·) := rfl
    rw [htexts, hwords.texts]
    rfl
  · have hsource : escape (dotted (word :: next :: words)) =
        escape word ++ escape ['.', '.'] ++ escape (dotted (next :: words)) := by
      simp only [dotted, List.intercalate_cons_cons, escape, List.flatMap_append]
    rw [hsource, ← hwords.source, escape_plain h]
    simp [Token.source, Token.text, dotsToken, Token.ofSource, Fragment.dot, escape, escapeChar,
      isMeta]

end AreOperands

namespace Tokenizer

/-- The open groups, the tokens and the characters that are left. -/
structure At (t : Tokenizer) (frames : List Frame) (tokens : List Token) (rest : List Char) :
    Prop where
  inClass : t.inClass = false
  quoted : t.quoted = false
  negated : t.negated = false
  frames : t.frames = frames
  tokens : t.tokens = tokens
  rest : t.rest = rest

section
variable {t : Tokenizer} {frames : List Frame} {before tokens : List Token} {last : Token}
  {more : List Char} {frame : BraceFrame}

theorem At.last_eq (h : t.At frames (before ++ [last]) more) : t.last = last := by
  rw [Tokenizer.last, h.tokens, List.getLast?_concat]
  rfl

theorem At.reading {c : Char} (h : t.At frames tokens (c :: more)) :
    (t.reading more).At frames tokens more :=
  ⟨h.inClass, h.quoted, h.negated, h.frames, h.tokens, rfl⟩

/-- A token that is not merged with the last one. -/
theorem At.push (ctx : Context) (h : t.At frames tokens more) (token : Token)
    (hframes : frames.any Frame.isExtglob = false) (hglobstar : t.last.kind ≠ .globstar)
    (hmerge : t.last.kind = .text → token.kind ≠ .text) :
    ∃ previous, (t.push ctx token).At frames (tokens ++ [{ token with previous }]) more := by
  have hextglob : t.inExtglob = false := by rw [inExtglob, h.frames, hframes]
  have hpushed : t.pushed token = tokens ++ [{ token with previous := some t.lastPlace }] := by
    rw [pushed, if_neg (by simpa using hmerge), h.tokens]
  refine ⟨some t.lastPlace, ?_⟩
  rw [push_eq ctx hextglob fun heq => absurd heq hglobstar, hpushed]
  exact ⟨h.inClass, h.quoted, h.negated, h.frames, rfl, h.rest⟩

variable (ctx : Context) (tail : List Char → Except Error (List Char))

/-- A word is read as one token. -/
theorem At.leads_word {word : List Char} (h : t.At frames tokens (word ++ more))
    (hframes : frames.any Frame.isExtglob = false) (hlast : t.last.kind ∉ [.text, .globstar])
    (hne : word ≠ []) (hword : ∀ c ∈ word, isSpecial c = false)
    (hmore : ∀ c ∈ more.head?, isSpecial c = true) :
    ∃ t' previous, Leads ctx tail t t' ∧
      t'.At frames (tokens ++ [{ Token.text word word with previous }]) more := by
  obtain ⟨c, word, rfl⟩ := List.exists_cons_of_ne_nil hne
  obtain ⟨hc, hword⟩ := List.forall_mem_cons.mp hword
  rw [List.mem_cons, List.mem_singleton, not_or] at hlast
  have hr : (t.reading (word ++ more)).At frames tokens (word ++ more) := h.reading
  have hrun : (word ++ more).takeWhile (fun d => !isSpecial d) = word := by
    rw [List.takeWhile_append_of_pos fun d hd => by rw [hword d hd]; rfl]
    cases more with
    | nil => simp
    | cons d more => simp [hmore d rfl]
  have hstep := step_of_not_isSpecial ctx tail hr.inClass hr.quoted hc
  rw [hr.rest, hrun] at hstep
  have hskip : ((t.reading (word ++ more)).skip word.length).At frames tokens more :=
    ⟨hr.inClass, hr.quoted, hr.negated, hr.frames, hr.tokens, by simp [skip, hr.rest]⟩
  obtain ⟨previous, hpush⟩ := hskip.push ctx (.text (c :: word) (c :: word)) hframes hlast.2
    fun heq => absurd heq hlast.1
  refine ⟨_, previous, .of_step h.rest hstep ?_, hpush⟩
  rw [pushText, hpush.rest]
  exact (List.sublist_append_right word more).length_le

/-- Two dots are read as one token, and they mark the group. -/
theorem At.leads_dots
    (h : t.At (.brace frame :: frames) (before ++ [last]) ('.' :: '.' :: more))
    (hframes : frames.any Frame.isExtglob = false) (hlast : last.kind = .text) :
    ∃ t' previous, Leads ctx tail t t' ∧
      t'.At (.brace { frame with dots := true } :: frames)
        (before ++ [last, { dotsToken with previous }]) more := by
  have hr : (t.reading ('.' :: more)).At (.brace frame :: frames) (before ++ [last]) ('.' :: more) :=
    h.reading
  have hkind : (t.reading ('.' :: more)).last.kind = .text := hr.last_eq ▸ hlast
  have hdot : (t.reading ('.' :: more)).dot ctx =
      (t.reading ('.' :: more)).push ctx (.ofSource .dot ['.'] Fragment.dot) := by
    simp [Tokenizer.dot, hkind, hr.frames]
  obtain ⟨previous, hu⟩ := hr.push ctx (.ofSource .dot ['.'] Fragment.dot)
    (by simpa [Frame.isExtglob] using hframes) (by simp [hkind]) fun _ => by simp [Token.ofSource]
  rw [← hdot] at hu
  have hfirst : step ctx tail (t.reading ('.' :: more)) '.' =
      .ok ((t.reading ('.' :: more)).dot ctx) := by
    simp [step, hr.inClass, hr.quoted]
  generalize (t.reading ('.' :: more)).dot ctx = u at hu hfirst
  -- The second dot makes the first one a pair.
  have hs := hu.reading
  have hpair : (u.reading more).dot ctx = (((u.reading more).modifyLast fun token => { token with
        kind := .dots, value := ['.', '.'], source? := some (Fragment.dot ++ Fragment.dot) }).emit
      Fragment.dot).noteDots := by
    refine if_pos ?_
    have hlast' : (u.reading more).last.kind = .dot := by rw [hs.last_eq]; rfl
    simp [inBrace, hs.frames, Frame.isBrace, hlast']
  have hsecond : step ctx tail (u.reading more) '.' = .ok ((u.reading more).dot ctx) := by
    simp [step, hs.inClass, hs.quoted]
  have hlead : Leads ctx tail t u :=
    .of_step h.rest hfirst (Nat.le_of_eq (congrArg List.length hu.rest))
  refine ⟨_, previous, hlead.trans (.of_step hu.rest hsecond ?_), ?_⟩
  all_goals rw [hpair]
  · exact Nat.le_refl _
  · refine ⟨hs.inClass, hs.quoted, hs.negated, ?_, ?_, rfl⟩
    · show modifyFrame _ (u.reading more).frames = _
      rw [hs.frames]
      rfl
    · show (u.reading more).tokens.modify (u.reading more).lastPlace _ = _
      rw [lastPlace, hs.tokens, List.length_append, List.length_singleton, Nat.add_sub_cancel,
        modify_append_length, List.append_assoc]
      rfl

/-- Within a brace group, words with dots between them are read as operands. -/
theorem leads_operands {words : List (List Char)} (hwords : ArePlainWords words)
    (h : t.At [.brace frame] tokens (dotted words ++ '}' :: more))
    (hlast : t.last.kind ∉ [.text, .globstar]) :
    ∃ t' added, Leads ctx tail t t' ∧ AreOperands words added ∧
      t'.At [.brace { frame with dots := frame.dots || decide (1 < words.length) }]
        (tokens ++ added) ('}' :: more) := by
  induction words generalizing t frame tokens with
  | nil => exact absurd rfl hwords.ne_nil
  | cons word words ih =>
    have hne := hwords.words_ne_nil word List.mem_cons_self
    have hplain := hwords.plain word List.mem_cons_self
    cases words with
    | nil =>
      rw [show dotted [word] = word by simp [dotted]] at h
      obtain ⟨t', previous, hleads, ht'⟩ := h.leads_word ctx tail (by simp [Frame.isExtglob]) hlast
        hne hplain (by simp [isSpecial])
      exact ⟨t', _, hleads, .singleton hplain, by simpa using ht'⟩
    | cons next words =>
      have hdotted : dotted (word :: next :: words) ++ '}' :: more =
          word ++ '.' :: '.' :: (dotted (next :: words) ++ '}' :: more) := by
        simp [dotted, List.intercalate_cons_cons]
      rw [hdotted] at h
      have hothers : ArePlainWords (next :: words) :=
        ⟨List.cons_ne_nil _ _, fun w hw => hwords.words_ne_nil w (List.mem_cons_of_mem _ hw),
          fun w hw => hwords.plain w (List.mem_cons_of_mem _ hw)⟩
      obtain ⟨t₁, previous, hleads₁, h₁⟩ := h.leads_word ctx tail (by simp [Frame.isExtglob]) hlast
        hne hplain (by simp [isSpecial])
      obtain ⟨t₂, previous', hleads₂, h₂⟩ := h₁.leads_dots ctx tail rfl rfl
      have hkind : t₂.last.kind ∉ [.text, .globstar] := by
        rw [List.append_cons] at h₂
        rw [h₂.last_eq]
        simp [dotsToken, Token.ofSource]
      obtain ⟨t₃, added, hleads₃, hadded, h₃⟩ := ih hothers h₂ hkind
      refine ⟨t₃, { Token.text word word with previous } ::
        { dotsToken with previous := previous' } :: added, (hleads₁.trans hleads₂).trans hleads₃,
          .cons hplain (List.cons_ne_nil _ _) hadded, ?_⟩
      simpa using h₃

/-- The operands are found again among the tokens of the group. -/
theorem rangeSource?_eq {words : List (List Char)} {brace : Token} {added : List Token}
    (htokens : t.tokens = before ++ brace :: added) (hplace : frame.token = before.length)
    (hadded : AreOperands words added) :
    t.rangeSource? ctx frame = (Operands.ofTexts? words).map ctx.options.rangeSource := by
  have hdrop : t.tokens.drop (frame.token + 1) = added := by
    rw [htokens, hplace, List.drop_append]
    simp
  rw [rangeSource?]
  simp only [hdrop, hadded.texts, Option.bind_eq_bind, Option.bind_some, Option.pure_def]
  cases Operands.ofTexts? words <;> rfl

section
variable {words : List (List Char)} {brace : Token} {added : List Token}
  (h : t.At [.brace frame] (before ++ [last] ++ brace :: added) more)
  (hplace : frame.token = (before ++ [last]).length) (hcomma : frame.comma = false)
include h hplace hcomma

/-- A range replaces the tokens of its group. -/
theorem At.closeBrace_of_range (hadded : AreOperands words added) (hdots : frame.dots = true)
    {operands : Operands} (hoperands : Operands.ofTexts? words = some operands)
    (hlast : last.kind ≠ .globstar) :
    ∃ previous, (t.closeBrace ctx).At [] (before ++ [last] ++
      [{ Token.ofSource .brace ['}'] (ctx.options.rangeSource operands) with previous }]) more := by
  have htake : takeFrame? Frame.isBrace t.frames = some (.brace frame, []) := by
    rw [h.frames]
    rfl
  have hrange : ({ t with frames := [] } : Tokenizer).rangeSource? ctx frame =
      some (ctx.options.rangeSource operands) :=
    (rangeSource?_eq ctx h.tokens hplace hadded).trans (by rw [hoperands]; rfl)
  have hcut : ({ t with
      frames := [], tokens := t.tokens.take frame.token, rebuild := true } : Tokenizer).At []
        (before ++ [last]) more := by
    refine ⟨h.inClass, h.quoted, h.negated, rfl, ?_, h.rest⟩
    rw [h.tokens, hplace, List.take_left]
  unfold closeBrace
  simp only [htake, hdots, hcomma, hrange]
  exact hcut.push ctx _ rfl (hcut.last_eq ▸ hlast) fun _ => by simp [Token.ofSource]

/-- What is no range becomes text. -/
theorem At.closeBrace_of_text (hlast : ∃ inner word, added = inner ++ [word] ∧ word.kind = .text)
    (hrange : frame.dots = true → ({ t with frames := [] } : Tokenizer).rangeSource? ctx frame =
      none) :
    ∃ previous, (t.closeBrace ctx).At [] (before ++ [last] ++
      { brace with value := ['\\', '{'], source? := some ['\\', '{'] } :: added ++
        [{ Token.ofSource .brace ['\\', '}'] ['\\', '}'] with previous }]) more := by
  obtain ⟨inner, word, rfl, hword⟩ := hlast
  let opened : Token := { brace with value := ['\\', '{'], source? := some ['\\', '{'] }
  let tokens := before ++ [last] ++ opened :: (inner ++ [word])
  let s : Tokenizer := { t with
    frames := []
    output := Text.takeBytes frame.outputSize t.output ++
      (opened :: (inner ++ [word])).flatMap Token.source
    tokens }
  have hs : s.At [] tokens more := ⟨h.inClass, h.quoted, h.negated, rfl, rfl, h.rest⟩
  have hkind : s.last.kind = .text := by
    have htokens : tokens = before ++ [last] ++ opened :: inner ++ [word] := by simp [tokens]
    rw [htokens] at hs
    rw [hs.last_eq, hword]
  have hliteral : ({ t with frames := [] } : Tokenizer).literalBrace ctx frame =
      s.push ctx (.ofSource .brace ['\\', '}'] ['\\', '}']) := by
    simp only [literalBrace, modify, emit, h.tokens, hplace, modify_append_length, List.drop_left]
    rfl
  have htake : takeFrame? Frame.isBrace t.frames = some (.brace frame, []) := by
    rw [h.frames]
    rfl
  have hnone : (if frame.dots && !frame.comma then
      ({ t with frames := [] } : Tokenizer).rangeSource? ctx frame else none) = none := by
    split
    case isTrue hdots => exact hrange (Bool.and_eq_true_iff.mp hdots).1
    case isFalse => rfl
  have hclose : t.closeBrace ctx = ({ t with frames := [] } : Tokenizer).literalBrace ctx frame := by
    unfold closeBrace
    simp only [htake, hnone]
    simp only [hcomma, Bool.false_eq_true, if_false]
  rw [hclose, hliteral]
  exact hs.push ctx _ rfl (by rw [hkind]; decide) fun _ => by simp [Token.ofSource]

/-- At the closing brace, a range takes the place of the group, and any other group is text. -/
theorem At.exists_closeBrace (hadded : AreOperands words added)
    (hdots : frame.dots = decide (1 < words.length)) (hlast : last.kind ≠ .globstar) :
    ∃ before' last', (t.closeBrace ctx).At [] (before' ++ [last']) more ∧ last'.kind = .brace ∧
      (before' ++ [last']).flatMap Token.source =
        (before ++ [last]).flatMap Token.source ++ ctx.braceSource words := by
  have hrange : ({ t with frames := [] } : Tokenizer).rangeSource? ctx frame = _ :=
    rangeSource?_eq ctx h.tokens hplace hadded
  unfold Context.braceSource
  cases hoperands : Operands.ofTexts? words with
  | some operands =>
    have hdots : frame.dots = true := by
      rw [hdots, decide_eq_true_eq]
      obtain _ | ⟨word, _ | ⟨next, words⟩⟩ := words
      · cases hoperands
      · cases hoperands
      · simp
    obtain ⟨previous, hat⟩ := h.closeBrace_of_range ctx hplace hcomma hadded hdots hoperands hlast
    exact ⟨_, _, hat, rfl, by simp [Token.source, Token.ofSource]⟩
  | none =>
    obtain ⟨previous, hat⟩ := h.closeBrace_of_text ctx hplace hcomma hadded.last fun _ => by
      rw [hrange, hoperands]
      rfl
    refine ⟨_, _, hat, rfl, ?_⟩
    rw [List.flatMap_append, List.flatMap_append, List.flatMap_cons, hadded.source]
    simp [Token.source, Token.ofSource, Regex.escape, escapeChar, isMeta]

end

/-- An opening brace. -/
theorem At.leads_openBrace (h : t.At [] (before ++ [last]) ('{' :: more))
    (hbrace : ctx.options.noBrace = false) (hlast : last.kind ≠ .globstar) :
    ∃ t' size previous, Leads ctx tail t t' ∧
      t'.At [.brace ⟨size, (before ++ [last]).length, false, false, []⟩] (before ++ [last] ++
        [{ Token.ofSource .brace ['{'] (Fragment.openGroup ctx.options.capture) with previous }])
        more := by
  have hr := h.reading
  let frame : BraceFrame :=
    ⟨Text.byteSize (t.reading more).output, (before ++ [last]).length, false, false, []⟩
  have hopened : ({ t.reading more with frames := [.brace frame] } : Tokenizer).At [.brace frame]
      (before ++ [last]) more := ⟨hr.inClass, hr.quoted, hr.negated, rfl, hr.tokens, hr.rest⟩
  obtain ⟨previous, hpush⟩ := hopened.push ctx
    (.ofSource .brace ['{'] (Fragment.openGroup ctx.options.capture)) rfl
    (hopened.last_eq ▸ hlast) fun _ => by simp [Token.ofSource]
  have hstep : step ctx tail (t.reading more) '{' = .ok ((t.reading more).openBrace ctx) := by
    simp [step, hr.inClass, hr.quoted, hbrace]
  have hopen : (t.reading more).openBrace ctx =
      ({ t.reading more with frames := [.brace frame] } : Tokenizer).push ctx
        (.ofSource .brace ['{'] (Fragment.openGroup ctx.options.capture)) := by
    simp only [openBrace, hr.frames, hr.tokens, frame]
  rw [hopen] at hstep
  exact ⟨_, _, previous, .of_step h.rest hstep (Nat.le_of_eq (congrArg List.length hpush.rest)),
    hpush⟩

/-- Where no group is open, a plain text is added, if there is any. -/
theorem At.leads_text {text : List Char} (h : t.At [] (before ++ [last]) (text ++ more))
    (hlast : last.kind ∈ [.bos, .brace]) (htext : ∀ c ∈ text, isSpecial c = false)
    (hmore : ∀ c ∈ more.head?, isSpecial c = true) :
    ∃ t' before' last', Leads ctx tail t t' ∧ t'.At [] (before' ++ [last']) more ∧
      last'.kind ∈ [.bos, .brace, .text] ∧ (before' ++ [last']).flatMap Token.source =
        (before ++ [last]).flatMap Token.source ++ text := by
  by_cases hnil : text = []
  · subst hnil
    refine ⟨t, before, last, .refl t, h, ?_, (List.append_nil _).symm⟩
    exact (List.mem_append_left [.text] hlast :)
  · have hlast' : t.last.kind ∉ [.text, .globstar] := by
      rw [h.last_eq]
      obtain hkind | hkind : last.kind = .bos ∨ last.kind = .brace := by simpa using hlast
      all_goals rw [hkind]; decide
    obtain ⟨t', previous, hleads, hat⟩ := h.leads_word ctx tail rfl hlast' hnil htext hmore
    refine ⟨t', _, _, hleads, hat, by simp [Token.text, Token.ofSource], ?_⟩
    rw [List.flatMap_append]
    simp [Token.source, Token.text, Token.ofSource]

/-- A brace group of words between two plain texts. -/
theorem leads_ranged (hbrace : ctx.options.noBrace = false) {lead after : List Char}
    {words : List (List Char)} (hlead : ∀ c ∈ lead, isSpecial c = false)
    (hwords : ArePlainWords words) (hafter : ∀ c ∈ after, isSpecial c = false) :
    ∃ t before last, Leads ctx tail { rest := ranged lead words after } t ∧
      t.At [] (before ++ [last]) [] ∧ last.kind ∈ [.bos, .brace, .text] ∧
      (before ++ [last]).flatMap Token.source = lead ++ ctx.braceSource words ++ after := by
  have hs : ({ rest := ranged lead words after } : Tokenizer).At [] ([] ++ [.bos])
      (lead ++ '{' :: (dotted words ++ '}' :: after)) :=
    ⟨rfl, rfl, rfl, rfl, rfl, by simp [ranged]⟩
  obtain ⟨t₁, before₁, last₁, hleads₁, h₁, hkind₁, hsource₁⟩ :=
    hs.leads_text ctx tail (by simp [Token.bos, Token.ofSource]) hlead (by simp [isSpecial])
  have hlast₁ : last₁.kind ≠ .globstar := by
    intro heq
    rw [heq] at hkind₁
    exact absurd hkind₁ (by decide)
  obtain ⟨t₂, size, previous, hleads₂, h₂⟩ := h₁.leads_openBrace ctx tail hbrace hlast₁
  have hkind₂ : t₂.last.kind ∉ [.text, .globstar] := by
    rw [h₂.last_eq]
    simp [Token.ofSource]
  obtain ⟨t₃, added, hleads₃, hadded, h₃⟩ := leads_operands ctx tail hwords h₂ hkind₂
  rw [List.append_assoc, List.singleton_append] at h₃
  obtain ⟨before₄, last₄, h₄, hkind₄, hsource₄⟩ :=
    h₃.reading.exists_closeBrace ctx rfl rfl hadded (Bool.false_or _) hlast₁
  have hstep : step ctx tail (t₃.reading after) '}' = .ok ((t₃.reading after).closeBrace ctx) := by
    simp [step, h₃.reading.inClass, h₃.reading.quoted]
  have hleads₄ : Leads ctx tail t₃ ((t₃.reading after).closeBrace ctx) :=
    .of_step h₃.rest hstep (Nat.le_of_eq (congrArg List.length h₄.rest))
  have h₄' : ((t₃.reading after).closeBrace ctx).At [] (before₄ ++ [last₄]) (after ++ []) := by
    rwa [List.append_nil]
  obtain ⟨t₅, before₅, last₅, hleads₅, h₅, hkind₅, hsource₅⟩ :=
    h₄'.leads_text ctx tail (by simp [hkind₄]) hafter (by simp)
  refine ⟨t₅, before₅, last₅, (((hleads₁.trans hleads₂).trans hleads₃).trans hleads₄).trans hleads₅,
    h₅, hkind₅, ?_⟩
  rw [hsource₅, hsource₄, hsource₁]
  rfl

/-- At the end nothing is open, and nothing is added. -/
theorem At.finish (h : t.At [] (before ++ [last]) []) (hlast : last.kind ∈ [.bos, .brace, .text]) :
    ∃ t', t.finish ctx = .ok t' ∧ t'.tokens = before ++ [last] ∧ t'.negated = false := by
  have hallow : t.allowSlash ctx = t := by
    refine if_neg fun hand => ?_
    rw [h.last_eq] at hand
    simp only [Bool.and_eq_true, Bool.or_eq_true, decide_eq_true_eq] at hand
    obtain hkind | hkind := hand.2 <;> rw [hkind] at hlast <;> exact absurd hlast (by decide)
  refine ⟨_, finish_of_endFrames ctx h.inClass (endFrames_eq ctx h.frames), ?_⟩
  rw [hallow]
  split
  · exact ⟨h.tokens, h.negated⟩
  · exact ⟨h.tokens, h.negated⟩

end

end Tokenizer

/-- The translation of a brace group of words between two plain texts. -/
theorem Context.tokenize_ranged (ctx : Context) (hbrace : ctx.options.noBrace = false)
    (hstar : ctx.star ≠ []) {before after : List Char} {words : List (List Char)}
    (hbefore : ∀ c ∈ before, isSpecial c = false) (hwords : ArePlainWords words)
    (hafter : ∀ c ∈ after, isSpecial c = false) (hbody : ctx.body = ranged before words after)
    (tail : List Char → Except Error (List Char)) :
    ∃ translation, ctx.tokenize tail = .ok translation ∧
      translation.output = before ++ ctx.braceSource words ++ after ∧
      translation.negated = false := by
  obtain ⟨t, _, _, hleads, hat, hlast, hsource⟩ :=
    Tokenizer.leads_ranged ctx tail hbrace hbefore hwords hafter
  obtain ⟨t', hfinish, htokens, hnegated⟩ := hat.finish ctx hlast
  rw [← hbody] at hleads
  obtain ⟨translation, htokenize, hnegated', houtput⟩ :=
    tokenize_of_leads hstar hleads hat.rest hfinish
  exact ⟨translation, htokenize, houtput.trans (htokens ▸ hsource), hnegated'.trans hnegated⟩

end PathGlob.Pattern
