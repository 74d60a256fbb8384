import PathGlob.Proofs.Pattern.Runs

/-!
# `PathGlob.Proofs.Pattern.Protected`: texts behind backslashes and between quotes

`protect` puts a backslash before every character that has a meaning in patterns, and `enclose`
puts a text between double quotes. The tokenizer reads either of them back as the text itself:
what it adds to the source is `Regex.escape text`, whatever the dialect (`leads_protect`,
`leads_enclose`).

Three kinds of steps have to come to the same here. Most escaped characters become text along
with their backslash. Before a dot, and mostly before a slash, the backslash is dropped, and the
character is read as if it stood alone, so it makes a token of its own kind. Between quotes every
character is text. In each case the last token is one that the next character leaves alone
(`Tokenizer.Inert`).
-/

set_option autoImplicit false

namespace PathGlob.Pattern

open Regex

/-- The text with a backslash before every character that has a meaning in patterns. -/
def protect (text : List Char) : List Char :=
  text.flatMap fun c => if isSpecial c then ['\\', c] else [c]

/-- The text between double quotes. -/
def enclose (text : List Char) : List Char := '"' :: text ++ ['"']

theorem protect_cons (c : Char) (text : List Char) :
    protect (c :: text) = (if isSpecial c then ['\\', c] else [c]) ++ protect text :=
  List.flatMap_cons

/-- A protected text begins with a backslash or with a plain character. -/
theorem head?_protect {text : List Char} {c : Char} (h : (protect text).head? = some c) :
    c = '\\' ∨ isSpecial c = false := by
  cases text with
  | nil => exact absurd h (by simp [protect])
  | cons d text =>
    rw [protect_cons] at h
    split at h
    case isTrue => exact .inl (Option.some.inj h).symm
    case isFalse hd =>
      obtain rfl : d = c := Option.some.inj h
      exact .inr (Bool.not_eq_true _ ▸ hd)

theorem protect_ne_nil {text : List Char} (h : text ≠ []) : protect text ≠ [] := by
  obtain ⟨c, text, rfl⟩ := List.exists_cons_of_ne_nil h
  rw [protect_cons]
  split <;> simp

/-- No letter or digit has a meaning in patterns. -/
theorem isEscapeLetter_of_isSpecial {c : Char} (h : isSpecial c = true) :
    isEscapeLetter c = false := by
  simp only [isSpecial, List.contains_eq_mem, decide_eq_true_eq, List.mem_cons, List.not_mem_nil,
    or_false] at h
  rcases h with h | h | h | h | h | h | h | h | h | h | h | h | h | h | h | h | h | h | h | h <;>
    (rw [h]; decide)

namespace Tokenizer

/-- Nothing is open, and the last token is none that the next character could change. Quotes may
be open. A dot is not the first character of the pattern, so no slash makes a `./` of it. -/
structure Inert (t : Tokenizer) : Prop where
  frames : t.frames = []
  inClass : t.inClass = false
  start : t.start = 0
  tokens : t.tokens ≠ []
  last : t.last.kind ∈ [.bos, .text, .slash, .dot]
  dot : t.last.kind = .dot → t.position ≠ 0

section
variable {t t' : Tokenizer} {ctx : Context} {tail : List Char → Except Error (List Char)}
  {c : Char} {more : List Char}

theorem inert_initial (rest : List Char) : ({ rest } : Tokenizer).Inert :=
  ⟨rfl, rfl, rfl, by simp, by simp [last, Token.bos, Token.ofSource],
    by simp [last, Token.bos, Token.ofSource]⟩

theorem Inert.reading (h : t.Inert) (rest : List Char) : (t.reading rest).Inert :=
  ⟨h.frames, h.inClass, h.start, h.tokens, h.last, fun _ => Nat.succ_ne_zero t.position⟩

theorem Inert.skip (h : t.Inert) (n : Nat) : (t.skip n).Inert :=
  ⟨h.frames, h.inClass, h.start, h.tokens, h.last, fun hdot =>
    Nat.ne_of_gt (Nat.lt_of_lt_of_le (Nat.pos_of_ne_zero (h.dot hdot)) (Nat.le_add_right _ _))⟩

theorem Inert.not_globstar (h : t.Inert) : t.last.kind ≠ .globstar := by
  intro hlast
  have hmem := h.last
  rw [hlast] at hmem
  exact absurd hmem (by decide)

/-- A token of one of these kinds is added, and nothing else happens. -/
theorem Inert.push (h : t.Inert) (hposition : t.position ≠ 0) (ctx : Context) (token : Token)
    (hkind : token.kind ∈ [.text, .slash, .dot]) :
    t.Grows token.source t.rest (t.push ctx token) ∧ (t.push ctx token).Inert := by
  obtain ⟨before, htokens⟩ := exists_tokens_eq h.tokens
  have hpushed := pushed_eq htokens token
  rw [Tokenizer.push_eq ctx (not_inExtglob_of_frames_eq h.frames) fun hlast =>
    absurd hlast h.not_globstar]
  refine ⟨⟨t.position, t.pushed token, rfl⟩, h.frames, h.inClass, h.start, ?_, ?_,
    fun _ => hposition⟩
  · show t.pushed token ≠ []
    rw [hpushed]
    split <;> simp
  · show ((t.pushed token).getLast?.getD .bos).kind ∈ _
    rw [hpushed]
    split
    case isTrue => simpa using h.last
    case isFalse => simpa using List.mem_cons_of_mem TokenKind.bos hkind

/-- A text is added. -/
theorem Inert.pushText (h : t.Inert) (hposition : t.position ≠ 0) (ctx : Context)
    (value source : List Char) :
    t.Grows source t.rest (t.pushText ctx value source) ∧ (t.pushText ctx value source).Inert :=
  h.push hposition ctx (.text value source) (by simp [Token.text, Token.ofSource])

/-- What has been read since does not matter for what is added. -/
theorem Grows.of_ahead {source rest : List Char} {position : Nat}
    (h : ({ t with rest, position } : Tokenizer).Grows source more t') : t.Grows source more t' := by
  obtain ⟨position', tokens, heq⟩ := h
  exact ⟨position', tokens, heq⟩

/-! ### Behind backslashes -/

section
variable (ctx tail)

/-- A plain character. -/
theorem Inert.leads_plain (h : t.Inert) (hquoted : t.quoted = false) (hrest : t.rest = c :: more)
    (hc : isSpecial c = false) :
    ∃ t', Leads ctx tail t t' ∧ t.Grows (escapeChar c) more t' ∧ t'.Inert := by
  rw [escapeChar_of_not_isSpecial hc]
  obtain ⟨hgrows, hinert⟩ := (h.reading more).pushText (Nat.succ_ne_zero _) ctx [c] [c]
  exact ⟨_, Tokenizer.leads_plain ctx tail h.inClass hquoted h.tokens h.not_globstar hrest hc,
    .of_ahead hgrows, hinert⟩

/-- A backslash before a dot, and unless stars cross separators before a slash, is dropped. -/
theorem Inert.leads_dropped (hrest : t.rest = '\\' :: c :: more)
    (hc : c = '.' ∨ c = '/' ∧ ctx.options.bash = false) :
    Leads ctx tail t (t.reading (c :: more)) := by
  refine .of_step hrest ?_ (Nat.le_refl _)
  have hescape : (t.reading (c :: more)).escape ctx = t.reading (c :: more) := by
    obtain rfl | ⟨rfl, hbash⟩ := hc
    · simp [escape, Tokenizer.reading]
    · simp [escape, Tokenizer.reading, hbash]
  simp [step, hescape]

/-- An escaped dot makes a token of its own, as any dot does. -/
theorem Inert.leads_dot (h : t.Inert) (hquoted : t.quoted = false)
    (hrest : t.rest = '\\' :: '.' :: more) :
    ∃ t', Leads ctx tail t t' ∧ t.Grows (escapeChar '.') more t' ∧ t'.Inert := by
  let u : Tokenizer := (t.reading ('.' :: more)).reading more
  have hu : u.Inert := (h.reading ('.' :: more)).reading more
  have hdot : ∃ kind ∈ [TokenKind.text, .slash, .dot], u.dot ctx =
      u.push ctx (.ofSource kind ['.'] Fragment.dot) := by
    have hbrace : u.inBrace = false := by rw [inBrace, hu.frames]; rfl
    unfold Tokenizer.dot
    rw [hbrace, hu.frames]
    cases u.last.kind.beginsSegment with
    | true => exact ⟨.dot, by decide, rfl⟩
    | false => exact ⟨.text, by decide, rfl⟩
  obtain ⟨kind, hkind, hdot⟩ := hdot
  obtain ⟨hgrows, hinert⟩ :=
    hu.push (Nat.succ_ne_zero _) ctx (.ofSource kind ['.'] Fragment.dot) hkind
  have hstep : step ctx tail u '.' = .ok (u.push ctx (.ofSource kind ['.'] Fragment.dot)) := by
    rw [← hdot]
    simp [step, hu.inClass, show u.quoted = false from hquoted]
  refine ⟨_, (Inert.leads_dropped ctx tail hrest (.inl rfl)).trans (.of_step rfl hstep ?_),
    .of_ahead hgrows, hinert⟩
  exact Nat.le_of_eq (congrArg List.length hgrows.rest_eq)

/-- An escaped slash still separates, unless stars cross separators. -/
theorem Inert.leads_slash (hwindows : ctx.options.windows = false)
    (hbash : ctx.options.bash = false) (h : t.Inert) (hquoted : t.quoted = false)
    (hrest : t.rest = '\\' :: '/' :: more) :
    ∃ t', Leads ctx tail t t' ∧ t.Grows (escapeChar '/') more t' ∧ t'.Inert := by
  let u : Tokenizer := (t.reading ('/' :: more)).reading more
  have hu : u.Inert := (h.reading ('/' :: more)).reading more
  let token : Token := .ofSource .slash ['/'] (Fragment.slash ctx.windows)
  have hslash : u.slash ctx = u.push ctx token := by
    -- A leading dot has a backslash before it, so the slash is not the second character.
    have hnot : ¬ ((decide (u.last.kind = .dot) && decide (u.place = u.start + 1)) = true) := by
      rw [hu.start, Bool.and_eq_true, decide_eq_true_eq, decide_eq_true_eq]
      rintro ⟨hlast, hplace⟩
      have hposition : t.position ≠ 0 := h.dot hlast
      have hplace : t.position + 1 + 1 - 1 = 1 := hplace
      omega
    rw [slash, if_neg hnot]
  obtain ⟨hgrows, hinert⟩ := hu.push (Nat.succ_ne_zero _) ctx token (by simp [token, Token.ofSource])
  have hsource : token.source = escapeChar '/' := by
    show Fragment.slash ctx.options.windows = _
    rw [hwindows]
    decide
  rw [hsource] at hgrows
  have hstep : step ctx tail u '/' = .ok (u.push ctx token) := by
    rw [← hslash]
    simp [step, hu.inClass, show u.quoted = false from hquoted]
  refine ⟨_, (Inert.leads_dropped ctx tail hrest (.inr ⟨rfl, hbash⟩)).trans
    (.of_step rfl hstep ?_), .of_ahead hgrows, hinert⟩
  exact Nat.le_of_eq (congrArg List.length hgrows.rest_eq)

/-- Any other escaped character that has a meaning becomes text with its backslash. -/
theorem Inert.leads_escaped (h : t.Inert) (hrest : t.rest = '\\' :: c :: more)
    (hc : isSpecial c = true) (hdot : c ≠ '.') (hslash : c = '/' → ctx.options.bash = true) :
    ∃ t', Leads ctx tail t t' ∧ t.Grows (escapeChar c) more t' ∧ t'.Inert := by
  let u : Tokenizer := (t.reading (c :: more)).skip 1
  have hu : u.Inert := (h.reading (c :: more)).skip 1
  obtain ⟨hgrows, hinert⟩ :=
    hu.pushText (Nat.succ_ne_zero _) ctx ['\\', c] (escapeChar c)
  have hsemicolon : c ≠ ';' := by
    rintro rfl
    exact absurd hc (by decide)
  have hescape : (t.reading (c :: more)).escape ctx = u.pushText ctx ['\\', c] (escapeChar c) := by
    have hkept : ¬ (((decide (c = '/') && !ctx.options.bash) || decide (c = '.') ||
        decide (c = ';')) = true) := by
      simp only [hdot, hsemicolon, decide_false, Bool.or_false, Bool.and_eq_true, Bool.not_eq_true',
        decide_eq_true_eq]
      rintro ⟨heq, hbash⟩
      exact absurd ((hslash heq).symm.trans hbash) (by simp)
    have hrest' : (t.reading (c :: more)).rest = c :: more := rfl
    have hclass : u.inClass = false := hu.inClass
    simp [escape, hrest', hkept, u, show ((t.reading (c :: more)).skip 1).inClass = false from hclass,
      isEscapeLetter_of_isSpecial hc]
  have hstep : step ctx tail (t.reading (c :: more)) '\\' =
      .ok (u.pushText ctx ['\\', c] (escapeChar c)) := by
    rw [← hescape]
    simp [step]
  refine ⟨_, .of_step hrest hstep ?_, .of_ahead hgrows, hinert⟩
  rw [hgrows.rest_eq]
  exact Nat.le_succ _

/-- A protected character adds the source that matches it. -/
theorem Inert.leads_protectedChar (hwindows : ctx.options.windows = false) (h : t.Inert)
    (hquoted : t.quoted = false)
    (hrest : t.rest = (if isSpecial c then ['\\', c] else [c]) ++ more) :
    ∃ t', Leads ctx tail t t' ∧ t.Grows (escapeChar c) more t' ∧ t'.Inert := by
  cases hc : isSpecial c with
  | false =>
    rw [hc] at hrest
    exact h.leads_plain ctx tail hquoted hrest hc
  | true =>
    rw [hc] at hrest
    by_cases hdot : c = '.'
    · subst hdot
      exact h.leads_dot ctx tail hquoted hrest
    · by_cases hslash : c = '/' ∧ ctx.options.bash = false
      · obtain ⟨rfl, hbash⟩ := hslash
        exact h.leads_slash ctx tail hwindows hbash hquoted hrest
      · refine h.leads_escaped ctx tail hrest hc hdot fun heq => ?_
        exact Bool.not_eq_false _ ▸ fun hbash => hslash ⟨heq, hbash⟩

/-- A protected text adds the source that matches it. -/
theorem Inert.leads_protect (hwindows : ctx.options.windows = false) (text : List Char)
    (h : t.Inert) (hquoted : t.quoted = false) (hrest : t.rest = protect text ++ more) :
    ∃ t', Leads ctx tail t t' ∧ t.Grows (Regex.escape text) more t' ∧ t'.Inert := by
  induction text generalizing t with
  | nil => exact ⟨t, .refl t, .refl hrest, h⟩
  | cons c text ih =>
    rw [protect_cons, List.append_assoc] at hrest
    obtain ⟨t₁, hleads, hgrows, h₁⟩ := h.leads_protectedChar ctx tail hwindows hquoted hrest
    have hquoted₁ : t₁.quoted = false := by
      obtain ⟨_, _, rfl⟩ := hgrows
      exact hquoted
    obtain ⟨t₂, hleads', hgrows', h₂⟩ := ih h₁ hquoted₁ hgrows.rest_eq
    exact ⟨t₂, hleads.trans hleads', hgrows.trans hgrows', h₂⟩

/-! ### Between quotes -/

/-- Between quotes, every character but a quote, a backslash and a null is text. -/
theorem Inert.leads_quotedChar (h : t.Inert) (hquoted : t.quoted = true)
    (hrest : t.rest = c :: more) (hc : c ≠ '"' ∧ c ≠ '\\' ∧ c ≠ '\x00') :
    ∃ t', Leads ctx tail t t' ∧ t.Grows (escapeChar c) more t' ∧ t'.Inert := by
  have hr := h.reading more
  obtain ⟨hgrows, hinert⟩ := hr.pushText (Nat.succ_ne_zero _) ctx [c] (escapeChar c)
  have hstep : step ctx tail (t.reading more) c =
      .ok ((t.reading more).pushText ctx [c] (escapeChar c)) := by
    simp [step, hc, hr.inClass, show (t.reading more).quoted = true from hquoted]
  exact ⟨_, .of_step hrest hstep (Nat.le_of_eq (congrArg List.length hgrows.rest_eq)),
    .of_ahead hgrows, hinert⟩

/-- Between quotes, a text adds the source that matches it. -/
theorem Inert.leads_quoted {text : List Char} (htext : ∀ c ∈ text, c ≠ '"' ∧ c ≠ '\\' ∧ c ≠ '\x00')
    (h : t.Inert) (hquoted : t.quoted = true) (hrest : t.rest = text ++ more) :
    ∃ t', Leads ctx tail t t' ∧ t.Grows (Regex.escape text) more t' ∧ t'.Inert := by
  induction text generalizing t with
  | nil => exact ⟨t, .refl t, .refl hrest, h⟩
  | cons c text ih =>
    obtain ⟨hc, htext⟩ := List.forall_mem_cons.mp htext
    obtain ⟨t₁, hleads, hgrows, h₁⟩ := h.leads_quotedChar ctx tail hquoted hrest hc
    have hquoted₁ : t₁.quoted = true := by
      obtain ⟨_, _, rfl⟩ := hgrows
      exact hquoted
    obtain ⟨t₂, hleads', hgrows', h₂⟩ := ih htext h₁ hquoted₁ hgrows.rest_eq
    exact ⟨t₂, hleads.trans hleads', hgrows.trans hgrows', h₂⟩

/-- A quote opens or closes a run of text and adds nothing. -/
theorem Inert.leads_quote (hkeep : ctx.options.keepQuotes = false) (h : t.Inert)
    (hrest : t.rest = '"' :: more) :
    Leads ctx tail t { t.reading more with quoted := !t.quoted } := by
  refine .of_step hrest ?_ (Nat.le_refl _)
  simp [step, h.inClass, hkeep, Tokenizer.reading]

/-- A text between quotes adds the source that matches it. -/
theorem Inert.leads_enclose (hkeep : ctx.options.keepQuotes = false) {text : List Char}
    (htext : ∀ c ∈ text, c ≠ '"' ∧ c ≠ '\\' ∧ c ≠ '\x00') (h : t.Inert) (hquoted : t.quoted = false)
    (hrest : t.rest = enclose text ++ more) :
    ∃ t', Leads ctx tail t t' ∧ t.Grows (Regex.escape text) more t' ∧ t'.Inert := by
  rw [enclose, List.append_assoc] at hrest
  let u : Tokenizer := { t.reading (text ++ '"' :: more) with quoted := true }
  have hopen : Leads ctx tail t u := by
    have hquote := h.leads_quote ctx tail hkeep hrest
    rwa [hquoted] at hquote
  have hr := h.reading (text ++ '"' :: more)
  have hu : u.Inert := ⟨hr.frames, hr.inClass, hr.start, hr.tokens, hr.last, hr.dot⟩
  obtain ⟨v, hleads, ⟨position, tokens, rfl⟩, hv⟩ := hu.leads_quoted ctx tail htext rfl rfl
  have hclose := hv.leads_quote ctx tail hkeep rfl
  refine ⟨_, (hopen.trans hleads).trans hclose, ⟨position + 1, tokens, ?_⟩, ?_⟩
  · simp [u, Tokenizer.reading, hquoted]
  · have hw := hv.reading more
    exact ⟨hw.frames, hw.inClass, hw.start, hw.tokens, hw.last, hw.dot⟩

end

/-- At the end nothing is open, and nothing is added. -/
theorem Inert.finish_eq (h : t.Inert) (hrebuild : t.rebuild = false) : t.finish ctx = .ok t := by
  have hlast := h.last
  have hallow : t.allowSlash ctx = t := by
    refine if_neg fun hand => ?_
    simp only [Bool.and_eq_true, Bool.or_eq_true, decide_eq_true_eq] at hand
    obtain hkind | hkind := hand.2 <;> rw [hkind] at hlast <;> exact absurd hlast (by decide)
  rw [Tokenizer.finish_eq ctx h.frames h.inClass (by rw [hallow, hrebuild]), hallow]

end

end Tokenizer

namespace Context

variable {ctx : Context} {tail : List Char → Except Error (List Char)} {text : List Char}

/-- A run that adds the source of a text to nothing is a translation of the text. -/
theorem tokenize_of_grows {t : Tokenizer} {source : List Char}
    (hleads : Tokenizer.Leads ctx tail { rest := ctx.body } t)
    (hgrows : ({ rest := ctx.body } : Tokenizer).Grows source [] t) (h : t.Inert) :
    ∃ translation, ctx.tokenize tail = .ok translation ∧ translation.output = source ∧
      translation.negated = false := by
  have hrun := hleads.run_eq hgrows.rest_eq
  obtain ⟨position, tokens, rfl⟩ := hgrows
  exact ⟨_, tokenize_eq ((congrArg (Except.bind · (Tokenizer.finish ctx)) hrun).trans
    (h.finish_eq rfl)), rfl, rfl⟩

/-- The translation of a protected text. -/
theorem tokenize_protect (hwindows : ctx.options.windows = false)
    (hbody : ctx.body = protect text) (tail : List Char → Except Error (List Char)) :
    ∃ translation, ctx.tokenize tail = .ok translation ∧
      translation.output = Regex.escape text ∧ translation.negated = false := by
  obtain ⟨t, hleads, hgrows, h⟩ := (Tokenizer.inert_initial ctx.body).leads_protect ctx tail
    hwindows text rfl (hbody.trans (List.append_nil _).symm)
  exact tokenize_of_grows hleads hgrows h

/-- The translation of a text between quotes. -/
theorem tokenize_enclose (hkeep : ctx.options.keepQuotes = false)
    (htext : ∀ c ∈ text, c ≠ '"' ∧ c ≠ '\\' ∧ c ≠ '\x00') (hbody : ctx.body = enclose text)
    (tail : List Char → Except Error (List Char)) :
    ∃ translation, ctx.tokenize tail = .ok translation ∧
      translation.output = Regex.escape text ∧ translation.negated = false := by
  obtain ⟨t, hleads, hgrows, h⟩ := (Tokenizer.inert_initial ctx.body).leads_enclose ctx tail
    hkeep htext rfl (hbody.trans (List.append_nil _).symm)
  exact tokenize_of_grows hleads hgrows h

end Context

end PathGlob.Pattern
