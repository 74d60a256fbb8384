import PathGlob.Proofs.Pattern.Ungrouped

/-!
# `PathGlob.Proofs.Pattern.Globstar`: what a globstar is translated into

A globstar fills a segment. What it adds to the source depends on what stands around it:
it can be the whole pattern, its first segment, its last one, or one in between. In all
but the first case it takes a separator into its own source, and behind a separator it
rewrites the source that is already there. Several globstars in a row are one.
-/

set_option autoImplicit false

namespace PathGlob.Pattern

open Regex

/-- Globstars behind separators. -/
def furtherGlobstars : Nat → List Char
  | 0 => []
  | n + 1 => '/' :: '*' :: '*' :: furtherGlobstars n

/-- A globstar, and as many more as given, with separators between them. -/
def globstars (n : Nat) : List Char := '*' :: '*' :: furtherGlobstars n

theorem length_furtherGlobstars (n : Nat) : (furtherGlobstars n).length = 3 * n := by
  induction n with
  | zero => rfl
  | succ n ih =>
    simp only [furtherGlobstars, List.length_cons, ih]
    omega

/-- What may follow globstars: the end, or a segment that begins no further one. -/
def EndsGlobstars (rest : List Char) : Prop :=
  rest = [] ∨ ∃ more, rest = '/' :: more ∧ TokenKind.AdmitsAll [] .slash more

theorem EndsGlobstars.head? {rest : List Char} (h : EndsGlobstars rest) :
    rest = [] ∨ rest.head? = some '/' := by
  rcases h with rfl | ⟨more, rfl, -⟩
  · exact .inl rfl
  · exact .inr rfl

/-- Only separators and stars are redundant. -/
theorem mem_take_redundantGlobstars (n : Nat) (rest : List Char) :
    ∀ c ∈ rest.take (redundantGlobstars rest n), c = '/' ∨ c = '*' := by
  induction n generalizing rest with
  | zero => simp [redundantGlobstars]
  | succ n ih =>
    unfold redundantGlobstars
    split
    · simp
    · rename_i more
      intro c hc
      rw [Nat.add_comm] at hc
      simp only [List.take_succ_cons, List.mem_cons] at hc
      obtain hc | hc | hc | hc := hc
      · exact .inl hc
      · exact .inr hc
      · exact .inr hc
      · exact ih ('/' :: more) c hc
    · simp

/-- All further globstars are redundant. -/
theorem redundantGlobstars_eq {rest : List Char} (hrest : EndsGlobstars rest) (n : Nat)
    {bound : Nat} (hbound : n ≤ bound) :
    redundantGlobstars (furtherGlobstars n ++ rest) bound = 3 * n := by
  -- What ends the globstars does not read as a further one.
  have hstop (bound : Nat) : redundantGlobstars rest bound = 0 := by
    rcases hrest with rfl | ⟨more, rfl, hadmits⟩
    · cases bound <;> rfl
    · cases bound with
      | zero => rfl
      | succ bound =>
        have hnot (after : List Char) : more ≠ '*' :: '*' :: after := by
          rintro rfl
          exact hadmits.1.2.2.2 rfl rfl rfl
        rw [redundantGlobstars]
        · exact fun heq => hnot [] (List.cons.inj heq).2
        · exact fun after heq => hnot ('/' :: after) (List.cons.inj heq).2
  induction n generalizing bound with
  | zero => exact hstop bound
  | succ n ih =>
    obtain ⟨bound, rfl⟩ : ∃ k, bound = k + 1 := ⟨bound - 1, by omega⟩
    have := ih (show n ≤ bound by omega)
    cases n with
    | zero =>
      rcases hrest with rfl | ⟨more, rfl, hadmits⟩
      · rfl
      · simp only [furtherGlobstars, List.cons_append, List.nil_append,
          redundantGlobstars] at this ⊢
        omega
    | succ n =>
      simp only [furtherGlobstars, List.cons_append, redundantGlobstars] at this ⊢
      omega

namespace Context

/-- The source of a globstar that is the first segment, with the separator after it. -/
def leadingGlobstar (ctx : Context) : List Char :=
  ['(', '?', ':', '^', '|'] ++ Fragment.slash ctx.windows ++
    '|' :: ctx.globstar ++ Fragment.slash ctx.windows ++ [')']

/-- The source of a globstar that is the last segment, with the separator before it. -/
def trailingGlobstar (ctx : Context) : List Char :=
  ['(', '?', ':'] ++ (Fragment.slash ctx.windows ++ ctx.dotGuard) ++
    (ctx.globstar ++ if ctx.options.strictSlashes then [')'] else ['|', '$', ')'])

/-- The source of a globstar that is a segment between others, with both separators. -/
def innerGlobstar (ctx : Context) : List Char :=
  ['(', '?', ':'] ++ (Fragment.slash ctx.windows ++ ctx.dotGuard) ++
    (ctx.globstar ++ Fragment.slash ctx.windows ++
      '|' :: Fragment.slash ctx.windows ++ ['|', '$', ')'])

end Context

namespace Token

/-- The token with a guard behind its source. -/
def guarded (token : Token) (guard : List Char) : Token :=
  { token with source? := some (token.source ++ guard) }

/-- The token of a first star, given the place of the token before it. -/
def firstStar (ctx : Context) (place : Nat) : Token :=
  { Token.ofSource .star ['*'] ctx.starOutput with previous := some place }

end Token

namespace Tokenizer

section
variable {t : Tokenizer} {kind : TokenKind} (ctx : Context)
  {before : List Token} {prior star : Token}

/-- The first of two stars at the start of a segment. -/
theorem star_before_star_eq (h : t.Still kind) (hbegins : kind.beginsSegment = true)
    (hplace : t.place = 0 ↔ kind = .bos) (hnext : t.rest.head? = some '*')
    (htokens : t.tokens = before ++ [prior]) : t.star ctx = { t with
      output := t.output ++ ctx.dotGuard ++ ctx.starOutput
      tokens := before ++ [prior.guarded ctx.dotGuard, .firstStar ctx before.length] } ∧
      (t.star ctx).Still .star := by
  have hguard : t.starGuard? ctx = some ctx.dotGuard := by
    unfold starGuard?
    simp only [h.start, h.last, hplace, ahead_zero, hnext]
    cases kind <;> simp_all [TokenKind.beginsSegment]
  have hkind : kind ≠ .star := by
    rintro rfl
    exact absurd hbegins (by decide)
  have hr := h.guardLast ctx.dotGuard
  -- The guard goes into the token before the star.
  have htokens' : (t.guardLast ctx.dotGuard).tokens = before ++ [prior.guarded ctx.dotGuard] := by
    have hplace : (t.emit ctx.dotGuard).lastPlace = before.length := by
      simp [lastPlace, emit, htokens]
    simp only [guardLast, modifyLast, modify, hplace]
    rw [show (t.emit ctx.dotGuard).tokens = before ++ [prior] from htokens]
    exact modify_append_length before [] prior _
  have hpush : (t.guardLast ctx.dotGuard).push ctx (.ofSource .star ['*'] ctx.starOutput) = { t with
      output := t.output ++ ctx.dotGuard ++ ctx.starOutput
      tokens := before ++ [prior.guarded ctx.dotGuard, .firstStar ctx before.length] } := by
    have hpushed : (t.guardLast ctx.dotGuard).pushed (.ofSource .star ['*'] ctx.starOutput) =
        before ++ [prior.guarded ctx.dotGuard, .firstStar ctx before.length] := by
      simp [pushed, Token.ofSource, htokens', lastPlace, Token.firstStar]
    rw [hr.push_eq, hpushed]
    rfl
  have hstar : t.star ctx =
      (t.guardLast ctx.dotGuard).push ctx (.ofSource .star ['*'] ctx.starOutput) := by
    unfold star
    simp only [h.last, h.not_globstar, h.isStarRun, ahead_zero, hnext, hkind, hguard]
    simp [Context.starOutput]
  exact ⟨hstar.trans hpush, hstar ▸ hr.push ctx (by decide) ['*'] ctx.starOutput⟩

/-- The second of two stars at the start of a segment, where the segment ends. -/
theorem star_after_star_eq (h : t.Still .star) (htokens : t.tokens = before ++ [prior, star])
    (hprevious : star.previous = some before.length) (hbegins : prior.kind.beginsSegment = true)
    (hnext : t.rest = [] ∨ t.rest.head? = some '/') (hglobstar : ctx.options.noGlobstar = false) :
    t.star ctx = t.globstarAt ctx star before.length prior
      (prior.previous.map fun place => (t.tokens[place]?.getD .bos).kind) := by
  have hlast : t.last = star := by
    rw [last, htokens]
    simp
  have hprior : t.tokens[before.length]? = some prior := by simp [htokens]
  have hparen : t.rest.head? ≠ some '(' := by
    rcases hnext with hnext | hnext <;> simp [hnext]
  have hany : (t.rest.head?.any fun c => decide (c ≠ '/')) = false := by
    rcases hnext with hnext | hnext <;> simp [hnext]
  -- The star is the second one because the last token is a star of a single character.
  have hfirst : t.star ctx = t.secondStar ctx := by
    unfold Tokenizer.star
    simp only [h.last, h.isStarRun, ahead_zero, hparen]
    simp
  rw [hfirst]
  unfold secondStar
  simp only [hlast, hprevious, Option.getD_some, hprior, hbegins, ahead_zero, hany, hglobstar]
  simp

/-- The second state is the first one after a globstar, with the given source instead of all
source so far. -/
def Becomes (t : Tokenizer) (output rest : List Char) (t' : Tokenizer) : Prop :=
  ∃ position tokens, t' = { t with rest, position, output, tokens, globstar := true }

/-- The further globstars are read over. -/
theorem skip_redundantGlobstars {n : Nat} {rest : List Char}
    (hrest : t.rest = furtherGlobstars n ++ rest) (hends : EndsGlobstars rest) :
    t.skip (redundantGlobstars t.rest t.rest.length) =
      { t with rest, position := t.position + 3 * n } := by
  have hbound : n ≤ t.rest.length := by
    rw [hrest, List.length_append, length_furtherGlobstars]
    omega
  have hdrop : t.rest.drop (3 * n) = rest := by
    rw [hrest, ← length_furtherGlobstars, List.drop_left]
  rw [show redundantGlobstars t.rest t.rest.length = 3 * n from
    hrest ▸ redundantGlobstars_eq hends n (hrest ▸ hbound), skip, hdrop]

/-- The state once all globstars in a row have been read. -/
def passGlobstars (t : Tokenizer) (n : Nat) (rest : List Char) : Tokenizer :=
  { t with rest, position := t.position + 3 * n, globstar := true }

theorem last_promote (h : t.tokens ≠ []) (source : List Char) :
    (t.promote t.lastPlace source).last.kind = .globstar :=
  congrArg Token.kind (last_modifyLast h _)

/-- The separator after a globstar is read and adds nothing to the source. -/
theorem absorbSlash_quiet (h : t.Idle) (hlast : t.last.kind = .globstar) {more : List Char}
    (hrest : t.rest = '/' :: more) :
    (∃ tokens, t.absorbSlash ctx = { t with rest := more, position := t.position + 1, tokens }) ∧
      (t.absorbSlash ctx).Quiet .slash := by
  let slash : Token := { Token.ofSource .slash ['/'] [] with previous := some t.lastPlace }
  have hpushed : (t.skip 1).pushed (.ofSource .slash ['/'] []) = t.tokens ++ [slash] := by
    rw [pushed, show (t.skip 1).last = t.last from rfl, hlast]
    rfl
  have hpush : t.absorbSlash ctx =
      { t with rest := more, position := t.position + 1, tokens := t.tokens ++ [slash] } := by
    rw [absorbSlash, push_eq ctx (t := t.skip 1) (not_inExtglob_of_frames_eq h.frames) fun _ => rfl,
      hpushed, skip, hrest]
    simp [Token.source, Token.ofSource]
  refine ⟨⟨_, hpush⟩, ?_⟩
  -- A separator is never merged with what stands before it.
  have hslash (t' : Tokenizer) (htokens : t'.tokens = t.tokens ++ [slash]) : t'.last = slash := by
    rw [last, htokens, List.getLast?_concat]
    rfl
  rw [hpush]
  exact {
    frames := h.frames
    inClass := h.inClass
    quoted := h.quoted
    start := h.start
    optionalGroup := h.optionalGroup
    tokens := by simp
    last := by rw [hslash _ rfl]; rfl
    isStarRun := by rw [hslash _ rfl]; rfl
    not_globstar := by decide
    not_paren := by decide
    not_bracket := by decide
    bos := iff_of_false (Nat.succ_ne_zero _) (by decide)
    dot := fun hdot => absurd hdot (by decide)
    star := fun hstar => absurd hstar (by decide) }

/-- A globstar that is the whole pattern. -/
theorem globstarAt_whole {n : Nat} (htokens : t.tokens = [prior, star])
    (hprior : prior.kind = .bos) (hrest : t.rest = furtherGlobstars n) (place : Nat)
    (beforePrior : Option TokenKind) :
    t.Becomes (prior.source ++ ctx.globstar) [] (t.globstarAt ctx star place prior beforePrior) ∧
      (t.globstarAt ctx star place prior beforePrior).last.kind = .globstar := by
  have hskip := skip_redundantGlobstars (hrest.trans (List.append_nil _).symm) (.inl rfl)
  have hhead : t.tokens.head?.getD .bos = prior := by rw [htokens]; rfl
  have hresult : t.globstarAt ctx star place prior beforePrior =
      { t.passGlobstars n [] with output := prior.source ++ ctx.globstar }.promote t.lastPlace
        ctx.globstar := by
    unfold globstarAt
    simp only [hskip, hprior, hhead]
    rfl
  rw [hresult]
  exact ⟨⟨_, _, rfl⟩, last_promote (t := { t.passGlobstars n [] with output := _ })
    (by simp [passGlobstars, htokens]) ctx.globstar⟩

/-- A globstar that is the first segment. -/
theorem globstarAt_first {n : Nat} {more : List Char} (h : t.Idle)
    (htokens : t.tokens = [prior, star]) (hprior : prior.kind = .bos)
    (hrest : t.rest = furtherGlobstars n ++ '/' :: more)
    (hadmits : TokenKind.AdmitsAll [] .slash more) (place : Nat)
    (beforePrior : Option TokenKind) :
    t.Becomes (prior.source ++ ctx.leadingGlobstar) more
        (t.globstarAt ctx star place prior beforePrior) ∧
      (t.globstarAt ctx star place prior beforePrior).Quiet .slash := by
  have hskip := skip_redundantGlobstars hrest (.inr ⟨more, rfl, hadmits⟩)
  have hhead : t.tokens.head?.getD .bos = prior := by rw [htokens]; rfl
  let passed : Tokenizer :=
    { t.passGlobstars n ('/' :: more) with output := prior.source ++ ctx.leadingGlobstar }
  have hresult : t.globstarAt ctx star place prior beforePrior =
      (passed.promote passed.lastPlace ctx.leadingGlobstar).absorbSlash ctx := by
    unfold globstarAt
    simp only [hskip, hprior, hhead]
    rfl
  have hlast := last_promote (t := passed) (by simp [passed, passGlobstars, htokens])
    ctx.leadingGlobstar
  obtain ⟨⟨tokens, habsorb⟩, hquiet⟩ := absorbSlash_quiet ctx
    (t := passed.promote passed.lastPlace ctx.leadingGlobstar)
    ⟨h.frames, h.inClass, h.quoted, h.start, h.optionalGroup⟩ hlast
    (show _ = '/' :: more from rfl)
  rw [hresult]
  exact ⟨⟨_, _, habsorb⟩, hquiet⟩

/-- A separator and the stars after it are replaced by a source of their own. -/
theorem globstarAfterSlash_becomes {output : List Char} (htokens : t.tokens ≠ [])
    (houtput : t.output = output ++ (prior.source ++ star.source)) (place : Nat)
    (source : List Char) :
    (∃ tokens, t.globstarAfterSlash place t.lastPlace prior star source = { t with
        output := output ++ (['(', '?', ':'] ++ prior.source ++ source), tokens }) ∧
      (t.globstarAfterSlash place t.lastPlace prior star source).last.kind = .globstar := by
  -- What the separator and the stars have emitted is the end of the source, and is cut off.
  have hcut : Text.dropLastBytes (Text.byteSize prior.source + Text.byteSize star.source) t.output =
      output := by
    rw [houtput, ← Text.byteSize_append, Text.dropLastBytes_append]
  let opened : Tokenizer := { t with
    output := output ++ (['(', '?', ':'] ++ prior.source ++ source) }.setSource place
      (['(', '?', ':'] ++ prior.source)
  have hresult : t.globstarAfterSlash place t.lastPlace prior star source =
      opened.promote opened.lastPlace source := by
    have hplace : opened.lastPlace = t.lastPlace := by simp [opened, lastPlace, setSource, modify]
    unfold globstarAfterSlash
    simp only [cutOutput, hcut, hplace]
    rfl
  rw [hresult]
  exact ⟨⟨_, rfl⟩, last_promote (by simpa [opened, setSource, modify] using htokens) source⟩

/-- A globstar that is the last segment. -/
theorem globstarAt_last {n : Nat} {output : List Char} (htokens : t.tokens ≠ [])
    (hprior : prior.kind = .slash)
    (hsource : prior.source = Fragment.slash ctx.windows ++ ctx.dotGuard)
    (houtput : t.output = output ++ (prior.source ++ star.source))
    (hrest : t.rest = furtherGlobstars n) (place : Nat)
    (hbefore : kind ∉ [.bos, .star, .globstar]) :
    t.Becomes (output ++ ctx.trailingGlobstar) []
        (t.globstarAt ctx star place prior (some kind)) ∧
      (t.globstarAt ctx star place prior (some kind)).last.kind = .globstar := by
  have hskip := skip_redundantGlobstars (hrest.trans (List.append_nil _).symm) (.inl rfl)
  have hresult : t.globstarAt ctx star place prior (some kind) =
      (t.passGlobstars n []).globstarAfterSlash place t.lastPlace prior star
        (ctx.globstar ++ if ctx.options.strictSlashes then [')'] else ['|', '$', ')']) := by
    simp only [List.mem_cons, List.not_mem_nil, or_false, not_or] at hbefore
    unfold globstarAt
    simp only [hskip, hprior]
    simp [hbefore, passGlobstars]
  obtain ⟨⟨tokens, hafter⟩, hlast⟩ := globstarAfterSlash_becomes (t := t.passGlobstars n [])
    htokens houtput place
    (ctx.globstar ++ if ctx.options.strictSlashes then [')'] else ['|', '$', ')'])
  rw [hresult]
  rw [hsource] at hafter
  exact ⟨⟨t.position + 3 * n, tokens, hafter⟩, hlast⟩

/-- A globstar that is a segment between others. -/
theorem globstarAt_between {n : Nat} {output more : List Char} (h : t.Idle)
    (htokens : t.tokens ≠ []) (hprior : prior.kind = .slash)
    (hsource : prior.source = Fragment.slash ctx.windows ++ ctx.dotGuard)
    (houtput : t.output = output ++ (prior.source ++ star.source))
    (hrest : t.rest = furtherGlobstars n ++ '/' :: more) (hmore : more ≠ [])
    (hadmits : TokenKind.AdmitsAll [] .slash more) (place : Nat)
    (hbefore : kind ∉ [.bos, .star, .globstar]) :
    t.Becomes (output ++ ctx.innerGlobstar) more
        (t.globstarAt ctx star place prior (some kind)) ∧
      (t.globstarAt ctx star place prior (some kind)).Quiet .slash := by
  have hskip := skip_redundantGlobstars hrest (.inr ⟨more, rfl, hadmits⟩)
  let source := ctx.globstar ++ Fragment.slash ctx.windows ++
    '|' :: Fragment.slash ctx.windows ++ ['|', '$', ')']
  let passed := t.passGlobstars n ('/' :: more)
  have hresult : t.globstarAt ctx star place prior (some kind) =
      (passed.globstarAfterSlash place passed.lastPlace prior star source).absorbSlash ctx := by
    simp only [List.mem_cons, List.not_mem_nil, or_false, not_or] at hbefore
    unfold globstarAt
    simp only [hskip, hprior]
    simp [hbefore, passed, passGlobstars, source, List.length_pos_iff, hmore, lastPlace]
  obtain ⟨⟨tokens, hafter⟩, hlast⟩ := globstarAfterSlash_becomes (t := passed)
    htokens houtput place source
  rw [hsource] at hafter
  obtain ⟨⟨tokens', habsorb⟩, hquiet⟩ := absorbSlash_quiet ctx
    (by rw [hafter]; exact ⟨h.frames, h.inClass, h.quoted, h.start, h.optionalGroup⟩) hlast
    (show _ = '/' :: more by rw [hafter]; rfl)
  rw [hresult]
  refine ⟨⟨t.position + 3 * n + 1, tokens', ?_⟩, hquiet⟩
  rw [habsorb, hafter]
  rfl

end

/-! ### Whole patterns -/

section
variable (ctx : Context) (tail : List Char → Except Error (List Char)) {t : Tokenizer}
  {kind : TokenKind}

theorem Still.step_star (h : t.Still kind) : step ctx tail t '*' = .ok (t.star ctx) := by
  simp [step, h.inClass, h.quoted]

/-- The state in which the second of two stars at the start of a segment is read. -/
def atSecondStar (ctx : Context) (t : Tokenizer) (before : List Token) (prior : Token)
    (rest : List Char) : Tokenizer :=
  { t with
    rest
    position := t.position + 2
    output := t.output ++ ctx.dotGuard ++ ctx.starOutput
    tokens := before ++ [prior.guarded ctx.dotGuard, .firstStar ctx before.length] }

/-- Two stars at the start of a segment are read in two steps, and the second one decides on
the globstar. -/
theorem Quiet.run_globstars (h : t.Quiet kind) (hbegins : kind.beginsSegment = true)
    (hglobstar : ctx.options.noGlobstar = false) {n : Nat} {rest : List Char}
    (hrest : t.rest = globstars n ++ rest) (hends : EndsGlobstars rest)
    {before : List Token} {prior : Token} (htokens : t.tokens = before ++ [prior]) (m : Nat) :
    run ctx tail (m + 2) t = run ctx tail m
      ((t.atSecondStar ctx before prior (furtherGlobstars n ++ rest)).globstarAt ctx
        (.firstStar ctx before.length) before.length (prior.guarded ctx.dotGuard)
        (prior.previous.map fun place =>
          ((before ++ [prior.guarded ctx.dotGuard, .firstStar ctx before.length])[place]?.getD
            .bos).kind)) := by
  let more := furtherGlobstars n ++ rest
  have hrest : t.rest = '*' :: '*' :: more := hrest
  have hr := h.toStill.reading ('*' :: more)
  obtain ⟨hfirst, hstill⟩ := star_before_star_eq ctx hr hbegins h.bos rfl htokens
  have hlast : prior.kind = kind := by
    have := h.last
    rwa [last, htokens, List.getLast?_concat] at this
  -- Behind the two stars the segment ends.
  have hnext : more = [] ∨ more.head? = some '/' := by
    cases n with
    | zero => exact hends.head?
    | succ n => exact .inr rfl
  have hr₂ := hstill.reading more
  rw [run_of_rest_eq ctx tail hrest, hr.step_star ctx tail]
  show run ctx tail (m + 1) _ = _
  rw [run_of_rest_eq ctx tail (show _ = '*' :: more by rw [hfirst]; rfl), hr₂.step_star ctx tail]
  show run ctx tail m _ = _
  have htokens₂ : (Tokenizer.reading ((t.reading ('*' :: more)).star ctx) more).tokens =
      before ++ [prior.guarded ctx.dotGuard, .firstStar ctx before.length] := by
    rw [hfirst]
    rfl
  rw [star_after_star_eq ctx hr₂ htokens₂ rfl (hlast ▸ hbegins) hnext hglobstar, hfirst]
  rfl

/-- A separator behind another segment. -/
theorem Quiet.run_slash (h : t.Quiet kind) {more : List Char} (hrest : t.rest = '/' :: more)
    (m : Nat) :
    ∃ t', run ctx tail (m + 1) t = run ctx tail m t' ∧ t'.Quiet .slash ∧ t' = { t with
      rest := more
      position := t.position + 1
      output := t.output ++ Fragment.slash ctx.windows
      tokens := t.tokens ++ [{ Token.ofSource .slash ['/'] (Fragment.slash ctx.windows) with
        previous := some t.lastPlace }] } := by
  have hr := h.toStill.reading more
  have hslash : (t.reading more).slash ctx =
      (t.reading more).push ctx (.ofSource .slash ['/'] (Fragment.slash ctx.windows)) :=
    slash_eq ctx hr fun hdot hplace => h.dot hdot hplace (by rw [hrest]; rfl)
  refine ⟨(t.reading more).slash ctx, ?_, ?_, ?_⟩
  · rw [run_of_rest_eq ctx tail hrest]
    have : step ctx tail (t.reading more) '/' = .ok ((t.reading more).slash ctx) := by
      simp [step, hr.inClass, hr.quoted]
    rw [this]
    rfl
  · rw [hslash]
    exact (h.grows_push ctx (by decide) ['/'] (Fragment.slash ctx.windows)
      (fun hdot => absurd hdot (by decide)) fun hstar => absurd hstar (by decide)).2
  · have hpushed : (t.reading more).pushed (.ofSource .slash ['/'] (Fragment.slash ctx.windows)) =
        t.tokens ++ [{ Token.ofSource .slash ['/'] (Fragment.slash ctx.windows) with
          previous := some t.lastPlace }] := by
      simp [pushed, Token.ofSource, reading, lastPlace]
    rw [hslash, hr.push_eq, hpushed]
    rfl

/-- After a globstar nothing is added at the end. -/
theorem finish_of_globstar (hframes : t.frames = []) (hclass : t.inClass = false)
    (hrebuild : t.rebuild = false) (hlast : t.last.kind = .globstar) : t.finish ctx = .ok t := by
  have hallow : t.allowSlash ctx = t := by
    rw [allowSlash, hlast, if_neg (by simp)]
  rw [finish_eq ctx hframes hclass (by rw [hallow, hrebuild]), hallow]

end

end Tokenizer

section
variable (ctx : Context) (tail : List Char → Except Error (List Char))

/-- A translation with a globstar. -/
def Context.globstarTranslation (output : List Char) (tokens : List Token) : Translation where
  input := ctx.pattern
  output
  dotSlash := ctx.dotSlash
  negated := false
  negatedExtglob := false
  globstar := true
  fastPath := false
  tokens

/-- The translation of globstars alone. -/
theorem Context.tokenize_globstars (hglobstar : ctx.options.noGlobstar = false) {n : Nat}
    (hbody : ctx.body = globstars n) :
    ∃ tokens, ctx.tokenize tail =
      .ok (ctx.globstarTranslation (ctx.dotGuard ++ ctx.globstar) tokens) := by
  have hrun := (Tokenizer.quiet_initial ctx.body).run_globstars ctx tail rfl hglobstar
    (show ctx.body = globstars n ++ [] by rw [hbody, List.append_nil]) (.inl rfl)
    (show _ = [] ++ [Token.bos] from rfl) (furtherGlobstars n).length
  obtain ⟨⟨position, tokens, hbecomes⟩, hlast⟩ := Tokenizer.globstarAt_whole ctx
    (t := Tokenizer.atSecondStar ctx { rest := ctx.body } [] .bos (furtherGlobstars n ++ []))
    (show _ = [_, Token.firstStar ctx 0] from rfl) rfl (List.append_nil _) 0 none
  have hfinish := Tokenizer.finish_of_globstar ctx (by rw [hbecomes]; rfl)
    (by rw [hbecomes]; rfl) (by rw [hbecomes]; rfl) hlast
  -- Two steps read the stars, and no step is needed for the further globstars.
  have hlength : ctx.body.length = (furtherGlobstars n).length + 2 := by rw [hbody]; rfl
  refine ⟨tokens, tokenize_eq (t := { rest := [], position, tokens, globstar := true
                                      output := ctx.dotGuard ++ ctx.globstar }) ?_⟩
  rw [hbecomes] at hfinish
  rw [hlength, hrun]
  refine (congrArg (fun t => (Tokenizer.run ctx tail _ t).bind _) hbecomes).trans ?_
  rw [Tokenizer.run_of_rest_nil ctx tail rfl]
  exact hfinish

/-- The translation of globstars before other segments. -/
theorem Context.tokenize_leading (hglobstar : ctx.options.noGlobstar = false) {n : Nat}
    {more : List Char} (hbody : ctx.body = globstars n ++ '/' :: more)
    (hadmits : TokenKind.AdmitsAll [] .slash more) :
    ∃ tokens, ctx.tokenize tail = .ok (ctx.globstarTranslation
      (ctx.dotGuard ++ ctx.leadingGlobstar ++ (ctx.textSource .slash more ++
        ctx.closing (more.foldl TokenKind.after .slash))) tokens) := by
  have hrun := (Tokenizer.quiet_initial ctx.body).run_globstars ctx tail rfl hglobstar hbody
    (.inr ⟨more, rfl, hadmits⟩) (show _ = [] ++ [Token.bos] from rfl)
    (furtherGlobstars n ++ '/' :: more).length
  obtain ⟨⟨position, tokens, hbecomes⟩, hquiet⟩ := Tokenizer.globstarAt_first ctx
    (t := Tokenizer.atSecondStar ctx { rest := ctx.body } [] .bos
      (furtherGlobstars n ++ '/' :: more)) ⟨rfl, rfl, rfl, rfl, rfl⟩
    (show _ = [_, Token.firstStar ctx 0] from rfl) rfl rfl hadmits 0 none
  rw [hbecomes] at hquiet
  obtain ⟨position', tokens', hcomplete⟩ := hquiet.complete ctx tail hadmits rfl
    (n := (furtherGlobstars n ++ '/' :: more).length) (by simp; omega)
  have hlength : ctx.body.length = (furtherGlobstars n ++ '/' :: more).length + 2 := by
    rw [hbody]
    rfl
  refine ⟨tokens', tokenize_eq (t := { rest := [], position := position', globstar := true
                                       output := _, tokens := tokens' }) ?_⟩
  rw [hlength, hrun]
  exact (congrArg (fun t => (Tokenizer.run ctx tail _ t).bind _) hbecomes).trans hcomplete

/-- Reading up to a globstar behind other segments: what stands before it is translated, and
the second star decides with a separator right before the stars. -/
theorem Context.run_to_globstars (hglobstar : ctx.options.noGlobstar = false) {n : Nat}
    {lead rest : List Char} (hbody : ctx.body = lead ++ '/' :: (globstars n ++ rest))
    (hends : EndsGlobstars rest)
    (hadmits : TokenKind.AdmitsAll ('/' :: (globstars n ++ rest)) .bos lead) :
    ∃ m position tokens place prior,
      Tokenizer.run ctx tail ctx.body.length { rest := ctx.body } = Tokenizer.run ctx tail m
        (Tokenizer.globstarAt ctx
          { rest := furtherGlobstars n ++ rest, position, tokens
            output := ctx.textSource .bos lead ++ (prior.source ++ ctx.starOutput) }
          (.firstStar ctx place) place prior (some (lead.foldl TokenKind.after .bos))) ∧
      rest.length ≤ m ∧ tokens ≠ [] ∧ prior.kind = .slash ∧
      prior.source = Fragment.slash ctx.windows ++ ctx.dotGuard := by
  obtain ⟨m, t, hrun, hm, ⟨position, tokens, ht⟩, hquiet⟩ :=
    Tokenizer.run_ungrouped ctx tail (.inr rfl) ctx.body.length (Tokenizer.quiet_initial ctx.body)
      hbody hadmits (Nat.le_of_eq (congrArg List.length hbody.symm))
  -- Three more steps read the separator and the two stars.
  obtain ⟨m, rfl⟩ : ∃ k, m = k + 3 := ⟨m - 3, by simp [globstars] at hm; omega⟩
  obtain ⟨t', hslash, hquiet', ht'⟩ := hquiet.run_slash ctx tail
    (show t.rest = '/' :: (globstars n ++ rest) by rw [ht]) (m + 2)
  let slash : Token := { Token.ofSource .slash ['/'] (Fragment.slash ctx.windows) with
    previous := some t.lastPlace }
  have hstars := hquiet'.run_globstars ctx tail rfl hglobstar
    (show t'.rest = globstars n ++ rest by rw [ht']) hends
    (show t'.tokens = t.tokens ++ [slash] by rw [ht']) m
  -- The token before the separator is the last one of the leading text.
  have hbefore (after : List Token) :
      ((t.tokens ++ after)[t.lastPlace]?.getD .bos).kind = lead.foldl TokenKind.after .bos := by
    have hpos := List.length_pos_iff.mpr hquiet.tokens
    rw [List.getElem?_append_left (by rw [Tokenizer.lastPlace]; omega),
      Tokenizer.getElem?_lastPlace hquiet.tokens]
    exact hquiet.last
  have hsecond : Tokenizer.atSecondStar ctx t' t.tokens slash (furtherGlobstars n ++ rest) =
      { rest := furtherGlobstars n ++ rest, position := t'.position + 2
        output := ctx.textSource .bos lead ++
          ((slash.guarded ctx.dotGuard).source ++ ctx.starOutput)
        tokens := t.tokens ++ [slash.guarded ctx.dotGuard, .firstStar ctx t.tokens.length] } := by
    rw [ht', ht]
    simp [Tokenizer.atSecondStar, Token.guarded, Token.source, slash, Token.ofSource]
  refine ⟨m, t'.position + 2, t.tokens ++ [slash.guarded ctx.dotGuard, .firstStar ctx
    t.tokens.length], t.tokens.length, slash.guarded ctx.dotGuard, ?_, ?_, by simp, rfl, rfl⟩
  · rw [hrun, hslash, hstars, hsecond]
    exact congrArg (fun k => Tokenizer.run ctx tail m (Tokenizer.globstarAt ctx _ _ _ _ (some k)))
      (hbefore _)
  · simp [globstars] at hm
    omega

/-- The translation of globstars behind other segments. -/
theorem Context.tokenize_trailing (hglobstar : ctx.options.noGlobstar = false) {n : Nat}
    {lead : List Char} (hbody : ctx.body = lead ++ '/' :: globstars n)
    (hadmits : TokenKind.AdmitsAll ('/' :: globstars n) .bos lead)
    (hlead : lead.foldl TokenKind.after .bos ∉ [.bos, .star, .globstar]) :
    ∃ tokens, ctx.tokenize tail = .ok (ctx.globstarTranslation
      (ctx.textSource .bos lead ++ ctx.trailingGlobstar) tokens) := by
  rw [← List.append_nil (globstars n)] at hbody hadmits
  obtain ⟨m, position, tokens, place, prior, hrun, _, htokens, hprior, hsource⟩ :=
    ctx.run_to_globstars tail hglobstar hbody (.inl rfl) hadmits
  obtain ⟨⟨position', tokens', hbecomes⟩, hlast⟩ := Tokenizer.globstarAt_last ctx
    (t := { rest := furtherGlobstars n ++ [], position, tokens
            output := ctx.textSource .bos lead ++ (prior.source ++ ctx.starOutput) })
    htokens hprior hsource (show _ = _ ++ (_ ++ (Token.firstStar ctx place).source) from rfl)
    (List.append_nil _) place hlead
  have hfinish := Tokenizer.finish_of_globstar ctx (by rw [hbecomes]) (by rw [hbecomes])
    (by rw [hbecomes]) hlast
  rw [hbecomes] at hrun hfinish
  exact ⟨tokens', tokenize_eq (by rw [hrun, Tokenizer.run_of_rest_nil ctx tail rfl]; exact hfinish)⟩

/-- The translation of globstars between other segments. -/
theorem Context.tokenize_between (hglobstar : ctx.options.noGlobstar = false) {n : Nat}
    {lead more : List Char} (hbody : ctx.body = lead ++ '/' :: (globstars n ++ '/' :: more))
    (hadmits : TokenKind.AdmitsAll ('/' :: (globstars n ++ '/' :: more)) .bos lead)
    (hlead : lead.foldl TokenKind.after .bos ∉ [.bos, .star, .globstar]) (hmore : more ≠ [])
    (hadmits' : TokenKind.AdmitsAll [] .slash more) :
    ∃ tokens, ctx.tokenize tail = .ok (ctx.globstarTranslation
      (ctx.textSource .bos lead ++ ctx.innerGlobstar ++ (ctx.textSource .slash more ++
        ctx.closing (more.foldl TokenKind.after .slash))) tokens) := by
  obtain ⟨m, position, tokens, place, prior, hrun, hm, htokens, hprior, hsource⟩ :=
    ctx.run_to_globstars tail hglobstar hbody (.inr ⟨more, rfl, hadmits'⟩) hadmits
  obtain ⟨⟨position', tokens', hbecomes⟩, hquiet⟩ := Tokenizer.globstarAt_between ctx
    (t := { rest := furtherGlobstars n ++ '/' :: more, position, tokens
            output := ctx.textSource .bos lead ++ (prior.source ++ ctx.starOutput) })
    ⟨rfl, rfl, rfl, rfl, rfl⟩ htokens hprior hsource
    (show _ = _ ++ (_ ++ (Token.firstStar ctx place).source) from rfl) rfl hmore hadmits' place
    hlead
  rw [hbecomes] at hrun hquiet
  obtain ⟨position'', tokens'', hcomplete⟩ := hquiet.complete ctx tail hadmits' rfl
    (n := m) (by simp at hm ⊢; omega)
  exact ⟨tokens'', tokenize_eq (by rw [hrun]; exact hcomplete)⟩

end

end PathGlob.Pattern
