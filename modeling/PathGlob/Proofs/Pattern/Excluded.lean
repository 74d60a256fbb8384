import PathGlob.Proofs.Pattern.Extglobs

/-!
# `PathGlob.Proofs.Pattern.Excluded`: a negated group before a text

`excluding words rest` is the pattern that begins with a negated group with the given words as its
alternatives and goes on with a text. The tokenizer reads the alternatives as one text, and so it
does with what follows the group (`leads_texts`), so each of its states can be written out. What
closes the group depends on whether anything follows it (`Context.tokenize_excluding`).
-/

set_option autoImplicit false

namespace PathGlob.Pattern

open Regex

/-- The words with bars between them. -/
def alternatives (words : List (List Char)) : List Char := ['|'].intercalate words

/-- A negated group with the words as its alternatives, and a text after it. -/
def excluding (words : List (List Char)) (rest : List Char) : List Char :=
  '!' :: '(' :: alternatives words ++ ')' :: rest

/-- Words of plain characters, of which there is at least one, none of them empty. -/
structure ArePlainWords (words : List (List Char)) : Prop where
  ne_nil : words ≠ []
  words_ne_nil : ∀ word ∈ words, word ≠ []
  plain : ∀ word ∈ words, ∀ c ∈ word, isSpecial c = false

namespace ArePlainWords

variable {words : List (List Char)}

theorem mem_alternatives (h : ∀ word ∈ words, ∀ c ∈ word, isSpecial c = false) :
    ∀ c ∈ alternatives words, isSpecial c = false ∨ c = '|' := by
  induction words with
  | nil => exact fun c hc => absurd hc (by simp [alternatives])
  | cons word words ih =>
    obtain ⟨hword, hwords⟩ := List.forall_mem_cons.mp h
    cases words with
    | nil => exact fun c hc => .inl (hword c (by simpa [alternatives] using hc))
    | cons next words =>
      intro c hc
      rw [alternatives, List.intercalate_cons_cons, List.append_assoc, List.mem_append,
        List.mem_append, List.mem_singleton] at hc
      exact hc.elim (fun hc => .inl (hword c hc)) fun hc => hc.elim .inr (ih hwords c)

/-- The alternatives begin with a plain character. -/
theorem exists_alternatives_eq (h : ArePlainWords words) :
    ∃ c rest, alternatives words = c :: rest ∧ isSpecial c = false := by
  obtain ⟨word, words, rfl⟩ := List.exists_cons_of_ne_nil h.ne_nil
  obtain ⟨c, word, rfl⟩ := List.exists_cons_of_ne_nil (h.words_ne_nil word List.mem_cons_self)
  have hc := h.plain (c :: word) List.mem_cons_self c List.mem_cons_self
  cases words with
  | nil => exact ⟨c, word, by simp [alternatives], hc⟩
  | cons next words => exact ⟨c, _, List.intercalate_cons_cons, hc⟩

end ArePlainWords

namespace Tokenizer

variable {t : Tokenizer} {ctx : Context} {tail : List Char → Except Error (List Char)}
  {c : Char} {more : List Char}

/-! ### Texts that are read as one token -/

theorem skip_pushText (h : t.last.kind ≠ .globstar) (value source : List Char) (n : Nat) :
    (t.pushText ctx value source).skip n = (t.skip n).pushText ctx value source := by
  rw [pushText, pushText, push_eq_noted ctx h,
    push_eq_noted ctx (show (t.skip n).last.kind ≠ .globstar from h)]
  rfl

variable (ctx tail)

/-- If each character of a text is read as text, the whole text is read as if it were read at
once. -/
theorem leads_texts (P : Tokenizer → Prop)
    (hP : ∀ u, P u → u.tokens ≠ [] ∧ u.last.kind ≠ .globstar) (source : Char → List Char)
    {text : List Char} (hchar : ∀ c ∈ text, ∀ (u : Tokenizer) (more : List Char), P u →
      u.rest = c :: more → Leads ctx tail u ((u.reading more).pushText ctx [c] (source c)) ∧
        P ((u.reading more).pushText ctx [c] (source c)))
    (h : P t) (hne : text ≠ []) (hrest : t.rest = text ++ more) :
    Leads ctx tail t ((t.skip text.length).pushText ctx text (text.flatMap source)) := by
  induction text generalizing t with
  | nil => exact absurd rfl hne
  | cons c text ih =>
    obtain ⟨hfirst, hothers⟩ := List.forall_mem_cons.mp hchar
    obtain ⟨hleads, hnext⟩ := hfirst t (text ++ more) h hrest
    obtain ⟨htokens, hlast⟩ := hP t h
    have hskip (n : Nat) : (t.reading (text ++ more)).skip n = t.skip (n + 1) := by
      simp [Tokenizer.reading, skip, hrest, Nat.add_assoc, Nat.add_comm 1 n]
    cases text with
    | nil =>
      have hreading : t.reading ([] ++ more) = t.skip 1 := hskip 0
      rw [hreading] at hleads
      simpa using hleads
    | cons d text =>
      have hlast' : (t.reading (d :: text ++ more)).last.kind ≠ .globstar := hlast
      have hrest' : ((t.reading (d :: text ++ more)).pushText ctx [c] (source c)).rest =
          d :: text ++ more := by
        rw [pushText, push_eq_noted ctx hlast']
        rfl
      refine hleads.trans ?_
      have hmore := ih hothers hnext (List.cons_ne_nil _ _) hrest'
      rwa [skip_pushText hlast', hskip, pushText_pushText ctx (t := t.skip _) htokens hlast]
        at hmore

/-- The last token is text or a parenthesis, and the open groups are those of the outline. -/
structure Composed (outline : List Frame) (t : Tokenizer) : Prop where
  inClass : t.inClass = false
  quoted : t.quoted = false
  tokens : t.tokens ≠ []
  last : t.last.kind ∈ [.text, .paren]
  frames : t.frames.map Frame.outline = outline

namespace Composed

variable {outline : List Frame} (h : t.Composed outline)
include h

theorem not_globstar : t.last.kind ≠ .globstar := by
  intro hlast
  have hmem := h.last
  rw [hlast] at hmem
  exact absurd hmem (by decide)

theorem reading (rest : List Char) : (t.reading rest).Composed outline :=
  ⟨h.inClass, h.quoted, h.tokens, h.last, h.frames⟩

theorem pushText (value source : List Char) :
    (t.pushText ctx value source).Composed outline := by
  rw [Tokenizer.pushText, push_eq_noted ctx h.not_globstar]
  refine ⟨h.inClass, h.quoted, ?_, ?_, (t.outline_noteInner value).trans h.frames⟩
  · have hlast := kind_last_pushed h.tokens value source
    intro hnil
    rw [show t.pushed (.text value source) = [] from hnil] at hlast
    exact absurd hlast (by decide)
  · show ((t.pushed (.text value source)).getLast?.getD .bos).kind ∈ _
    rw [kind_last_pushed h.tokens]
    decide

/-- A text of plain characters and bars within an extended group. -/
theorem leads_alternatives {group : ExtglobFrame} (houtline : outline = [.extglob group])
    {text : List Char} (htext : ∀ c ∈ text, isSpecial c = false ∨ c = '|') (hne : text ≠ [])
    (hrest : t.rest = text ++ more) :
    Leads ctx tail t ((t.skip text.length).pushText ctx text text) := by
  subst houtline
  have hall := leads_texts ctx tail (Composed [.extglob group])
    (fun u hu => ⟨hu.tokens, hu.not_globstar⟩) (fun c => [c]) (fun c hc u more hu hrest => ?_) h hne
    hrest
  · rwa [List.flatMap_singleton'] at hall
  refine ⟨?_, (hu.reading more).pushText ctx [c] [c]⟩
  obtain hc | rfl := htext c hc
  · exact leads_plain ctx tail hu.inClass hu.quoted hu.tokens hu.not_globstar hrest hc
  · have hparen : (u.reading more).inParen = true := by
      obtain ⟨frame, frames, hframes, hframe, -⟩ := List.map_eq_cons_iff.mp hu.frames
      show u.frames.any _ = true
      rw [hframes, List.any_cons]
      cases frame with
      | extglob => rfl
      | paren | brace => exact Frame.noConfusion hframe
    have hstep : step ctx tail (u.reading more) '|' =
        .ok ((u.reading more).pushText ctx ['|'] ['|']) := by
      simp [step, (hu.reading more).inClass, (hu.reading more).quoted, hparen]
    refine .of_step hrest hstep (Nat.le_of_eq ?_)
    rw [Tokenizer.pushText, push_eq_noted ctx (hu.reading more).not_globstar]
    rfl

/-- A text of plain characters and dots where no group is open. -/
theorem leads_dotted (houtline : outline = []) {text : List Char}
    (htext : ∀ c ∈ text, isSpecial c = false ∨ c = '.') (hne : text ≠ [])
    (hrest : t.rest = text ++ more) :
    Leads ctx tail t ((t.skip text.length).pushText ctx text (Regex.escape text)) := by
  subst houtline
  refine leads_texts ctx tail (Composed []) (fun u hu => ⟨hu.tokens, hu.not_globstar⟩) escapeChar
    (fun c hc u more hu hrest => ?_) h hne hrest
  refine ⟨?_, (hu.reading more).pushText ctx [c] (escapeChar c)⟩
  obtain hc | rfl := htext c hc
  · rw [escapeChar_of_not_isSpecial hc]
    exact leads_plain ctx tail hu.inClass hu.quoted hu.tokens hu.not_globstar hrest hc
  · have hr := hu.reading more
    have hframes : (u.reading more).frames = [] := List.map_eq_nil_iff.mp hr.frames
    have hdot : (u.reading more).dot ctx = (u.reading more).pushText ctx ['.'] (escapeChar '.') := by
      have hsegment : (u.reading more).last.kind.beginsSegment = false := by
        obtain hlast | hlast : (u.reading more).last.kind = .text ∨
            (u.reading more).last.kind = .paren := by simpa using hr.last
        all_goals rw [hlast]; rfl
      simp [Tokenizer.dot, inBrace, hframes, hsegment, Tokenizer.pushText, Token.text,
        Fragment.dot, escapeChar, isMeta]
    have hstep : step ctx tail (u.reading more) '.' =
        .ok ((u.reading more).pushText ctx ['.'] (escapeChar '.')) := by
      simp [step, hr.inClass, hr.quoted, hdot]
    refine .of_step hrest hstep (Nat.le_of_eq ?_)
    rw [Tokenizer.pushText, push_eq_noted ctx hr.not_globstar]
    rfl

end Composed

/-! ### The group -/

/-- An exclamation mark and the parenthesis behind it, at the start of a pattern. -/
theorem leads_openNegated (hextglob : ctx.options.noExtglob = false) (hc : c ≠ '?')
    (more : List Char) :
    Leads ctx tail { rest := '!' :: '(' :: c :: more }
      (opened ctx { rest := '!' :: '(' :: c :: more } .negate (c :: more)) := by
  let s : Tokenizer := { rest := '!' :: '(' :: c :: more }
  have hr := (steady_initial s.rest).reading ('(' :: c :: more)
  have hbang : step ctx tail (s.reading ('(' :: c :: more)) '!' =
      .ok ((s.reading ('(' :: c :: more)).openExtglob ctx .negate '!') := by
    simp [s, step, bang, hextglob, Tokenizer.reading, ahead, hc]
  have hopened := openExtglob_eq ctx hr .negate rfl
  rw [ExtglobKind.mark] at hopened
  rw [hopened] at hbang
  exact .of_step rfl hbang (by simp [opened])

/-- What stands behind the alternatives of a negated group. -/
def negatedClosing (rest : List Char) : List Char :=
  if rest = [] then [')', '$', ')', ')'] ++ Fragment.star false
  else [')', ')'] ++ Fragment.star false ++ [')']

/-- Without separators and stars in the group, what closes it depends on the rest only. -/
theorem negateClosing_eq (hstar : ctx.star = Fragment.star false) (hwindows : ctx.windows = false)
    (group : ExtglobFrame) (hslash : '/' ∉ group.inner) (hinner : '*' ∉ group.inner)
    (hrest : ')' ∉ t.rest) : t.negateClosing ctx tail group = .ok (negatedClosing t.rest) := by
  have hall : t.rest.all (· = ')') = decide (t.rest = []) := by
    cases hcons : t.rest with
    | nil => rfl
    | cons c rest =>
      have hc : c ≠ ')' := fun heq => hrest (by rw [hcons, heq]; exact List.mem_cons_self)
      simp [hc]
  have hslash' : group.inner.contains '/' = false := by simpa using hslash
  have hinner' : group.inner.contains '*' = false := by simpa using hinner
  unfold negateClosing negatedClosing
  simp only [hslash', hinner', hall, Bool.and_false, Bool.false_and, Bool.false_eq_true, if_false,
    ne_eq, not_true_eq_false, decide_false, Bool.false_or, decide_eq_true_eq, hstar, hwindows]
  split <;> rfl

/-- A text that is added is at the end of the joined sources. -/
theorem joinSources_pushText (hne : t.tokens ≠ []) (hlast : t.last.kind ≠ .globstar)
    (value source : List Char) :
    (t.pushText ctx value source).joinSources = t.joinSources ++ source := by
  obtain ⟨before, htokens⟩ := exists_tokens_eq hne
  rw [pushText, push_eq_noted ctx hlast, joinSources, joinSources]
  show (t.pushed (.text value source)).flatMap Token.source = _
  rw [pushed_eq htokens]
  split
  case isTrue => rw [htokens]; simp [Token.source, Token.text, Token.ofSource]
  case isFalse => rw [htokens]; simp [Token.source, Token.text, Token.ofSource]

/-- The parenthesis that closes a negated group at the start of a pattern puts a guard before the
operator of the group. -/
theorem step_closeNegated (hclass : t.inClass = false) (hquoted : t.quoted = false)
    (hcapture : ctx.options.capture = false) {inner : List Char}
    (hframes : t.frames = [.extglob ⟨.negate, .bos, 1, inner⟩]) {operator : Token}
    {after : List Token} (htokens : t.tokens = .bos :: operator :: after) {closing : List Char}
    (hclosing : ({ t with frames := [] } : Tokenizer).negateClosing ctx tail
      ⟨.negate, .bos, 1, inner⟩ = .ok closing) :
    step ctx tail t ')' = .ok (({ t with
      frames := []
      negatedExtglob := true
      tokens := .bos :: { operator with source? := some (ctx.dotGuard ++ operator.source) } :: after
      rebuild := true } : Tokenizer).push ctx
        { Token.ofSource .paren [')'] closing with isExtglob := true }) := by
  have hclose : step ctx tail t ')' =
      ({ t with frames := [] } : Tokenizer).closeExtglob ctx tail ⟨.negate, .bos, 1, inner⟩ := by
    simp [step, hclass, hquoted, closeParen, hframes, takeFrame?, Frame.isBrace]
  rw [hclose, closeExtglob, if_pos rfl, hclosing]
  simp only [hcapture, htokens, TokenKind.beginsSegment, ExtglobKind.isOptional, decide_true,
    Bool.and_self, Bool.or_true]
  rfl

/-- A negated group at the start of a pattern. -/
theorem leads_excluded (hextglob : ctx.options.noExtglob = false)
    (hcapture : ctx.options.capture = false) (hwindows : ctx.windows = false)
    (hstar : ctx.star = Fragment.star false) {words : List (List Char)} (hwords : ArePlainWords words)
    {rest : List Char} (hrest : ')' ∉ rest) :
    ∃ t, Leads ctx tail { rest := excluding words rest } t ∧ t.Composed [] ∧ t.rest = rest ∧
      t.rebuild = true ∧ t.negated = false ∧
      t.joinSources = ctx.dotGuard ++ Fragment.oneChar ++ ExtglobKind.negate.opening ++
        alternatives words ++ negatedClosing rest := by
  let s : Tokenizer := { rest := excluding words rest }
  obtain ⟨c, more, htext, hc⟩ := hwords.exists_alternatives_eq
  have hchars := ArePlainWords.mem_alternatives hwords.plain
  have hne : alternatives words ≠ [] := by simp [htext]
  have hopen : Leads ctx tail s (s.opened ctx .negate (alternatives words ++ ')' :: rest)) := by
    have hleads := leads_openNegated ctx tail hextglob (ne_of_not_isSpecial hc rfl)
      (more ++ ')' :: rest)
    rwa [← List.cons_append, ← htext] at hleads
  generalize alternatives words = text at *
  let o : Tokenizer := (s.opened ctx .negate (text ++ ')' :: rest))
  have ho : o.Composed [.extglob ⟨.negate, .bos, 1, []⟩] := by
    refine ⟨rfl, rfl, by simp [o, opened], ?_, rfl⟩
    simp [o, opened, Tokenizer.last, openingToken, Token.ofSource]
  have hread := ho.leads_alternatives ctx tail rfl hchars hne rfl
  let u : Tokenizer := { o.skip text.length with
    output := o.output ++ text
    tokens := o.tokens ++ [{ Token.text text text with previous := some 2 }]
    frames := [.extglob ⟨.negate, .bos, 1, text⟩] }
  have hu : (o.skip text.length).pushText ctx text text = u := by
    have hpushed : (o.skip text.length).pushed (.text text text) = u.tokens := by
      have hlast : (o.skip text.length).tokens =
          [.bos, s.operatorToken .negate] ++ [s.openingToken ctx .negate] := rfl
      rw [pushed_eq hlast]
      simp [openingToken, Token.ofSource, u, o, s, opened]
    rw [pushText, push_eq_noted ctx (t := o.skip text.length) ho.not_globstar, hpushed]
    rfl
  rw [hu] at hread
  have hurest : u.rest = ')' :: rest := by simp [u, o, opened, skip]
  -- The group has no separators and no stars, so nothing but the rest decides on its end.
  have hnot (d : Char) (hd : isSpecial d = true) (hbar : d ≠ '|') : d ∉ text := fun hmem =>
    (hchars d hmem).elim (fun h => absurd (h.symm.trans hd) Bool.false_ne_true) hbar
  have hclosing := negateClosing_eq ctx tail (t := { u.reading rest with frames := [] }) hstar
    hwindows ⟨.negate, .bos, 1, text⟩ (hnot '/' rfl (by decide)) (hnot '*' rfl (by decide)) hrest
  have hstep := step_closeNegated ctx tail (t := u.reading rest) rfl rfl hcapture rfl rfl hclosing
  let operator : Token := { s.operatorToken .negate with
    source? := some (ctx.dotGuard ++ (s.operatorToken .negate).source) }
  let v : Tokenizer := { u.reading rest with
    frames := []
    negatedExtglob := true
    tokens := [.bos, operator, s.openingToken ctx .negate,
      { Token.text text text with previous := some 2 }]
    rebuild := true }
  let closing : Token :=
    { Token.ofSource .paren [')'] (negatedClosing rest) with isExtglob := true }
  have hstep' : step ctx tail (u.reading rest) ')' = .ok (v.push ctx closing) := hstep
  have hv : v.last.kind ≠ .globstar := by simp [v, Tokenizer.last, Token.text, Token.ofSource]
  have hpush : v.push ctx closing = { v with
      output := v.output ++ closing.source
      tokens := v.tokens ++ [{ closing with previous := some 3 }] } := by
    rw [push_eq_noted ctx hv, pushed_of_kind_ne (by simp [closing, Token.ofSource])]
    rfl
  rw [hpush] at hstep'
  refine ⟨_, (hopen.trans hread).trans (.of_step hurest hstep' (Nat.le_refl _)),
    ⟨rfl, rfl, by simp, ?_, rfl⟩, rfl, rfl, rfl, ?_⟩
  · simp [Tokenizer.last, closing, Token.ofSource]
  · simp [joinSources, v, closing, operator, s, operatorToken, openingToken, Token.ofSource,
      Token.source, Token.text, Token.bos, ExtglobKind.openingSource, hcapture]

/-- At the end of a pattern no group is open, and the source is put together from the tokens. -/
theorem Composed.finish_eq (h : t.Composed []) (hrebuild : t.rebuild = true) :
    t.finish ctx = .ok { t with output := t.joinSources } := by
  have hallow : t.allowSlash ctx = t := by
    refine if_neg fun hand => ?_
    have hlast := h.last
    simp only [Bool.and_eq_true, Bool.or_eq_true, decide_eq_true_eq] at hand
    obtain hkind | hkind := hand.2 <;> rw [hkind] at hlast <;> exact absurd hlast (by decide)
  have hgroups := endFrames_eq ctx (List.map_eq_nil_iff.mp h.frames)
  rw [finish_of_endFrames ctx h.inClass hgroups, hallow, if_pos hrebuild]

end Tokenizer

/-- The translation of a negated group before a text. -/
theorem Context.tokenize_excluding (ctx : Context) (hextglob : ctx.options.noExtglob = false)
    (hcapture : ctx.options.capture = false) (hwindows : ctx.windows = false)
    (hstar : ctx.star = Fragment.star false) {words : List (List Char)} (hwords : ArePlainWords words)
    {rest : List Char} (hrest : ∀ c ∈ rest, isSpecial c = false ∨ c = '.')
    (hbody : ctx.body = excluding words rest) (tail : List Char → Except Error (List Char)) :
    ∃ translation, ctx.tokenize tail = .ok translation ∧
      translation.output = ctx.dotGuard ++ Fragment.oneChar ++ ExtglobKind.negate.opening ++
        alternatives words ++ Tokenizer.negatedClosing rest ++ Regex.escape rest ∧
      translation.negated = false := by
  have hparen : ')' ∉ rest := fun hmem => (hrest ')' hmem).elim (by decide) (by decide)
  obtain ⟨t, hleads, ht, hrest', hrebuild, hnegated, hsources⟩ :=
    Tokenizer.leads_excluded ctx tail hextglob hcapture hwindows hstar hwords hparen
  rw [← hbody] at hleads
  have hfinal : ∃ t', Tokenizer.Leads ctx tail t t' ∧ t'.Composed [] ∧ t'.rest = [] ∧
      t'.rebuild = true ∧ t'.negated = false ∧ t'.joinSources = t.joinSources ++ Regex.escape rest := by
    by_cases hnil : rest = []
    · subst hnil
      exact ⟨t, .refl t, ht, hrest', hrebuild, hnegated, (List.append_nil _).symm⟩
    · have hmore := ht.leads_dotted ctx tail rfl hrest hnil
        (hrest'.trans (List.append_nil _).symm)
      have hskip : (t.skip rest.length).Composed [] :=
        ⟨ht.inClass, ht.quoted, ht.tokens, ht.last, ht.frames⟩
      have hpush := Tokenizer.joinSources_pushText ctx hskip.tokens hskip.not_globstar rest
        (Regex.escape rest)
      refine ⟨_, hmore, hskip.pushText ctx _ _, ?_, ?_, ?_, hpush⟩
      all_goals rw [Tokenizer.pushText, Tokenizer.push_eq_noted ctx hskip.not_globstar]
      · simp [Tokenizer.skip, hrest']
      · exact hrebuild
      · exact hnegated
  obtain ⟨t', hleads', ht', hend, hrebuild', hnegated', hsources'⟩ := hfinal
  have hrun := (hleads.trans hleads').run_eq hend
  refine ⟨_, tokenize_eq ((congrArg (Except.bind · (Tokenizer.finish ctx)) hrun).trans
    (ht'.finish_eq ctx hrebuild')), ?_, hnegated'⟩
  rw [hsources', hsources]

end PathGlob.Pattern
