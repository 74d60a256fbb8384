import PathGlob.Proofs.Pattern.Protected
import PathGlob.Proofs.Pattern.Sound

/-!
# `PathGlob.Proofs.Pattern.Unclosed`: delimiters that are never closed

At the end of a pattern the opening delimiters and the commas of groups that are still open become
text: each of them is marked in a frame, and gets the source of its own text. So if nothing is
ever closed, the source is put together from the literal sources of the tokens
(`Tokenizer.Unclosed`). Bars are the exception. They are translated when they are read, as
separators of alternatives behind a parenthesis, and no frame remembers them.

A bracket behind which no closing bracket stands is text at once. If there is one and it follows
directly, it belongs to the class, which then goes on to the end; its body is escaped once more
(`Context.tokenize_unclosed`).
-/

set_option autoImplicit false

namespace PathGlob.Pattern

open Regex

/-! ### Marks -/

namespace Token

/-- What stands for a delimiter, or for a comma, that belongs to no group. -/
def literal? (token : Token) : Option (List Char) :=
  match token.kind with
  | .paren => some ['\\', '(']
  | .brace => some ['\\', '{']
  | .comma => some [',']
  | _ => none

/-- The source of the token if no group is ever closed. -/
def literal (token : Token) : List Char := token.literal?.getD token.source

theorem literal_eq_of_literal?_eq_some {token : Token} {source : List Char}
    (h : token.literal? = some source) : token.literal = source := by
  rw [literal, h]
  rfl

end Token

/-- The tokens of an open group that become text, by their places, with the sources that they
get. -/
def Frame.marks : Frame → List (Nat × List Char)
  | .paren place => [(place, ['\\', '('])]
  | .extglob _ => []
  | .brace frame => (frame.token, ['\\', '{']) :: frame.commas.map fun place => (place, [','])

/-- The tokens with new sources at their places. -/
def settle (marks : List (Nat × List Char)) (tokens : List Token) : List Token :=
  marks.foldl (fun tokens mark =>
    tokens.modify mark.1 fun token => { token with source? := some mark.2 }) tokens

/-- If the marks are at delimiters, and every token has its literal source or is marked, then
settling gives each token its literal source. -/
theorem map_source_settle {marks : List (Nat × List Char)} {tokens : List Token}
    (hmarks : ∀ mark ∈ marks, ∀ token, tokens[mark.1]? = some token →
      token.literal? = some mark.2)
    (htokens : ∀ i token, tokens[i]? = some token →
      token.source = token.literal ∨ i ∈ marks.map Prod.fst) :
    (settle marks tokens).map Token.source = tokens.map Token.literal := by
  induction marks generalizing tokens with
  | nil =>
    refine List.map_congr_left fun token hmem => ?_
    obtain ⟨i, hi⟩ := List.getElem?_of_mem hmem
    exact (htokens i token hi).resolve_right List.not_mem_nil
  | cons mark marks ih =>
    obtain ⟨hmark, hothers⟩ := List.forall_mem_cons.mp hmarks
    let settled := tokens.modify mark.1 fun token => { token with source? := some mark.2 }
    -- A token of the new list comes from one of the old list that has the same kind.
    have hget (i : Nat) (token : Token) (h : settled[i]? = some token) :
        ∃ old, tokens[i]? = some old ∧ token.literal? = old.literal? ∧
          (mark.1 = i ∧ token.source = mark.2 ∨ mark.1 ≠ i ∧ token = old) := by
      rw [List.getElem?_modify] at h
      obtain ⟨old, hold, htoken⟩ := Option.map_eq_some_iff.mp h
      refine ⟨old, hold, ?_⟩
      split at htoken
      case isTrue hi => exact ⟨htoken ▸ rfl, .inl ⟨hi, htoken ▸ rfl⟩⟩
      case isFalse hi => exact ⟨htoken ▸ rfl, .inr ⟨hi, htoken.symm⟩⟩
    have hliteral : settled.map Token.literal = tokens.map Token.literal := by
      refine List.ext_getElem? fun i => ?_
      rw [List.getElem?_map, List.getElem?_map]
      show Option.map _ (tokens.modify _ _)[i]? = _
      rw [List.getElem?_modify]
      cases htoken : tokens[i]? with
      | none => rfl
      | some token =>
        by_cases hi : mark.1 = i
        · have hsome := hmark token (hi ▸ htoken)
          simp only [hi, Option.map_eq_map, Option.map_some, if_true, Option.some.injEq]
          rw [Token.literal_eq_of_literal?_eq_some hsome]
          exact Token.literal_eq_of_literal?_eq_some hsome
        · simp [hi]
    refine Eq.trans (@ih settled (fun other hmem token htoken => ?_) fun i token htoken => ?_)
      hliteral
    · obtain ⟨old, hold, hsame, -⟩ := hget _ token htoken
      exact hsame.trans (hothers other hmem old hold)
    · obtain ⟨old, hold, hsame, ⟨rfl, hsource⟩ | ⟨hi, rfl⟩⟩ := hget i token htoken
      · left
        rw [hsource, Token.literal_eq_of_literal?_eq_some (hsame.trans (hmark old hold))]
      · exact (htokens i token hold).imp_right fun hmem =>
          (List.mem_cons.mp hmem).resolve_left (Ne.symm hi)

theorem map_kind_settle (marks : List (Nat × List Char)) (tokens : List Token) :
    (settle marks tokens).map Token.kind = tokens.map Token.kind := by
  induction marks generalizing tokens with
  | nil => rfl
  | cons mark marks ih =>
    refine (ih _).trans (List.ext_getElem? fun i => ?_)
    rw [List.getElem?_map, List.getElem?_map, List.getElem?_modify]
    cases tokens[i]? with
    | none => rfl
    | some token =>
      simp only [Option.map_eq_map, Option.map_some]
      split <;> rfl

/-! ### Sources of texts in which nothing is closed -/

/-- The characters of texts in which no delimiter is closed. -/
def IsOpening (c : Char) : Prop := isSpecial c = false ∨ c ∈ ['(', '{', '[', ',', '|']

/-- The source of a character. Behind a parenthesis a bar separates alternatives. -/
def openingSource (inParen : Bool) (c : Char) : List Char :=
  if inParen && c = '|' then ['|'] else escapeChar c

/-- The source of a text in which no delimiter is closed. -/
def unclosedSource : Bool → List Char → List Char
  | _, [] => []
  | inParen, c :: text => openingSource inParen c ++ unclosedSource (inParen || c = '(') text

/-- The text ends in an opening bracket; if it is empty, what stands before it does or not. -/
def endsInBracket (before : Bool) (text : List Char) : Bool :=
  text.foldl (fun _ c => c = '[') before

namespace Tokenizer

/-- What the end of the pattern does to the tokens of the open groups. -/
def marks (t : Tokenizer) : List (Nat × List Char) := t.frames.flatMap Frame.marks

/-- No group has been closed, and the literal sources of the tokens add up to the source. -/
structure Unclosed (source : List Char) (inParen bracket : Bool) (t : Tokenizer) : Prop where
  inClass : t.inClass = false
  quoted : t.quoted = false
  negated : t.negated = false
  tokens : t.tokens ≠ []
  groups : t.inExtglob = false
  last : t.last.kind ∈ [.bos, .text, .paren, .brace, .comma, .bracket]
  marked : ∀ mark ∈ t.marks, ∃ token, t.tokens[mark.1]? = some token ∧
    token.literal? = some mark.2
  covered : ∀ i token, t.tokens[i]? = some token →
    token.source = token.literal ∨ i ∈ t.marks.map Prod.fst
  literal_eq : t.tokens.flatMap Token.literal = source
  inParen_eq : t.inParen = inParen
  bracket_eq : decide (t.last.kind = .bracket) = bracket

section
variable {ctx : Context} {tail : List Char → Except Error (List Char)} {t : Tokenizer}
  {source : List Char} {inParen bracket : Bool} {c : Char} {more : List Char}

theorem unclosed_initial (rest : List Char) :
    ({ rest } : Tokenizer).Unclosed [] false false := by
  refine ⟨rfl, rfl, rfl, by simp, rfl, by simp [last, Token.bos, Token.ofSource], ?_, ?_, rfl, rfl,
    rfl⟩
  · exact fun mark hmark => absurd hmark List.not_mem_nil
  · intro i token htoken
    obtain rfl : token = Token.bos := List.mem_singleton.mp (List.mem_of_getElem? htoken)
    exact .inl rfl

namespace Unclosed

variable (h : t.Unclosed source inParen bracket)
include h

theorem not_globstar : t.last.kind ≠ .globstar := by
  intro hlast
  have hmem := h.last
  rw [hlast] at hmem
  exact absurd hmem (by decide)

theorem reading (rest : List Char) : (t.reading rest).Unclosed source inParen bracket :=
  ⟨h.inClass, h.quoted, h.negated, h.tokens, h.groups, h.last, h.marked, h.covered, h.literal_eq,
    h.inParen_eq, h.bracket_eq⟩

/-- A token that may open groups is added, and marked if it is none of its literal source. -/
theorem added {s : Tokenizer} (frames : List Frame) (token : Token)
    (hs : s = { t with
      rest := s.rest, position := s.position, output := s.output, rebuild := s.rebuild, frames
      tokens := t.tokens ++ [token] })
    (hgroups : frames.any Frame.isExtglob = false)
    (hkind : token.kind ∈ [.text, .paren, .brace, .comma, .bracket])
    (hmarks : (∀ mark, mark ∈ frames.flatMap Frame.marks ↔ mark ∈ t.marks) ∧
        token.source = token.literal ∨
      ∃ literal, token.literal? = some literal ∧
        ∀ mark, mark ∈ frames.flatMap Frame.marks ↔ mark ∈ t.marks ∨
          mark = (t.tokens.length, literal)) :
    s.Unclosed (source ++ token.literal) (frames.any fun frame => !frame.isBrace)
      (token.kind = .bracket) := by
  have hlast : s.last = token := by
    rw [hs]
    simp [Tokenizer.last]
  have htokens : s.tokens = t.tokens ++ [token] := by rw [hs]
  have hframes : s.frames = frames := by rw [hs]
  have hold (mark : Nat × List Char) (hmark : mark ∈ t.marks) :
      ∃ token, s.tokens[mark.1]? = some token ∧ token.literal? = some mark.2 := by
    obtain ⟨old, hget, hliteral⟩ := h.marked mark hmark
    refine ⟨old, ?_, hliteral⟩
    rw [htokens, List.getElem?_append_left (List.getElem?_eq_some_iff.mp hget).1, hget]
  have hnew : s.tokens[t.tokens.length]? = some token := by
    rw [htokens, List.getElem?_append_right (Nat.le_refl _)]
    simp
  refine ⟨?_, ?_, ?_, by simp [htokens], ?_, ?_, ?_, ?_, ?_, ?_, ?_⟩
  · rw [hs]; exact h.inClass
  · rw [hs]; exact h.quoted
  · rw [hs]; exact h.negated
  · rw [inExtglob, hframes, hgroups]
  · rw [hlast]
    exact List.mem_cons_of_mem _ hkind
  · intro mark hmark
    rw [marks, hframes] at hmark
    obtain ⟨hsame, -⟩ | ⟨literal, hliteral, hmore⟩ := hmarks
    · exact hold mark ((hsame mark).mp hmark)
    · obtain hmark | rfl := (hmore mark).mp hmark
      · exact hold mark hmark
      · exact ⟨token, hnew, hliteral⟩
  · intro i other hother
    have hsub : ∀ mark ∈ t.marks, mark ∈ s.marks := by
      intro mark hmark
      rw [marks, hframes]
      obtain ⟨hsame, -⟩ | ⟨_, -, hmore⟩ := hmarks
      · exact (hsame mark).mpr hmark
      · exact (hmore mark).mpr (.inl hmark)
    rw [htokens] at hother
    by_cases hi : i < t.tokens.length
    · rw [List.getElem?_append_left hi] at hother
      refine (h.covered i other hother).imp_right fun hmem => ?_
      obtain ⟨mark, hmark, hplace⟩ := List.mem_map.mp hmem
      exact List.mem_map.mpr ⟨mark, hsub mark hmark, hplace⟩
    · have hlen : i = t.tokens.length := by
        have := (List.getElem?_eq_some_iff.mp hother).1
        simp at this
        omega
      subst hlen
      obtain rfl : token = other := by simpa using hother
      obtain ⟨-, hsource⟩ | ⟨literal, -, hmore⟩ := hmarks
      · exact .inl hsource
      · refine .inr (List.mem_map.mpr ⟨(t.tokens.length, literal), ?_, rfl⟩)
        rw [marks, hframes]
        exact (hmore _).mpr (.inr rfl)
  · rw [htokens, List.flatMap_append, h.literal_eq, List.flatMap_singleton]
  · rw [Tokenizer.inParen, hframes]
  · rw [hlast]

/-- A text that is merged with the last token stands for itself. -/
theorem merged {s : Tokenizer} {before : List Token} {value text : List Char}
    (htokens : t.tokens = before ++ [t.last]) (hkind : t.last.kind = .text)
    (hs : s = { t with
      rest := s.rest, position := s.position, output := s.output
      tokens := before ++ [{ t.last with value, source? := some (t.last.source ++ text) }] }) :
    s.Unclosed (source ++ text) inParen false := by
  let merged : Token := { t.last with value, source? := some (t.last.source ++ text) }
  have hliteral? : t.last.literal? = none := by simp [Token.literal?, hkind]
  have hmerged : merged.literal = t.last.literal ++ text := by
    rw [Token.literal, Token.literal, show merged.literal? = none from hliteral?, hliteral?]
    rfl
  have htokens' : s.tokens = before ++ [merged] := by rw [hs]
  have hlast : s.last = merged := by rw [Tokenizer.last, htokens']; simp
  have hframes : s.frames = t.frames := by rw [hs]
  have hmarks : s.marks = t.marks := by rw [marks, hframes, marks]
  refine ⟨?_, ?_, ?_, by simp [htokens'], ?_, ?_, ?_, ?_, ?_, ?_, ?_⟩
  · rw [hs]; exact h.inClass
  · rw [hs]; exact h.quoted
  · rw [hs]; exact h.negated
  · rw [inExtglob, hframes]; exact h.groups
  · rw [hlast]; exact h.last
  · intro mark hmark
    obtain ⟨token, hget, hliteral⟩ := h.marked mark (hmarks ▸ hmark)
    refine ⟨token, ?_, hliteral⟩
    rw [htokens] at hget
    have hplace : mark.1 < before.length := by
      refine Nat.lt_of_not_le fun hle => ?_
      -- The last token is text, which is never marked.
      have hlen := (List.getElem?_eq_some_iff.mp hget).1
      have heq : mark.1 = before.length := by simp at hlen; omega
      rw [heq, List.getElem?_concat_length] at hget
      rw [← Option.some.inj hget, hliteral?] at hliteral
      exact absurd hliteral (by simp)
    rw [List.getElem?_append_left hplace] at hget
    rw [htokens', List.getElem?_append_left hplace, hget]
  · intro i token htoken
    rw [htokens'] at htoken
    by_cases hi : i < before.length
    · rw [List.getElem?_append_left hi] at htoken
      rw [hmarks]
      exact h.covered i token (by rw [htokens, List.getElem?_append_left hi, htoken])
    · have hlen := (List.getElem?_eq_some_iff.mp htoken).1
      obtain rfl : i = before.length := by simp at hlen; omega
      rw [List.getElem?_concat_length] at htoken
      obtain rfl := Option.some.inj htoken
      left
      rw [Token.literal, show merged.literal? = none from hliteral?]
      rfl
  · have hsource := h.literal_eq
    rw [htokens, List.flatMap_append, List.flatMap_singleton] at hsource
    rw [htokens', List.flatMap_append, List.flatMap_singleton, hmerged, ← List.append_assoc,
      hsource]
  · rw [Tokenizer.inParen, hframes]; exact h.inParen_eq
  · rw [hlast]
    show decide (t.last.kind = .bracket) = false
    rw [hkind]
    rfl

/-- A text that is added stands for itself. -/
theorem pushText (ctx : Context) (value text : List Char) :
    (t.pushText ctx value text).Unclosed (source ++ text) inParen false := by
  obtain ⟨before, htokens⟩ := exists_tokens_eq h.tokens
  have hpushed := pushed_eq htokens (.text value text)
  rw [Tokenizer.pushText, push_eq ctx h.groups fun hlast => absurd hlast h.not_globstar, hpushed]
  split
  case isTrue hmerge =>
    simp only [Bool.and_eq_true, decide_eq_true_eq] at hmerge
    exact h.merged htokens hmerge.1 rfl
  case isFalse =>
    have hadded := h.added (s := { t with
        output := t.output ++ (Token.text value text).source
        tokens := t.tokens ++ [{ Token.text value text with previous := some before.length }] })
      t.frames { Token.text value text with previous := some before.length } rfl h.groups
      (by simp [Token.text, Token.ofSource]) (.inl ⟨fun _ => Iff.rfl, rfl⟩)
    have hinParen : (t.frames.any fun frame => !frame.isBrace) = inParen := h.inParen_eq
    rw [hinParen, htokens, List.append_assoc] at hadded
    exact hadded

/-- A token that may open a group is pushed, and marked if it is none of its literal source. -/
theorem push (ctx : Context) (frames : List Frame) (token : Token)
    (hgroups : frames.any Frame.isExtglob = false)
    (hkind : token.kind ∈ [.paren, .brace, .comma, .bracket])
    (hmarks : (∀ mark, mark ∈ frames.flatMap Frame.marks ↔ mark ∈ t.marks) ∧
        token.source = token.literal ∨
      ∃ literal, token.literal? = some literal ∧
        ∀ mark, mark ∈ frames.flatMap Frame.marks ↔ mark ∈ t.marks ∨
          mark = (t.tokens.length, literal)) :
    (({ t with frames } : Tokenizer).push ctx token).Unclosed (source ++ token.literal)
        (frames.any fun frame => !frame.isBrace) (token.kind = .bracket) ∧
      (({ t with frames } : Tokenizer).push ctx token).rest = t.rest := by
  have hne : token.kind ≠ .text := by
    intro heq
    rw [heq] at hkind
    exact absurd hkind (by decide)
  rw [push_eq ctx (t := { t with frames }) hgroups fun hlast => absurd hlast h.not_globstar,
    pushed_of_kind_ne hne]
  exact ⟨h.added frames { token with previous := some t.lastPlace } rfl hgroups
    (List.mem_cons_of_mem _ hkind) hmarks, rfl⟩

/-- A token that neither opens a group nor belongs to one. -/
theorem push_other (ctx : Context) (token : Token)
    (hkind : token.kind ∈ [.paren, .brace, .comma, .bracket])
    (hsource : token.source = token.literal) :
    (t.push ctx token).Unclosed (source ++ token.literal) inParen (token.kind = .bracket) ∧
      (t.push ctx token).rest = t.rest := by
  have hpush := h.push ctx t.frames token h.groups hkind (.inl ⟨fun _ => Iff.rfl, hsource⟩)
  have hinParen : (t.frames.any fun frame => !frame.isBrace) = inParen := h.inParen_eq
  rwa [hinParen] at hpush

/-- An opening parenthesis. -/
theorem openParen (ctx : Context) : (t.openParen ctx).Unclosed (source ++ ['\\', '(']) true false ∧
    (t.openParen ctx).rest = t.rest := by
  refine h.push ctx (.paren t.tokens.length :: t.frames) (.ofSource .paren ['('] _) ?_
    (by simp [Token.ofSource]) ?_
  · rw [List.any_cons, show t.frames.any Frame.isExtglob = false from h.groups]
    rfl
  · refine .inr ⟨['\\', '('], rfl, fun mark => ?_⟩
    rw [List.flatMap_cons, List.mem_append, Frame.marks, List.mem_singleton]
    exact or_comm

/-- An opening brace. -/
theorem openBrace (ctx : Context) :
    (t.openBrace ctx).Unclosed (source ++ ['\\', '{']) inParen false ∧
      (t.openBrace ctx).rest = t.rest := by
  let frame : BraceFrame := ⟨Text.byteSize t.output, t.tokens.length, false, false, []⟩
  have hpush := h.push ctx (.brace frame :: t.frames)
    (.ofSource .brace ['{'] (Fragment.openGroup ctx.options.capture)) ?_
    (by simp [Token.ofSource]) ?_
  · have hinParen : (t.frames.any fun frame => !frame.isBrace) = inParen := h.inParen_eq
    rw [List.any_cons, hinParen] at hpush
    exact hpush
  · rw [List.any_cons, show t.frames.any Frame.isExtglob = false from h.groups]
    rfl
  · refine .inr ⟨['\\', '{'], rfl, fun mark => ?_⟩
    rw [List.flatMap_cons, List.mem_append, Frame.marks, List.map_nil, List.mem_singleton]
    exact or_comm

/-- A comma. -/
theorem comma (ctx : Context) : (t.comma ctx).Unclosed (source ++ [',']) inParen false ∧
    (t.comma ctx).rest = t.rest := by
  have hinParen : (t.frames.any fun frame => !frame.isBrace) = inParen := h.inParen_eq
  have hgroups : t.frames.any Frame.isExtglob = false := h.groups
  have hother := h.push_other ctx (.ofSource .comma [','] [',']) (by simp [Token.ofSource]) rfl
  unfold Tokenizer.comma
  split
  case h_1 frame frames hframes =>
    have hpush := h.push ctx (.brace { frame with
        comma := true, commas := frame.commas ++ [t.tokens.length] } :: frames)
      (.ofSource .comma [','] ['|']) ?_ (by simp [Token.ofSource]) ?_
    · rw [hframes, List.any_cons] at hinParen
      rw [List.any_cons, show (!Frame.isBrace _) = false from rfl, Bool.false_or] at hpush
      rw [show (!Frame.isBrace (.brace frame)) = false from rfl, Bool.false_or] at hinParen
      rw [hinParen] at hpush
      exact hpush
    · rw [hframes, List.any_cons] at hgroups
      rw [List.any_cons]
      exact hgroups
    · refine .inr ⟨[','], rfl, fun mark => ?_⟩
      rw [marks, hframes, List.flatMap_cons, List.flatMap_cons, List.mem_append, List.mem_append,
        Frame.marks, Frame.marks, List.map_append, ← List.cons_append, List.mem_append,
        List.map_singleton, List.mem_singleton, or_right_comm]
  case h_2 => exact hother

/-- A bracket that no closing bracket follows. -/
theorem openBracket (hbracket : ctx.options.strictBrackets = false) (hrest : ']' ∉ t.rest) :
    ∃ t', t.openBracket ctx = .ok t' ∧ t'.Unclosed (source ++ ['\\', '[']) inParen true ∧
      t'.rest = t.rest := by
  refine ⟨_, ?_, h.push_other ctx { kind := .bracket, value := ['\\', '['] }
    (by simp) rfl⟩
  simp [Tokenizer.openBracket, hbracket, hrest]

variable (ctx tail)

/-- A character that closes nothing adds its source. -/
theorem leads_opening (hbracket : ctx.options.strictBrackets = false)
    (hbrace : ctx.options.noBrace = false) (hc : IsOpening c) (hclass : c = '[' → ']' ∉ more)
    (hrest : t.rest = c :: more) :
    ∃ t', Leads ctx tail t t' ∧ t'.Unclosed (source ++ openingSource inParen c)
      (inParen || c = '(') (c = '[') ∧ t'.rest = more := by
  have hr := h.reading more
  have hstep {t' : Tokenizer} (hstep : step ctx tail (t.reading more) c = .ok t')
      (hunclosed : t'.Unclosed (source ++ openingSource inParen c) (inParen || c = '(') (c = '['))
      (hrest' : t'.rest = more) : ∃ t', Leads ctx tail t t' ∧
        t'.Unclosed (source ++ openingSource inParen c) (inParen || c = '(') (c = '[') ∧
        t'.rest = more :=
    ⟨t', .of_step hrest hstep (Nat.le_of_eq (congrArg List.length hrest')), hunclosed, hrest'⟩
  obtain hplain | hdelimiter := hc
  · have hne (d : Char) (hd : isSpecial d = true) : c ≠ d := by
      rintro rfl
      exact absurd (hplain.symm.trans hd) Bool.false_ne_true
    have hsource : openingSource inParen c = [c] := by
      simp [openingSource, hne '|' rfl, escapeChar_of_not_isSpecial hplain]
    have hpush := hr.pushText ctx [c] [c]
    rw [hsource]
    simp only [hne '(' rfl, hne '[' rfl, decide_false, Bool.or_false]
    refine ⟨_, leads_plain ctx tail h.inClass h.quoted h.tokens h.not_globstar hrest hplain, hpush,
    ?_⟩
    rw [Tokenizer.pushText, push_eq ctx hr.groups fun hlast => absurd hlast hr.not_globstar]
    rfl
  · simp only [List.mem_cons, List.not_mem_nil, or_false] at hdelimiter
    obtain rfl | rfl | rfl | rfl | rfl := hdelimiter
    · obtain ⟨hunclosed, hrest'⟩ := hr.openParen ctx
      refine hstep (by simp [step, hr.inClass, hr.quoted]) ?_ hrest'
      simpa [openingSource, escapeChar, isMeta] using hunclosed
    · obtain ⟨hunclosed, hrest'⟩ := hr.openBrace ctx
      refine hstep (by simp [step, hr.inClass, hr.quoted, hbrace]) ?_ hrest'
      simpa [openingSource, escapeChar, isMeta] using hunclosed
    · obtain ⟨t', hopen, hunclosed, hrest'⟩ := hr.openBracket hbracket (hclass rfl)
      refine hstep (by simp [step, hr.inClass, hr.quoted, hopen]) ?_ hrest'
      simpa [openingSource, escapeChar, isMeta] using hunclosed
    · obtain ⟨hunclosed, hrest'⟩ := hr.comma ctx
      refine hstep (by simp [step, hr.inClass, hr.quoted]) ?_ hrest'
      simpa [openingSource, escapeChar, isMeta] using hunclosed
    · have hpush := hr.pushText ctx ['|'] (if inParen then ['|'] else ['\\', '|'])
      have hbar : step ctx tail (t.reading more) '|' = .ok ((t.reading more).pushText ctx ['|']
          (if inParen then ['|'] else ['\\', '|'])) := by
        simp [step, hr.inClass, hr.quoted, hr.inParen_eq]
      refine hstep hbar ?_ ?_
      · cases inParen <;> simpa [openingSource, escapeChar, isMeta] using hpush
      · rw [Tokenizer.pushText, push_eq ctx hr.groups fun hlast => absurd hlast hr.not_globstar]
        rfl

/-- A text in which nothing is closed adds its source. -/
theorem leads_unclosed (hbracket : ctx.options.strictBrackets = false)
    (hbrace : ctx.options.noBrace = false) {text : List Char} (htext : ∀ c ∈ text, IsOpening c)
    (hclass : '[' ∈ text → ']' ∉ more) (hrest : t.rest = text ++ more) :
    ∃ inParen' t', Leads ctx tail t t' ∧ t'.Unclosed (source ++ unclosedSource inParen text)
      inParen' (endsInBracket bracket text) ∧ t'.rest = more := by
  induction text generalizing t source inParen bracket with
  | nil => exact ⟨inParen, t, .refl t, by simpa [unclosedSource, endsInBracket] using h, hrest⟩
  | cons c text ih =>
    obtain ⟨hc, hothers⟩ := List.forall_mem_cons.mp htext
    have hnot : c = '[' → ']' ∉ text ++ more := by
      rintro rfl hmem
      obtain hmem | hmem := List.mem_append.mp hmem
      · exact (hothers ']' hmem).elim (by decide) (by decide)
      · exact hclass List.mem_cons_self hmem
    obtain ⟨t₁, hleads, h₁, hrest₁⟩ :=
      h.leads_opening ctx tail hbracket hbrace hc hnot hrest
    obtain ⟨inParen', t₂, hleads', h₂, hrest₂⟩ :=
      ih h₁ hothers (fun hmem => hclass (List.mem_cons_of_mem c hmem)) hrest₁
    rw [List.append_assoc] at h₂
    exact ⟨inParen', t₂, hleads.trans hleads', h₂, hrest₂⟩

end Unclosed

/-! ### A class that goes on to the end -/

/-- The token of a bracket behind the tokens so far. -/
def bracketToken (t : Tokenizer) (value : List Char) : Token :=
  { kind := .bracket, value, previous := some t.lastPlace }

/-- Within the class of a bracket that was opened in the given state. -/
def inBody (t : Tokenizer) (value rest : List Char) (position : Nat) (output : List Char) :
    Tokenizer :=
  { t with
    rest, position, output
    inClass := true
    tokens := t.tokens ++ [t.bracketToken value] }

theorem last_inBody (value rest : List Char) (position : Nat) (output : List Char) :
    (t.inBody value rest position output).last = t.bracketToken value := last_of_tokens_eq rfl

theorem appendClass_inBody (value rest : List Char) (position : Nat) (output more : List Char) :
    (t.inBody value rest position output).appendClass more =
      t.inBody (value ++ more) rest position (output ++ more) := by
  have htokens := tokens_appendClass (t := t.inBody value rest position output) rfl more
  show { t.inBody value rest position (output ++ more) with
    tokens := ((t.inBody value rest position output).appendClass more).tokens } = _
  rw [htokens]
  rfl

variable (ctx tail)

/-- A bracket behind which a closing bracket stands opens a class. -/
theorem leads_beginClass (hnoBracket : ctx.options.noBracket = false) (hclass : t.inClass = false)
    (hquoted : t.quoted = false) (hgroups : t.inExtglob = false)
    (hglobstar : t.last.kind ≠ .globstar) (hrest : t.rest = '[' :: more) (hmore : ']' ∈ more) :
    Leads ctx tail t (t.inBody ['['] more (t.position + 1) (t.output ++ ['['])) := by
  refine .of_step hrest ?_ (Nat.le_refl _)
  have hpush : ({ t.reading more with inClass := true } : Tokenizer).push ctx
      { kind := .bracket, value := ['['] } =
        t.inBody ['['] more (t.position + 1) (t.output ++ ['[']) := by
    rw [push_eq ctx (t := { t.reading more with inClass := true }) hgroups
      fun hlast => absurd hlast hglobstar, pushed_of_kind_ne (by simp)]
    rfl
  rw [← hpush]
  simp [step, hclass, hquoted, Tokenizer.openBracket, hnoBracket, Tokenizer.reading, hmore]

theorem Unclosed.leads_inBody (hnoBracket : ctx.options.noBracket = false)
    (h : t.Unclosed source inParen bracket) (hrest : t.rest = '[' :: more) (hmore : ']' ∈ more) :
    Leads ctx tail t (t.inBody ['['] more (t.position + 1) (t.output ++ ['['])) :=
  leads_beginClass ctx tail hnoBracket h.inClass h.quoted h.groups h.not_globstar hrest hmore

/-- A step within a class. -/
theorem leads_of_step_inBody {value rest : List Char} {position : Nat} {output : List Char}
    {c : Char} {t' : Tokenizer}
    (hstep : step ctx tail (t.inBody value rest (position + 1) output) c = .ok t')
    (hrest : t'.rest = rest) : Leads ctx tail (t.inBody value (c :: rest) position output) t' :=
  .of_step rfl hstep (Nat.le_of_eq (congrArg List.length hrest))

/-- The class body that a character stands for. -/
def classSource (c : Char) : List Char := if c = '-' then ['-'] else escapeClassChar c

/-- Within a class without named classes, a character of a text in which nothing is closed adds
to the body. Only directly before a closing bracket a dash would be escaped. -/
theorem step_classChar (hposix : ctx.options.posix = false) (hclass : t.inClass = true)
    (hc : IsOpening c) (hdash : c = '-' → t.rest.head? ≠ some ']') :
    step ctx tail t c = .ok (t.appendClass (classSource c)) := by
  have hne (d : Char) (hd : d ∈ ['\x00', '\\', ']', '!', '^']) : c ≠ d := by
    rintro rfl
    obtain hplain | hdelimiter := hc
    · simp only [List.mem_cons, List.not_mem_nil, or_false] at hd
      obtain rfl | rfl | rfl | rfl | rfl := hd <;> exact absurd hplain (by decide)
    · simp only [List.mem_cons, List.not_mem_nil, or_false] at hd hdelimiter
      obtain rfl | rfl | rfl | rfl | rfl := hd <;> exact absurd hdelimiter (by decide)
  have hahead : c = '-' → t.ahead 0 ≠ some ']' := by
    rw [ahead, ← List.head?_eq_getElem?]
    exact hdash
  have hbody : t.classChar ctx c = classSource c := by
    by_cases hbracket : c = '['
    · simp [classChar, classSource, hbracket, hposix, escapeClassChar, isClassMeta]
    · by_cases hdash : c = '-'
      · simp [classChar, classSource, hdash, hahead hdash]
      · simp [classChar, classSource, hbracket, hdash, hne]
  simp [step, hne, hclass, inBracket, hposix, hbody]

/-- A text is read into the class that is open. -/
theorem leads_class (hposix : ctx.options.posix = false) {text : List Char} (more : List Char)
    (htext : ∀ c ∈ text, IsOpening c) (hdash : text.getLast? = some '-' → more.head? ≠ some ']')
    (value : List Char) (position : Nat) (output : List Char) :
    ∃ position' output', Leads ctx tail (t.inBody value (text ++ more) position output)
      (t.inBody (value ++ text.flatMap classSource) more position' output') := by
  induction text generalizing value position output with
  | nil =>
    rw [List.flatMap_nil, List.append_nil]
    exact ⟨position, output, .refl _⟩
  | cons c text ih =>
    obtain ⟨hc, hothers⟩ := List.forall_mem_cons.mp htext
    -- Behind a dash stands a character of the text, unless the dash is the last of them.
    have hnext : c = '-' → (text ++ more).head? ≠ some ']' := by
      rintro rfl
      cases text with
      | nil => exact hdash rfl
      | cons d text =>
        intro hd
        obtain rfl : d = ']' := Option.some.inj hd
        exact (hothers ']' List.mem_cons_self).elim (by decide) (by decide)
    have hdash' : text.getLast? = some '-' → more.head? ≠ some ']' := by
      intro hlast
      refine hdash ?_
      rw [List.getLast?_cons, hlast]
      rfl
    have hstep := step_classChar ctx tail hposix
      (t := t.inBody value (text ++ more) (position + 1) output) rfl hc hnext
    rw [appendClass_inBody] at hstep
    obtain ⟨position', output', hleads⟩ :=
      ih hothers hdash' (value ++ classSource c) (position + 1) (output ++ classSource c)
    rw [List.flatMap_cons, ← List.append_assoc]
    exact ⟨position', output', (leads_of_step_inBody ctx tail hstep rfl).trans hleads⟩

variable {ctx tail}

/-- Once the bracket is done, it is a token with its value as its source. -/
theorem Unclosed.added_bracket (h : t.Unclosed source inParen bracket) {s : Tokenizer}
    (value : List Char) (hs : s = { t with
      rest := s.rest, position := s.position, output := s.output, rebuild := s.rebuild
      tokens := t.tokens ++ [t.bracketToken value] }) :
    s.Unclosed (source ++ value) inParen true := by
  have hadded := h.added t.frames (t.bracketToken value) hs h.groups (by simp [bracketToken])
    (.inl ⟨fun _ => Iff.rfl, rfl⟩)
  have hinParen : (t.frames.any fun frame => !frame.isBrace) = inParen := h.inParen_eq
  rw [hinParen] at hadded
  exact hadded

variable (ctx tail)

/-- A bracket that a closing bracket follows at once takes the rest of the pattern into its class,
and at the end its body becomes text. -/
theorem Unclosed.leads_openClass (hposix : ctx.options.posix = false)
    (hnoBracket : ctx.options.noBracket = false) (hstrict : ctx.options.strictBrackets = false)
    (h : t.Unclosed source inParen bracket) {text : List Char} (htext : ∀ c ∈ text, IsOpening c)
    (hrest : t.rest = '[' :: ']' :: text) :
    ∃ t' ended, Leads ctx tail t t' ∧ t'.rest = [] ∧ t'.endBracket ctx = .ok ended ∧
      ended.Unclosed (source ++ Regex.escape ('[' :: '\\' :: ']' :: text.flatMap classSource))
        inParen true := by
  have hopen := h.leads_inBody ctx tail hnoBracket hrest List.mem_cons_self
  -- The closing bracket is the first character of the class and does not end it.
  let begun := t.inBody ['['] text (t.position + 2) (t.output ++ ['['])
  have hclose : step ctx tail begun ']' = .ok (begun.appendClass ['\\', ']']) := by
    have hlast : begun.last = t.bracketToken ['['] := last_inBody ..
    simp [step, show begun.inClass = true from rfl, hlast, bracketToken, inBracket, classChar]
  rw [appendClass_inBody] at hclose
  obtain ⟨position, output, hread⟩ := leads_class ctx tail (t := t) hposix [] htext
    (fun _ => by simp) ['[', '\\', ']'] (t.position + 2) (t.output ++ ['['] ++ ['\\', ']'])
  rw [List.append_nil] at hread
  let body := '[' :: '\\' :: ']' :: text.flatMap classSource
  refine ⟨t.inBody body [] position output, { t with
      rest := [], position, output, rebuild := true
      tokens := t.tokens ++ [t.bracketToken (Regex.escape body)] },
    (hopen.trans (leads_of_step_inBody ctx tail hclose rfl)).trans hread, rfl, ?_,
    h.added_bracket _ rfl⟩
  have hmodify : modifyLastWhere (fun token => decide (token.kind = .bracket))
      (fun token => { token with value := Regex.escape token.value })
      (t.tokens ++ [t.bracketToken body]) = t.tokens ++ [t.bracketToken (Regex.escape body)] := by
    simp [modifyLastWhere, modifyLastWhere.go, bracketToken]
  rw [endBracket, if_neg (by simp [inBody]), if_neg (by simp [hstrict]), ← h.inClass, ← hmodify]
  rfl

variable {ctx tail}

/-! ### The end of the pattern -/

theorem foldl_setSource (marks : List (Nat × List Char)) (t : Tokenizer) :
    marks.foldl (fun t mark => t.setSource mark.1 mark.2) t =
      { t with tokens := settle marks t.tokens } := by
  induction marks generalizing t with
  | nil => rfl
  | cons mark marks ih => exact ih _

/-- What the end of the pattern does to the open groups is to put the marked sources in place. -/
theorem foldl_endFrame {frames : List Frame} (h : frames.any Frame.isExtglob = false)
    (t : Tokenizer) :
    frames.foldl endFrame t = { t with tokens := settle (frames.flatMap Frame.marks) t.tokens } := by
  rw [← foldl_setSource, List.foldl_flatMap]
  induction frames generalizing t with
  | nil => rfl
  | cons frame frames ih =>
    rw [List.any_cons, Bool.or_eq_false_iff] at h
    rw [List.foldl_cons, List.foldl_cons, ih h.2]
    congr 1
    cases frame with
    | paren place => rfl
    | extglob group => exact absurd h.1 (by simp [Frame.isExtglob])
    | brace frame =>
      rw [endFrame, Frame.marks, List.foldl_cons, List.foldl_map]

theorem eq_of_frames_eq_nil (h : t.frames = []) : t = { t with frames := [] } := by
  cases t
  cases h
  rfl

/-- At the end every token gets its literal source. A bracket that is last allows a separator
behind it. -/
theorem Unclosed.finish (hstrict : ctx.options.strictBrackets = false)
    (hslashes : ctx.options.strictSlashes = false) (h : t.Unclosed source inParen bracket) :
    ∃ t', t.finish ctx = .ok t' ∧ t'.negated = false ∧ t'.tokens.flatMap Token.source =
      source ++ if bracket then Fragment.slash ctx.windows ++ ['?'] else [] := by
  let settled : Tokenizer := { t with tokens := settle t.marks t.tokens, frames := [] }
  have hends : ∃ rebuild, t.endFrames ctx = .ok { settled with rebuild } := by
    unfold endFrames
    split
    case h_1 hframes =>
      refine ⟨t.rebuild, congrArg Except.ok ((eq_of_frames_eq_nil hframes).trans ?_)⟩
      simp [settled, marks, hframes, settle]
    case h_2 frame frames hframes =>
      refine ⟨true, ?_⟩
      rw [if_neg (by simp [hstrict]), foldl_endFrame h.groups]
      rfl
  obtain ⟨rebuild, hends⟩ := hends
  have hsource : settled.tokens.flatMap Token.source = source := by
    have hmap := map_source_settle (fun mark hmark token htoken => by
      obtain ⟨other, hget, hliteral⟩ := h.marked mark hmark
      rw [htoken] at hget
      exact Option.some.inj hget ▸ hliteral) h.covered
    rw [← h.literal_eq, List.flatMap_def, List.flatMap_def, ← hmap]
  have hkind : settled.last.kind = t.last.kind := by
    have hmap := congrArg List.getLast? (map_kind_settle t.marks t.tokens)
    rw [List.getLast?_map, List.getLast?_map, List.getLast?_eq_some_getLast h.tokens] at hmap
    obtain ⟨last, hlast, hsame⟩ := Option.map_eq_some_iff.mp hmap
    show ((settle t.marks t.tokens).getLast?.getD .bos).kind = (t.tokens.getLast?.getD .bos).kind
    rw [hlast, List.getLast?_eq_some_getLast h.tokens]
    exact hsame
  have hallow : (({ settled with rebuild } : Tokenizer).allowSlash ctx).negated = false ∧
      (({ settled with rebuild } : Tokenizer).allowSlash ctx).tokens.flatMap Token.source =
        source ++ if bracket then Fragment.slash ctx.windows ++ ['?'] else [] := by
    have hstar : t.last.kind ≠ .star := by
      intro hlast
      have hmem := h.last
      rw [hlast] at hmem
      exact absurd hmem (by decide)
    have hlastKind : ({ settled with rebuild } : Tokenizer).last.kind = t.last.kind := hkind
    have hglobstar : ({ settled with rebuild } : Tokenizer).last.kind ≠ .globstar := by
      rw [hlastKind]
      exact h.not_globstar
    unfold allowSlash
    rw [hlastKind, hslashes, h.bracket_eq, decide_eq_false hstar]
    cases bracket with
    | false => exact ⟨h.negated, hsource.trans (List.append_nil _).symm⟩
    | true =>
      rw [if_pos (show (!false && (false || true)) = true from rfl),
        push_eq ctx rfl fun hlast => absurd hlast hglobstar,
        pushed_of_kind_ne (by simp [Token.ofSource])]
      refine ⟨h.negated, ?_⟩
      rw [List.flatMap_append]
      exact congrArg₂ _ hsource (List.flatMap_singleton _ _)
  refine ⟨_, finish_of_endFrames ctx h.inClass hends, ?_⟩
  split <;> exact hallow

/-- Ending a bracket is the first thing that is done at the end. -/
theorem finish_of_endBracket {ended : Tokenizer} (hended : t.endBracket ctx = .ok ended)
    (hclass : ended.inClass = false) : t.finish ctx = ended.finish ctx := by
  rw [finish, finish, hended, endBracket_eq ctx hclass]

end

end Tokenizer

/-! ### The translation -/

/-- A text in which no delimiter is closed, and perhaps a class that goes on to the end. -/
def unclosed (text : List Char) (classText? : Option (List Char)) : List Char :=
  text ++ classText?.elim [] fun classText => '[' :: ']' :: classText

/-- What becomes of the class at the end. -/
def classLiteral (classText : List Char) : List Char :=
  '[' :: '\\' :: ']' :: classText.flatMap Tokenizer.classSource

/-- It is enough to follow the run: the source is always that of the tokens. -/
theorem Context.tokenize_of_leads {ctx : Context} {tail : List Char → Except Error (List Char)}
    (hstar : ctx.star ≠ []) {t t' : Tokenizer}
    (hleads : Tokenizer.Leads ctx tail { rest := ctx.body } t) (hend : t.rest = [])
    (hfinish : t.finish ctx = .ok t') :
    ∃ translation, ctx.tokenize tail = .ok translation ∧ translation.negated = t'.negated ∧
      translation.output = t'.tokens.flatMap Token.source := by
  have htokenize := tokenize_eq ((congrArg (Except.bind · (Tokenizer.finish ctx))
    (hleads.run_eq hend)).trans hfinish)
  exact ⟨_, htokenize, rfl, output_tokenize hstar htokenize⟩

/-- The translation of a text in which no delimiter is closed. -/
theorem Context.tokenize_unclosed (ctx : Context) (hstrict : ctx.options.strictBrackets = false)
    (hslashes : ctx.options.strictSlashes = false) (hposix : ctx.options.posix = false)
    (hbrace : ctx.options.noBrace = false) (hbracket : ctx.options.noBracket = false)
    (hstar : ctx.star ≠ []) {text : List Char} (htext : ∀ c ∈ text, IsOpening c)
    {classText? : Option (List Char)} (hclass : ∀ classText ∈ classText?,
      '[' ∉ text ∧ ∀ c ∈ classText, IsOpening c)
    (hbody : ctx.body = unclosed text classText?) (tail : List Char → Except Error (List Char)) :
    ∃ translation, ctx.tokenize tail = .ok translation ∧ translation.negated = false ∧
      translation.output = unclosedSource false text ++
        (classText?.elim [] fun classText => Regex.escape (classLiteral classText)) ++
        (if classText?.isSome || endsInBracket false text then Fragment.slash ctx.windows ++ ['?']
          else []) := by
  have hinitial := Tokenizer.unclosed_initial ctx.body
  cases classText? with
  | none =>
    rw [unclosed, Option.elim_none] at hbody
    obtain ⟨_, t, hleads, ht, hend⟩ := hinitial.leads_unclosed ctx tail hstrict hbrace
      htext (fun _ => List.not_mem_nil) hbody
    obtain ⟨t', hfinish, hnegated, hsource⟩ := ht.finish hstrict hslashes
    obtain ⟨translation, htokenize, hnegated', houtput⟩ :=
      tokenize_of_leads hstar hleads hend hfinish
    refine ⟨translation, htokenize, hnegated'.trans hnegated, houtput.trans (hsource.trans ?_)⟩
    simp
  | some classText =>
    obtain ⟨hnot, hclassText⟩ := hclass classText rfl
    obtain ⟨inParen, t, hleads, ht, hrest⟩ := hinitial.leads_unclosed ctx tail hstrict hbrace
      htext (fun hmem => absurd hmem hnot) hbody
    obtain ⟨u, ended, hread, hend, hended, hu⟩ :=
      ht.leads_openClass ctx tail hposix hbracket hstrict hclassText hrest
    obtain ⟨t', hfinish, hnegated, hsource⟩ := hu.finish hstrict hslashes
    rw [← Tokenizer.finish_of_endBracket hended hu.inClass] at hfinish
    obtain ⟨translation, htokenize, hnegated', houtput⟩ :=
      tokenize_of_leads hstar (hleads.trans hread) hend hfinish
    refine ⟨translation, htokenize, hnegated'.trans hnegated, houtput.trans (hsource.trans ?_)⟩
    simp [classLiteral]

end PathGlob.Pattern
