import PathGlob.Proofs.Pattern.Runs
import PathGlob.Proofs.Text.Segments

/-!
# `PathGlob.Proofs.Pattern.Extglobs`: extended groups, nested to any depth

`ExtglobWord` is the language of plain characters and extended groups other than negated ones.
The tokenizer translates a word piece by piece (`ExtglobWord.source`). Only a group at the very
start of the pattern gets more than that: a guard in its operator when it is opened, and another
one before it once it is closed, when the output has long gone on. `leads_group` is what all
groups have in common, with the source of the operator left open; `leads_word` carries it through
a word by induction, and `Context.tokenize_extglobWord` adds what the start does.
-/

set_option autoImplicit false

namespace PathGlob.Pattern

open Regex

/-! ### Words with extended groups -/

/-- The operator of a group. -/
def ExtglobKind.mark : ExtglobKind → Char
  | .negate => '!'
  | .zeroOrOne => '?'
  | .oneOrMore => '+'
  | .zeroOrMore => '*'
  | .exactlyOne => '@'

mutual

/-- A plain character, or a group that is not negated. -/
inductive ExtglobItem where
  | char (c : Char) (hspecial : isSpecial c = false) (hline : c ≠ '\n')
  | group (kind : ExtglobKind) (hkind : kind ≠ .negate) (words : ExtglobWords)

/-- A sequence of items, of which there is at least one. -/
inductive ExtglobWord where
  | one (item : ExtglobItem)
  | more (item : ExtglobItem) (rest : ExtglobWord)

/-- The alternatives of a group, of which there is at least one. -/
inductive ExtglobWords where
  | one (word : ExtglobWord)
  | more (word : ExtglobWord) (others : ExtglobWords)

end

/-- What the word begins with. -/
def ExtglobWord.first : ExtglobWord → ExtglobItem
  | .one item => item
  | .more item _ => item

/-- What the first alternative begins with. -/
def ExtglobWords.first : ExtglobWords → ExtglobItem
  | .one word => word.first
  | .more word _ => word.first

/-- A group whose operator is a question mark. -/
def ExtglobItem.isOption : ExtglobItem → Bool
  | .group .zeroOrOne _ _ => true
  | _ => false

mutual

/-- The pattern text of an item. -/
def ExtglobItem.text : ExtglobItem → List Char
  | .char c _ _ => [c]
  | .group kind _ words => kind.mark :: '(' :: words.text ++ [')']

/-- The pattern text of a word. -/
def ExtglobWord.text : ExtglobWord → List Char
  | .one item => item.text
  | .more item rest => item.text ++ rest.text

/-- The alternatives with bars between them. -/
def ExtglobWords.text : ExtglobWords → List Char
  | .one word => word.text
  | .more word others => word.text ++ '|' :: others.text

end

mutual

/-- No question mark stands directly behind a parenthesis, where it would open no group. -/
def ExtglobItem.isReadable : ExtglobItem → Bool
  | .char _ _ _ => true
  | .group _ _ words => !words.first.isOption && words.isReadable

/-- The same, for the items of a word. -/
def ExtglobWord.isReadable : ExtglobWord → Bool
  | .one item => item.isReadable
  | .more item rest => item.isReadable && rest.isReadable

/-- The same, for each alternative on its own. -/
def ExtglobWords.isReadable : ExtglobWords → Bool
  | .one word => word.isReadable
  | .more word others => word.isReadable && others.isReadable

end

/-- The source that opens a group. -/
def ExtglobKind.openingSource (capture : Bool) (kind : ExtglobKind) : List Char :=
  (if capture then ['('] else []) ++ kind.opening

/-- The source that closes a group that is not negated. -/
def ExtglobKind.closingSource (capture : Bool) (kind : ExtglobKind) : List Char :=
  if capture then kind.closing [] ++ [')'] else kind.closing []

theorem ExtglobKind.closingSource_ne_nil (capture : Bool) (kind : ExtglobKind) :
    kind.closingSource capture ≠ [] := by
  cases capture <;> cases kind <;> simp [closingSource, closing]

/-- What stands before the source of a pattern that begins with the item. -/
def ExtglobItem.guardSource (ctx : Context) : ExtglobItem → List Char
  | .char _ _ _ => []
  | .group _ _ _ => ctx.dotGuard ++ Fragment.oneChar

mutual

/-- The source of an item. -/
def ExtglobItem.source (capture : Bool) : ExtglobItem → List Char
  | .char c _ _ => [c]
  | .group kind _ words =>
    kind.openingSource capture ++ words.source capture ++ kind.closingSource capture

/-- The source of a word. -/
def ExtglobWord.source (capture : Bool) : ExtglobWord → List Char
  | .one item => item.source capture
  | .more item rest => item.source capture ++ rest.source capture

/-- The sources of the alternatives with bars between them. -/
def ExtglobWords.source (capture : Bool) : ExtglobWords → List Char
  | .one word => word.source capture
  | .more word others => word.source capture ++ '|' :: others.source capture

end

theorem ExtglobItem.exists_text_eq {item : ExtglobItem} (h : item.isOption = false) :
    ∃ c rest, item.text = c :: rest ∧ c ≠ '?' := by
  cases item with
  | char c hspecial hline => exact ⟨c, [], rfl, ne_of_not_isSpecial hspecial rfl⟩
  | group kind hkind words =>
    refine ⟨kind.mark, _, rfl, ?_⟩
    cases kind with
    | zeroOrOne => exact absurd h Bool.noConfusion
    | negate | oneOrMore | zeroOrMore | exactlyOne => decide

theorem ExtglobWord.exists_text_eq {word : ExtglobWord} (h : word.first.isOption = false) :
    ∃ c rest, word.text = c :: rest ∧ c ≠ '?' := by
  cases word with
  | one item => exact item.exists_text_eq h
  | more item rest =>
    obtain ⟨c, more, htext, hc⟩ := item.exists_text_eq h
    exact ⟨c, more ++ rest.text, by rw [text, htext]; rfl, hc⟩

/-- Behind the parenthesis of a group stands something other than a question mark. -/
theorem ExtglobWords.exists_text_eq {words : ExtglobWords} (h : words.first.isOption = false) :
    ∃ c rest, words.text = c :: rest ∧ c ≠ '?' := by
  cases words with
  | one word => exact word.exists_text_eq h
  | more word others =>
    obtain ⟨c, more, htext, hc⟩ := word.exists_text_eq h
    exact ⟨c, more ++ '|' :: others.text, by rw [text, htext]; rfl, hc⟩

/-! ### Open groups -/

namespace Frame

/-- The frame of an extended group in which no dot has been noted. -/
def IsUndotted : Frame → Prop
  | .extglob group => '.' ∉ group.inner
  | _ => False

/-- The frame without the text that has been noted. -/
def outline : Frame → Frame
  | .extglob group => .extglob { group with inner := [] }
  | frame => frame

end Frame

namespace Tokenizer

/-- Nothing but extended groups is open, no dot has been read, and the last token is none that
the next character could change. -/
structure Steady (t : Tokenizer) : Prop where
  inClass : t.inClass = false
  quoted : t.quoted = false
  undotted : ∀ frame ∈ t.frames, frame.IsUndotted
  tokens : t.tokens ≠ []
  last : t.last.kind ∈ [.bos, .text, .paren]
  isStarRun : t.last.isStarRun = false

/-- Something has been read. -/
structure Inside (t : Tokenizer) : Prop extends Steady t where
  output : t.output ≠ []
  not_bos : t.last.kind ≠ .bos

/-- The second state has read up to the rest and added to the source; apart from that only
tokens and the texts of open groups may differ. -/
structure Gains (t : Tokenizer) (source rest : List Char) (t' : Tokenizer) : Prop where
  grows : ∃ position tokens frames,
    t' = { t with rest, position, output := t.output ++ source, tokens, frames } ∧
      frames.map Frame.outline = t.frames.map Frame.outline
  inside : t'.Inside
  extended : Extends t.tokens source t'.tokens
  closed : t'.last.value ≠ ['(']

section
variable {t t' t'' : Tokenizer}

theorem Gains.trans {a b rest rest' : List Char} (h : t.Gains a rest t')
    (h' : t'.Gains b rest' t'') : t.Gains (a ++ b) rest' t'' := by
  refine ⟨?_, h'.inside, h.extended.trans h'.extended, h'.closed⟩
  obtain ⟨_, _, frames, rfl, hframes⟩ := h.grows
  obtain ⟨position, tokens, frames', rfl, hframes'⟩ := h'.grows
  exact ⟨position, tokens, frames', by rw [List.append_assoc], hframes'.trans hframes⟩

theorem Gains.rest_eq {source rest : List Char} (h : t.Gains source rest t') : t'.rest = rest := by
  obtain ⟨_, _, _, rfl, _⟩ := h.grows
  rfl

theorem Gains.frames_eq {source rest : List Char} (h : t.Gains source rest t') :
    t'.frames.map Frame.outline = t.frames.map Frame.outline := by
  obtain ⟨_, _, _, rfl, hframes⟩ := h.grows
  exact hframes

theorem Gains.frames_ne_nil {source rest : List Char} (h : t.Gains source rest t')
    (hne : t.frames ≠ []) : t'.frames ≠ [] := by
  intro hnil
  have hmap := h.frames_eq
  rw [hnil] at hmap
  exact hne (List.map_eq_nil_iff.mp hmap.symm)

/-- Text that is noted leaves the outlines of the groups. -/
theorem outline_noteInner (t : Tokenizer) (value : List Char) :
    (t.noteInner value).frames.map Frame.outline = t.frames.map Frame.outline := by
  have hframes (frames : List Frame) : (({ t with frames }.noteInner value).frames).map
      Frame.outline = frames.map Frame.outline := by
    induction frames with
    | nil => rfl
    | cons frame frames ih =>
      cases frame with
      | extglob frame => rfl
      | paren | brace => exact congrArg (List.cons _) ih
  exact hframes t.frames

/-- What is read next does not begin a segment. -/
theorem Inside.beginsSegment (h : t.Inside) : t.last.kind.beginsSegment = false := by
  have hmem := h.last
  simp only [List.mem_cons, List.not_mem_nil, or_false, h.not_bos, false_or] at hmem
  cases hmem with
  | inl htext => rw [htext]; rfl
  | inr hparen => rw [hparen]; rfl

section
variable (h : t.Steady)
include h

theorem Steady.not_globstar : t.last.kind ≠ .globstar := by
  intro hlast
  have hmem := h.last
  rw [hlast] at hmem
  exact absurd hmem (by decide)

theorem Steady.reading (rest : List Char) : (t.reading rest).Steady :=
  ⟨h.inClass, h.quoted, h.undotted, h.tokens, h.last, h.isStarRun⟩

theorem Steady.undotted_noteInner (value : List Char) (hvalue : '.' ∉ value) :
    ∀ frame ∈ (t.noteInner value).frames, frame.IsUndotted := by
  have hall := h.undotted
  unfold noteInner
  dsimp only
  generalize t.frames = frames at hall
  cases frames with
  | nil => exact hall
  | cons frame frames =>
    obtain ⟨hframe, hframes⟩ := List.forall_mem_cons.mp hall
    cases frame with
    | paren | brace => exact hframe.elim
    | extglob group =>
      refine List.forall_mem_cons.mpr ⟨?_, hframes⟩
      show '.' ∉ group.inner ++ value
      exact fun hmem => (List.mem_append.mp hmem).elim hframe hvalue

/-- A text or a parenthesis is added. -/
theorem Steady.push (ctx : Context) (token : Token) (hkind : token.kind ∈ [.text, .paren])
    (hdot : '.' ∉ token.value) (hvalue : ∃ c, token.value.getLast? = some c ∧ c ≠ '(')
    (hsource : token.source ≠ []) (hrun : token.isStarRun = false) :
    t.Gains token.source t.rest (t.push ctx token) := by
  obtain ⟨before, htokens⟩ := exists_tokens_eq h.tokens
  have hpushed := pushed_eq htokens token
  have hends (value : List Char) : value ++ token.value ≠ ['('] := by
    obtain ⟨c, hlast, hc⟩ := hvalue
    intro heq
    have hends := congrArg List.getLast? heq
    rw [List.getLast?_append, hlast] at hends
    exact hc (Option.some.inj hends)
  have hlast : ((t.pushed token).getLast?.getD .bos).kind = token.kind ∧
      ((t.pushed token).getLast?.getD .bos).isStarRun = false ∧
      ((t.pushed token).getLast?.getD .bos).value ≠ ['('] := by
    rw [hpushed]
    split
    case isTrue hmerge =>
      simp only [Bool.and_eq_true, decide_eq_true_eq] at hmerge
      simpa [hmerge, h.isStarRun] using hends t.last.value
    case isFalse => simpa [hrun] using hends []
  have hnoted : ∀ frame ∈ t.noted token, frame.IsUndotted := by
    unfold noted
    split
    · exact h.undotted
    · exact h.undotted_noteInner token.value hdot
  have houtline : (t.noted token).map Frame.outline = t.frames.map Frame.outline := by
    unfold noted
    split
    · rfl
    · exact t.outline_noteInner token.value
  rw [push_eq_noted ctx h.not_globstar]
  refine ⟨⟨_, _, _, rfl, houtline⟩, ⟨⟨h.inClass, h.quoted, hnoted, ?_, ?_, hlast.2.1⟩, ?_, ?_⟩,
    extends_pushed h.tokens token, hlast.2.2⟩
  · show t.pushed token ≠ []
    rw [hpushed]
    split <;> simp
  · show ((t.pushed token).getLast?.getD .bos).kind ∈ _
    rw [hlast.1]
    exact List.mem_cons_of_mem _ hkind
  · show t.output ++ token.source ≠ []
    simp [hsource]
  · show ((t.pushed token).getLast?.getD .bos).kind ≠ _
    rw [hlast.1]
    rintro heq
    rw [heq] at hkind
    exact absurd hkind (by decide)

end

end

/-! ### Reading a word -/

section
variable (ctx : Context) (tail : List Char → Except Error (List Char)) {t t' : Tokenizer}
  {c : Char} {more : List Char}

/-- The state after a character has been read that adds a token. -/
theorem Gains.of_reading {source : List Char} (h : (t.reading more).Gains source more t') :
    t.Gains source more t' := by
  obtain ⟨position, tokens, frames, heq, hframes⟩ := h.grows
  exact ⟨⟨position, tokens, frames, heq, hframes⟩, h.inside, h.extended, h.closed⟩

/-- A plain character. -/
theorem leads_plainChar (h : t.Steady) (hrest : t.rest = c :: more) (hc : isSpecial c = false) :
    ∃ t', Leads ctx tail t t' ∧ t.Gains [c] more t' := by
  have hne : c ≠ '.' ∧ c ≠ '(' := ⟨ne_of_not_isSpecial hc rfl, ne_of_not_isSpecial hc rfl⟩
  have hgains := (h.reading more).push ctx (.text [c] [c]) (by simp [Token.text,
    Token.ofSource]) (by simpa [Token.text, Token.ofSource] using hne.1.symm) ⟨c, rfl, hne.2⟩
    (List.cons_ne_nil _ _) rfl
  exact ⟨_, leads_plain ctx tail h.inClass h.quoted h.tokens h.not_globstar hrest hc,
    .of_reading hgains⟩

/-- A bar between two alternatives. -/
theorem leads_bar (h : t.Steady) (hopen : t.frames ≠ []) (hrest : t.rest = '|' :: more) :
    ∃ t', Leads ctx tail t t' ∧ t.Gains ['|'] more t' := by
  have hgains := (h.reading more).push ctx (.text ['|'] ['|']) (by simp [Token.text,
    Token.ofSource]) (by simp [Token.text, Token.ofSource]) ⟨'|', rfl, by decide⟩
    (List.cons_ne_nil _ _) rfl
  have hparen : (t.reading more).inParen = true := by
    obtain ⟨frame, frames, hframes⟩ := List.exists_cons_of_ne_nil hopen
    have hframe := h.undotted frame (hframes ▸ List.mem_cons_self)
    show t.frames.any _ = true
    rw [hframes, List.any_cons]
    cases frame with
    | extglob => rfl
    | paren | brace => exact hframe.elim
  have hstep : step ctx tail (t.reading more) '|' =
      .ok ((t.reading more).pushText ctx ['|'] ['|']) := by
    simp [step, (h.reading more).inClass, (h.reading more).quoted, hparen]
  exact ⟨_, .of_step hrest hstep (Nat.le_of_eq (congrArg List.length hgains.rest_eq)),
    .of_reading hgains⟩

/-- The operator of a group, as a token. -/
def operatorToken (t : Tokenizer) (kind : ExtglobKind) : Token :=
  { Token.ofSource (.extglob kind) [kind.mark] (if t.output.isEmpty then Fragment.oneChar else [])
    with previous := some t.lastPlace }

/-- The parenthesis behind the operator, as a token. -/
def openingToken (t : Tokenizer) (kind : ExtglobKind) : Token :=
  { Token.ofSource .paren ['('] (kind.openingSource ctx.options.capture) with
    isExtglob := true, previous := some t.tokens.length }

/-- The state in which a group has just been opened. -/
def opened (t : Tokenizer) (kind : ExtglobKind) (rest : List Char) : Tokenizer :=
  { t with
    rest
    position := t.position + 2
    output := t.output ++ ((t.operatorToken kind).source ++ kind.openingSource ctx.options.capture)
    tokens := t.tokens ++ [t.operatorToken kind, t.openingToken ctx kind]
    frames := .extglob ⟨kind, t.last.kind, t.tokens.length, []⟩ ::
      (t.noteInner [kind.mark]).frames }

theorem openExtglob_eq (h : t.Steady) (kind : ExtglobKind) (hrest : t.rest = c :: more) :
    t.openExtglob ctx kind kind.mark =
      { t.opened ctx kind more with position := t.position + 1 } := by
  let operator : Token := .ofSource (.extglob kind) [kind.mark]
    (if t.output.isEmpty then Fragment.oneChar else [])
  have hpush : t.push ctx operator = { t with
      output := t.output ++ operator.source
      tokens := t.tokens ++ [t.operatorToken kind]
      frames := (t.noteInner [kind.mark]).frames } := by
    rw [push_eq_noted ctx h.not_globstar, pushed_of_kind_ne (by simp [operator, Token.ofSource])]
    rfl
  have hlast : ((t.push ctx operator).skip 1).last.kind ≠ .globstar := by
    rw [hpush]
    simp [Tokenizer.last, skip, operatorToken, Token.ofSource]
  unfold openExtglob
  dsimp only
  rw [push_eq_noted ctx hlast, pushed_of_kind_ne (by simp [Token.ofSource]), hpush]
  simp only [opened, openingToken, skip, hrest, lastPlace, noted, List.append_assoc,
    List.length_append, List.length_singleton, Nat.add_sub_cancel]
  rfl

/-- An operator and the parenthesis behind it. A question mark does not open a group directly
behind another parenthesis. -/
theorem leads_openExtglob (hextglob : ctx.options.noExtglob = false) (h : t.Steady)
    {kind : ExtglobKind} (hkind : kind ≠ .negate)
    (hopens : kind = .zeroOrOne → t.last.value ≠ ['('])
    (hrest : t.rest = kind.mark :: '(' :: c :: more) (hc : c ≠ '?') :
    Leads ctx tail t (t.opened ctx kind (c :: more)) := by
  have hr := h.reading ('(' :: c :: more)
  have hahead : (t.reading ('(' :: c :: more)).opensExtglob ctx = true := by
    simp [opensExtglob, hextglob, reading, ahead, hc]
  have hstep : step ctx tail (t.reading ('(' :: c :: more)) kind.mark =
      .ok ((t.reading ('(' :: c :: more)).openExtglob ctx kind kind.mark) := by
    cases kind with
    | negate => exact absurd rfl hkind
    | zeroOrOne =>
      have hvalue : (t.reading ('(' :: c :: more)).last.value ≠ ['('] := hopens rfl
      simp [step, ExtglobKind.mark, hr.inClass, hr.quoted, qmark, hvalue, hahead]
    | oneOrMore | exactlyOne =>
      simp [step, ExtglobKind.mark, hr.inClass, hr.quoted, operator, hahead]
    | zeroOrMore =>
      have hnext : (t.reading ('(' :: c :: more)).ahead 0 = some '(' ∧
          (t.reading ('(' :: c :: more)).ahead 1 = some c := ⟨rfl, rfl⟩
      simp [step, ExtglobKind.mark, hr.inClass, hr.quoted, star, hr.not_globstar, hr.isStarRun,
        hextglob, hnext, hc]
  have hopened := openExtglob_eq ctx hr kind (show (t.reading _).rest = '(' :: c :: more from rfl)
  rw [hopened] at hstep
  exact .of_step hrest hstep (by simp [opened])

/-- Within a group that has been opened. -/
theorem Steady.opened (h : t.Steady) (kind : ExtglobKind) (hmark : kind.mark ≠ '.')
    (rest : List Char) : (t.opened ctx kind rest).Inside := by
  have hundotted := h.undotted_noteInner [kind.mark] (by simpa using hmark.symm)
  refine ⟨⟨h.inClass, h.quoted, List.forall_mem_cons.mpr ⟨List.not_mem_nil, hundotted⟩,
    by simp [Tokenizer.opened], ?_, ?_⟩, ?_, ?_⟩
  · simp [Tokenizer.opened, Tokenizer.last, openingToken, Token.ofSource]
  · simp [Tokenizer.opened, Tokenizer.last, openingToken, Token.ofSource]
  · cases kind <;> simp [Tokenizer.opened, ExtglobKind.openingSource, ExtglobKind.opening]
  · simp [Tokenizer.opened, Tokenizer.last, openingToken, Token.ofSource]

/-- The parenthesis at the end of a group, as it is pushed. -/
def closingToken (kind : ExtglobKind) : Token :=
  { Token.ofSource .paren [')'] (kind.closingSource ctx.options.capture) with isExtglob := true }

/-- The closing parenthesis of a group that does not begin a segment. -/
theorem leads_closeExtglob (h : t.Steady) {group : ExtglobFrame} {frames : List Frame}
    (hframes : t.frames = .extglob group :: frames) (hkind : group.kind ≠ .negate)
    (hbefore : group.before.beginsSegment = false) (hrest : t.rest = ')' :: more) :
    Leads ctx tail t (({ t.reading more with frames } : Tokenizer).push ctx
      (closingToken ctx group.kind)) := by
  have hr := h.reading more
  have hframes' : (t.reading more).frames = .extglob group :: frames := hframes
  have hstep : step ctx tail (t.reading more) ')' = .ok
      (({ t.reading more with frames } : Tokenizer).push ctx (closingToken ctx group.kind)) := by
    simp [step, hr.inClass, hr.quoted, closeParen, hframes', takeFrame?, Frame.isBrace,
      closeExtglob, hkind, hbefore, closingToken, ExtglobKind.closingSource]
    rfl
  exact .of_step hrest hstep (by simp [reading])

/-- What has been read within a group leaves the group open. -/
theorem Gains.exists_frames {source rest : List Char} (h : t.Gains source rest t')
    {group : ExtglobFrame} {frames : List Frame} (hframes : t.frames = .extglob group :: frames) :
    ∃ inner frames', t'.frames = .extglob { group with inner } :: frames' ∧
      frames'.map Frame.outline = frames.map Frame.outline := by
  have hmap := h.frames_eq
  rw [hframes, List.map_cons] at hmap
  obtain ⟨frame, frames', hframes', hframe, hothers⟩ := List.map_eq_cons_iff.mp hmap
  cases frame with
  | paren | brace => exact Frame.noConfusion hframe
  | extglob found =>
    have hsame := Frame.extglob.inj hframe
    simp only [ExtglobFrame.mk.injEq] at hsame
    refine ⟨found.inner, frames', ?_, hothers⟩
    rw [hframes', ← hsame.1, ← hsame.2.1, ← hsame.2.2.1]

/-- A group up to its closing parenthesis, given how its alternatives are read. -/
theorem leads_alternatives (hextglob : ctx.options.noExtglob = false) (h : t.Steady)
    {kind : ExtglobKind} (hkind : kind ≠ .negate)
    (hopens : kind = .zeroOrOne → t.last.value ≠ ['('])
    {words : ExtglobWords} (hreadable : words.first.isOption = false)
    (hrest : t.rest = (kind.mark :: '(' :: words.text ++ [')']) ++ more) {source : List Char}
    (hwords : ∀ t₁ : Tokenizer, t₁.Inside → t₁.frames ≠ [] → t₁.rest = words.text ++ ')' :: more →
      ∃ t₂, Leads ctx tail t₁ t₂ ∧ t₁.Gains source (')' :: more) t₂) :
    ∃ t' inner frames, Leads ctx tail t t' ∧
      (t.opened ctx kind (words.text ++ ')' :: more)).Gains source (')' :: more) t' ∧
      t'.frames = .extglob ⟨kind, t.last.kind, t.tokens.length, inner⟩ :: frames ∧
      frames.map Frame.outline = t.frames.map Frame.outline := by
  obtain ⟨c, rest, htext, hc⟩ := words.exists_text_eq hreadable
  have hmark : kind.mark ≠ '.' := by cases kind <;> decide
  have hrest' : t.rest = kind.mark :: '(' :: c :: (rest ++ ')' :: more) := by
    rw [hrest, htext]
    simp
  have hleads := leads_openExtglob ctx tail hextglob h hkind hopens hrest' hc
  rw [← List.cons_append, ← htext] at hleads
  obtain ⟨t', hleads', hgains⟩ :=
    hwords _ (Steady.opened ctx h kind hmark _) (List.cons_ne_nil _ _) rfl
  obtain ⟨inner, frames, hframes, houtline⟩ := hgains.exists_frames rfl
  exact ⟨t', inner, frames, hleads.trans hleads', hgains, hframes,
    houtline.trans (t.outline_noteInner [kind.mark])⟩

/-- What opening a group adds to the tokens. -/
theorem extends_opened (t : Tokenizer) (kind : ExtglobKind) (rest : List Char) :
    Extends t.tokens ((t.operatorToken kind).source ++ kind.openingSource ctx.options.capture)
      (t.opened ctx kind rest).tokens := by
  have hadded := extends_append t.tokens [t.operatorToken kind, t.openingToken ctx kind]
  rw [List.flatMap_cons, List.flatMap_singleton] at hadded
  exact hadded

/-- A group behind something else, given how its alternatives are read. -/
theorem leads_group (hextglob : ctx.options.noExtglob = false) (h : t.Inside)
    {kind : ExtglobKind} (hkind : kind ≠ .negate)
    (hopens : kind = .zeroOrOne → t.last.value ≠ ['('])
    {words : ExtglobWords} (hreadable : words.first.isOption = false)
    (hrest : t.rest = (kind.mark :: '(' :: words.text ++ [')']) ++ more) {source : List Char}
    (hwords : ∀ t₁ : Tokenizer, t₁.Inside → t₁.frames ≠ [] → t₁.rest = words.text ++ ')' :: more →
      ∃ t₂, Leads ctx tail t₁ t₂ ∧ t₁.Gains source (')' :: more) t₂) :
    ∃ t', Leads ctx tail t t' ∧ t.Gains (kind.openingSource ctx.options.capture ++ source ++
      kind.closingSource ctx.options.capture) more t' := by
  obtain ⟨u, inner, frames, hleads, hgains, hframes, houtline⟩ :=
    leads_alternatives ctx tail hextglob h.toSteady hkind hopens hreadable hrest hwords
  have hclose := leads_closeExtglob ctx tail hgains.inside.toSteady hframes hkind
    h.beginsSegment hgains.rest_eq
  have hundotted := hgains.inside.undotted
  rw [hframes] at hundotted
  let v : Tokenizer := { u.reading more with frames }
  have hv : v.Steady := ⟨hgains.inside.inClass, hgains.inside.quoted,
    (List.forall_mem_cons.mp hundotted).2, hgains.inside.tokens, hgains.inside.last,
    hgains.inside.isStarRun⟩
  have hpush := hv.push ctx (closingToken ctx kind) (by simp [closingToken, Token.ofSource])
    (by simp [closingToken, Token.ofSource]) ⟨')', rfl, by decide⟩
    (kind.closingSource_ne_nil _) rfl
  have hoperator : (t.operatorToken kind).source = [] := by
    simp [operatorToken, Token.ofSource, Token.source, h.output]
  refine ⟨_, hleads.trans hclose, ⟨?_, hpush.inside, ?_, hpush.closed⟩⟩
  · obtain ⟨_, _, _, rfl, -⟩ := hgains.grows
    obtain ⟨position, tokens, frames', heq, hframes'⟩ := hpush.grows
    refine ⟨position, tokens, frames', heq.trans ?_, hframes'.trans houtline⟩
    simp only [v, opened, Tokenizer.reading, hoperator, List.nil_append, List.append_assoc]
    rfl
  · have hopened := extends_opened ctx t kind (words.text ++ ')' :: more)
    rw [hoperator, List.nil_append] at hopened
    exact (hopened.trans hgains.extended).trans hpush.extended

mutual

/-- Behind something else, an item adds its source. -/
theorem leads_extglobItem (hextglob : ctx.options.noExtglob = false) (item : ExtglobItem)
    (hreadable : item.isReadable = true) {t : Tokenizer} {more : List Char} (h : t.Inside)
    (hopens : item.isOption = true → t.last.value ≠ ['(']) (hrest : t.rest = item.text ++ more) :
    ∃ t', Leads ctx tail t t' ∧ t.Gains (item.source ctx.options.capture) more t' := by
  cases item with
  | char c hspecial hline => exact leads_plainChar ctx tail h.toSteady hrest hspecial
  | group kind hkind words =>
    obtain ⟨hfirst, hwords⟩ : words.first.isOption = false ∧ words.isReadable = true := by
      simpa [ExtglobItem.isReadable] using hreadable
    refine leads_group ctx tail hextglob h hkind (fun heq => hopens ?_) hfirst hrest
      fun t₁ h₁ hframes hrest₁ => ?_
    · subst heq
      rfl
    · exact leads_extglobWords hextglob words hwords h₁
        (fun hoption => absurd (hfirst.symm.trans hoption) Bool.false_ne_true) hframes hrest₁

/-- Behind something else, a word adds its source. -/
theorem leads_extglobWord (hextglob : ctx.options.noExtglob = false) (word : ExtglobWord)
    (hreadable : word.isReadable = true) {t : Tokenizer} {more : List Char} (h : t.Inside)
    (hopens : word.first.isOption = true → t.last.value ≠ ['('])
    (hrest : t.rest = word.text ++ more) :
    ∃ t', Leads ctx tail t t' ∧ t.Gains (word.source ctx.options.capture) more t' := by
  cases word with
  | one item => exact leads_extglobItem hextglob item hreadable h hopens hrest
  | more item rest =>
    obtain ⟨hitem, hothers⟩ := Bool.and_eq_true_iff.mp hreadable
    rw [ExtglobWord.text, List.append_assoc] at hrest
    obtain ⟨t₁, hleads, hgains⟩ := leads_extglobItem hextglob item hitem h hopens hrest
    obtain ⟨t₂, hleads', hgains'⟩ := leads_extglobWord hextglob rest hothers hgains.inside
      (fun _ => hgains.closed) hgains.rest_eq
    exact ⟨t₂, hleads.trans hleads', hgains.trans hgains'⟩

/-- Within a group, the alternatives up to its end add their sources. -/
theorem leads_extglobWords (hextglob : ctx.options.noExtglob = false) (words : ExtglobWords)
    (hreadable : words.isReadable = true) {t : Tokenizer} {more : List Char} (h : t.Inside)
    (hopens : words.first.isOption = true → t.last.value ≠ ['(']) (hframes : t.frames ≠ [])
    (hrest : t.rest = words.text ++ ')' :: more) :
    ∃ t', Leads ctx tail t t' ∧ t.Gains (words.source ctx.options.capture) (')' :: more) t' := by
  cases words with
  | one word => exact leads_extglobWord hextglob word hreadable h hopens hrest
  | more word others =>
    obtain ⟨hword, hothers⟩ := Bool.and_eq_true_iff.mp hreadable
    rw [ExtglobWords.text, List.append_assoc, List.cons_append] at hrest
    obtain ⟨t₁, hleads₁, hgains₁⟩ := leads_extglobWord hextglob word hword h hopens hrest
    have hopen := hgains₁.frames_ne_nil hframes
    obtain ⟨t₂, hleads₂, hgains₂⟩ :=
      leads_bar ctx tail hgains₁.inside.toSteady hopen hgains₁.rest_eq
    obtain ⟨t₃, hleads₃, hgains₃⟩ := leads_extglobWords hextglob others hothers hgains₂.inside
      (fun _ => hgains₂.closed) (hgains₂.frames_ne_nil hopen) hgains₂.rest_eq
    have hsource : (ExtglobWords.more word others).source ctx.options.capture =
        word.source ctx.options.capture ++ ['|'] ++ others.source ctx.options.capture := by
      rw [ExtglobWords.source, List.append_assoc]
      rfl
    rw [hsource]
    exact ⟨t₃, (hleads₁.trans hleads₂).trans hleads₃, (hgains₁.trans hgains₂).trans hgains₃⟩

end

end

/-! ### The start of a pattern -/

/-- The source as it will be put together at the end. -/
def final (t : Tokenizer) : List Char := if t.rebuild then t.joinSources else t.output

/-- The beginning of a pattern has been read, and its source will be the given one. -/
structure Starts (t : Tokenizer) (source rest : List Char) : Prop where
  inside : t.Inside
  rest_eq : t.rest = rest
  frames : t.frames = []
  negated : t.negated = false
  bos : ∃ after, t.tokens = .bos :: after
  closed : t.last.value ≠ ['(']
  final_eq : t.final = source

section
variable {ctx : Context} {tail : List Char → Except Error (List Char)} {t t' : Tokenizer}
  {more : List Char}

/-- What has been read once the pattern has begun adds to its source. -/
theorem Starts.gains {a b rest : List Char} (h : t.Starts a more) (h' : t.Gains b rest t') :
    t'.Starts (a ++ b) rest := by
  obtain ⟨after, htokens⟩ := h.bos
  obtain ⟨after', htokens', hsource⟩ := h'.extended [] .bos after htokens (by decide)
  have hinside := h'.inside
  have hclosed := h'.closed
  obtain ⟨position, tokens, frames, rfl, hframes⟩ := h'.grows
  refine ⟨hinside, rfl, ?_, h.negated, ⟨after', htokens'⟩, hclosed, ?_⟩
  · rw [h.frames] at hframes
    exact List.map_eq_nil_iff.mp hframes
  · have hfinal := h.final_eq
    unfold final at hfinal ⊢
    dsimp only at htokens' ⊢
    split at hfinal
    case isTrue hrebuild =>
      rw [if_pos hrebuild, joinSources, htokens', List.nil_append, List.flatMap_cons, hsource,
        ← hfinal, joinSources, htokens, List.flatMap_cons, List.append_assoc]
    case isFalse hrebuild => rw [if_neg hrebuild, hfinal]

variable (ctx tail)

/-- At the start of a text nothing has happened yet. -/
theorem steady_initial (rest : List Char) : ({ rest } : Tokenizer).Steady :=
  ⟨rfl, rfl, by simp, by simp, by simp [last, Token.bos, Token.ofSource], rfl⟩

/-- A plain character at the start of a pattern. -/
theorem starts_plainChar {c : Char} (hc : isSpecial c = false) (more : List Char) :
    ∃ t, Leads ctx tail { rest := c :: more } t ∧ t.Starts [c] more := by
  obtain ⟨t, hleads, hgains⟩ := leads_plainChar ctx tail (steady_initial (c :: more)) rfl hc
  obtain ⟨after, htokens, -⟩ := hgains.extended [] .bos [] rfl (by decide)
  refine ⟨t, hleads, hgains.inside, hgains.rest_eq, ?_, ?_, ⟨after, htokens⟩, hgains.closed, ?_⟩
  · exact List.map_eq_nil_iff.mp hgains.frames_eq
  · obtain ⟨_, _, _, rfl, -⟩ := hgains.grows
    rfl
  · obtain ⟨_, _, _, rfl, -⟩ := hgains.grows
    rfl

/-- The closing parenthesis of a group at the start of a pattern puts a guard before its
operator. -/
theorem step_closeFirst (h : t.Steady) {group : ExtglobFrame} (hkind : group.kind ≠ .negate)
    (hframes : t.frames = [.extglob group]) (hbefore : group.before = .bos)
    (hoperator : group.operator < t.tokens.length) :
    ∃ optionalGroup, step ctx tail t ')' = .ok { ({ t with
        frames := []
        tokens := t.tokens.modify group.operator fun token =>
          { token with source? := some (ctx.dotGuard ++ token.source) }
        rebuild := true } : Tokenizer).push ctx (closingToken ctx group.kind) with
      optionalGroup } := by
  have hinner : '.' ∉ group.inner := h.undotted (.extglob group) (hframes ▸ List.mem_cons_self)
  have hdots : (Text.pieces '|' group.inner).any (fun piece => piece.head? = some '.') = false := by
    rw [List.any_eq_false]
    intro piece hpiece hhead
    obtain ⟨rest, hrest⟩ := List.head?_eq_some_iff.mp (by simpa using hhead)
    exact hinner (Text.mem_of_mem_pieces hpiece (hrest ▸ List.mem_cons_self))
  have hclose : step ctx tail t ')' =
      ({ t with frames := [] } : Tokenizer).closeExtglob ctx tail group := by
    simp [step, h.inClass, h.quoted, closeParen, hframes, takeFrame?, Frame.isBrace]
  rw [hclose, closeExtglob, if_neg hkind]
  dsimp only
  rw [hdots]
  simp only [hbefore, TokenKind.beginsSegment, hkind, hoperator, ne_eq, not_false_eq_true,
    decide_true, decide_false, Bool.and_false, Bool.false_and, Bool.or_false, Bool.not_false,
    Bool.and_self, if_true, Bool.true_and]
  cases hoptional : group.kind.isOptional with
  | true => exact ⟨_, rfl⟩
  | false => exact ⟨_, rfl⟩

/-- A group at the start of a pattern, given how its alternatives are read. -/
theorem starts_group (hextglob : ctx.options.noExtglob = false) {kind : ExtglobKind}
    (hkind : kind ≠ .negate) {words : ExtglobWords} (hreadable : words.first.isOption = false)
    (more : List Char) {source : List Char}
    (hwords : ∀ t₁ : Tokenizer, t₁.Inside → t₁.frames ≠ [] → t₁.rest = words.text ++ ')' :: more →
      ∃ t₂, Leads ctx tail t₁ t₂ ∧ t₁.Gains source (')' :: more) t₂) :
    ∃ t, Leads ctx tail { rest := (kind.mark :: '(' :: words.text ++ [')']) ++ more } t ∧
      t.Starts ((ctx.dotGuard ++ Fragment.oneChar) ++ (kind.openingSource ctx.options.capture ++
        source ++ kind.closingSource ctx.options.capture)) more := by
  let s : Tokenizer := { rest := (kind.mark :: '(' :: words.text ++ [')']) ++ more }
  obtain ⟨u, inner, frames, hleads, hgains, hframes, houtline⟩ :=
    leads_alternatives ctx tail hextglob (steady_initial s.rest) hkind
      (fun _ => (List.cons_ne_nil _ _).symm) hreadable rfl hwords
  obtain rfl : frames = [] := List.map_eq_nil_iff.mp houtline
  obtain ⟨after, htokens, hafter⟩ := hgains.extended [.bos] (s.operatorToken kind)
    [s.openingToken ctx kind] rfl (by simp [operatorToken, Token.ofSource])
  -- The operator stands behind the token that every pattern begins with.
  obtain ⟨optionalGroup, hstep⟩ := step_closeFirst ctx tail (hgains.inside.toSteady.reading more)
    hkind hframes rfl (by
      show s.tokens.length < u.tokens.length
      rw [htokens]
      simp [s])
  let operator : Token := { s.operatorToken kind with
    source? := some (ctx.dotGuard ++ (s.operatorToken kind).source) }
  let v : Tokenizer := { u.reading more with
    frames := [], tokens := .bos :: operator :: after, rebuild := true }
  have hmodify : u.tokens.modify s.tokens.length (fun token => { token with
      source? := some (ctx.dotGuard ++ token.source) }) = .bos :: operator :: after := by
    rw [htokens]
    rfl
  obtain ⟨x, others, hothers⟩ : ∃ x others, after = x :: others := by
    refine List.exists_cons_of_ne_nil fun hnil => ?_
    rw [hnil, List.flatMap_singleton] at hafter
    cases kind <;> simp [openingToken, Token.ofSource, Token.source, ExtglobKind.openingSource,
      ExtglobKind.opening] at hafter
  have hlast : v.last = u.last := by
    simp [v, Tokenizer.last, htokens, hothers]
  have hu := hgains.inside
  have hv : v.Steady := ⟨hu.inClass, hu.quoted, by simp [v], by simp [v], hlast ▸ hu.last,
    hlast ▸ hu.isStarRun⟩
  have hpush := hv.push ctx (closingToken ctx kind) (by simp [closingToken, Token.ofSource])
    (by simp [closingToken, Token.ofSource]) ⟨')', rfl, by decide⟩
    (kind.closingSource_ne_nil _) rfl
  have hstep' : step ctx tail (u.reading more) ')' =
      .ok { v.push ctx (closingToken ctx kind) with optionalGroup } := by
    simp only [v, ← hmodify]
    exact hstep
  refine ⟨_, hleads.trans (.of_step hgains.rest_eq hstep' (by simp [v, reading])), ?_⟩
  obtain ⟨after', htokens', hafter'⟩ := hpush.extended [] .bos (operator :: after) rfl (by decide)
  have hi := hpush.inside
  have hframes' : (v.push ctx (closingToken ctx kind)).frames = [] :=
    List.map_eq_nil_iff.mp hpush.frames_eq
  have hrebuild : (v.push ctx (closingToken ctx kind)).rebuild = true := by simp [v]
  refine ⟨⟨⟨hi.inClass, hi.quoted, hi.undotted, hi.tokens, hi.last, hi.isStarRun⟩, hi.output,
    hi.not_bos⟩, hpush.rest_eq, hframes', ?_, ⟨after', htokens'⟩, hpush.closed, ?_⟩
  · obtain ⟨_, _, _, hv, -⟩ := hpush.grows
    obtain ⟨_, _, _, hu, -⟩ := hgains.grows
    show (v.push ctx (closingToken ctx kind)).negated = false
    rw [hv]
    show u.negated = false
    rw [hu]
    rfl
  · show (if (v.push ctx (closingToken ctx kind)).rebuild then
      (v.push ctx (closingToken ctx kind)).tokens.flatMap Token.source else _) = _
    rw [if_pos hrebuild, htokens', List.nil_append, List.flatMap_cons, hafter', List.flatMap_cons,
      hafter]
    simp [operator, s, operatorToken, openingToken, closingToken, Token.ofSource, Token.source,
      Token.bos, List.append_assoc]

/-- What a pattern begins with. -/
theorem starts_extglobItem (hextglob : ctx.options.noExtglob = false) (item : ExtglobItem)
    (hreadable : item.isReadable = true) (more : List Char) :
    ∃ t, Leads ctx tail { rest := item.text ++ more } t ∧
      t.Starts (item.guardSource ctx ++ item.source ctx.options.capture) more := by
  cases item with
  | char c hspecial hline => exact starts_plainChar ctx tail hspecial more
  | group kind hkind words =>
    obtain ⟨hfirst, hwords⟩ : words.first.isOption = false ∧ words.isReadable = true := by
      simpa [ExtglobItem.isReadable] using hreadable
    exact starts_group ctx tail hextglob hkind hfirst more fun t₁ h₁ hframes hrest₁ =>
      leads_extglobWords ctx tail hextglob words hwords h₁
        (fun hoption => absurd (hfirst.symm.trans hoption) Bool.false_ne_true) hframes hrest₁

/-- A whole pattern. -/
theorem starts_extglobWord (hextglob : ctx.options.noExtglob = false) (word : ExtglobWord)
    (hreadable : word.isReadable = true) :
    ∃ t, Leads ctx tail { rest := word.text } t ∧
      t.Starts (word.first.guardSource ctx ++ word.source ctx.options.capture) [] := by
  cases word with
  | one item =>
    have hstarts := starts_extglobItem ctx tail hextglob item hreadable []
    rwa [List.append_nil] at hstarts
  | more item rest =>
    obtain ⟨hitem, hothers⟩ := Bool.and_eq_true_iff.mp hreadable
    obtain ⟨t₁, hleads, hstarts⟩ := starts_extglobItem ctx tail hextglob item hitem rest.text
    obtain ⟨t₂, hleads', hgains⟩ := leads_extglobWord ctx tail hextglob rest hothers hstarts.inside
      (fun _ => hstarts.closed) (hstarts.rest_eq.trans (List.append_nil _).symm)
    have hall := hstarts.gains hgains
    rw [List.append_assoc] at hall
    exact ⟨t₂, hleads.trans hleads', hall⟩

variable {ctx tail}

/-- At the end of a pattern nothing is open, and nothing is added. -/
theorem Starts.finish_eq {source : List Char} (h : t.Starts source more) :
    t.finish ctx = .ok { t with output := source } := by
  have hmem := h.inside.last
  have hallow : t.allowSlash ctx = t := by
    refine if_neg fun hand => ?_
    simp only [Bool.and_eq_true, Bool.or_eq_true, decide_eq_true_eq] at hand
    obtain hlast | hlast := hand.2 <;> rw [hlast] at hmem <;> exact absurd hmem (by decide)
  have hfinal := h.final_eq
  rw [finish_of_endFrames ctx h.inside.inClass (endFrames_eq ctx h.frames), hallow, ← hfinal]
  unfold final
  split <;> rfl

end

end Tokenizer

/-- The translation of a word is its source, behind guards if it begins with a group. -/
theorem Context.tokenize_extglobWord {ctx : Context} (hextglob : ctx.options.noExtglob = false)
    (word : ExtglobWord) (hreadable : word.isReadable = true) (hbody : ctx.body = word.text)
    (tail : List Char → Except Error (List Char)) :
    ∃ translation, ctx.tokenize tail = .ok translation ∧
      translation.output = word.first.guardSource ctx ++ word.source ctx.options.capture ∧
      translation.negated = false := by
  obtain ⟨t, hleads, hstarts⟩ := Tokenizer.starts_extglobWord ctx tail hextglob word hreadable
  rw [← hbody] at hleads
  have hrun := hleads.run_eq hstarts.rest_eq
  exact ⟨_, tokenize_eq ((congrArg (Except.bind · (Tokenizer.finish ctx)) hrun).trans
    hstarts.finish_eq), rfl, hstarts.negated⟩

end PathGlob.Pattern
