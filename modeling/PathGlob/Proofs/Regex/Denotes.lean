import PathGlob.Proofs.Regex.Classes

/-!
# `PathGlob.Proofs.Regex.Denotes`: sources and the languages they denote

A source that neither looks around nor asks where it stands is described by the texts it
matches. `Denotes source language` says so for a source that stands between pieces, and
`DenotesBody source language` for the inside of a group, which may have alternatives. How the
source is read, into which pieces and with how many capturing groups, is left open, so groups
that capture are no different from those that do not (`DenotesBody.capture`,
`DenotesBody.group`).

`DenotesBody.exists_program` and `compile_of_denotes` are what the composition is for: the
source between anchors makes a program that matches exactly the texts of the language.
-/

set_option autoImplicit false

namespace PathGlob.Regex

/-- The texts of one language followed by those of another. -/
def catenation (first second : List Char → Prop) (text : List Char) : Prop :=
  ∃ v w, first v ∧ second w ∧ text = v ++ w

theorem catenation_eq_iff {v w text : List Char} :
    catenation (· = v) (· = w) text ↔ text = v ++ w := by
  simp [catenation]

theorem Node.isSound_append {p q : List Node} (hp : (ofSequence p).IsSound)
    (hq : (ofSequence q).IsSound) : (ofSequence (p ++ q)).IsSound := by
  induction p with
  | nil => exact hq
  | cons a p ih =>
    simp only [List.cons_append, ofSequence_cons, IsSound, isExtended, refers,
      Bool.and_eq_true, Bool.or_eq_false_iff] at hp ih ⊢
    have hrest := ih ⟨hp.1.2, hp.2.2⟩
    exact ⟨⟨hp.1.1, hrest.1⟩, hp.2.1, hrest.2⟩

/-- Matching the tree moves a cursor over exactly the texts of the language. -/
structure Node.Denotes (a : Node) (language : List Char → Prop) : Prop where
  sound : a.IsSound
  spans_iff (c d : Cursor) : a.Spans false c d ↔ ∃ text, language text ∧ c.Passes text d

namespace Node.Denotes

variable {a b : Node} {language other : List Char → Prop}

theorem congr (h : a.Denotes language) (hiff : ∀ text, language text ↔ other text) :
    a.Denotes other :=
  ⟨h.sound, fun c d => by simp only [h.spans_iff, hiff]⟩

theorem ofSequence_nil : (ofSequence []).Denotes (· = []) := by
  refine ⟨by decide, fun c d => ?_⟩
  simp only [spans_ofSequence_nil, exists_eq_left, Cursor.passes_nil_iff]

theorem ofSequence_singleton (h : a.Denotes language) : (ofSequence [a]).Denotes language := by
  refine ⟨isSound_ofSequence fun b hb => ?_, fun c d => ?_⟩
  · rw [List.mem_singleton.mp hb]
    exact h.sound
  · rw [spans_ofSequence_singleton, h.spans_iff]

theorem ofSequence_append {p q : List Node} (hp : (ofSequence p).Denotes language)
    (hq : (ofSequence q).Denotes other) :
    (ofSequence (p ++ q)).Denotes (catenation language other) := by
  constructor
  · exact isSound_append hp.sound hq.sound
  · intro c d
    rw [spans_ofSequence_append]
    simp only [hp.spans_iff, hq.spans_iff]
    constructor
    · rintro ⟨e, ⟨v, hv, hpass⟩, w, hw, hpass'⟩
      exact ⟨v ++ w, ⟨v, w, hv, hw, rfl⟩, hpass.trans hpass'⟩
    · rintro ⟨text, ⟨v, w, hv, hw, rfl⟩, hpass⟩
      obtain ⟨e, hpass, hpass'⟩ := (Cursor.passes_append_iff v w).mp hpass
      exact ⟨e, ⟨v, hv, hpass⟩, w, hw, hpass'⟩

theorem alt (ha : a.Denotes language) (hb : b.Denotes other) :
    (Node.alt a b).Denotes fun text => language text ∨ other text := by
  obtain ⟨hextended, hrefers⟩ := ha.sound
  obtain ⟨hextended', hrefers'⟩ := hb.sound
  refine ⟨⟨?_, ?_⟩, fun c d => ?_⟩
  · rw [isExtended, hextended, hextended']
    rfl
  · rw [refers, hrefers, hrefers']
    rfl
  · rw [spans_alt_iff, ha.spans_iff, hb.spans_iff, ← exists_or]
    simp only [or_and_right]

theorem group (h : a.Denotes language) : (Node.group a).Denotes language :=
  ⟨h.sound, h.spans_iff⟩

theorem capture (h : a.Denotes language) (index : Nat) :
    (Node.capture index a).Denotes language :=
  ⟨h.sound, h.spans_iff⟩

theorem char (x : Char) : (Node.char x).Denotes (· = [x]) :=
  ⟨⟨rfl, rfl⟩, fun c d => by simp only [Piece.spans_char_iff, exists_eq_left]⟩

/-- A set of characters denotes the texts of one of them. -/
theorem set (members : CharSet) :
    (Node.set members).Denotes fun text => ∃ x, members.has false x = true ∧ text = [x] := by
  refine ⟨⟨rfl, rfl⟩, fun c d => ?_⟩
  simp only [Node.Spans, Cursor.Steps]
  constructor
  · rintro ⟨x, hx, hpass⟩
    exact ⟨[x], ⟨x, hx, rfl⟩, hpass⟩
  · rintro ⟨_, ⟨x, hx, rfl⟩, hpass⟩
    exact ⟨x, hx, hpass⟩

end Node.Denotes

/-- Between two pieces, the source is read as pieces that match the texts of the language. -/
def Denotes (source : List Char) (language : List Char → Prop) : Prop :=
  ∀ repeated branches before outer groups names strayBrace, ∃ repeated' pieces groups',
    (Reader.resting repeated ⟨branches, before⟩ outer groups names strayBrace).read source =
      some (.resting repeated' ⟨branches, pieces.reverse ++ before⟩ outer groups' names
        strayBrace) ∧
    (Node.ofSequence pieces).Denotes language

/-- Inside a group, the source is read as alternatives that match the texts of the language. -/
def DenotesBody (source : List Char) (language : List Char → Prop) : Prop :=
  ∀ branches outer groups names strayBrace, ∃ repeated level groups' a,
    (Reader.resting false ⟨branches, []⟩ outer groups names strayBrace).read source =
      some (.resting repeated level outer groups' names strayBrace) ∧
    level.node = .ofBranches branches a ∧ a.Denotes language

section
variable {source more : List Char} {language other : List Char → Prop}

theorem Denotes.of_reads {pieces : List Node} (h : Reads source pieces)
    (hpieces : (Node.ofSequence pieces).Denotes language) : Denotes source language := by
  intro repeated branches before outer groups names strayBrace
  obtain ⟨r, hr⟩ := h repeated branches before outer groups names strayBrace
  exact ⟨r, pieces, groups, hr, hpieces⟩

theorem Denotes.congr (h : Denotes source language) (hiff : ∀ text, language text ↔ other text) :
    Denotes source other := by
  intro repeated branches before outer groups names strayBrace
  obtain ⟨r, pieces, groups', hr, hpieces⟩ :=
    h repeated branches before outer groups names strayBrace
  exact ⟨r, pieces, groups', hr, hpieces.congr hiff⟩

theorem denotes_nil : Denotes [] (· = []) := .of_reads .nil .ofSequence_nil

theorem denotes_escapeChar (c : Char) : Denotes (escapeChar c) (· = [c]) :=
  .of_reads (reads_escapeChar c) (Node.Denotes.char c).ofSequence_singleton

theorem Denotes.append (h : Denotes source language) (hmore : Denotes more other) :
    Denotes (source ++ more) (catenation language other) := by
  intro repeated branches before outer groups names strayBrace
  obtain ⟨r, p, groups₁, hr, hp⟩ := h repeated branches before outer groups names strayBrace
  obtain ⟨s, q, groups₂, hs, hq⟩ :=
    hmore r branches (p.reverse ++ before) outer groups₁ names strayBrace
  refine ⟨s, p ++ q, groups₂, ?_, hp.ofSequence_append hq⟩
  rw [Reader.read_append, hr, Option.bind_some, hs, List.reverse_append, List.append_assoc]

/-- The source that matches a text denotes this text. -/
theorem denotes_escape (text : List Char) : Denotes (escape text) (· = text) := by
  induction text with
  | nil => exact denotes_nil
  | cons c text ih => exact ((denotes_escapeChar c).append ih).congr fun _ => catenation_eq_iff

/-- A text of characters without a meaning denotes itself. -/
theorem denotes_plain {text : List Char} (h : ∀ c ∈ text, isMeta c = false) :
    Denotes text (· = text) := by
  induction text with
  | nil => exact denotes_nil
  | cons c text ih =>
    have hchar : Denotes [c] (· = [c]) :=
      .of_reads (reads_plain (h c List.mem_cons_self)) (Node.Denotes.char c).ofSequence_singleton
    have hrest := ih fun d hd => h d (List.mem_cons_of_mem _ hd)
    exact (hchar.append hrest).congr fun _ => catenation_eq_iff

theorem DenotesBody.congr (h : DenotesBody source language)
    (hiff : ∀ text, language text ↔ other text) : DenotesBody source other := by
  intro branches outer groups names strayBrace
  obtain ⟨r, level, groups', a, hr, hlevel, ha⟩ := h branches outer groups names strayBrace
  exact ⟨r, level, groups', a, hr, hlevel, ha.congr hiff⟩

theorem Denotes.body (h : Denotes source language) : DenotesBody source language := by
  intro branches outer groups names strayBrace
  obtain ⟨r, pieces, groups', hr, hpieces⟩ := h false branches [] outer groups names strayBrace
  exact ⟨r, _, groups', _, hr, by rw [List.append_nil]; rfl, hpieces⟩

/-- An alternative before others. -/
theorem Denotes.orElse (h : Denotes source language) (hmore : DenotesBody more other) :
    DenotesBody (source ++ '|' :: more) fun text => language text ∨ other text := by
  intro branches outer groups names strayBrace
  obtain ⟨r, pieces, groups₁, hr, hpieces⟩ := h false branches [] outer groups names strayBrace
  obtain ⟨s, level, groups₂, a, hs, hlevel, ha⟩ :=
    hmore (.ofSequence pieces :: branches) outer groups₁ names strayBrace
  -- A bar closes the alternative and opens the next one.
  have hbar : (Reader.resting r ⟨branches, pieces.reverse ++ []⟩ outer groups₁ names
      strayBrace).read ['|'] = some (.resting false ⟨.ofSequence pieces :: branches, []⟩ outer
        groups₁ names strayBrace) := by
    rw [List.append_nil]
    rfl
  refine ⟨s, level, groups₂, _, ?_, hlevel, hpieces.alt ha⟩
  rw [← List.singleton_append, Reader.read_append, hr, Option.bind_some, Reader.read_append, hbar,
    Option.bind_some, hs]

/-- Alternatives with bars between them denote the union of their languages. -/
theorem denotesBody_intercalate {α : Type} {items : List α} {source : α → List Char}
    {language : α → List Char → Prop} (h : ∀ item ∈ items, Denotes (source item) (language item))
    (hne : items ≠ []) :
    DenotesBody (['|'].intercalate (items.map source)) fun text =>
      ∃ item ∈ items, language item text := by
  induction items with
  | nil => exact absurd rfl hne
  | cons item items ih =>
    have hitem := h item List.mem_cons_self
    cases items with
    | nil => simpa using hitem.body
    | cons next items =>
      have hrest := ih (fun a ha => h a (List.mem_cons_of_mem _ ha)) (List.cons_ne_nil _ _)
      simpa [List.intercalate_cons_cons] using hitem.orElse hrest

/-- A group that does not capture. -/
theorem DenotesBody.group (h : DenotesBody source language) :
    Denotes (['(', '?', ':'] ++ source ++ [')']) language := by
  intro repeated branches before outer groups names strayBrace
  obtain ⟨r, level, groups', a, hr, hlevel, ha⟩ :=
    h [] ((⟨branches, before⟩, .bare) :: outer) groups names strayBrace
  refine ⟨false, [.group a], groups', ?_, ha.group.ofSequence_singleton⟩
  have hopen : (Reader.resting repeated ⟨branches, before⟩ outer groups names strayBrace).read
      ['(', '?', ':'] = some (.resting false ⟨[], []⟩ ((⟨branches, before⟩, .bare) :: outer) groups
        names strayBrace) := rfl
  have hclose : (Reader.resting r level ((⟨branches, before⟩, .bare) :: outer) groups' names
      strayBrace).read [')'] = some (.resting false ⟨branches, .group level.node :: before⟩ outer
        groups' names strayBrace) := rfl
  rw [Reader.read_append, Reader.read_append, hopen, Option.bind_some, hr, Option.bind_some, hclose,
    hlevel]
  rfl

end

/-! ### Classes and repetitions -/

/-- A class that lists its members denotes one character that belongs to one of them, or to none if
it is negated. -/
theorem denotes_class (negated : Bool) {items : List ClassItem} (hne : items ≠ []) :
    Denotes (classSource negated items) fun text =>
      ∃ x, (if negated then ¬∃ item ∈ items, item.Has x else ∃ item ∈ items, item.Has x) ∧
        text = [x] := by
  obtain ⟨members, hreads, hmembers⟩ := exists_reads_class negated hne
  exact (Denotes.of_reads hreads (Node.Denotes.set members).ofSequence_singleton).congr fun text =>
    by simp only [hmembers]

/-- The number that decimal digits stand for. -/
theorem Reader.number?_toDigits (n : Nat) : number? (Nat.toDigits 10 n).reverse = some n := by
  rw [number?, if_neg (by simp [Nat.toDigits_ne_nil]), List.foldr_reverse]
  exact congrArg some (Nat.ofDigitChars_toDigits (by decide) (by decide))

/-- A digit within the braces of a quantifier. -/
theorem Reader.count_digit {d : Char} (hd : d.isDigit = true) (reader : Reader)
    (chars : List Char) :
    reader.count chars (.plain d) = some { reader with mode := .count (d :: chars) } := by
  unfold count
  split
  case h_1 heq =>
    obtain rfl := Lexeme.plain.inj heq
    exact absurd hd (by decide)
  case h_2 heq =>
    obtain rfl := Lexeme.plain.inj heq
    rw [hd]
    rfl
  case h_3 hplain => exact absurd rfl (hplain d)

/-- Digits within the braces of a quantifier are collected. -/
theorem Reader.read_count {digits : List Char} (hdigits : ∀ c ∈ digits, c.isDigit = true)
    (chars : List Char) (level : Level) (outer : List (Level × GroupKind)) (groups : Nat)
    (names : List (List Char)) (strayBrace : Bool) (source : List Char) :
    ({ mode := .count chars, level, outer, groups, names, strayBrace } : Reader).read
        (digits ++ source) =
      ({ mode := .count (digits.reverse ++ chars), level, outer, groups, names, strayBrace } :
        Reader).read source := by
  induction digits generalizing chars with
  | nil => rfl
  | cons d digits ih =>
    have hd := hdigits d List.mem_cons_self
    have hescape : d ≠ '\\' := by
      rintro rfl
      exact absurd hd (by decide)
    rw [List.reverse_cons, List.append_assoc, List.singleton_append,
      ← ih (fun c hc => hdigits c (List.mem_cons_of_mem _ hc))]
    have hstep : ({ mode := .count chars, level, outer, groups, names, strayBrace } : Reader).step
        d = some { mode := .count (d :: chars), level, outer, groups, names, strayBrace } := by
      simp [step, Pending.next, Pending.fresh, hescape, feed, count_digit hd]
    rw [List.cons_append, read, List.foldlM_cons, hstep]
    rfl

/-- A piece with a fixed number of rounds. -/
theorem Reads.repeated {source : List Char} {a : Node} (h : Reads source [a]) (n : Nat) :
    Reads (source ++ '{' :: Nat.toDigits 10 n ++ ['}']) [.loop a n (some n) false] := by
  intro repeated branches before outer groups names strayBrace
  obtain ⟨r, hr⟩ := h repeated branches before outer groups names strayBrace
  refine ⟨true, ?_⟩
  have hdigits : ∀ c ∈ Nat.toDigits 10 n, c.isDigit = true := fun c hc =>
    Nat.isDigit_of_mem_toDigits (by decide) (by decide) hc
  -- Between the braces stands one number, which is both bounds.
  have hbounds : Reader.bounds? (Nat.toDigits 10 n).reverse = some (n, some n) := by
    have hcomma : ',' ∉ (Nat.toDigits 10 n).reverse := fun hmem =>
      absurd (hdigits ',' (List.mem_reverse.mp hmem)) (by decide)
    rw [Reader.bounds?, Text.pieces_of_not_mem hcomma]
    simp only [Reader.number?_toDigits, Option.bind_eq_bind, Option.bind_some, Option.pure_def]
  rw [List.append_assoc, Reader.read_append, hr, Option.bind_some]
  show ({ mode := .count [], level := ⟨branches, a :: before⟩, outer, groups, names,
          strayBrace } : Reader).read (Nat.toDigits 10 n ++ ['}']) = _
  rw [Reader.read_count hdigits, List.append_nil]
  simp [Reader.read, Reader.step, Pending.next, Pending.fresh, Reader.feed, Reader.count, hbounds,
    Reader.repeatLast, Reader.resting]

/-! ### Groups that capture -/

/-- A character either only goes on with an escape, or it completes a lexeme; an unescaped
question mark is then the character itself, outside of escapes. -/
theorem Pending.next_cases (pending : Pending) (c : Char) :
    (∃ later, pending.next c = ([], later) ∧ later ≠ .nothing ∧ c ≠ ')') ∨
      ∃ lexeme lexemes later, pending.next c = (lexeme :: lexemes, later) ∧
        (lexeme = .plain '?' → pending = .nothing ∧ c = '?') := by
  have hescape : Lexeme.ofEscape c ≠ .plain '?' := by
    unfold Lexeme.ofEscape Lexeme.ofPunctuation
    split <;> first | (intro h; cases h) | (split <;> intro h <;> cases h)
  have hhex : hexValue? ')' = none := by decide
  cases pending with
  | nothing =>
    rw [next, fresh]
    split
    case isTrue h => exact .inl ⟨_, rfl, by decide, by rw [h]; decide⟩
    case isFalse => exact .inr ⟨_, _, _, rfl, fun h => ⟨rfl, by simpa using h⟩⟩
  | backslash =>
    rw [next]
    split
    case isTrue h => exact .inl ⟨_, rfl, by decide, by rw [h]; decide⟩
    case isFalse =>
      split
      case isTrue h => exact .inl ⟨_, rfl, by simp, by rintro rfl; exact absurd h (by decide)⟩
      case isFalse => exact .inr ⟨_, _, _, rfl, fun h => absurd h hescape⟩
  | hex | hexDigit =>
    rw [next]
    split
    case h_1 heq =>
      first
        | exact .inl ⟨_, rfl, by simp, by rintro rfl; simp [hhex] at heq⟩
        | exact .inr ⟨_, _, _, rfl, by simp⟩
    case h_2 => exact .inr ⟨_, _, _, rfl, by simp⟩
  | ref =>
    rw [next]
    split
    case isTrue h => exact .inl ⟨_, rfl, by simp, by rintro rfl; exact absurd h (by decide)⟩
    case isFalse => exact .inr ⟨_, _, _, rfl, by simp⟩

/-- After a parenthesis, anything but a question mark belongs to the group that it opens. -/
theorem Reader.step_opened {reader : Reader} (hmode : reader.mode = .opened) {c : Char}
    {lexeme : Lexeme} {lexemes : List Lexeme} {later : Pending}
    (hnext : reader.pending.next c = (lexeme :: lexemes, later)) (hne : lexeme ≠ .plain '?') :
    reader.step c = reader.openCapture.step c := by
  have hnext' : reader.openCapture.pending.next c = (lexeme :: lexemes, later) := hnext
  have hfeed : ({ reader with pending := later } : Reader).feed lexeme =
      ({ reader.openCapture with pending := later } : Reader).feed lexeme := by
    simp only [feed, hmode, if_neg hne]
    rfl
  rw [step, step, hnext, hnext']
  simp only [List.foldlM_cons, hfeed]

theorem Reader.read_opened {reader : Reader} (hmode : reader.mode = .opened) {source : List Char}
    (hquestion : reader.pending = .nothing → source.head? ≠ some '?') :
    reader.read (source ++ [')']) = reader.openCapture.read (source ++ [')']) := by
  induction source generalizing reader with
  | nil =>
    obtain ⟨_, _, _, hne⟩ | ⟨lexeme, lexemes, later, hnext, hplain⟩ :=
      reader.pending.next_cases ')'
    · exact absurd rfl hne
    · have hne : lexeme ≠ .plain '?' := fun h => absurd (hplain h).2 (by decide)
      simp only [List.nil_append, read, List.foldlM_cons, step_opened hmode hnext hne]
  | cons c source ih =>
    rw [List.cons_append, read, read, List.foldlM_cons, List.foldlM_cons]
    obtain ⟨later, hnext, hlater, -⟩ | ⟨lexeme, lexemes, later, hnext, hplain⟩ :=
      reader.pending.next_cases c
    · -- Within an escape nothing is decided yet.
      have hnext' : reader.openCapture.pending.next c = ([], later) := hnext
      rw [step, step, hnext, hnext']
      exact @ih { reader with pending := later } hmode fun h => absurd h hlater
    · have hne : lexeme ≠ .plain '?' := by
        intro h
        obtain ⟨hpending, rfl⟩ := hplain h
        exact hquestion hpending rfl
      rw [step_opened hmode hnext hne]

/-- A group that captures. Its inside may not begin with a question mark. -/
theorem DenotesBody.capture {source : List Char} {language : List Char → Prop}
    (h : DenotesBody source language) (hquestion : source.head? ≠ some '?') :
    Denotes ('(' :: source ++ [')']) language := by
  intro repeated branches before outer groups names strayBrace
  obtain ⟨r, level, groups', a, hr, hlevel, ha⟩ :=
    h [] ((⟨branches, before⟩, .capture (groups + 1)) :: outer) (groups + 1) names strayBrace
  refine ⟨false, [.capture (groups + 1) a], groups', ?_,
    (ha.capture (groups + 1)).ofSequence_singleton⟩
  let opened : Reader :=
    { mode := .opened, level := ⟨branches, before⟩, outer, groups, names, strayBrace }
  have hopen : (Reader.resting repeated ⟨branches, before⟩ outer groups names strayBrace).read
      ('(' :: source ++ [')']) = opened.read (source ++ [')']) := rfl
  have hcapture : opened.openCapture = .resting false ⟨[], []⟩
      ((⟨branches, before⟩, .capture (groups + 1)) :: outer) (groups + 1) names strayBrace := rfl
  have hclose : (Reader.resting r level ((⟨branches, before⟩, .capture (groups + 1)) :: outer)
      groups' names strayBrace).read [')'] = some (.resting false
        ⟨branches, .capture (groups + 1) level.node :: before⟩ outer groups' names strayBrace) :=
    rfl
  rw [hopen, Reader.read_opened rfl fun _ => hquestion, hcapture, Reader.read_append, hr,
    Option.bind_some, hclose, hlevel]
  rfl

/-! ### Whole sources -/

/-- A tree spans a whole text exactly if the text belongs to its language. -/
theorem Node.Denotes.fills_iff {a : Node} {language : List Char → Prop} (h : a.Denotes language)
    (text : List Char) :
    (∃ d, a.Spans false ⟨[], text⟩ d ∧ d.after = []) ↔ language text := by
  simp only [h.spans_iff]
  constructor
  · rintro ⟨d, ⟨w, hw, hpass⟩, hend⟩
    have htext : text = w := by
      have := hpass.1
      rwa [hend, List.append_nil] at this
    exact htext ▸ hw
  · intro htext
    exact ⟨_, ⟨text, htext, Cursor.passes_of_after text (List.append_nil text).symm⟩, rfl⟩

/-- The source between anchors makes a program that matches the texts of the language. -/
theorem DenotesBody.exists_program {source : List Char} {language : List Char → Prop}
    (h : DenotesBody source language) :
    ∃ program, Program.ofSource? ('^' :: (['(', '?', ':'] ++ source ++ [')']) ++ ['$']) =
      some program ∧ ∀ text, program.isMatch text = true ↔ language text := by
  obtain ⟨r, level, groups, a, hr, hlevel, ha⟩ := h [] Reader.anchorLevel 0 [] false
  obtain rfl : level.node = a := hlevel
  refine ⟨_, Program.ofSource?_anchored hr ha.sound.1, fun text => ?_⟩
  exact (Program.isMatch_iff_of_anchored ⟨.anchored (.group level.node), groups, false⟩ rfl
    ha.sound.2 text).trans (ha.group.fills_iff text)

end PathGlob.Regex

namespace PathGlob

open Regex

/-- A translation whose output denotes a language can be compiled, and it accepts the texts of
the language. -/
theorem compile_of_denotes {translation : Pattern.Translation} {options : Options}
    {language : List Char → Prop} (h : DenotesBody translation.output language)
    (hnegated : translation.negated = false) (hcontains : options.contains = false)
    (hcase : options.noCase = false) :
    ∃ compiled, compile translation options = .ok compiled ∧ ∀ text,
      compiled.isMatch text = true ↔ language text := by
  obtain ⟨r, level, groups, a, hr, hlevel, ha⟩ := h [] Reader.anchorLevel 0 [] false
  obtain rfl : level.node = a := hlevel
  obtain ⟨compiled, hcompile, hmatch⟩ := compile_of_read hr ha.sound hnegated hcontains hcase
  exact ⟨compiled, hcompile, fun text => (hmatch text).trans (ha.fills_iff text)⟩

end PathGlob
