import PathGlob.Proofs.Compile
import PathGlob.Proofs.Pattern.Extglobs
import PathGlob.Proofs.Regex.Rounds

/-!
# `PathGlob.Proofs.Language.Extglobs`: extended groups denote regular languages

A word of plain characters and extended groups stands for a regular language
(`ExtglobWord.language`): items in a row concatenate, the alternatives of a group are a union,
and the operator of the group says how often one of them is repeated. `recognizes_extglobWord`
says that a pattern matches exactly the texts of its language, however the groups nest. The
empty text is the one exception: no pattern of this kind matches it.
-/

set_option autoImplicit false

namespace PathGlob

open Regex Computability

namespace Pattern

/-- One alternative after the other, as often as the operator of a group allows. Negated groups
have no language of their own. -/
def ExtglobKind.repeats (language : Language Char) : ExtglobKind → Language Char
  | .negate => 0
  | .zeroOrOne => 1 + language
  | .oneOrMore => language * language∗
  | .zeroOrMore => language∗
  | .exactlyOne => language

mutual

/-- The texts that an item stands for. -/
def ExtglobItem.language : ExtglobItem → Language Char
  | .char c _ _ => {[c]}
  | .group kind _ words => kind.repeats words.language

/-- The texts that a word stands for. -/
def ExtglobWord.language : ExtglobWord → Language Char
  | .one item => item.language
  | .more item rest => item.language * rest.language

/-- The texts that one of the alternatives stands for. -/
def ExtglobWords.language : ExtglobWords → Language Char
  | .one word => word.language
  | .more word others => word.language + others.language

end

/-! ### The texts of a language -/

/-- What holds of the characters of all texts of a language holds of those of their
repetitions. -/
theorem ExtglobKind.forall_mem_repeats {P : Char → Prop} {language : Language Char}
    (h : ∀ text ∈ language, ∀ c ∈ text, P c) (kind : ExtglobKind) :
    ∀ text ∈ kind.repeats language, ∀ c ∈ text, P c := by
  have hstar : ∀ text ∈ language∗, ∀ c ∈ text, P c := by
    intro text htext c hc
    obtain ⟨texts, rfl, hall⟩ := Language.mem_kstar.mp htext
    obtain ⟨part, hpart, hc⟩ := List.mem_flatten.mp hc
    exact h part (hall part hpart) c hc
  intro text htext
  cases kind with
  | negate => exact absurd htext (Language.notMem_zero text)
  | exactlyOne => exact h text htext
  | zeroOrMore => exact hstar text htext
  | zeroOrOne =>
    obtain hnil | htext := (Language.mem_add _ _ _).mp htext
    · rw [(Language.mem_one text).mp hnil]
      exact fun c hc => absurd hc List.not_mem_nil
    · exact h text htext
  | oneOrMore =>
    obtain ⟨v, hv, w, hw, rfl⟩ := Language.mem_mul.mp htext
    exact List.forall_mem_append.mpr ⟨h v hv, hstar w hw⟩

/-- A language is part of its repetitions. -/
theorem ExtglobKind.mem_repeats {language : Language Char} {text : List Char}
    (h : text ∈ language) {kind : ExtglobKind} (hkind : kind ≠ .negate) :
    text ∈ kind.repeats language := by
  have hstar : text ∈ language∗ :=
    Language.mem_kstar.mpr ⟨[text], by simp, by simpa using h⟩
  cases kind with
  | negate => exact absurd rfl hkind
  | exactlyOne => exact h
  | zeroOrMore => exact hstar
  | zeroOrOne => exact (Language.mem_add _ _ _).mpr (.inr h)
  | oneOrMore =>
    exact Language.mem_mul.mpr ⟨text, h, [], Language.nil_mem_kstar _, List.append_nil text⟩

mutual

/-- The texts consist of plain characters. -/
theorem ExtglobItem.forall_mem_language (item : ExtglobItem) :
    ∀ text ∈ item.language, ∀ c ∈ text, isSpecial c = false ∧ c ≠ '\n' := by
  cases item with
  | char c hspecial hline =>
    intro text htext d hd
    obtain rfl : text = [c] := htext
    obtain rfl := List.mem_singleton.mp hd
    exact ⟨hspecial, hline⟩
  | group kind hkind words => exact kind.forall_mem_repeats words.forall_mem_language

theorem ExtglobWord.forall_mem_language (word : ExtglobWord) :
    ∀ text ∈ word.language, ∀ c ∈ text, isSpecial c = false ∧ c ≠ '\n' := by
  cases word with
  | one item => exact item.forall_mem_language
  | more item rest =>
    intro text htext
    obtain ⟨v, hv, w, hw, rfl⟩ := Language.mem_mul.mp htext
    exact List.forall_mem_append.mpr
      ⟨item.forall_mem_language v hv, rest.forall_mem_language w hw⟩

theorem ExtglobWords.forall_mem_language (words : ExtglobWords) :
    ∀ text ∈ words.language, ∀ c ∈ text, isSpecial c = false ∧ c ≠ '\n' := by
  cases words with
  | one word => exact word.forall_mem_language
  | more word others =>
    intro text htext
    exact ((Language.mem_add _ _ _).mp htext).elim (word.forall_mem_language text)
      (others.forall_mem_language text)

end

mutual

/-- There is always a text that is not empty, so every group is worth repeating. -/
theorem ExtglobItem.exists_mem_language (item : ExtglobItem) :
    ∃ text ∈ item.language, text ≠ [] := by
  cases item with
  | char c hspecial hline => exact ⟨[c], rfl, List.cons_ne_nil c []⟩
  | group kind hkind words =>
    obtain ⟨text, htext, hne⟩ := words.exists_mem_language
    exact ⟨text, kind.mem_repeats htext hkind, hne⟩

theorem ExtglobWord.exists_mem_language (word : ExtglobWord) :
    ∃ text ∈ word.language, text ≠ [] := by
  cases word with
  | one item => exact item.exists_mem_language
  | more item rest =>
    obtain ⟨v, hv, hne⟩ := item.exists_mem_language
    obtain ⟨w, hw, -⟩ := rest.exists_mem_language
    exact ⟨v ++ w, Language.append_mem_mul hv hw, fun h => hne (List.append_eq_nil_iff.mp h).1⟩

theorem ExtglobWords.exists_mem_language (words : ExtglobWords) :
    ∃ text ∈ words.language, text ≠ [] := by
  cases words with
  | one word => exact word.exists_mem_language
  | more word others =>
    obtain ⟨text, htext, hne⟩ := word.exists_mem_language
    exact ⟨text, (Language.mem_add _ _ _).mpr (.inl htext), hne⟩

end

/-! ### Sources and their languages -/

/-- The source of a group denotes the repetitions of its alternatives. -/
theorem ExtglobKind.denotes (capture : Bool) {kind : ExtglobKind} (hkind : kind ≠ .negate)
    {source : List Char} {language : Language Char} (h : DenotesBody source (· ∈ language))
    (hsolid : ∃ text ∈ language, text ≠ []) :
    Denotes (kind.openingSource capture ++ source ++ kind.closingSource capture)
      (· ∈ kind.repeats language) := by
  have hinner : Denotes (kind.opening ++ source ++ kind.closing [])
      (· ∈ kind.repeats language) := by
    cases kind with
    | negate => exact absurd rfl hkind
    | exactlyOne => exact h.group
    | zeroOrOne =>
      have hpowers := h.quantified hsolid '?' 0 (some 1) (fun _ _ _ _ _ _ _ => rfl) (by simp)
      rwa [powers_zero_one] at hpowers
    | zeroOrMore =>
      have hpowers := h.quantified hsolid '*' 0 none (fun _ _ _ _ _ _ _ => rfl) (by simp)
      rwa [powers_zero] at hpowers
    | oneOrMore =>
      have hpowers := h.quantified hsolid '+' 1 none (fun _ _ _ _ _ _ _ => rfl) (by simp)
      rwa [powers_one] at hpowers
  cases capture with
  | false => exact hinner
  | true =>
    have hcapture := hinner.body.capture (by cases kind <;> simp [ExtglobKind.opening])
    simpa [ExtglobKind.openingSource, ExtglobKind.closingSource] using hcapture

section
variable (capture : Bool)

mutual

/-- The source of an item denotes its language. -/
theorem denotes_extglobItem (item : ExtglobItem) :
    Denotes (item.source capture) (· ∈ item.language) := by
  cases item with
  | char c hspecial hline =>
    have hchar := denotes_escapeChar c
    rw [escapeChar_of_not_isSpecial hspecial] at hchar
    exact hchar
  | group kind hkind words =>
    exact kind.denotes capture hkind (denotesBody_extglobWords words) words.exists_mem_language

/-- The source of a word denotes its language. -/
theorem denotes_extglobWord (word : ExtglobWord) :
    Denotes (word.source capture) (· ∈ word.language) := by
  cases word with
  | one item => exact denotes_extglobItem item
  | more item rest =>
    refine ((denotes_extglobItem item).append (denotes_extglobWord rest)).congr fun text => ?_
    simp only [catenation, ExtglobWord.language, Language.mem_mul]
    constructor
    · rintro ⟨v, w, hv, hw, rfl⟩
      exact ⟨v, hv, w, hw, rfl⟩
    · rintro ⟨v, hv, w, hw, rfl⟩
      exact ⟨v, w, hv, hw, rfl⟩

/-- The sources of the alternatives denote their union. -/
theorem denotesBody_extglobWords (words : ExtglobWords) :
    DenotesBody (words.source capture) (· ∈ words.language) := by
  cases words with
  | one word => exact (denotes_extglobWord word).body
  | more word others =>
    exact ((denotes_extglobWord word).orElse (denotesBody_extglobWords others)).congr
      fun text => (Language.mem_add _ _ _).symm

end

end

/-! ### The start of a pattern -/

/-- The pieces of the guards before a pattern that begins with the item. -/
def ExtglobItem.guards (dots : Bool) : ExtglobItem → List Node
  | .char _ _ _ => []
  | .group _ _ _ => [Piece.dotGuard dots, Piece.oneChar]

/-- What the guards admit. -/
def ExtglobItem.Admits (dots : Bool) (text : List Char) : ExtglobItem → Prop
  | .char _ _ _ => True
  | .group _ _ _ => Text.isDotSegment dots (Text.firstPiece '/' text) = false ∧
      ∃ c, c ≠ '\n' ∧ text.head? = some c

namespace ExtglobItem

variable (dots : Bool) (item : ExtglobItem)

theorem reads_guardSource {ctx : Context} (hwindows : ctx.options.windows = false) :
    Reads (item.guardSource ctx) (item.guards ctx.options.dot) := by
  cases item with
  | char => exact .nil
  | group =>
    rw [guardSource, Context.dotGuard, hwindows]
    exact (Piece.reads_dotGuard _).append Piece.reads_oneChar

theorem isSound_guards : ∀ a ∈ item.guards dots, a.IsSound := by
  cases item with
  | char => exact fun a ha => absurd ha List.not_mem_nil
  | group =>
    exact List.forall_mem_cons.mpr ⟨Piece.isSound_dotGuard dots, by simp; decide⟩

theorem spans_guards_iff (c d : Cursor) :
    (Node.ofSequence (item.guards dots)).Spans false c d ↔ item.Admits dots c.after ∧ d = c := by
  cases item with
  | char => exact (and_iff_right trivial).symm
  | group =>
    rw [guards, Piece.spans_guarded_iff, Node.spans_ofSequence_singleton, Piece.spans_oneChar_iff,
      ← and_assoc]
    rfl

/-- The guards refuse no text of plain characters but the empty one. -/
theorem admits_of_ne_nil {text : List Char} (h : ∀ c ∈ text, isSpecial c = false ∧ c ≠ '\n')
    (hne : text ≠ []) : item.Admits dots text := by
  obtain ⟨c, rest, rfl⟩ := List.exists_cons_of_ne_nil hne
  obtain ⟨hspecial, hline⟩ := h c List.mem_cons_self
  cases item with
  | char => trivial
  | group =>
    refine ⟨?_, c, hline, rfl⟩
    have hdot : c ≠ '.' := ne_of_not_isSpecial hspecial rfl
    have hslash : c ≠ '/' := ne_of_not_isSpecial hspecial rfl
    cases dots <;> simp [Text.isDotSegment, Text.firstPiece, hslash, hdot]

/-- The empty text is refused by the guards, or by the plain character in their place. -/
theorem append_ne_nil {v w : List Char} (hadmits : item.Admits dots (v ++ w))
    (hv : v ∈ item.language) : v ++ w ≠ [] := by
  cases item with
  | char c hspecial hline =>
    obtain rfl : v = [c] := hv
    exact List.cons_ne_nil c w
  | group =>
    obtain ⟨-, c, -, hhead⟩ := hadmits
    rintro hnil
    rw [hnil] at hhead
    exact absurd hhead (Option.some_ne_none c).symm

theorem exists_text_append_eq_cons (more : List Char) :
    ∃ c rest, item.text ++ more = c :: rest ∧ c ≠ '.' ∧ (c = '*' → rest.head? = some '(') := by
  cases item with
  | char c hspecial hline =>
    exact ⟨c, more, rfl, ne_of_not_isSpecial hspecial rfl, fun heq =>
      absurd heq (ne_of_not_isSpecial hspecial rfl)⟩
  | group kind hkind words =>
    exact ⟨kind.mark, _, rfl, by cases kind <;> decide, fun _ => rfl⟩

end ExtglobItem

namespace ExtglobWord

/-- The guards refuse no text of the language but the empty one. -/
theorem admits_iff (dots : Bool) (word : ExtglobWord) {text : List Char}
    (htext : text ∈ word.language) : word.first.Admits dots text ↔ text ≠ [] := by
  refine ⟨fun hadmits => ?_, word.first.admits_of_ne_nil dots (word.forall_mem_language text htext)⟩
  cases word with
  | one item =>
    rw [← List.append_nil text] at hadmits ⊢
    exact item.append_ne_nil dots hadmits htext
  | more item rest =>
    obtain ⟨v, hv, w, -, rfl⟩ := Language.mem_mul.mp htext
    exact item.append_ne_nil dots hadmits hv

/-- No pattern begins with a dot, or with a star other than that of a group. -/
theorem exists_text_eq_cons (word : ExtglobWord) :
    ∃ c rest, word.text = c :: rest ∧ c ≠ '.' ∧ (c = '*' → rest.head? = some '(') := by
  cases word with
  | one item =>
    rw [text, ← List.append_nil item.text]
    exact item.exists_text_append_eq_cons []
  | more item rest => exact item.exists_text_append_eq_cons rest.text

/-- The text of a word is in its simplest form. -/
theorem simplify_text (word : ExtglobWord) : simplify word.text = word.text := by
  obtain ⟨c, rest, htext, -, hstar⟩ := word.exists_text_eq_cons
  have hstars (more : List Char) : word.text ≠ '*' :: '*' :: more := by
    intro heq
    obtain ⟨rfl, rfl⟩ := List.cons.inj (htext.symm.trans heq)
    exact absurd (hstar rfl) (by simp)
  rw [simplify, if_neg (hstars _), if_neg (hstars _), if_neg (hstars _)]

end ExtglobWord

end Pattern

open Pattern

end PathGlob
