import PathGlob.Proofs.Pattern.NegatedBrackets
import PathGlob.Proofs.Range.Compact
import PathGlob.Proofs.Range.Progression

/-!
# `PathGlob.Proofs.Range.Values`: the texts of a range

The values of a range are texts (`Operands.HasValue`). A range of integers has their numerals,
filled up with zeros to the length of the longer operand if one of the two leads with a zero. A range
of characters has the characters at the code points that are no surrogates.

A range that is listed denotes exactly its values (`denotes_expand`). Integers are alternatives, and
so are characters, unless the step is one. Then they are a class, and there a surrogate is passed
over of its own accord, since no character has it as its code point. A range with too many values
that is padded, or whose step is not one, denotes its operands with dots between them
(`denotes_expand_ownText`).
-/

set_option autoImplicit false

namespace PathGlob.Range

open Regex

/-- The words with two dots between them. -/
def dotted (words : List (List Char)) : List Char := ['.', '.'].intercalate words

/-- The numeral of an integer, with as many zeros behind its sign. -/
def paddedNumeral (zeros : Nat) (n : Int) : List Char :=
  (if n < 0 then ['-'] else []) ++ List.replicate zeros '0' ++ Nat.toDigits 10 n.natAbs

/-- The numeral has more than one digit, and the first one is a zero. -/
def leadsWithZero : List Char → Bool
  | '-' :: '0' :: _ :: _ => true
  | '0' :: _ :: _ => true
  | _ => false

namespace Operands

/-- One of the two ends leads with a zero. -/
def isFilled (operands : Operands) : Bool :=
  leadsWithZero operands.first || leadsWithZero operands.last

/-- The length that numerals are filled up to: that of the longer end, if one of the two leads with
a zero. -/
def fullLength (operands : Operands) : Nat :=
  if operands.isFilled then max operands.first.length operands.last.length else 0

/-- The operands, as they stand between the dots. -/
def texts (operands : Operands) : List (List Char) :=
  operands.first :: operands.last :: operands.step.toList

/-- How a number is written: as a numeral, or as the character with this code point. -/
def Shows (operands : Operands) (n : Int) (text : List Char) : Ends → Prop
  | .integers _ _ => text = paddedNumeral (operands.fullLength - (toString n).length) n
  | .characters _ _ => ∃ c : Char, (c.toNat : Int) = n ∧ text = [c]

/-- The text is that of a value: of a number that is reached from the first end in some steps
without passing the last one. -/
def HasValue (operands : Operands) (text : List Char) : Prop :=
  ∃ ends, operands.ends? = some ends ∧ ∃ k, k * operands.stepSize ≤ ends.distance ∧
    operands.Shows (valueAt ends.first ends.last operands.stepSize k) text ends

end Operands

/-! ### Numerals -/

/-- An integer is written with digits, and perhaps a sign before them. -/
theorem exists_digits_of_parseInt? {text : List Char} {n : Int} (h : parseInt? text = some n) :
    ∃ digits, (text = '-' :: digits ∨ text = digits) ∧ digits ≠ [] ∧
      ∀ c ∈ digits, c.isDigit = true := by
  have hdigits {digits : List Char} {value : Option Int}
      (h : (if digits.isEmpty || !digits.all Char.isDigit then none else value) = some n) :
      digits ≠ [] ∧ ∀ c ∈ digits, c.isDigit = true := by
    split at h
    case isTrue => cases h
    case isFalse hall => simpa using hall
  unfold parseInt? at h
  dsimp only at h
  split at h
  case h_1 digits => exact ⟨digits, .inl rfl, hdigits h⟩
  case h_2 => exact ⟨text, .inr rfl, hdigits h⟩

/-- Only one sign stands before the digits of an integer. -/
theorem isPadded_eq_leadsWithZero {text : List Char} {n : Int} (h : parseInt? text = some n) :
    Operands.isPadded text = leadsWithZero text := by
  obtain ⟨digits, htext, hne, hdigits⟩ := exists_digits_of_parseInt? h
  obtain ⟨d, digits, rfl⟩ := List.exists_cons_of_ne_nil hne
  have hdash : d ≠ '-' := by
    rintro rfl
    exact absurd (hdigits '-' List.mem_cons_self) (by decide)
  have hdrop : text.dropWhile (· = '-') = d :: digits := by
    obtain rfl | rfl := htext <;> simp [hdash]
  rw [Operands.isPadded, hdrop]
  cases digits with
  | nil => obtain rfl | rfl := htext <;> simp [leadsWithZero]
  | cons e digits =>
    by_cases hzero : d = '0'
    · subst hzero
      obtain rfl | rfl := htext <;> rfl
    · obtain rfl | rfl := htext <;> simp [leadsWithZero, hzero, hdash]

theorem valueText_none_eq (n : Int) : valueText none n = paddedNumeral 0 n := by
  unfold valueText paddedNumeral
  dsimp only
  split <;> rfl

theorem length_toString (n : Int) : (toString n).length = (paddedNumeral 0 n).length := by
  rw [← valueText_none_eq, valueText_none, String.length_toList]

/-- Values are filled up behind their sign. -/
theorem valueText_some (width : Nat) (n : Int) :
    valueText (some width) n = paddedNumeral (width - (toString n).length) n := by
  rw [length_toString]
  unfold valueText paddedNumeral fillLeft
  dsimp only
  split
  · have hlength : width - (['-'] ++ List.replicate 0 '0' ++ Nat.toDigits 10 n.natAbs).length =
        width - 1 - (Nat.toDigits 10 n.natAbs).length := by
      simp only [List.length_append, List.length_replicate, List.length_singleton]
      omega
    rw [hlength]
    rfl
  · rfl

section
variable {operands : Operands} {ends : Ends} {first last : Int}

theorem parseInt?_of_ends? (h : operands.ends? = some (.integers first last)) :
    parseInt? operands.first = some first ∧ parseInt? operands.last = some last := by
  unfold Operands.ends? at h
  split at h
  case h_1 hfirst hlast =>
    cases h
    exact ⟨hfirst, hlast⟩
  case h_2 =>
    split at h <;> cases h

theorem width?_eq (h : operands.ends? = some (.integers first last)) :
    operands.width? = if operands.isFilled then
      some (max operands.first.length operands.last.length) else none := by
  obtain ⟨hfirst, hlast⟩ := parseInt?_of_ends? h
  rw [Operands.width?, isPadded_eq_leadsWithZero hfirst, isPadded_eq_leadsWithZero hlast,
    Operands.isFilled]

/-- The values of a range of integers are written as its operands ask for. -/
theorem valueText_width? (h : operands.ends? = some (.integers first last)) (n : Int) :
    valueText operands.width? n =
      paddedNumeral (operands.fullLength - (toString n).length) n := by
  rw [width?_eq h, Operands.fullLength]
  split
  · exact valueText_some _ n
  · rw [Nat.zero_sub]
    exact valueText_none_eq n

/-! ### Values -/

/-- The values are the numbers that are reached without passing the last end. -/
theorem mem_values_iff (h : operands.ends? = some ends) (hstep : operands.stepSize < 2 ^ 63)
    (hcount : ¬(ends.distance = 2 ^ 64 - 1 ∧ operands.stepSize = 1)) {n : Int} :
    n ∈ values ends.first ends.last operands.stride ↔
      ∃ k, k * operands.stepSize ≤ ends.distance ∧
        n = valueAt ends.first ends.last operands.stepSize k := by
  have hcount := (toNat_valueCount_eq_iff h).mpr hcount
  have hfits (k : Nat) : k * operands.stepSize ≤ ends.distance ↔
      k ≤ ends.distance / operands.stepSize := (Nat.le_div_iff_mul_le operands.stepSize_pos).symm
  have hlength : (values ends.first ends.last operands.stride).length =
      ends.distance / operands.stepSize + 1 := by
    rw [← hcount]
    exact length_progression _ _ _
  rw [List.mem_iff_getElem?]
  constructor
  · rintro ⟨k, hk⟩
    have hlt := (List.getElem?_eq_some_iff.mp hk).1
    have hle : k ≤ ends.distance / operands.stepSize := by omega
    rw [getElem?_values h hstep hle (by omega)] at hk
    exact ⟨k, (hfits k).mpr hle, (Option.some.inj hk).symm⟩
  · rintro ⟨k, hk, rfl⟩
    exact ⟨k, getElem?_values h hstep ((hfits k).mp hk) (by have := (hfits k).mp hk; omega)⟩

/-- A character is at its code point, and at a surrogate there is none. -/
theorem charOfInt?_eq_some_iff {code : Int} {c : Char} :
    charOfInt? code = some c ↔ (c.toNat : Int) = code := by
  have hvalid : c.toNat.isValidChar := c.valid
  unfold charOfInt?
  dsimp only
  constructor
  · intro h
    split at h
    case isTrue hcode =>
      obtain ⟨hnonneg, hcode⟩ : 0 ≤ code ∧ code.toNat.isValidChar := by
        rwa [Bool.and_eq_true, decide_eq_true_eq, decide_eq_true_eq] at hcode
      have htoNat : (Char.ofNat code.toNat).toNat = code.toNat := by
        rw [Char.ofNat, dif_pos hcode]
        rfl
      rw [← Option.some.inj h, htoNat]
      omega
    case isFalse => cases h
  · rintro rfl
    simp [hvalid]

end

/-! ### Sources -/

/-- A group denotes what its inside does, whether or not it captures. -/
theorem denotes_openGroup (capture : Bool) {source : List Char} {language : List Char → Prop}
    (h : DenotesBody source language) (hquestion : source.head? ≠ some '?') :
    Denotes (Fragment.openGroup capture ++ source ++ [')']) language := by
  cases capture with
  | true => exact h.capture hquestion
  | false => exact h.group

/-- Alternatives denote the union of what they denote. -/
theorem denotes_alternatives (capture : Bool) {α : Type} {items : List α}
    {source : α → List Char} {language : α → List Char → Prop}
    (h : ∀ item ∈ items, Denotes (source item) (language item) ∧ (source item).head? ≠ some '?')
    (hne : items ≠ []) :
    Denotes (alternatives capture (items.map source)) fun text =>
      ∃ item ∈ items, language item text := by
  refine denotes_openGroup capture (denotesBody_intercalate (fun item hitem => (h item hitem).1) hne)
    ?_
  obtain ⟨item, items, rfl⟩ := List.exists_cons_of_ne_nil hne
  have hhead := (h item List.mem_cons_self).2
  cases items with
  | nil => simpa using hhead
  | cons next items =>
    rw [List.map_cons, List.map_cons, List.intercalate_cons_cons, List.append_assoc,
      List.head?_append]
    cases hsource : (source item).head? with
    | none => simp
    | some c => rwa [hsource] at hhead

/-- A numeral has no characters with a meaning. -/
theorem denotes_paddedNumeral (zeros : Nat) (n : Int) :
    Denotes (paddedNumeral zeros n) (· = paddedNumeral zeros n) ∧
      (paddedNumeral zeros n).head? ≠ some '?' := by
  have hplain : ∀ c ∈ paddedNumeral zeros n, isMeta c = false := by
    intro c hc
    simp only [paddedNumeral, List.mem_append, List.mem_replicate] at hc
    obtain (hsign | ⟨-, rfl⟩) | hdigit := hc
    · split at hsign
      · obtain rfl := List.mem_singleton.mp hsign
        decide
      · exact absurd hsign List.not_mem_nil
    · decide
    · exact (isMeta_of_isDigit (isDigit_of_mem_toDigits hdigit)).1
  exact ⟨denotes_plain hplain, fun hhead =>
    absurd (hplain '?' (List.mem_of_mem_head? hhead)) (by decide)⟩

theorem head?_escapeChar_ne (c : Char) : (escapeChar c).head? ≠ some '?' := by
  unfold escapeChar
  split
  case isTrue => simp
  case isFalse hmeta =>
    intro h
    obtain rfl := Option.some.inj h
    exact hmeta rfl

/-- A character of a class is held back first. -/
theorem next_opened_char (c : Char) :
    ({} : SetReader).next (if isClassMeta c then .literal c else .plain c) =
      .more (.gathering false .none (some c)) := by
  cases hc : isClassMeta c with
  | true => rfl
  | false => exact SetReader.begins_opened c hc

/-- Between brackets, a character and a dash before another one make a span. -/
theorem next_spanning_char {low high : Char} (h : low ≤ high) :
    ({ mode := .spanning low } : SetReader).next
        (if isClassMeta high then .literal high else .plain high) =
      .more (.gathering false (.union .none (.span low high)) none) := by
  cases hc : isClassMeta high with
  | true => simp [SetReader.next, SetReader.span, h, SetReader.add, SetLevel.add,
      SetReader.gathering]
  | false => simp [SetReader.next, SetReader.span, h, ne_of_isClassMeta hc, SetReader.add,
      SetLevel.add, SetReader.gathering]

/-- A class of the characters from one to a greater one is read as the set of these characters. -/
theorem exists_reads_span {low high : Char} (hle : low ≤ high) :
    ∃ members, Reads ('[' :: escapeClassChar low ++
        (if low = high then [] else '-' :: escapeClassChar high) ++ [']']) [.set members] ∧
      ∀ x, members.has false x = true ↔ low ≤ x ∧ x ≤ high := by
  -- The characters and the dash are read one after the other, and the bracket closes the class.
  have hreads (items : List Pattern.BodyChar) (members : CharSet) (held? : Option Char)
      (hrun : ({} : SetReader).run? (items.map (Pattern.BodyChar.lexeme false)) =
        some (.gathering false members held?)) :
      Reads ('[' :: items.flatMap (Pattern.BodyChar.source false) ++ [']'])
        [.set (SetReader.settled members held?)] := by
    intro repeated branches before outer groups names strayBrace
    refine ⟨false, ?_⟩
    show (Reader.inClass {} ⟨branches, before⟩ outer groups names strayBrace).read
      (items.flatMap (Pattern.BodyChar.source false) ++ [']']) = _
    rw [read_spelled (fun item _ => item.spells_source) fun item _ => item.lexeme_cases.1, hrun,
      Option.bind_some,
      SetReader.read_of_next_close (SetReader.next_gathering_close false members held?)]
    rfl
  split
  case isTrue heq =>
    subst heq
    refine ⟨SetReader.settled .none (some low), ?_, fun x => ?_⟩
    · have hlow := hreads [.char low] .none (some low) (by
        simp [SetReader.run?, Pattern.BodyChar.lexeme, next_opened_char, SetOutcome.reader?])
      simpa [Pattern.BodyChar.source] using hlow
    · simp [SetReader.settled, CharSet.has, CharSet.single]
  case isFalse =>
    refine ⟨SetReader.settled (.union .none (.span low high)) none, ?_, fun x => ?_⟩
    · have hdash : (SetReader.gathering false .none (some low)).next (.plain '-') =
          .more { mode := .spanning low } := rfl
      have hspan := hreads [.char low, .dash, .char high]
        (.union .none (.span low high)) none (by
          simp [SetReader.run?, Pattern.BodyChar.lexeme, next_opened_char, SetOutcome.reader?,
            hdash, next_spanning_char hle])
      simpa [Pattern.BodyChar.source] using hspan
    · simp [SetReader.settled, CharSet.has]

/-- Between two characters, in either order, a class denotes one character. -/
theorem denotes_classBetween (first last : Char) :
    Denotes (classBetween first last) fun text =>
      ∃ c, ((first ≤ c ∧ c ≤ last) ∨ (last ≤ c ∧ c ≤ first)) ∧ text = [c] := by
  have hspan {low high : Char} (hle : low ≤ high) :
      Denotes ('[' :: escapeClassChar low ++
        (if low = high then [] else '-' :: escapeClassChar high) ++ [']']) fun text =>
          ∃ c, (low ≤ c ∧ c ≤ high) ∧ text = [c] := by
    obtain ⟨members, hreads, hhas⟩ := exists_reads_span hle
    exact (Denotes.of_reads hreads (Node.Denotes.set members).ofSequence_singleton).congr
      fun text => by simp only [hhas]
  unfold classBetween
  by_cases hle : first ≤ last
  · rw [if_pos hle]
    refine (hspan hle).congr fun text => exists_congr fun c => and_congr_left fun _ => ?_
    exact ⟨.inl, fun h => h.elim id fun h =>
      ⟨Char.le_trans hle h.1, Char.le_trans h.2 hle⟩⟩
  · rw [if_neg hle]
    have hle : last ≤ first := (Char.le_total first last).resolve_left hle
    refine (hspan hle).congr fun text => exists_congr fun c => and_congr_left fun _ => ?_
    exact ⟨.inr, fun h => h.elim (fun h => ⟨Char.le_trans hle h.1, Char.le_trans h.2 hle⟩) id⟩

/-! ### Ranges -/

section
variable {operands : Operands} {ends : Ends} {first last : Int} (capture : Bool)

theorem stride_eq_one_iff : operands.stride = 1 ↔ operands.stepSize = 1 := by
  rw [← operands.toNat_stride, ← UInt64.toNat_inj]
  rfl

/-- A range of integers that are listed. -/
theorem denotes_expandIntegers (h : operands.ends? = some (.integers first last))
    (hstep : operands.stepSize < 2 ^ 63)
    (hfew : (Ends.integers first last).distance / operands.stepSize + 1 ≤ listLimit.toNat) :
    Denotes (expandIntegers operands capture first last) operands.HasValue := by
  have hlimit : listLimit.toNat = 1000 := rfl
  have hcount : ¬((Ends.integers first last).distance = 2 ^ 64 - 1 ∧ operands.stepSize = 1) := by
    rintro ⟨hdistance, hone⟩
    rw [hdistance, hone] at hfew
    omega
  have hlisted : ¬ listLimit < valueCount first last operands.stride := by
    rw [UInt64.lt_iff_toNat_lt, Nat.not_lt]
    exact ((toNat_valueCount_eq_iff h).mpr hcount).trans_le hfew
  have hmem {n : Int} : n ∈ values first last operands.stride ↔ _ := mem_values_iff h hstep hcount
  have hne : values first last operands.stride ≠ [] :=
    List.ne_nil_of_mem (hmem.mpr ⟨0, by omega, rfl⟩)
  have hsource : (values first last operands.stride).map (valueText operands.width?) =
      (values first last operands.stride).map fun n =>
        paddedNumeral (operands.fullLength - (toString n).length) n :=
    List.map_congr_left fun n _ => valueText_width? h n
  unfold expandIntegers
  rw [if_neg hlisted, hsource]
  refine (denotes_alternatives capture (fun n _ => denotes_paddedNumeral _ n) hne).congr
    fun text => ?_
  constructor
  · rintro ⟨n, hn, htext⟩
    obtain ⟨k, hk, rfl⟩ := hmem.mp hn
    exact ⟨_, h, k, hk, htext⟩
  · rintro ⟨_, hends, k, hk, htext⟩
    obtain rfl := Option.some.inj (h.symm.trans hends)
    exact ⟨_, hmem.mpr ⟨k, hk, rfl⟩, htext⟩

/-- A range of characters is a class or a list, depending on its step. -/
theorem denotes_expandCharacters {first last : Char}
    (h : operands.ends? = some (.characters first last)) (hstep : operands.stepSize < 2 ^ 63) :
    Denotes (expandCharacters operands capture first last) operands.HasValue := by
  have hvalue (text : List Char) : operands.HasValue text ↔
      ∃ c : Char, (∃ k, k * operands.stepSize ≤ (Ends.characters first last).distance ∧
        (c.toNat : Int) = valueAt first.toNat last.toNat operands.stepSize k) ∧ text = [c] := by
    constructor
    · rintro ⟨_, hends, k, hk, hshows⟩
      obtain rfl := Option.some.inj (h.symm.trans hends)
      obtain ⟨c, hc, htext⟩ := hshows
      exact ⟨c, ⟨k, hk, hc⟩, htext⟩
    · rintro ⟨c, ⟨k, hk, hc⟩, htext⟩
      exact ⟨_, h, k, hk, c, hc, htext⟩
  unfold expandCharacters
  dsimp only
  split
  case isTrue hone =>
    have hone := stride_eq_one_iff.mp hone
    have hhead : (classBetween first last).head? ≠ some '?' := by
      simp [classBetween]
    refine (denotes_openGroup capture (denotes_classBetween first last).body hhead).congr
      fun text => ?_
    rw [hvalue, hone]
    refine exists_congr fun c => and_congr_left fun _ => ?_
    have hle (a b : Char) : a ≤ b ↔ a.toNat ≤ b.toNat := Iff.rfl
    simp only [hle, Ends.distance, Ends.first, Ends.last, valueAt, Nat.mul_one]
    constructor
    · intro hbetween
      exact ⟨((c.toNat : Int) - first.toNat).natAbs, by omega, by split <;> omega⟩
    · rintro ⟨k, hk, hc⟩
      split at hc <;> omega
  case isFalse hone =>
    have hcount : ¬((Ends.characters first last).distance = 2 ^ 64 - 1 ∧ operands.stepSize = 1) :=
      fun hwhole => hone (stride_eq_one_iff.mpr hwhole.2)
    have hmem {c : Char} :
        c ∈ (values first.toNat last.toNat operands.stride).filterMap charOfInt? ↔
          ∃ k, k * operands.stepSize ≤ (Ends.characters first last).distance ∧
            (c.toNat : Int) = valueAt first.toNat last.toNat operands.stepSize k := by
      simp only [List.mem_filterMap, charOfInt?_eq_some_iff, exists_eq_right']
      exact mem_values_iff h hstep hcount
    have hne : (values first.toNat last.toNat operands.stride).filterMap charOfInt? ≠ [] :=
      List.ne_nil_of_mem (hmem (c := first).mpr ⟨0, by omega, by simp [valueAt]⟩)
    refine (denotes_alternatives capture
      (fun c _ => ⟨denotes_escapeChar c, head?_escapeChar_ne c⟩) hne).congr fun text => ?_
    simp only [hvalue, hmem]

/-- A range that is listed denotes its values. -/
theorem denotes_expand (h : operands.ends? = some ends) (hstep : operands.stepSize < 2 ^ 63)
    (hfew : ∀ first last, ends = .integers first last →
      ends.distance / operands.stepSize + 1 ≤ listLimit.toNat) :
    Denotes (expand operands capture) operands.HasValue := by
  unfold expand
  rw [h]
  cases ends with
  | integers first last => exact denotes_expandIntegers capture h hstep (hfew first last rfl)
  | characters first last => exact denotes_expandCharacters capture h hstep

/-! ### Ranges that are text -/

theorem texts_of_ofTexts? {words : List (List Char)} (h : Operands.ofTexts? words = some operands) :
    operands.texts = words := by
  unfold Operands.ofTexts? at h
  split at h
  case h_1 =>
    obtain ⟨_, -, rfl⟩ := Option.map_eq_some_iff.mp h
    rfl
  case h_2 =>
    dsimp only at h
    split at h
    case isTrue => cases h
    case isFalse =>
      obtain ⟨_, -, rfl⟩ := Option.map_eq_some_iff.mp h
      rfl
  case h_3 => cases h

theorem ownText_eq_escape (operands : Operands) :
    ownText operands = escape (dotted operands.texts) := by
  have hdot : escapeChar '.' = ['\\', '.'] := rfl
  unfold ownText Operands.texts dotted escape
  cases operands.step with
  | none => simp [List.intercalate_cons_cons, hdot]
  | some step => simp [List.intercalate_cons_cons, hdot]

/-- A range of too many integers that is filled up, or whose step is not one, denotes its operands
with dots between them. Only if its count is cut off does it denote the empty text. -/
theorem denotes_expand_ownText (h : operands.ends? = some (.integers first last))
    (hmany : listLimit.toNat < (Ends.integers first last).distance / operands.stepSize + 1)
    (hshape : operands.isFilled = true ∨ operands.stepSize ≠ 1) :
    Denotes (expand operands capture)
      (· = if (Ends.integers first last).distance = 2 ^ 64 - 1 ∧ operands.stepSize = 1 then []
        else dotted operands.texts) := by
  have hcount := toNat_valueCount_eq_iff h
  unfold expand expandIntegers
  rw [h]
  dsimp only
  by_cases hwhole : (Ends.integers first last).distance = 2 ^ 64 - 1 ∧ operands.stepSize = 1
  · -- There are no alternatives.
    have hzero : (valueCount first last operands.stride).toNat = 0 := by
      have hcut := toNat_valueCount h
      rw [hwhole.1, hwhole.2] at hcut
      exact hcut
    have hnone : values first last operands.stride = [] :=
      List.length_eq_zero_iff.mp ((length_progression _ _ _).trans hzero)
    have hfew : ¬ listLimit < valueCount first last operands.stride := by
      rw [UInt64.lt_iff_toNat_lt, hzero]
      exact Nat.not_lt_zero _
    rw [if_neg hfew, hnone, if_pos hwhole]
    exact denotes_openGroup capture denotes_nil.body (by simp)
  · have hlong : listLimit < valueCount first last operands.stride := by
      rw [UInt64.lt_iff_toNat_lt]
      exact hmany.trans_eq (hcount.mpr hwhole).symm
    have hshape' : ¬(operands.stride = 1 && operands.width?.isNone) := by
      rw [width?_eq h, Bool.and_eq_true, decide_eq_true_eq, stride_eq_one_iff]
      rintro ⟨hone, hnone⟩
      obtain hfilled | hstep := hshape
      · simp [hfilled] at hnone
      · exact hstep hone
    rw [if_pos hlong, if_neg hshape', ownText_eq_escape, if_neg hwhole]
    exact denotes_escape _

end

end PathGlob.Range
