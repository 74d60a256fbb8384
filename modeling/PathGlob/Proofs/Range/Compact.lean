import PathGlob.Proofs.Range.Numerals
import PathGlob.Proofs.Regex.Denotes
import PathGlob.Range.Expand

/-!
# `PathGlob.Proofs.Range.Compact`: compact ranges are exact

The source of a block is its leading digits, a class for one digit and a count of free digits,
and it denotes the numerals of the block (`denotes_blockSource`), since a block is a box. The
source of a range of words denotes the numerals of the range (`denotesBody_compactWords`),
since the blocks leave out nothing. With the signs in front this makes `compact` exact for all
integers of 64 bits, in either order.
-/

set_option autoImplicit false

namespace PathGlob.Range

open Regex

/-! ### The digits of a block -/

/-- The source of a digit of an interval, from its first to its last digit. -/
def digitClass (x y : Char) : List Char :=
  '[' :: x :: (if y.val - x.val > 1 then ['-'] else []) ++ [y, ']']

/-- A position is fixed, free, or runs over an interval. -/
theorem digitSources_cons (x y : Char) (first last : List Char) :
    digitSources (x :: first) (y :: last) =
      if x = y then (x :: (digitSources first last).1, (digitSources first last).2)
      else if x = '0' ∧ y = '9' then ((digitSources first last).1, (digitSources first last).2 + 1)
      else (digitClass x y ++ (digitSources first last).1, (digitSources first last).2) := by
  rw [digitSources]
  dsimp only
  split
  · rfl
  · by_cases h : x = '0' ∧ y = '9'
    · rw [if_neg (by simp [h]), if_pos h]
    · rw [if_pos (by simpa [Decidable.imp_iff_not_or] using h), if_neg h]
      simp [digitClass]

theorem digitSources_append (lead first last : List Char) :
    digitSources (lead ++ first) (lead ++ last) =
      (lead ++ (digitSources first last).1, (digitSources first last).2) := by
  induction lead with
  | nil => rfl
  | cons c lead ih =>
    rw [List.cons_append, List.cons_append, digitSources_cons, if_pos rfl, ih, List.cons_append]

theorem digitSources_free (k : Nat) :
    digitSources (List.replicate k '0') (List.replicate k '9') = ([], k) := by
  induction k with
  | zero => rfl
  | succ k ih =>
    rw [List.replicate_succ, List.replicate_succ, digitSources_cons, ih]
    rfl

/-- The source of so many free digits. -/
def freeSource : Nat → List Char
  | 0 => []
  | 1 => anyDigit
  | n => anyDigit ++ '{' :: Nat.toDigits 10 n ++ ['}']

theorem blockSource_of_ne {first last : UInt64} (h : first ≠ last) :
    blockSource first last = (digitSources (numeral first) (numeral last)).1 ++
      freeSource (digitSources (numeral first) (numeral last)).2 := by
  rw [blockSource, if_neg h]
  generalize digitSources (numeral first) (numeral last) = sources
  obtain ⟨source, free⟩ := sources
  show (match free with
    | 0 => source
    | 1 => source ++ anyDigit
    | n => source ++ anyDigit ++ '{' :: Nat.toDigits 10 n ++ ['}']) = source ++ freeSource free
  unfold freeSource
  split
  · exact (List.append_nil source).symm
  · rfl
  · simp only [List.append_assoc, List.cons_append]

/-! ### What the parts of a block denote -/

/-- The text is a run of so many digits. -/
def IsDigits (count : Nat) (text : List Char) : Prop :=
  text.length = count ∧ ∀ c ∈ text, c.isDigit = true

section
variable {a b d : Nat}

theorem toNat_digitChar (h : d < 10) : (Nat.digitChar d).toNat = 48 + d :=
  Nat.toNat_digitChar_of_lt_ten h

theorem digitChar_le_iff (ha : a < 10) (hb : b < 10) :
    Nat.digitChar a ≤ Nat.digitChar b ↔ a ≤ b := by
  rw [Char.le_def, UInt32.le_iff_toNat_le]
  show (Nat.digitChar a).toNat ≤ (Nat.digitChar b).toNat ↔ a ≤ b
  rw [toNat_digitChar ha, toNat_digitChar hb]
  omega

theorem digitChar_inj (ha : a < 10) (hb : b < 10) :
    Nat.digitChar a = Nat.digitChar b ↔ a = b := by
  constructor
  · intro h
    have := congrArg Char.toNat h
    rw [toNat_digitChar ha, toNat_digitChar hb] at this
    omega
  · exact congrArg Nat.digitChar

/-- A digit has no meaning in sources, neither outside a class nor within one. -/
theorem isMeta_of_isDigit {c : Char} (h : c.isDigit = true) :
    isMeta c = false ∧ isClassMeta c = false := by
  obtain ⟨d, hd, rfl⟩ := exists_digitChar_eq h
  have hall : ∀ d : Fin 10, isMeta (Nat.digitChar d) = false ∧
      isClassMeta (Nat.digitChar d) = false := by decide
  exact hall ⟨d, hd⟩

theorem isDigit_digitChar (hd : d < 10) : (Nat.digitChar d).isDigit = true := by
  rw [Nat.isDigit_digitChar]
  exact decide_eq_true hd

/-- The characters from one digit to another are the digits of the interval. -/
theorem between_digitChar_iff (ha : a < 10) (hb : b < 10) {c : Char} :
    Nat.digitChar a ≤ c ∧ c ≤ Nat.digitChar b ↔ ∃ d, (a ≤ d ∧ d ≤ b) ∧ c = Nat.digitChar d := by
  constructor
  · rintro ⟨hge, hle⟩
    have hdigit : c.isDigit = true := by
      have h0 := Char.le_trans ((digitChar_le_iff (by decide) ha).mpr (Nat.zero_le a)) hge
      have h9 := Char.le_trans hle ((digitChar_le_iff hb (by decide)).mpr (Nat.le_of_lt_succ hb))
      rw [Char.isDigit, Bool.and_eq_true, decide_eq_true_eq, decide_eq_true_eq]
      exact ⟨h0, h9⟩
    obtain ⟨d, hd, rfl⟩ := exists_digitChar_eq hdigit
    exact ⟨d, ⟨(digitChar_le_iff ha hd).mp hge, (digitChar_le_iff hd hb).mp hle⟩, rfl⟩
  · rintro ⟨d, ⟨hge, hle⟩, rfl⟩
    have hd : d < 10 := by omega
    exact ⟨(digitChar_le_iff ha hd).mpr hge, (digitChar_le_iff hd hb).mpr hle⟩

/-- A class of digits, whether it lists its two digits or spans more, denotes exactly the digits of
the interval. -/
theorem denotes_digitClass (hab : a < b) (hb : b < 10) :
    Denotes (digitClass (Nat.digitChar a) (Nat.digitChar b)) fun text =>
      ∃ d, (a ≤ d ∧ d ≤ b) ∧ text = [Nat.digitChar d] := by
  have ha : a < 10 := Nat.lt_trans hab hb
  have hmeta := (isMeta_of_isDigit (isDigit_digitChar ha)).2
  have hmeta' := (isMeta_of_isDigit (isDigit_digitChar hb)).2
  have hle := (digitChar_le_iff ha hb).mpr (Nat.le_of_lt hab)
  have hdenotes (items : List ClassItem) (hne : items ≠ [])
      (hitems : ∀ c, (∃ item ∈ items, item.Has c) ↔
        ∃ d, (a ≤ d ∧ d ≤ b) ∧ c = Nat.digitChar d) :
      Denotes (classSource false items) fun text =>
        ∃ d, (a ≤ d ∧ d ≤ b) ∧ text = [Nat.digitChar d] := by
    refine (denotes_class false hne).congr fun text => ?_
    simp only [Bool.false_eq_true, if_false, hitems]
    constructor
    · rintro ⟨_, ⟨d, hd, rfl⟩, rfl⟩
      exact ⟨d, hd, rfl⟩
    · rintro ⟨d, hd, rfl⟩
      exact ⟨_, ⟨d, hd, rfl⟩, rfl⟩
  rw [digitClass]
  split
  case isTrue =>
    refine hdenotes [.span _ _ hmeta hmeta' hle] (List.cons_ne_nil _ _) fun c => ?_
    rw [← between_digitChar_iff ha hb]
    simp [ClassItem.Has]
  case isFalse h =>
    -- Without a dash the two digits are next to each other.
    have hnext : b = a + 1 := by
      rw [gt_iff_lt, UInt32.lt_iff_toNat_lt, UInt32.toNat_sub_of_le _ _ (Char.le_def.mp hle)] at h
      have h' : ¬ 1 < (Nat.digitChar b).toNat - (Nat.digitChar a).toNat := h
      rw [toNat_digitChar ha, toNat_digitChar hb] at h'
      omega
    refine hdenotes [.char _ hmeta, .char _ hmeta'] (List.cons_ne_nil _ _) fun c => ?_
    simp only [List.mem_cons, List.not_mem_nil, or_false, exists_eq_or_imp, exists_eq_left,
      ClassItem.Has]
    constructor
    · rintro (rfl | rfl)
      · exact ⟨a, by omega, rfl⟩
      · exact ⟨b, by omega, rfl⟩
    · rintro ⟨d, hd, rfl⟩
      obtain rfl | rfl : d = a ∨ d = b := by omega
      · exact .inl rfl
      · exact .inr rfl

end

/-- The set of all digits. -/
def digitSet : CharSet := .union .none (.span '0' '9')

theorem reads_anyDigit : Reads anyDigit [.set digitSet] := fun _ _ _ _ _ _ _ => ⟨_, rfl⟩

theorem has_digitSet_iff {c : Char} : digitSet.has false c = true ↔ c.isDigit = true := Iff.rfl

/-- So many rounds of a digit pass over so many digits. -/
theorem rounds_digitSet_iff {n : Nat} {c d : Cursor} :
    Cursor.Rounds ((Node.set digitSet).Spans false) n c d ↔
      ∃ text, IsDigits n text ∧ c.Passes text d := by
  induction n generalizing c with
  | zero =>
    show d = c ↔ _
    constructor
    · rintro rfl
      exact ⟨[], ⟨rfl, fun c hc => absurd hc List.not_mem_nil⟩, .refl d⟩
    · rintro ⟨text, ⟨hlength, -⟩, hpass⟩
      obtain rfl := List.length_eq_zero_iff.mp hlength
      exact Cursor.passes_nil_iff.mp hpass
  | succ n ih =>
    constructor
    · rintro ⟨e, ⟨x, hx, hpass⟩, hrounds⟩
      obtain ⟨text, ⟨hlength, hdigits⟩, hpass'⟩ := ih.mp hrounds
      refine ⟨x :: text, ⟨by rw [List.length_cons, hlength], ?_⟩, hpass.trans hpass'⟩
      exact List.forall_mem_cons.mpr ⟨has_digitSet_iff.mp hx, hdigits⟩
    · rintro ⟨text, ⟨hlength, hdigits⟩, hpass⟩
      obtain ⟨x, text, rfl⟩ := List.exists_cons_of_length_eq_add_one hlength
      obtain ⟨e, hfirst, hrest⟩ := (Cursor.passes_append_iff [x] text).mp hpass
      obtain ⟨hx, hdigits⟩ := List.forall_mem_cons.mp hdigits
      exact ⟨e, ⟨x, has_digitSet_iff.mpr hx, hfirst⟩,
        ih.mpr ⟨text, ⟨Nat.succ.inj hlength, hdigits⟩, hrest⟩⟩

/-- A loop with one bound makes so many rounds. -/
theorem spans_repeated_iff {blind reluctant : Bool} {piece : Node} {n : Nat} {c d : Cursor} :
    (Node.loop piece n (some n) reluctant).Spans blind c d ↔
      Cursor.Rounds (piece.Spans blind) n c d := by
  constructor
  · rintro ⟨e, he, m, hm, hrounds⟩
    obtain rfl : m = 0 := by simpa using hm
    obtain rfl : d = e := hrounds
    exact he
  · intro h
    exact ⟨d, h, 0, by simp, rfl⟩

/-- Free digits denote the runs of so many digits. -/
theorem denotes_freeSource (n : Nat) : Denotes (freeSource n) (IsDigits n) := by
  unfold freeSource
  split
  · refine denotes_nil.congr fun text => ?_
    constructor
    · rintro rfl
      exact ⟨rfl, fun c hc => absurd hc List.not_mem_nil⟩
    · exact fun h => List.length_eq_zero_iff.mp h.1
  · refine .of_reads reads_anyDigit ⟨by decide, fun c d => ?_⟩
    rw [Node.spans_ofSequence_singleton, ← rounds_digitSet_iff]
    exact ⟨fun h => ⟨d, h, rfl⟩, fun ⟨e, he, hd⟩ => hd ▸ he⟩
  · have hsound : (Node.loop (.set digitSet) n (some n) false).IsSound := ⟨rfl, rfl⟩
    refine .of_reads (reads_anyDigit.repeated n) (Node.Denotes.ofSequence_singleton
      ⟨hsound, fun c d => ?_⟩)
    rw [spans_repeated_iff, rounds_digitSet_iff]

/-! ### Blocks and ranges -/

/-- Digits denote themselves. -/
theorem denotes_digits {text : List Char} (h : ∀ c ∈ text, c.isDigit = true) :
    Denotes text (· = text) :=
  denotes_plain fun c hc => (isMeta_of_isDigit (h c hc)).1

theorem isDigit_of_mem_toDigits {n : Nat} {c : Char} (h : c ∈ Nat.toDigits 10 n) :
    c.isDigit = true :=
  Nat.isDigit_of_mem_toDigits (by decide) (by decide) h

theorem isDigit_of_mem_leadDigits {n : Nat} {c : Char} (h : c ∈ leadDigits n) :
    c.isDigit = true := by
  rw [leadDigits] at h
  split at h
  · exact absurd h List.not_mem_nil
  · exact isDigit_of_mem_toDigits h

/-- The source that is computed from the ends of a box denotes its product of digits. -/
theorem denotes_digitSources {lead : List Char} (hlead : ∀ c ∈ lead, c.isDigit = true)
    {a b : Nat} (hab : a ≤ b) (hb : b < 10) (k : Nat) {sources : List Char × Nat}
    (hsources : digitSources (lead ++ Nat.digitChar a :: List.replicate k '0')
      (lead ++ Nat.digitChar b :: List.replicate k '9') = sources) :
    Denotes (sources.1 ++ freeSource sources.2) fun text =>
      ∃ d w, (a ≤ d ∧ d ≤ b) ∧ IsDigits k w ∧ text = lead ++ Nat.digitChar d :: w := by
  have ha : a < 10 := by omega
  rw [digitSources_append, digitSources_cons, digitSources_free] at hsources
  subst hsources
  split
  case isTrue h =>
    -- One digit is left in the position.
    obtain rfl := (digitChar_inj ha hb).mp h
    have hfixed : ∀ c ∈ lead ++ [Nat.digitChar a], c.isDigit = true := by
      intro c hc
      cases List.mem_append.mp hc with
      | inl hmem => exact hlead c hmem
      | inr hmem => exact List.mem_singleton.mp hmem ▸ isDigit_digitChar ha
    refine ((denotes_digits hfixed).append (denotes_freeSource k)).congr fun text => ?_
    constructor
    · rintro ⟨_, w, rfl, hw, rfl⟩
      exact ⟨a, w, by omega, hw, by rw [List.append_assoc]; rfl⟩
    · rintro ⟨d, w, hd, hw, rfl⟩
      obtain rfl : d = a := by omega
      exact ⟨_, w, rfl, hw, by rw [List.append_assoc]; rfl⟩
  case isFalse h =>
    have hlt : a < b := by
      apply Nat.lt_of_le_of_ne hab
      rintro rfl
      exact h rfl
    split
    case isTrue hfree =>
      -- The position is as free as those behind it.
      have ha0 : a = 0 := (digitChar_inj ha (by decide)).mp hfree.1
      have hb9 : b = 9 := (digitChar_inj hb (show 9 < 10 by decide)).mp hfree.2
      rw [List.append_nil]
      refine ((denotes_digits hlead).append (denotes_freeSource (k + 1))).congr fun text => ?_
      constructor
      · rintro ⟨_, w, rfl, ⟨hlength, hw⟩, rfl⟩
        obtain ⟨x, w, rfl⟩ := List.exists_cons_of_length_eq_add_one hlength
        obtain ⟨hx, hrest⟩ := List.forall_mem_cons.mp hw
        obtain ⟨d, hd, rfl⟩ := exists_digitChar_eq hx
        exact ⟨d, w, by omega, ⟨Nat.succ.inj hlength, hrest⟩, rfl⟩
      · rintro ⟨d, w, hd, ⟨hlength, hw⟩, rfl⟩
        refine ⟨lead, _, rfl, ⟨by rw [List.length_cons, hlength], ?_⟩, rfl⟩
        exact List.forall_mem_cons.mpr ⟨isDigit_digitChar (by omega), hw⟩
    case isFalse =>
      rw [List.append_nil]
      refine (((denotes_digits hlead).append (denotes_digitClass hlt hb)).append
        (denotes_freeSource k)).congr fun text => ?_
      constructor
      · rintro ⟨_, w, ⟨_, _, rfl, ⟨d, hd, rfl⟩, rfl⟩, hw, rfl⟩
        exact ⟨d, w, hd, hw, by rw [List.append_assoc]; rfl⟩
      · rintro ⟨d, w, hd, hw, rfl⟩
        exact ⟨_, w, ⟨lead, _, rfl, ⟨d, hd, rfl⟩, rfl⟩, hw, by rw [List.append_assoc]; rfl⟩

/-- The source of a block denotes the numerals of the block. -/
theorem denotes_blockSource {k : Nat} {first last : UInt64}
    (h : IsBox k first.toNat last.toNat) :
    Denotes (blockSource first last) fun text =>
      ∃ n, (first.toNat ≤ n ∧ n ≤ last.toNat) ∧ text = Nat.toDigits 10 n := by
  by_cases heq : first = last
  · rw [blockSource, if_pos heq, ← heq]
    refine (denotes_digits fun c hc => isDigit_of_mem_toDigits hc).congr fun text => ?_
    constructor
    · intro htext
      exact ⟨first.toNat, by omega, htext⟩
    · rintro ⟨n, hn, rfl⟩
      obtain rfl : n = first.toNat := by omega
      rfl
  · have hfirst : numeral first = _ := h.toDigits_first
    have hlast : numeral last = _ := h.toDigits_last
    rw [blockSource_of_ne heq, hfirst, hlast]
    exact (denotes_digitSources (fun c hc => isDigit_of_mem_leadDigits hc) h.digit_le
      (Nat.mod_lt _ (by decide)) k rfl).congr fun text => (h.exists_numeral_iff text).symm

/-- The source of a range of words denotes the numerals of the range. -/
theorem denotesBody_compactWords {least greatest : UInt64} (hgreatest : greatest.toNat ≤ 2 ^ 63)
    (hle : least ≤ greatest) :
    DenotesBody (compactWords least greatest) fun text =>
      ∃ n, (least.toNat ≤ n ∧ n ≤ greatest.toNat) ∧ text = Nat.toDigits 10 n := by
  have hblocks : ∀ block ∈ blocks least (blockStops least greatest),
      Denotes (blockSource block.1 block.2) fun text =>
        ∃ n, (block.1.toNat ≤ n ∧ n ≤ block.2.toNat) ∧ text = Nat.toDigits 10 n := by
    intro block hblock
    obtain ⟨k, hbox⟩ := isBox_of_mem_blockStops hgreatest hle block hblock
    exact denotes_blockSource hbox
  have hne : blocks least (blockStops least greatest) ≠ [] := by
    intro hnil
    obtain ⟨block, hblock, -⟩ := (exists_mem_blockStops_iff hgreatest hle greatest.toNat).mpr
      ⟨UInt64.le_iff_toNat_le.mp hle, Nat.le_refl _⟩
    rw [hnil] at hblock
    exact absurd hblock List.not_mem_nil
  rw [compactWords, blockSources_eq_map]
  refine (denotesBody_intercalate hblocks hne).congr fun text => ?_
  constructor
  · rintro ⟨block, hblock, n, hn, htext⟩
    exact ⟨n, (exists_mem_blockStops_iff hgreatest hle n).mp ⟨block, hblock, hn⟩, htext⟩
  · rintro ⟨n, hn, htext⟩
    obtain ⟨block, hblock, hn⟩ := (exists_mem_blockStops_iff hgreatest hle n).mpr hn
    exact ⟨block, hblock, n, hn, htext⟩

/-- The source of a negative range, from the sizes of its numbers. -/
theorem denotes_minus {source : List Char} {language : List Char → Prop}
    (h : DenotesBody source language) :
    Denotes (['-', '(', '?', ':'] ++ source ++ [')']) fun text =>
      ∃ digits, language digits ∧ text = '-' :: digits := by
  have hminus : Denotes ['-'] (· = ['-']) := denotes_escapeChar '-'
  refine (hminus.append h.group).congr fun text => ?_
  constructor
  · rintro ⟨_, digits, rfl, hdigits, rfl⟩
    exact ⟨digits, hdigits, rfl⟩
  · rintro ⟨digits, hdigits, rfl⟩
    exact ⟨_, digits, rfl, hdigits, rfl⟩

theorem valueText_ofNat (m : Nat) : valueText none (m : Int) = Nat.toDigits 10 m := by
  show (if (m : Int) < 0 then '-' :: Nat.toDigits 10 (m : Int).natAbs
    else Nat.toDigits 10 (m : Int).natAbs) = _
  rw [if_neg (by omega), Int.natAbs_natCast]

theorem valueText_neg {m : Nat} (h : 0 < m) :
    valueText none (-(m : Int)) = '-' :: Nat.toDigits 10 m := by
  show (if -(m : Int) < 0 then '-' :: Nat.toDigits 10 (-(m : Int)).natAbs
    else Nat.toDigits 10 (-(m : Int)).natAbs) = _
  rw [if_pos (by omega), Int.natAbs_neg, Int.natAbs_natCast]

/-- A value that is not padded is written as usual: with a minus sign if it is negative, and
without leading zeros. -/
theorem valueText_none (n : Int) : valueText none n = (toString n).toList := by
  have hnat (m : Nat) : (toString (m : Int)).toList = Nat.toDigits 10 m := by
    show (Nat.repr m).toList = _
    rw [Nat.repr, String.toList_ofList]
  cases n with
  | ofNat m => exact (valueText_ofNat m).trans (hnat m).symm
  | negSucc m =>
    refine (valueText_neg (Nat.succ_pos m)).trans ?_
    show _ = ("-" ++ Nat.repr (m + 1)).toList
    rw [String.toList_append, Nat.repr, String.toList_ofList, String.toList_ofList]
    rfl

/-- The numerals of integers that are not negative are the digits of their sizes. -/
theorem exists_valueText_ofNat_iff {l g : Nat} {text : List Char} :
    (∃ n : Int, ((l : Int) ≤ n ∧ n ≤ g) ∧ text = valueText none n) ↔
      ∃ m, (l ≤ m ∧ m ≤ g) ∧ text = Nat.toDigits 10 m := by
  constructor
  · rintro ⟨n, hn, rfl⟩
    obtain ⟨m, rfl⟩ := Int.eq_ofNat_of_zero_le (show 0 ≤ n by omega)
    exact ⟨m, by omega, valueText_ofNat m⟩
  · rintro ⟨m, hm, rfl⟩
    exact ⟨m, by omega, (valueText_ofNat m).symm⟩

/-- The numerals of negative integers have a sign, and the greatest one has the least size. -/
theorem exists_valueText_neg_iff {l g : Nat} (hpos : 0 < l) {text : List Char} :
    (∃ n : Int, (-(g : Int) ≤ n ∧ n ≤ -l) ∧ text = valueText none n) ↔
      ∃ digits, (∃ m, (l ≤ m ∧ m ≤ g) ∧ digits = Nat.toDigits 10 m) ∧ text = '-' :: digits := by
  constructor
  · rintro ⟨n, hn, rfl⟩
    obtain ⟨m, rfl⟩ := Int.exists_eq_neg_ofNat (show n ≤ 0 by omega)
    exact ⟨_, ⟨m, by omega, rfl⟩, valueText_neg (by omega)⟩
  · rintro ⟨_, ⟨m, hm, rfl⟩, rfl⟩
    exact ⟨-m, by omega, (valueText_neg (by omega)).symm⟩

/-- Between its bounds, in either order, a compact range denotes the numerals of all
integers. -/
theorem denotesBody_compact {a b : Int} (ha : a.natAbs ≤ 2 ^ 63) (hb : b.natAbs ≤ 2 ^ 63) :
    DenotesBody (compact a b) fun text =>
      ∃ n : Int, (min a b ≤ n ∧ n ≤ max a b) ∧ text = valueText none n := by
  have hmagnitude {n : Int} (hn : n.natAbs ≤ 2 ^ 63) : (magnitude n).toNat = n.natAbs := by
    rw [magnitude, UInt64.toNat_ofNat']
    exact Nat.mod_eq_of_lt (by omega)
  rw [compact]
  obtain ⟨least, hleast⟩ : ∃ least, least = min a b := ⟨_, rfl⟩
  obtain ⟨greatest, hgreatest⟩ : ∃ greatest, greatest = max a b := ⟨_, rfl⟩
  have hsize : (magnitude least).toNat = least.natAbs := hmagnitude (by omega)
  have hsize' : (magnitude greatest).toNat = greatest.natAbs := hmagnitude (by omega)
  have hlimit : (magnitude least).toNat ≤ 2 ^ 63 := by omega
  have hlimit' : (magnitude greatest).toNat ≤ 2 ^ 63 := by omega
  rw [← hleast, ← hgreatest]
  have hle : least ≤ greatest := by omega
  dsimp only
  split
  case isTrue hnonneg =>
    have hwords : magnitude least ≤ magnitude greatest := UInt64.le_iff_toNat_le.mpr (by omega)
    refine (denotesBody_compactWords hlimit' hwords).congr fun text => ?_
    rw [← exists_valueText_ofNat_iff, hsize, hsize', Int.natAbs_of_nonneg hnonneg,
      Int.natAbs_of_nonneg (by omega)]
  case isFalse hneg =>
    split
    case isTrue hall =>
      have hwords : magnitude greatest ≤ magnitude least := UInt64.le_iff_toNat_le.mpr (by omega)
      refine (denotes_minus (denotesBody_compactWords hlimit hwords)).body.congr fun text => ?_
      rw [← exists_valueText_neg_iff (by omega), hsize, hsize', Int.ofNat_natAbs_of_nonpos (by omega),
        Int.ofNat_natAbs_of_nonpos (by omega), Int.neg_neg, Int.neg_neg]
    case isFalse hsome =>
      -- The negative numbers and the others meet between minus one and zero.
      have hone : (1 : UInt64) ≤ magnitude least :=
        UInt64.le_iff_toNat_le.mpr (by show 1 ≤ (magnitude least).toNat; omega)
      have hzero : (0 : UInt64) ≤ magnitude greatest :=
        UInt64.le_iff_toNat_le.mpr (Nat.zero_le _)
      refine ((denotes_minus (denotesBody_compactWords hlimit hone)).orElse
        (denotesBody_compactWords hlimit' hzero)).congr fun text => ?_
      rw [← exists_valueText_neg_iff (by decide), ← exists_valueText_ofNat_iff, hsize, hsize',
        Int.ofNat_natAbs_of_nonpos (by omega), Int.natAbs_of_nonneg (by omega), Int.neg_neg]
      constructor
      · rintro (⟨n, hn, htext⟩ | ⟨n, hn, htext⟩)
        · exact ⟨n, ⟨hn.1, by omega⟩, htext⟩
        · exact ⟨n, ⟨by omega, hn.2⟩, htext⟩
      · rintro ⟨n, hn, htext⟩
        cases Int.lt_or_le n 0 with
        | inl hlt => exact .inl ⟨n, ⟨hn.1, Int.le_sub_one_of_lt hlt⟩, htext⟩
        | inr hge => exact .inr ⟨n, ⟨hge, hn.2⟩, htext⟩

/-- The compact source of a range is exact for all integers of 64 bits in either order: between
anchors it makes a program that matches a text exactly if the text is the numeral of an integer
of the range. -/
theorem compact_matches_numerals (a b : Int64) :
    ∃ program, Program.ofSource?
        ('^' :: (['(', '?', ':'] ++ compact a.toInt b.toInt ++ [')']) ++ ['$']) = some program ∧
      ∀ text, program.isMatch text = true ↔
        ∃ n : Int, (min a.toInt b.toInt ≤ n ∧ n ≤ max a.toInt b.toInt) ∧
          text = (toString n).toList := by
  have hsize (c : Int64) : c.toInt.natAbs ≤ 2 ^ 63 := by
    have := c.le_toInt
    have := c.toInt_lt
    omega
  obtain ⟨program, hprogram, hmatch⟩ := (denotesBody_compact (hsize a) (hsize b)).exists_program
  refine ⟨program, hprogram, fun text => ?_⟩
  simp only [hmatch, valueText_none]

end PathGlob.Range
