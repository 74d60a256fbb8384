import PathGlob.Text.Size

/-!
# `PathGlob.Text.Octets`: the bytes of a text

A text in its UTF-8 form, with every byte written as the character of that number. A character of
one byte is its own form, and all bytes of any other character lie beyond these
(`octetsOf_of_not_isWide`, `isWide_of_mem_octetsOf`). So a program that reads bytes and looks for
characters of one byte only finds them where they stand in the text.

`cutAt?` cuts a text at a byte offset, if there is a place between two characters
(`cutAt?_eq_some_iff`).
-/

set_option autoImplicit false

namespace PathGlob.Text

/-- The character takes more than one byte, or is one of these bytes. -/
def IsWide (c : Char) : Prop := 128 ≤ c.toNat

instance (c : Char) : Decidable (IsWide c) := inferInstanceAs (Decidable (_ ≤ _))

/-- The bytes of a character. -/
def octetsOf (c : Char) : List Char := (String.utf8EncodeChar c).map Char.ofUInt8

/-- The bytes of a text. -/
def octets (text : List Char) : List Char := text.flatMap octetsOf

/-- The text cut at a byte offset. There is none beyond its end or within a character. -/
def cutAt? : Nat → List Char → Option (List Char × List Char)
  | 0, text => some ([], text)
  | _ + 1, [] => none
  | n + 1, c :: rest =>
    if c.utf8Size ≤ n + 1 then
      (cutAt? (n + 1 - c.utf8Size) rest).map fun (before, after) => (c :: before, after)
    else none

section
variable {c : Char}

theorem length_octetsOf (c : Char) : (octetsOf c).length = c.utf8Size := by
  rw [octetsOf, List.length_map, String.length_utf8EncodeChar]

theorem octetsOf_ne_nil (c : Char) : octetsOf c ≠ [] := by
  have := c.utf8Size_pos
  exact fun h => absurd (congrArg List.length h) (by rw [length_octetsOf, List.length_nil]; omega)

theorem toNat_ofUInt8 (byte : UInt8) : (Char.ofUInt8 byte).toNat = byte.toNat :=
  UInt8.toNat_toUInt32 byte

theorem octetsOf_of_not_isWide (h : ¬IsWide c) : octetsOf c = [c] := by
  have hnat : c.val.toNat = c.toNat := rfl
  have hval : c.val.toNat ≤ 127 := by
    unfold IsWide at h
    omega
  unfold octetsOf String.utf8EncodeChar
  simp only [if_pos hval, List.map_cons, List.map_nil, List.cons.injEq, and_true]
  apply Char.ext
  apply UInt32.toNat_inj.mp
  show (Char.ofUInt8 _).toNat = c.toNat
  rw [toNat_ofUInt8]
  simp
  omega

theorem isWide_of_mem_octetsOf (h : IsWide c) : ∀ d ∈ octetsOf c, IsWide d := by
  have hval : ¬c.val.toNat ≤ 127 := fun hle => absurd h (by show ¬128 ≤ c.val.toNat; omega)
  unfold octetsOf String.utf8EncodeChar
  simp only [if_neg hval]
  -- The first byte says how many follow, and each of them has its highest bit set.
  split
  case isTrue => simp [IsWide, toNat_ofUInt8]; omega
  case isFalse =>
    split
    case isTrue => simp [IsWide, toNat_ofUInt8]; omega
    case isFalse => simp [IsWide, toNat_ofUInt8]; omega

theorem utf8Size_of_not_isWide (h : ¬IsWide c) : c.utf8Size = 1 := by
  rw [← length_octetsOf, octetsOf_of_not_isWide h]
  rfl

end

theorem octets_nil : octets [] = [] := rfl

theorem octets_cons (c : Char) (rest : List Char) : octets (c :: rest) = octetsOf c ++ octets rest :=
  List.flatMap_cons

theorem octets_append (a b : List Char) : octets (a ++ b) = octets a ++ octets b :=
  List.flatMap_append

theorem octets_cons_of_not_isWide {c : Char} (h : ¬IsWide c) (rest : List Char) :
    octets (c :: rest) = c :: octets rest := by
  rw [octets_cons, octetsOf_of_not_isWide h]
  rfl

theorem length_octets (text : List Char) : (octets text).length = byteSize text := by
  induction text with
  | nil => rfl
  | cons c rest ih => rw [octets_cons, List.length_append, length_octetsOf, ih, byteSize]

section
variable {c d : Char} {text : List Char}

theorem IsWide.ne (hc : IsWide c) (hd : ¬IsWide d) : c ≠ d := fun h => hd (h ▸ hc)

theorem any_head?_octets {p : Char → Bool} (hp : ∀ c, IsWide c → p c = false) (text : List Char) :
    (octets text).head?.any p = text.head?.any p := by
  cases text with
  | nil => rfl
  | cons c rest =>
    by_cases hc : IsWide c
    · obtain ⟨e, more, heq⟩ := List.exists_cons_of_ne_nil (octetsOf_ne_nil c)
      have he : IsWide e := isWide_of_mem_octetsOf hc e (heq ▸ List.mem_cons_self)
      simp [octets_cons, heq, hp e he, hp c hc]
    · rw [octets_cons_of_not_isWide hc]
      rfl

/-- A text begins with a character of one byte exactly if its bytes do. -/
theorem head?_octets_eq_some_iff (hd : ¬IsWide d) :
    (octets text).head? = some d ↔ text.head? = some d := by
  have hiff (next : Option Char) : next = some d ↔ next.any (· = d) = true := by
    cases next <;> simp
  rw [hiff, hiff, any_head?_octets fun c hc => decide_eq_false (hc.ne hd)]

theorem octets_singleton (hc : ¬IsWide c) : octets [c] = [c] := by
  rw [octets_cons_of_not_isWide hc, octets_nil]

/-- All bytes of a character but the first are wide. -/
theorem exists_octetsOf_eq (c : Char) :
    ∃ first more, octetsOf c = first :: more ∧ ∀ d ∈ more, IsWide d := by
  obtain ⟨first, more, heq⟩ := List.exists_cons_of_ne_nil (octetsOf_ne_nil c)
  refine ⟨first, more, heq, fun d hd => ?_⟩
  by_cases hc : IsWide c
  · exact isWide_of_mem_octetsOf hc d (heq ▸ List.mem_cons_of_mem _ hd)
  · rw [octetsOf_of_not_isWide hc] at heq
    rw [← (List.cons.inj heq).2] at hd
    exact absurd hd List.not_mem_nil

theorem octets_eq_nil_iff : octets text = [] ↔ text = [] := by
  cases text with
  | nil => simp [octets]
  | cons c rest => simp [octets_cons, octetsOf_ne_nil]

theorem mem_octets_iff (hd : ¬IsWide d) : d ∈ octets text ↔ d ∈ text := by
  induction text with
  | nil => rfl
  | cons c rest ih =>
    by_cases hc : IsWide c
    · have hnot : d ∉ octetsOf c := fun hmem => hd (isWide_of_mem_octetsOf hc d hmem)
      simp [octets_cons, ih, hnot, (hc.ne hd).symm]
    · simp [octets_cons_of_not_isWide hc, ih]

/-- The last byte of a character. -/
def lastOctet (c : Char) : Char := (octetsOf c).getLast (octetsOf_ne_nil c)

theorem lastOctet_of_not_isWide (h : ¬IsWide c) : lastOctet c = c := by
  unfold lastOctet
  simp only [octetsOf_of_not_isWide h, List.getLast_singleton]

theorem isWide_lastOctet (h : IsWide c) : IsWide (lastOctet c) :=
  isWide_of_mem_octetsOf h _ (List.getLast_mem _)

theorem lastOctet_eq_iff (hd : ¬IsWide d) : lastOctet c = d ↔ c = d := by
  by_cases hc : IsWide c
  · exact iff_of_false ((isWide_lastOctet hc).ne hd) (hc.ne hd)
  · rw [lastOctet_of_not_isWide hc]

theorem getLast?_octets (text : List Char) : (octets text).getLast? = text.getLast?.map lastOctet := by
  cases h : text.getLast? with
  | none => rw [List.getLast?_eq_none_iff.mp h]; rfl
  | some c =>
    obtain ⟨before, rfl⟩ := List.getLast?_eq_some_iff.mp h
    rw [octets_append, octets_cons, octets_nil, List.append_nil, List.getLast?_append,
      List.getLast?_eq_some_getLast (octetsOf_ne_nil c), Option.some_or]
    rfl

end

/-- Cutting at the end of the first of two texts yields the two. -/
theorem cutAt?_append (before after : List Char) :
    cutAt? (byteSize before) (before ++ after) = some (before, after) := by
  induction before with
  | nil => cases after <;> rfl
  | cons c before ih =>
    obtain ⟨size, hsize⟩ := Nat.exists_eq_add_of_lt c.utf8Size_pos
    have hsize : byteSize (c :: before) = size + byteSize before + 1 := by rw [byteSize]; omega
    rw [List.cons_append, hsize, cutAt?, if_pos (by omega),
      show size + byteSize before + 1 - c.utf8Size = byteSize before by omega, ih]
    rfl

theorem cutAt?_eq_some_iff {n : Nat} {text before after : List Char} :
    cutAt? n text = some (before, after) ↔ text = before ++ after ∧ byteSize before = n := by
  refine ⟨fun h => ?_, fun ⟨htext, hsize⟩ => htext ▸ hsize ▸ cutAt?_append before after⟩
  fun_induction cutAt? n text generalizing before with
  | case1 => cases h; exact ⟨rfl, rfl⟩
  | case2 => cases h
  | case3 n c rest hle ih =>
    obtain ⟨⟨before, after⟩, hcut, heq⟩ := Option.map_eq_some_iff.mp h
    cases heq
    obtain ⟨rfl, hsize⟩ := ih hcut
    exact ⟨rfl, by rw [byteSize]; omega⟩
  | case4 => cases h

end PathGlob.Text
