import Mathlib.Algebra.Group.Nat.Defs
import PathGlob.Range.Expand

/-!
# `PathGlob.Proofs.Range.Progression`: the values of a range

The values of a range go from its first end towards the last one in equal steps (`valueAt`), as
long as they do not pass it. The count of the values is a word, the values are integers of 64 bits
that stop at the bounds of that type, and the step between them is at most the greatest of these
integers. `values_exact_iff` says for which ranges this makes no difference.

There are two gaps. From the least integer to the greatest one, in steps of one, there is one value
more than a word can count, so the count is zero. And a step of 2^63, the size of the least integer,
is replaced by the greatest integer, so the second value is off by one if there is one.
-/

set_option autoImplicit false

namespace PathGlob.Range

/-- An integer of 64 bits. -/
def InBounds (n : Int) : Prop := minInt ≤ n ∧ n ≤ maxInt

/-- The value after so many steps from the first end towards the last one. -/
def valueAt (first last : Int) (step k : Nat) : Int :=
  if first ≤ last then first + k * step else first - k * step

namespace Ends

/-- The number at the first end; a character counts as its code point. -/
def first : Ends → Int
  | .integers first _ => first
  | .characters first _ => first.toNat

/-- The number at the last end. -/
def last : Ends → Int
  | .integers _ last => last
  | .characters _ last => last.toNat

/-- How far the ends are apart. -/
def distance (ends : Ends) : Nat := (ends.first - ends.last).natAbs

end Ends

namespace Operands

/-- The size of the step, or one if the step is missing or zero. -/
def stepSize (operands : Operands) : Nat :=
  match operands.step.bind parseInt? with
  | some step => if step = 0 then 1 else step.natAbs
  | none => 1

end Operands

/-- The words and integers of 64 bits of a range are those of its exact values. -/
structure IsExact (operands : Operands) (ends : Ends) : Prop where
  count : (valueCount ends.first ends.last operands.stride).toNat =
    ends.distance / operands.stepSize + 1
  values : ∀ k ≤ ends.distance / operands.stepSize,
    (values ends.first ends.last operands.stride)[k]? =
      some (valueAt ends.first ends.last operands.stepSize k)

/-! ### Operands that are accepted -/

theorem inBounds_of_parseInt? {text : List Char} {n : Int} (h : parseInt? text = some n) :
    InBounds n := by
  have hvalue {value : Int}
      (h : (if minInt ≤ value && value ≤ maxInt then some value else none) = some n) :
      InBounds n := by
    split at h
    case isTrue hbounds =>
      cases h
      simpa [InBounds] using hbounds
    case isFalse => cases h
  unfold parseInt? at h
  dsimp only at h
  split at h <;> dsimp only at h <;> split at h
  case h_1.isTrue | h_2.isTrue => cases h
  case h_1.isFalse | h_2.isFalse => exact hvalue h

namespace Operands

variable {operands : Operands} {ends : Ends}

theorem inBounds_of_ends? (h : operands.ends? = some ends) :
    InBounds ends.first ∧ InBounds ends.last := by
  have hchar (c : Char) : InBounds (c.toNat : Int) := by
    have hlt : c.toNat < 0x110000 := by
      obtain h | h := c.valid
      · exact Nat.lt_trans h (by decide)
      · exact h.2
    constructor
    · rw [minInt]; omega
    · rw [maxInt]; omega
  unfold ends? at h
  split at h
  case h_1 hfirst hlast =>
    cases h
    exact ⟨inBounds_of_parseInt? hfirst, inBounds_of_parseInt? hlast⟩
  case h_2 =>
    split at h
    case h_1 =>
      cases h
      exact ⟨hchar _, hchar _⟩
    case h_2 => cases h

theorem exists_ends_of_ofTexts? {texts : List (List Char)}
    (h : ofTexts? texts = some operands) : ∃ ends, operands.ends? = some ends := by
  have hends {operands' : Operands} (h : operands'.ends?.map (fun _ => operands') = some operands) :
      ∃ ends, operands.ends? = some ends := by
    obtain ⟨ends, hends, rfl⟩ := Option.map_eq_some_iff.mp h
    exact ⟨ends, hends⟩
  unfold ofTexts? at h
  split at h
  case h_1 => exact hends h
  case h_2 =>
    dsimp only at h
    split at h
    case isTrue => cases h
    case isFalse => exact hends h
  case h_3 => cases h

variable (operands)

theorem stepSize_pos : 0 < operands.stepSize := by
  unfold stepSize
  split
  case h_1 step _ =>
    split
    case isTrue => exact Nat.one_pos
    case isFalse hstep => exact Int.natAbs_pos.mpr hstep
  case h_2 => exact Nat.one_pos

theorem stepSize_le : operands.stepSize ≤ 2 ^ 63 := by
  unfold stepSize
  split
  case h_1 step hstep =>
    obtain ⟨text, -, hparse⟩ := Option.bind_eq_some_iff.mp hstep
    obtain ⟨hlow, hhigh⟩ := inBounds_of_parseInt? hparse
    rw [minInt] at hlow
    rw [maxInt] at hhigh
    split <;> omega
  case h_2 => decide

/-- The step fits into a word. -/
theorem toNat_stride : operands.stride.toNat = operands.stepSize := by
  have hle := operands.stepSize_le
  unfold stride
  unfold stepSize at hle ⊢
  cases hstep : operands.step.bind parseInt? with
  | none => rfl
  | some step =>
    rw [hstep] at hle
    dsimp only at hle ⊢
    split
    case isTrue => rfl
    case isFalse hzero =>
      rw [if_neg hzero] at hle
      rw [UInt64.toNat_ofNat']
      exact Nat.mod_eq_of_lt (by omega)

end Operands

/-! ### The count -/

variable {operands : Operands} {ends : Ends}

theorem distance_lt (h : operands.ends? = some ends) : ends.distance < 2 ^ 64 := by
  obtain ⟨⟨hfirst, hfirst'⟩, hlast, hlast'⟩ := Operands.inBounds_of_ends? h
  rw [minInt] at hfirst hlast
  rw [maxInt] at hfirst' hlast'
  rw [Ends.distance]
  omega

/-- The count is a word: it is cut off at 2^64. -/
theorem toNat_valueCount (h : operands.ends? = some ends) :
    (valueCount ends.first ends.last operands.stride).toNat =
      (ends.distance / operands.stepSize + 1) % 2 ^ 64 := by
  have hdistance : (UInt64.ofNat ends.distance).toNat = ends.distance := by
    rw [UInt64.toNat_ofNat']
    exact Nat.mod_eq_of_lt (distance_lt h)
  rw [valueCount, ← Ends.distance, UInt64.toNat_add, UInt64.toNat_div, hdistance,
    operands.toNat_stride]
  rfl

/-- Only a range of all integers of 64 bits has more values than a word can count. -/
theorem toNat_valueCount_eq_iff (h : operands.ends? = some ends) :
    (valueCount ends.first ends.last operands.stride).toNat =
        ends.distance / operands.stepSize + 1 ↔
      ¬(ends.distance = 2 ^ 64 - 1 ∧ operands.stepSize = 1) := by
  have hlt := distance_lt h
  rw [toNat_valueCount h]
  constructor
  · rintro hcount ⟨hdistance, hstep⟩
    rw [hdistance, hstep] at hcount
    exact absurd hcount (by decide)
  · intro hnot
    refine Nat.mod_eq_of_lt ?_
    by_cases hstep : operands.stepSize = 1
    · rw [hstep, Nat.div_one]
      omega
    · have htwo : 2 ≤ operands.stepSize := by
        have := operands.stepSize_pos
        omega
      have : ends.distance / operands.stepSize ≤ ends.distance / 2 :=
        Nat.div_le_div_left htwo Nat.two_pos
      omega

/-! ### The values -/

/-- Within the bounds, saturating sums are sums. -/
theorem addSaturating_of_inBounds {a b : Int} (h : InBounds (a + b)) :
    addSaturating a b = a + b := by
  obtain ⟨hlow, hhigh⟩ := h
  unfold addSaturating
  omega

theorem length_progression (shift : Int) (n : Nat) (value : Int) :
    (progression shift n value).length = n := by
  induction n generalizing value with
  | zero => rfl
  | succ n ih => rw [progression, List.length_cons, ih]

/-- As long as a progression stays within the bounds, its values are exact. -/
theorem getElem?_progression {shift value : Int} {n k : Nat} (hk : k < n) (hvalue : InBounds value)
    (hreached : InBounds (value + k * shift)) :
    (progression shift n value)[k]? = some (value + k * shift) := by
  induction k generalizing n value with
  | zero =>
    obtain ⟨m, rfl⟩ := Nat.exists_eq_succ_of_ne_zero (Nat.ne_of_gt hk)
    simp [progression]
  | succ k ih =>
    obtain ⟨m, rfl⟩ := Nat.exists_eq_succ_of_ne_zero (Nat.ne_zero_of_lt hk)
    have hsplit : value + ((k + 1 : Nat) : Int) * shift = value + shift + k * shift := by
      rw [Int.natCast_add, Int.add_mul]
      omega
    rw [hsplit] at hreached ⊢
    -- The next value lies between this one and the one that is reached.
    have hnext : InBounds (value + shift) := by
      obtain ⟨hlow, hhigh⟩ := hvalue
      obtain ⟨hlow', hhigh'⟩ := hreached
      obtain hshift | hshift := Int.le_total 0 shift
      · have := Int.mul_nonneg (Int.natCast_nonneg k) hshift
        exact ⟨by omega, by omega⟩
      · have := Int.mul_nonpos_of_nonneg_of_nonpos (Int.natCast_nonneg k) hshift
        exact ⟨by omega, by omega⟩
    rw [progression, List.getElem?_cons_succ, addSaturating_of_inBounds hnext]
    exact ih (Nat.lt_of_succ_lt_succ hk) hnext hreached

/-- The value that is reached lies between the ends. -/
theorem inBounds_valueAt (h : operands.ends? = some ends) {k : Nat}
    (hk : k ≤ ends.distance / operands.stepSize) :
    InBounds (valueAt ends.first ends.last operands.stepSize k) := by
  obtain ⟨⟨hfirst, hfirst'⟩, hlast, hlast'⟩ := Operands.inBounds_of_ends? h
  have hfits : k * operands.stepSize ≤ ends.distance :=
    (Nat.le_div_iff_mul_le operands.stepSize_pos).mp hk
  rw [Ends.distance] at hfits
  unfold valueAt InBounds
  rw [← Int.natCast_mul]
  split
  · omega
  · omega

/-- If the step is at most the greatest integer, each value is exact that the count reaches. -/
theorem getElem?_values (h : operands.ends? = some ends) (hstep : operands.stepSize < 2 ^ 63)
    {k : Nat} (hk : k ≤ ends.distance / operands.stepSize)
    (hcount : k < (valueCount ends.first ends.last operands.stride).toNat) :
    (values ends.first ends.last operands.stride)[k]? =
      some (valueAt ends.first ends.last operands.stepSize k) := by
  have hreached := inBounds_valueAt h hk
  have hsize : min ((operands.stride.toNat : Int)) maxInt = operands.stepSize := by
    rw [operands.toNat_stride, maxInt]
    omega
  have hshift : valueAt ends.first ends.last operands.stepSize k = ends.first +
      k * (if ends.first ≤ ends.last then (operands.stepSize : Int) else -operands.stepSize) := by
    unfold valueAt
    split
    · rfl
    · rw [Int.mul_neg, Int.sub_eq_add_neg]
  rw [hshift] at hreached ⊢
  unfold values
  rw [hsize]
  exact getElem?_progression hcount (Operands.inBounds_of_ends? h).1 hreached

/-- A step of 2^63 is replaced by a smaller one, which shows in the second value. -/
theorem getElem?_values_ne (h : operands.ends? = some ends) (hstep : operands.stepSize = 2 ^ 63)
    (hdistance : 2 ^ 63 ≤ ends.distance) :
    (values ends.first ends.last operands.stride)[1]? ≠
      some (valueAt ends.first ends.last operands.stepSize 1) := by
  obtain ⟨⟨hfirst, hfirst'⟩, hlast, hlast'⟩ := Operands.inBounds_of_ends? h
  have hlt := distance_lt h
  have hquotient : (ends.distance / operands.stepSize + 1) % 2 ^ 64 = 2 := by
    rw [hstep]
    omega
  have hcount : (valueCount ends.first ends.last operands.stride).toNat = 2 := by
    rw [toNat_valueCount h, hquotient]
  have hsize : min ((operands.stride.toNat : Int)) maxInt = 2 ^ 63 - 1 := by
    rw [operands.toNat_stride, hstep, maxInt]
    decide
  unfold values valueAt
  rw [hcount, hsize, hstep]
  rw [minInt] at hfirst hlast
  rw [maxInt] at hfirst' hlast'
  rw [Ends.distance] at hdistance
  simp only [progression, List.getElem?_cons_succ, List.getElem?_cons_zero, ne_eq,
    Option.some.injEq, addSaturating, minInt, maxInt]
  split
  · omega
  · omega

/-- The count and the values of a range are exact, except for a range of all integers of 64 bits in
steps of one, whose count is cut off, and for a step of 2^63 that fits between the ends, for which a
smaller one is taken. -/
theorem values_exact_iff {texts : List (List Char)} {operands : Operands}
    (haccepted : Operands.ofTexts? texts = some operands) :
    ∃ ends, operands.ends? = some ends ∧
      (IsExact operands ends ↔ ¬(ends.distance = 2 ^ 64 - 1 ∧ operands.stepSize = 1) ∧
        ¬(operands.stepSize = 2 ^ 63 ∧ 2 ^ 63 ≤ ends.distance)) := by
  obtain ⟨ends, hends⟩ := Operands.exists_ends_of_ofTexts? haccepted
  refine ⟨ends, hends, ?_⟩
  constructor
  · rintro ⟨hcount, hvalues⟩
    refine ⟨(toNat_valueCount_eq_iff hends).mp hcount, fun ⟨hstep, hdistance⟩ => ?_⟩
    refine getElem?_values_ne hends hstep hdistance (hvalues 1 ?_)
    rw [hstep]
    omega
  · rintro ⟨hwhole, hgreatest⟩
    have hcount := (toNat_valueCount_eq_iff hends).mpr hwhole
    refine ⟨hcount, fun k hk => ?_⟩
    by_cases hstep : operands.stepSize < 2 ^ 63
    · exact getElem?_values hends hstep hk (by omega)
    · -- A step that does not fit between the ends is never taken.
      have hstep : operands.stepSize = 2 ^ 63 := Nat.le_antisymm operands.stepSize_le (by omega)
      have hnear : ends.distance < 2 ^ 63 := by omega
      rw [hstep, Nat.div_eq_of_lt hnear] at hk hcount
      obtain rfl := Nat.le_zero.mp hk
      unfold values valueAt
      rw [hcount]
      simp [progression]

/-- From the least integer to zero, in steps of the size of the least integer, the values should be
the two ends, but the second value is minus one. -/
theorem values_exact_iff_greatest_step :
    let least : List Char := '-' :: Nat.toDigits 10 (2 ^ 63)
    let operands : Operands := ⟨least, ['0'], some least⟩
    Operands.ofTexts? [least, ['0'], least] = some operands ∧
      ¬IsExact operands (.integers minInt 0) ∧
      valueAt minInt 0 operands.stepSize 1 = 0 ∧
      values minInt 0 operands.stride = [minInt, -1] := by
  intro least operands
  have haccepted : Operands.ofTexts? [least, ['0'], least] = some operands := by decide +kernel
  obtain ⟨ends, hends, hexact⟩ := values_exact_iff haccepted
  obtain rfl : Ends.integers minInt 0 = ends :=
    Option.some.inj (Eq.trans (by decide +kernel) hends)
  have hstep : operands.stepSize = 2 ^ 63 := by decide +kernel
  refine ⟨haccepted, fun h => (hexact.mp h).2 ⟨hstep, by decide⟩, ?_, by decide +kernel⟩
  rw [hstep]
  decide

end PathGlob.Range
