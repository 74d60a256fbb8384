import PathGlob.Proofs.Range.Blocks

/-!
# `PathGlob.Proofs.Range.Numerals`: the numerals of a box

The numeral of a number is cut at a position: the digits before it, the digit there, and the
digits behind it (`toDigits_eq_leadDigits_append`). In a box the first part is fixed, the digit
runs over an interval and the rest is free, so the numerals of a box are a product of three
sets (`exists_numeral_iff`). The numerals of its two ends are what the source of the box is
computed from.
-/

set_option autoImplicit false

namespace PathGlob.Range

/-- The digits of a number that has any; zero has none. -/
def leadDigits (n : Nat) : List Char := if n = 0 then [] else Nat.toDigits 10 n

/-- The last digits of a number, so many of them. -/
def lowDigits : Nat → Nat → List Char
  | 0, _ => []
  | k + 1, n => Nat.digitChar (n / 10 ^ k % 10) :: lowDigits k n

section
variable {n m : Nat}

theorem leadDigits_of_pos (h : 0 < n) : leadDigits n = Nat.toDigits 10 n := if_neg (by omega)

/-- The last digit of a number stands behind the others. -/
theorem leadDigits_div_ten_append (n : Nat) :
    leadDigits (n / 10) ++ [Nat.digitChar (n % 10)] = Nat.toDigits 10 n := by
  cases Nat.lt_or_ge n 10 with
  | inl hlt =>
    rw [Nat.toDigits_of_lt_base hlt, Nat.div_eq_of_lt hlt, Nat.mod_eq_of_lt hlt]
    rfl
  | inr hge => rw [Nat.toDigits_of_base_le (by decide) hge, leadDigits_of_pos (by omega)]

/-- A numeral is cut at a position that the number reaches. -/
theorem toDigits_eq_leadDigits_append {k : Nat} (h : k = 0 ∨ 10 ^ k ≤ n) :
    Nat.toDigits 10 n =
      leadDigits (n / 10 ^ (k + 1)) ++ Nat.digitChar (n / 10 ^ k % 10) :: lowDigits k n := by
  induction k with
  | zero => rw [← leadDigits_div_ten_append n, Nat.zero_add, Nat.pow_one, Nat.pow_zero,
      Nat.div_one, lowDigits]
  | succ k ih =>
    have hreach : 10 ^ (k + 1) ≤ n := h.resolve_left (Nat.succ_ne_zero k)
    have hpos : 0 < n / 10 ^ (k + 1) := Nat.div_pos hreach (pow_ten_pos _)
    have hlower : 10 ^ k ≤ n := Nat.le_trans (Nat.pow_le_pow_right (by decide) (Nat.le_succ k)) hreach
    -- The digits up to the position lose their last one.
    rw [ih (.inr hlower), leadDigits_of_pos hpos, ← leadDigits_div_ten_append, Nat.div_div_eq_div_mul,
      ← Nat.pow_succ, lowDigits, List.append_assoc]
    rfl

theorem length_lowDigits (k n : Nat) : (lowDigits k n).length = k := by
  induction k with
  | zero => rfl
  | succ k ih => rw [lowDigits, List.length_cons, ih]

theorem isDigit_of_mem_lowDigits {k : Nat} {c : Char} (h : c ∈ lowDigits k n) :
    c.isDigit = true := by
  induction k with
  | zero => exact absurd h List.not_mem_nil
  | succ k ih =>
    rw [lowDigits, List.mem_cons] at h
    cases h with
    | inl heq =>
      rw [heq, Nat.isDigit_digitChar]
      exact decide_eq_true (Nat.mod_lt _ (by decide))
    | inr hmem => exact ih hmem

theorem lowDigits_of_dvd {k : Nat} (h : 10 ^ k ∣ n) : lowDigits k n = List.replicate k '0' := by
  induction k with
  | zero => rfl
  | succ k ih =>
    obtain ⟨q, rfl⟩ := h
    have hdigit : 10 ^ (k + 1) * q / 10 ^ k % 10 = 0 := by
      rw [Nat.pow_succ, Nat.mul_assoc, Nat.mul_div_cancel_left _ (pow_ten_pos k),
        Nat.mul_mod_right]
    rw [lowDigits, hdigit, ih ⟨10 * q, by rw [Nat.pow_succ, Nat.mul_assoc]⟩]
    rfl

/-- The number before a multiple has the quotient before. -/
theorem div_of_add_one_eq_mul {p q : Nat} (h : n + 1 = q * p) : n / p = q - 1 := by
  have hq : 0 < q := by
    apply Nat.pos_of_ne_zero
    rintro rfl
    omega
  have hp : 0 < p := by
    apply Nat.pos_of_ne_zero
    rintro rfl
    omega
  refine Nat.div_eq_of_lt_le ?_ ?_
  · rw [Nat.sub_mul]
    omega
  · rw [show q - 1 + 1 = q by omega]
    omega

theorem lowDigits_of_dvd_add_one {k : Nat} (h : 10 ^ k ∣ n + 1) :
    lowDigits k n = List.replicate k '9' := by
  induction k with
  | zero => rfl
  | succ k ih =>
    obtain ⟨q, hq⟩ := h
    have hq' : n + 1 = 10 * q * 10 ^ k := by
      rw [hq, Nat.pow_succ, Nat.mul_comm (10 ^ k), Nat.mul_right_comm]
    have hdigit : n / 10 ^ k % 10 = 9 := by
      have hpos : 0 < q := by
        apply Nat.pos_of_ne_zero
        rintro rfl
        omega
      rw [div_of_add_one_eq_mul hq']
      omega
    rw [lowDigits, hdigit, ih ⟨10 * q, by rw [hq', Nat.mul_comm]⟩]
    rfl

/-- Only the remainder matters for the last digits. -/
theorem lowDigits_mul_add {k j : Nat} (h : k ≤ j) (q v : Nat) :
    lowDigits k (q * 10 ^ j + v) = lowDigits k v := by
  induction k with
  | zero => rfl
  | succ k ih =>
    have hpow : 10 ^ j = 10 ^ k * (10 * 10 ^ (j - (k + 1))) := by
      rw [← Nat.mul_assoc, ← Nat.pow_succ, ← Nat.pow_add]
      congr 1
      omega
    have hdigit : (q * 10 ^ j + v) / 10 ^ k % 10 = v / 10 ^ k % 10 := by
      have hmul : q * 10 ^ j = 10 ^ k * (10 * (q * 10 ^ (j - (k + 1)))) := by
        rw [hpow]
        simp only [Nat.mul_left_comm]
      rw [hmul, Nat.mul_add_div (pow_ten_pos k), Nat.mul_add_mod]
    rw [lowDigits, lowDigits, hdigit, ih (by omega)]

/-- A decimal digit is that of its value. -/
theorem exists_digitChar_eq {c : Char} (h : c.isDigit = true) :
    ∃ d, d < 10 ∧ Nat.digitChar d = c := by
  rw [Char.isDigit, Bool.and_eq_true, decide_eq_true_eq, decide_eq_true_eq, ge_iff_le,
    UInt32.le_iff_toNat_le, UInt32.le_iff_toNat_le] at h
  have hlow : 48 ≤ c.toNat := h.1
  have hhigh : c.toNat ≤ 57 := h.2
  refine ⟨c.toNat - 48, by omega, Char.toNat_inj.mp ?_⟩
  rw [Nat.toNat_digitChar_of_lt_ten (by omega)]
  omega

/-- Any digits are the last digits of some number that has no more. -/
theorem exists_lowDigits_eq {w : List Char} (h : ∀ c ∈ w, c.isDigit = true) :
    ∃ v, v < 10 ^ w.length ∧ lowDigits w.length v = w := by
  induction w with
  | nil => exact ⟨0, by decide, rfl⟩
  | cons c w ih =>
    obtain ⟨v, hv, hw⟩ := ih fun x hx => h x (List.mem_cons_of_mem _ hx)
    obtain ⟨d, hd, rfl⟩ := exists_digitChar_eq (h c List.mem_cons_self)
    have hdiv : (d * 10 ^ w.length + v) / 10 ^ w.length = d :=
      Nat.div_eq_of_lt_le (by omega) (by rw [Nat.succ_mul]; omega)
    refine ⟨d * 10 ^ w.length + v, ?_, ?_⟩
    · rw [List.length_cons, Nat.pow_succ]
      have := Nat.mul_le_mul_right (10 ^ w.length) (Nat.le_of_lt_succ hd)
      omega
    · rw [List.length_cons, lowDigits, hdiv, Nat.mod_eq_of_lt hd,
        lowDigits_mul_add (Nat.le_refl _), hw]

end

/-! ### Boxes -/

section
variable {k first last : Nat} (h : IsBox k first last)
include h

/-- Every number of a box reaches the position of the box. -/
theorem IsBox.reaches {n : Nat} (hn : first ≤ n) : k = 0 ∨ 10 ^ k ≤ n := by
  cases Nat.eq_zero_or_pos first with
  | inl hzero => exact .inl (h.single hzero)
  | inr hpos => exact .inr (Nat.le_trans (Nat.le_of_dvd hpos h.zeros) hn)

/-- The numeral of the first number of a box ends in zeros. -/
theorem IsBox.toDigits_first : Nat.toDigits 10 first =
    leadDigits (first / 10 ^ (k + 1)) ++
      Nat.digitChar (first / 10 ^ k % 10) :: List.replicate k '0' := by
  rw [← lowDigits_of_dvd h.zeros]
  exact toDigits_eq_leadDigits_append (h.reaches (Nat.le_refl _))

/-- The numeral of the last number of a box ends in nines, and begins like that of the first one. -/
theorem IsBox.toDigits_last : Nat.toDigits 10 last =
    leadDigits (first / 10 ^ (k + 1)) ++
      Nat.digitChar (last / 10 ^ k % 10) :: List.replicate k '9' := by
  rw [← lowDigits_of_dvd_add_one h.nines, h.leading]
  exact toDigits_eq_leadDigits_append (h.reaches h.le)

/-- At the position of a box, the digit of its first number comes before that of its last one. -/
theorem IsBox.digit_le : first / 10 ^ k % 10 ≤ last / 10 ^ k % 10 := by
  have hpow (n : Nat) : n / 10 ^ (k + 1) = n / 10 ^ k / 10 := by
    rw [Nat.div_div_eq_div_mul, ← Nat.pow_succ]
  have hleading := h.leading
  rw [hpow, hpow] at hleading
  have := Nat.div_le_div_right (c := 10 ^ k) h.le
  omega

/-- The numerals of a box have its leading digits, a digit of its interval, and any digits
behind it. -/
theorem IsBox.exists_numeral_iff (text : List Char) :
    (∃ n, (first ≤ n ∧ n ≤ last) ∧ text = Nat.toDigits 10 n) ↔
      ∃ d w, (first / 10 ^ k % 10 ≤ d ∧ d ≤ last / 10 ^ k % 10) ∧
        (w.length = k ∧ ∀ c ∈ w, c.isDigit = true) ∧
        text = leadDigits (first / 10 ^ (k + 1)) ++ Nat.digitChar d :: w := by
  obtain ⟨p, hp⟩ := h.zeros
  obtain ⟨q, hq⟩ := h.nines
  have hpos := pow_ten_pos k
  have hqpos : 0 < q := by
    apply Nat.pos_of_ne_zero
    rintro rfl
    omega
  have hfirst : first / 10 ^ k = p := by rw [hp, Nat.mul_div_cancel_left _ hpos]
  have hlast : last / 10 ^ k = q - 1 := div_of_add_one_eq_mul (by rw [hq, Nat.mul_comm])
  have hpow (n : Nat) : n / 10 ^ (k + 1) = n / 10 ^ k / 10 := by
    rw [Nat.div_div_eq_div_mul, ← Nat.pow_succ]
  have hleading : p / 10 = (q - 1) / 10 := by
    rw [← hfirst, ← hlast, ← hpow, ← hpow]
    exact h.leading
  rw [hpow, hfirst, hlast]
  constructor
  · rintro ⟨n, ⟨hn, hn'⟩, rfl⟩
    have hge := Nat.div_le_div_right (c := 10 ^ k) hn
    have hle := Nat.div_le_div_right (c := 10 ^ k) hn'
    rw [hfirst] at hge
    rw [hlast] at hle
    refine ⟨n / 10 ^ k % 10, lowDigits k n, ⟨by omega, by omega⟩,
      ⟨length_lowDigits k n, fun c hc => isDigit_of_mem_lowDigits hc⟩, ?_⟩
    rw [toDigits_eq_leadDigits_append (h.reaches hn), hpow]
    rw [show n / 10 ^ k / 10 = p / 10 by omega]
  · rintro ⟨d, w, ⟨hd, hd'⟩, ⟨rfl, hw⟩, rfl⟩
    obtain ⟨v, hv, hlow⟩ := exists_lowDigits_eq hw
    -- The number that is put together from the three parts.
    obtain ⟨m, hm⟩ : ∃ m, m = p / 10 * 10 + d := ⟨_, rfl⟩
    have hdiv : (m * 10 ^ w.length + v) / 10 ^ w.length = m :=
      Nat.div_eq_of_lt_le (by omega) (by rw [Nat.succ_mul]; omega)
    have hfirst' : first ≤ m * 10 ^ w.length + v := by
      have := Nat.mul_le_mul_right (10 ^ w.length) (show p ≤ m by omega)
      rw [Nat.mul_comm] at hp
      omega
    have hlast' : m * 10 ^ w.length + v ≤ last := by
      have := Nat.mul_le_mul_right (10 ^ w.length) (show m + 1 ≤ q by omega)
      rw [Nat.succ_mul] at this
      rw [Nat.mul_comm] at hq
      omega
    refine ⟨_, ⟨hfirst', hlast'⟩, ?_⟩
    rw [toDigits_eq_leadDigits_append (h.reaches hfirst'), hpow, hdiv,
      lowDigits_mul_add (Nat.le_refl _), hlow]
    rw [show m / 10 = p / 10 by omega, show m % 10 = d by omega]

end

end PathGlob.Range
