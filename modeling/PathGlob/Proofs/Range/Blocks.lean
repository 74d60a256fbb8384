import Mathlib.Algebra.Group.Nat.Defs
import PathGlob.Range.Compact

/-!
# `PathGlob.Proofs.Range.Blocks`: a range cut into boxes of digits

`blockStops` cuts the numbers from `least` to `greatest` into blocks. This module says which
numbers are stops (`mem_blockStops_iff`) and that every block between two stops is a box
(`IsBox`): its first and its last number agree above one digit, and below that digit the first
number has only zeros and the last one only nines. So the numbers of a block are described
digit by digit.

The argument works on natural numbers. A number that ends in `k` nines is one before a
multiple of `10 ^ k`. Going up from `least`, `ninesFrom` is the first such number; going down
from `greatest`, `ninesUntil` is the last one. If a block were no box at the position where its
ends are round, it would have a rounder number inside, and then one of the two bounds of such
numbers would have been a stop within the block.
-/

set_option autoImplicit false

namespace PathGlob.Range

/-! ### Numbers that end in nines -/

/-- The first number from the given one on that ends in so many nines. -/
def ninesFrom (n digits : Nat) : Nat := n / 10 ^ digits * 10 ^ digits + (10 ^ digits - 1)

/-- The last number up to the given one that ends in so many nines, or zero if there is
none. -/
def ninesUntil (n digits : Nat) : Nat := (n + 1) / 10 ^ digits * 10 ^ digits - 1

section
variable {n m i j : Nat}

theorem pow_ten_pos (digits : Nat) : 0 < 10 ^ digits := Nat.pow_pos (by decide)

theorem ninesFrom_add_one (n digits : Nat) :
    ninesFrom n digits + 1 = (n / 10 ^ digits + 1) * 10 ^ digits := by
  have hpos := pow_ten_pos digits
  rw [ninesFrom, Nat.add_mul, Nat.one_mul]
  omega

theorem dvd_ninesFrom_add_one (n digits : Nat) : 10 ^ digits ∣ ninesFrom n digits + 1 :=
  ⟨n / 10 ^ digits + 1, by rw [ninesFrom_add_one, Nat.mul_comm]⟩

theorem le_ninesFrom (n digits : Nat) : n ≤ ninesFrom n digits := by
  have hlt := Nat.lt_div_mul_add (a := n) (pow_ten_pos digits)
  rw [ninesFrom]
  omega

theorem ninesFrom_le (hdvd : 10 ^ j ∣ m + 1) (hle : n ≤ m) : ninesFrom n j ≤ m := by
  obtain ⟨q, hq⟩ := hdvd
  have hdiv : n / 10 ^ j < q := by
    rw [Nat.div_lt_iff_lt_mul (pow_ten_pos j), Nat.mul_comm]
    omega
  have hmul : (n / 10 ^ j + 1) * 10 ^ j ≤ q * 10 ^ j := Nat.mul_le_mul_right _ hdiv
  have hadd := ninesFrom_add_one n j
  rw [Nat.mul_comm q] at hmul
  omega

theorem ninesFrom_succ_pos (n k : Nat) : 0 < ninesFrom n (k + 1) := by
  have hpos := pow_ten_pos k
  rw [ninesFrom, Nat.pow_succ]
  omega

theorem ninesFrom_mono (h : i ≤ j) (n : Nat) : ninesFrom n i ≤ ninesFrom n j :=
  ninesFrom_le (Nat.dvd_trans (Nat.pow_dvd_pow 10 h) (dvd_ninesFrom_add_one n j)) (le_ninesFrom n j)

theorem ninesUntil_le (n digits : Nat) : ninesUntil n digits ≤ n := by
  have := Nat.div_mul_le_self (n + 1) (10 ^ digits)
  rw [ninesUntil]
  omega

theorem dvd_ninesUntil_add_one (h : 0 < ninesUntil n j) : 10 ^ j ∣ ninesUntil n j + 1 := by
  refine ⟨(n + 1) / 10 ^ j, ?_⟩
  rw [ninesUntil] at h ⊢
  rw [Nat.mul_comm (10 ^ j)]
  omega

theorem le_ninesUntil (hdvd : 10 ^ j ∣ m + 1) (hle : m ≤ n) : m ≤ ninesUntil n j := by
  obtain ⟨q, hq⟩ := hdvd
  have hdiv : q ≤ (n + 1) / 10 ^ j := by
    rw [Nat.le_div_iff_mul_le (pow_ten_pos j), Nat.mul_comm]
    omega
  have hmul : q * 10 ^ j ≤ (n + 1) / 10 ^ j * 10 ^ j := Nat.mul_le_mul_right _ hdiv
  rw [Nat.mul_comm q] at hmul
  rw [ninesUntil]
  omega

theorem ninesUntil_anti (h : i ≤ j) (n : Nat) : ninesUntil n j ≤ ninesUntil n i := by
  cases Nat.eq_zero_or_pos (ninesUntil n j) with
  | inl hzero =>
    rw [hzero]
    exact Nat.zero_le _
  | inr hpos =>
    exact le_ninesUntil (Nat.dvd_trans (Nat.pow_dvd_pow 10 h) (dvd_ninesUntil_add_one hpos))
      (ninesUntil_le n j)

end

/-! ### Boxes -/

/-- The number ends a block of the range. -/
def IsStop (least greatest m : Nat) : Prop :=
  m = greatest ∨ (∃ j, 1 ≤ j ∧ m = ninesFrom least j ∧ m ≤ greatest) ∨
    ∃ j, 1 ≤ j ∧ m = ninesUntil greatest j ∧ least < m

/-- The numbers from `first` to `last` are all those with the given leading digits, with a
digit of an interval in the given position, counted from the end, and with any digits behind
it. -/
structure IsBox (position first last : Nat) : Prop where
  le : first ≤ last
  leading : first / 10 ^ (position + 1) = last / 10 ^ (position + 1)
  zeros : 10 ^ position ∣ first
  nines : 10 ^ position ∣ last + 1
  /-- Zero has no leading digit that could be left out. -/
  single : first = 0 → position = 0

section
variable {least greatest first last m i : Nat}

/-- A stop between the ones of a width going up and going down ends in at least as many
nines. -/
theorem IsStop.dvd_add_one (h : IsStop least greatest m) (hpos : 0 < m)
    (hup : ninesFrom least i ≤ m) (hdown : m ≤ ninesUntil greatest i) : 10 ^ i ∣ m + 1 := by
  obtain rfl | ⟨j, -, rfl, -⟩ | ⟨j, -, rfl, -⟩ := h
  · have heq : m = ninesUntil m i := Nat.le_antisymm hdown (ninesUntil_le m i)
    rw [heq] at hpos ⊢
    exact dvd_ninesUntil_add_one hpos
  · -- Going up, a narrower stop comes before the one of the width or is the same.
    cases Nat.le_total j i with
    | inl hle =>
      rw [Nat.le_antisymm (ninesFrom_mono hle least) hup]
      exact dvd_ninesFrom_add_one least i
    | inr hge => exact Nat.dvd_trans (Nat.pow_dvd_pow 10 hge) (dvd_ninesFrom_add_one least j)
  · cases Nat.le_total j i with
    | inl hle =>
      rw [Nat.le_antisymm hdown (ninesUntil_anti hle greatest)] at hpos ⊢
      exact dvd_ninesUntil_add_one hpos
    | inr hge => exact Nat.dvd_trans (Nat.pow_dvd_pow 10 hge) (dvd_ninesUntil_add_one hpos)

/-- A number that ends in more nines than those around it lies between two stops that end in
as many. -/
theorem dvd_of_rounder {k x : Nat} (hleast : least ≤ first) (hgreatest : last ≤ greatest)
    (hfirst : first = least ∨ ∃ p, IsStop least greatest p ∧ first = p + 1)
    (hlast : IsStop least greatest last)
    (hnone : ∀ m, IsStop least greatest m → first ≤ m → last ≤ m)
    (hx : 10 ^ (k + 1) ∣ x + 1) (hfx : first ≤ x) (hxl : x < last) :
    10 ^ (k + 1) ∣ first ∧ 10 ^ (k + 1) ∣ last + 1 := by
  have hup : ninesFrom least (k + 1) ≤ x := ninesFrom_le hx (by omega)
  have hdown : x ≤ ninesUntil greatest (k + 1) := le_ninesUntil hx (by omega)
  -- The stop below lies before the block and the stop above is its end or lies behind it.
  have hbelow : ninesFrom least (k + 1) < first := by
    have := hnone (ninesFrom least (k + 1)) (.inr (.inl ⟨k + 1, by omega, rfl, by omega⟩))
    omega
  have hle := le_ninesFrom least (k + 1)
  have habove : last ≤ ninesUntil greatest (k + 1) :=
    hnone _ (.inr (.inr ⟨k + 1, by omega, rfl, by omega⟩)) (by omega)
  have hpos := ninesFrom_succ_pos least k
  constructor
  · obtain rfl | ⟨p, hp, rfl⟩ := hfirst
    · omega
    · exact hp.dvd_add_one (by omega) (by omega) (by omega)
  · exact hlast.dvd_add_one (by omega) (by omega) habove

/-- Numbers that do not agree above a digit have a number between them that ends in nines up
to this digit. -/
theorem exists_rounder {k : Nat} (hle : first ≤ last)
    (hne : first / 10 ^ (k + 1) ≠ last / 10 ^ (k + 1)) :
    ∃ x, 10 ^ (k + 1) ∣ x + 1 ∧ first ≤ x ∧ x < last := by
  refine ⟨ninesFrom first (k + 1), dvd_ninesFrom_add_one _ _, le_ninesFrom _ _, ?_⟩
  have hdiv := Nat.div_le_div_right (c := 10 ^ (k + 1)) hle
  have hlt : first / 10 ^ (k + 1) + 1 ≤ last / 10 ^ (k + 1) := by omega
  have hmul := Nat.mul_le_mul_right (10 ^ (k + 1)) hlt
  have hself := Nat.div_mul_le_self last (10 ^ (k + 1))
  have hadd := ninesFrom_add_one first (k + 1)
  omega

/-- Every block between two stops is a box. -/
theorem exists_isBox (hleast : least ≤ first) (hle : first ≤ last) (hgreatest : last ≤ greatest)
    (hfirst : first = least ∨ ∃ p, IsStop least greatest p ∧ first = p + 1)
    (hlast : IsStop least greatest last)
    (hnone : ∀ m, IsStop least greatest m → first ≤ m → last ≤ m) :
    ∃ position, IsBox position first last := by
  cases Nat.eq_zero_or_pos first with
  | inl hzero =>
    -- A block from zero ends with the numbers of one digit.
    have hnine : last ≤ 9 := by
      have hten : IsStop 0 greatest 9 ∨ greatest < 9 := by
        cases Nat.lt_or_ge greatest 9 with
        | inl hlt => exact .inr hlt
        | inr hge => exact .inl (.inr (.inl ⟨1, by omega, rfl, hge⟩))
      obtain rfl : least = 0 := by omega
      cases hten with
      | inl hstop => exact hnone 9 hstop (by omega)
      | inr hlt => omega
    exact ⟨0, hle, by omega, by simp, by simp, fun _ => rfl⟩
  | inr hpos =>
    -- As long as the ends do not agree above a position, they are round at the next one.
    have hclimb (k fuel : Nat) (hfuel : last < 10 ^ (k + fuel)) (hround : 10 ^ k ∣ first)
        (hround' : 10 ^ k ∣ last + 1) : ∃ position, IsBox position first last := by
      induction fuel generalizing k with
      | zero =>
        have := Nat.le_of_dvd hpos hround
        rw [Nat.add_zero] at hfuel
        omega
      | succ fuel ih =>
        by_cases heq : first / 10 ^ (k + 1) = last / 10 ^ (k + 1)
        · exact ⟨k, hle, heq, hround, hround', by omega⟩
        · obtain ⟨x, hx, hfx, hxl⟩ := exists_rounder hle heq
          obtain ⟨h, h'⟩ :=
            dvd_of_rounder hleast hgreatest hfirst hlast hnone hx hfx hxl
          exact ih (k + 1) (by rw [show k + 1 + fuel = k + (fuel + 1) by omega]; exact hfuel) h h'
    exact hclimb 0 (last + 1) (by
      rw [Nat.zero_add]
      exact Nat.lt_trans (Nat.lt_succ_self last) (Nat.lt_pow_self (by decide))) (by simp) (by simp)

end

/-! ### Stops as words -/

section
variable {least greatest n m : UInt64}

/-- A power of ten that fits into a word is that word. -/
theorem powerOfTen?_eq (digits : Nat) :
    (10 ^ digits < 2 ^ 64 ∧ ∃ power, powerOfTen? digits = some power ∧ power.toNat = 10 ^ digits) ∨
      (2 ^ 64 ≤ 10 ^ digits ∧ powerOfTen? digits = none) := by
  have hpow : Nat.pow 10 digits = 10 ^ digits := rfl
  rw [powerOfTen?, hpow]
  cases Nat.lt_or_ge (10 ^ digits) (2 ^ 64) with
  | inl hlt =>
    refine .inl ⟨hlt, _, if_pos hlt, ?_⟩
    rw [UInt64.toNat_ofNat']
    exact Nat.mod_eq_of_lt hlt
  | inr hge => exact .inr ⟨hge, if_neg (Nat.not_lt.mpr hge)⟩

/-- With its last digits replaced by nines a number still fits into a word, if the power of ten that
this takes does. -/
theorem ninesFrom_lt {n digits : Nat} (hn : n ≤ 2 ^ 63) (hdigits : 10 ^ digits < 2 ^ 64) :
    ninesFrom n digits < 2 ^ 64 := by
  have hself := Nat.div_mul_le_self n (10 ^ digits)
  rw [ninesFrom]
  -- Either the number has no further digits or the power is no greater than it.
  cases Nat.lt_or_ge n (10 ^ digits) with
  | inl hsmall =>
    rw [Nat.div_eq_of_lt hsmall]
    omega
  | inr hlarge => omega

/-- Nines are filled in exactly, unless the number does not fit into a word. -/
theorem toNat_fillNines (hn : n.toNat ≤ 2 ^ 63) (digits : Nat) :
    (fillNines n digits).toNat = min (2 ^ 64 - 1) (ninesFrom n.toNat digits) := by
  rw [fillNines]
  have hpos := pow_ten_pos digits
  obtain ⟨hlt, power, hpower, heq⟩ | ⟨hge, hnone⟩ := powerOfTen?_eq digits
  · rw [hpower]
    have hself := Nat.div_mul_le_self n.toNat (10 ^ digits)
    have hfits := ninesFrom_lt hn hlt
    have hone : (1 : UInt64) ≤ power := by
      rw [UInt64.le_iff_toNat_le, heq]
      exact hpos
    have hmul : (n / power * power).toNat = n.toNat / 10 ^ digits * 10 ^ digits := by
      rw [UInt64.toNat_mul, UInt64.toNat_div, heq]
      exact Nat.mod_eq_of_lt (by omega)
    have hsub : (power - 1).toNat = 10 ^ digits - 1 := by
      rw [UInt64.toNat_sub_of_le _ _ hone, heq]
      rfl
    show (n / power * power + (power - 1)).toNat = _
    rw [UInt64.toNat_add, hmul, hsub, ← ninesFrom, Nat.mod_eq_of_lt hfits]
    omega
  · rw [hnone, ninesFrom]
    show maxWord.toNat = _
    have hmax : maxWord.toNat = 2 ^ 64 - 1 := rfl
    omega

/-- Going down from a number, the last one that ends in nines is found exactly. -/
theorem toNat_predSaturating_fillZeros (hn : n.toNat ≤ 2 ^ 63) (digits : Nat) :
    (predSaturating (fillZeros (succSaturating n) digits)).toNat =
      ninesUntil n.toNat digits := by
  have hpred (w : UInt64) : (predSaturating w).toNat = w.toNat - 1 := by
    rw [predSaturating]
    split
    case isTrue h => rw [h]; rfl
    case isFalse h =>
      have hne : w.toNat ≠ 0 := fun hzero => h (UInt64.toNat_inj.mp hzero)
      have hle : (1 : UInt64) ≤ w := by
        rw [UInt64.le_iff_toNat_le]
        exact Nat.one_le_iff_ne_zero.mpr hne
      rw [UInt64.toNat_sub_of_le _ _ hle]
      rfl
  have hsucc : (succSaturating n).toNat = n.toNat + 1 := by
    rw [succSaturating, if_neg]
    · rw [UInt64.toNat_add]
      exact Nat.mod_eq_of_lt (by show n.toNat + 1 < 2 ^ 64; omega)
    · rintro rfl
      exact absurd hn (by decide)
  have hfill : (fillZeros (succSaturating n) digits).toNat =
      (n.toNat + 1) / 10 ^ digits * 10 ^ digits := by
    rw [fillZeros]
    obtain ⟨-, power, hpower, heq⟩ | ⟨hge, hnone⟩ := powerOfTen?_eq digits
    · rw [hpower]
      have hmod : succSaturating n % power ≤ succSaturating n := by
        rw [UInt64.le_iff_toNat_le, UInt64.toNat_mod]
        exact Nat.mod_le _ _
      show (succSaturating n - succSaturating n % power).toNat = _
      rw [UInt64.toNat_sub_of_le _ _ hmod, UInt64.toNat_mod, hsucc, heq]
      have := Nat.div_add_mod' (n.toNat + 1) (10 ^ digits)
      omega
    · rw [hnone, Nat.div_eq_of_lt (by omega), Nat.zero_mul]
      rfl
  rw [hpred, hfill, ninesUntil]

theorem mem_nineStops_iff (hgreatest : greatest.toNat ≤ 2 ^ 63) (hle : least ≤ greatest)
    (fuel digits : Nat) : m ∈ nineStops least greatest fuel digits ↔
      ∃ j, digits ≤ j ∧ j < digits + fuel ∧ m.toNat = ninesFrom least.toNat j ∧ m ≤ greatest := by
  have hleast : least.toNat ≤ greatest.toNat := UInt64.le_iff_toNat_le.mp hle
  induction fuel generalizing digits with
  | zero =>
    rw [nineStops]
    exact ⟨fun h => absurd h List.not_mem_nil, fun ⟨j, _, _, _⟩ => by omega⟩
  | succ fuel ih =>
    have hstop := toNat_fillNines (n := least) (by omega) digits
    have hself := le_ninesFrom least.toNat digits
    have hbelow : least ≤ fillNines least digits := by
      rw [UInt64.le_iff_toNat_le, hstop]
      omega
    rw [nineStops]
    by_cases habove : fillNines least digits ≤ greatest
    · have hfits := UInt64.le_iff_toNat_le.mp habove
      rw [if_pos (by simp [hbelow, habove]), List.mem_cons]
      refine (or_congr Iff.rfl (ih (digits + 1))).trans ⟨?_, ?_⟩
      · rintro (rfl | ⟨j, hj, hfuel, h⟩)
        · exact ⟨digits, by omega, by omega, by omega, habove⟩
        · exact ⟨j, by omega, by omega, h⟩
      · rintro ⟨j, hj, hfuel, heq, h⟩
        cases Nat.eq_or_lt_of_le hj with
        | inl hj =>
          subst hj
          exact .inl (UInt64.toNat_inj.mp (by omega))
        | inr hj => exact .inr ⟨j, by omega, by omega, heq, h⟩
    · -- The stops only grow, so none of the others is in range either.
      rw [if_neg (by simp [habove])]
      refine ⟨fun h => absurd h List.not_mem_nil, fun ⟨j, hj, _, heq, h⟩ => absurd ?_ habove⟩
      have hmono := ninesFrom_mono hj least.toNat
      have hfits := UInt64.le_iff_toNat_le.mp h
      rw [UInt64.le_iff_toNat_le]
      omega

theorem mem_zeroStops_iff (hgreatest : greatest.toNat ≤ 2 ^ 63) (fuel digits : Nat) :
    m ∈ zeroStops least greatest fuel digits ↔
      ∃ j, digits ≤ j ∧ j < digits + fuel ∧ m.toNat = ninesUntil greatest.toNat j ∧ least < m := by
  induction fuel generalizing digits with
  | zero =>
    rw [zeroStops]
    exact ⟨fun h => absurd h List.not_mem_nil, fun ⟨j, _, _, _⟩ => by omega⟩
  | succ fuel ih =>
    have hstop := toNat_predSaturating_fillZeros hgreatest digits
    have hself := ninesUntil_le greatest.toNat digits
    rw [zeroStops]
    generalize predSaturating (fillZeros (succSaturating greatest) digits) = stop at hstop
    have habove : stop ≤ greatest := by
      rw [UInt64.le_iff_toNat_le, hstop]
      exact hself
    by_cases hbelow : least < stop
    · rw [if_pos (by simp [hbelow, habove]), List.mem_cons, ih]
      constructor
      · rintro (rfl | ⟨j, hj, hfuel, h⟩)
        · exact ⟨digits, by omega, by omega, hstop, hbelow⟩
        · exact ⟨j, by omega, by omega, h⟩
      · rintro ⟨j, hj, hfuel, heq, h⟩
        cases Nat.eq_or_lt_of_le hj with
        | inl hj =>
          subst hj
          exact .inl (UInt64.toNat_inj.mp (by omega))
        | inr hj => exact .inr ⟨j, by omega, by omega, heq, h⟩
    · rw [if_neg (by simp [hbelow])]
      refine ⟨fun h => absurd h List.not_mem_nil, fun ⟨j, hj, _, heq, h⟩ => absurd ?_ hbelow⟩
      have hanti := ninesUntil_anti hj greatest.toNat
      have hfits := UInt64.lt_iff_toNat_lt.mp h
      rw [UInt64.lt_iff_toNat_lt]
      omega

theorem mem_eraseReps_loop_iff {w : UInt64} {words kept : List UInt64} :
    m ∈ List.eraseRepsBy.loop (· == ·) w words kept ↔ m ∈ kept ∨ m ∈ w :: words := by
  induction words generalizing w kept with
  | nil => simp [List.eraseRepsBy.loop, or_comm]
  | cons v words ih =>
    rw [List.eraseRepsBy.loop]
    split
    case h_1 heq =>
      rw [ih, ← eq_of_beq heq]
      simp
    case h_2 =>
      rw [ih]
      simp [or_assoc, or_left_comm]

theorem pairwise_eraseReps_loop {w : UInt64} {words kept : List UInt64}
    (hwords : (w :: words).Pairwise (· ≤ ·)) (hkept : kept.reverse.Pairwise (· < ·))
    (hbelow : ∀ v ∈ kept, v < w) :
    (List.eraseRepsBy.loop (· == ·) w words kept).Pairwise (· < ·) := by
  have hsnoc : (w :: kept).reverse.Pairwise (· < ·) := by
    rw [List.reverse_cons, List.pairwise_append]
    refine ⟨hkept, List.pairwise_singleton _ _, fun v hv u hu => ?_⟩
    rw [List.mem_singleton.mp hu]
    exact hbelow v (List.mem_reverse.mp hv)
  induction words generalizing w kept with
  | nil => exact hsnoc
  | cons v words ih =>
    have hle : w ≤ v := List.rel_of_pairwise_cons hwords List.mem_cons_self
    rw [List.eraseRepsBy.loop]
    split
    case h_1 =>
      exact ih (hwords.sublist (List.Sublist.cons_cons w (List.sublist_cons_self v words)))
        hkept hbelow hsnoc
    case h_2 hne =>
      have hlt : w < v := UInt64.lt_of_le_of_ne hle fun heq => by simp [heq] at hne
      have hbelow' : ∀ u ∈ w :: kept, u < v := by
        intro u hu
        cases List.mem_cons.mp hu with
        | inl heq => exact heq ▸ hlt
        | inr hmem => exact UInt64.lt_trans (hbelow u hmem) hlt
      refine ih hwords.of_cons hsnoc hbelow' ?_
      rw [List.reverse_cons, List.pairwise_append]
      refine ⟨hsnoc, List.pairwise_singleton _ _, fun u hu x hx => ?_⟩
      rw [List.mem_singleton.mp hx]
      exact hbelow' u (List.mem_reverse.mp hu)

/-- Leaving out repetitions changes no members. -/
theorem mem_eraseReps_iff {words : List UInt64} : m ∈ words.eraseReps ↔ m ∈ words := by
  cases words with
  | nil => exact Iff.rfl
  | cons w words => exact mem_eraseReps_loop_iff.trans (or_iff_right List.not_mem_nil)

/-- Leaving out repetitions makes an increasing list strictly increasing. -/
theorem pairwise_eraseReps {words : List UInt64} (h : words.Pairwise (· ≤ ·)) :
    words.eraseReps.Pairwise (· < ·) := by
  cases words with
  | nil => exact List.Pairwise.nil
  | cons w words =>
    exact pairwise_eraseReps_loop h List.Pairwise.nil fun v hv => absurd hv List.not_mem_nil

theorem pairwise_blockStops (least greatest : UInt64) :
    (blockStops least greatest).Pairwise (· < ·) := by
  rw [blockStops]
  refine pairwise_eraseReps (List.Pairwise.imp (fun h => of_decide_eq_true h)
    (List.pairwise_mergeSort (fun a b c hab hbc => ?_) (fun a b => ?_) _))
  · exact decide_eq_true (UInt64.le_trans (of_decide_eq_true hab) (of_decide_eq_true hbc))
  · simpa using UInt64.le_total a b

/-- The stops are the greatest number and all numbers that end in nines, of those that are
met going up from one end or down from the other. -/
theorem mem_blockStops_iff (hgreatest : greatest.toNat ≤ 2 ^ 63) (hle : least ≤ greatest) :
    m ∈ blockStops least greatest ↔ IsStop least.toNat greatest.toNat m.toNat := by
  rw [blockStops, mem_eraseReps_iff, List.mem_mergeSort, List.mem_cons, List.mem_append,
    mem_nineStops_iff hgreatest hle, mem_zeroStops_iff hgreatest, IsStop, UInt64.toNat_inj]
  -- No stop needs more digits than a word has.
  have hdigits {j : Nat} (h : 10 ^ j ≤ 2 ^ 63 + 1) : j < 1 + maxDigits := by
    apply Nat.lt_of_not_le
    intro hge
    have hpow := Nat.pow_le_pow_right (n := 10) (by decide) hge
    have hmax : (10 : Nat) ^ (1 + maxDigits) = 1000000000000000000000 := by decide
    omega
  refine or_congr Iff.rfl (or_congr ⟨?_, ?_⟩ ⟨?_, ?_⟩)
  · rintro ⟨j, hj, -, heq, h⟩
    exact ⟨j, hj, heq, UInt64.le_iff_toNat_le.mp h⟩
  · rintro ⟨j, hj, heq, h⟩
    refine ⟨j, hj, hdigits ?_, heq, UInt64.le_iff_toNat_le.mpr h⟩
    have := Nat.le_of_dvd (Nat.succ_pos _) (dvd_ninesFrom_add_one least.toNat j)
    omega
  · rintro ⟨j, hj, -, heq, h⟩
    exact ⟨j, hj, heq, UInt64.lt_iff_toNat_lt.mp h⟩
  · rintro ⟨j, hj, heq, h⟩
    refine ⟨j, hj, hdigits ?_, heq, UInt64.lt_iff_toNat_lt.mpr h⟩
    have := Nat.le_of_dvd (Nat.succ_pos _) (dvd_ninesUntil_add_one (n := greatest.toNat) (j := j)
      (by omega))
    have := ninesUntil_le greatest.toNat j
    omega

end

/-! ### The blocks -/

/-- The first and the last number of each block, given where the blocks begin and where each
of them ends. -/
def blocks (first : UInt64) : List UInt64 → List (UInt64 × UInt64)
  | [] => []
  | stop :: stops => (first, stop) :: blocks (stop + 1) stops

theorem blockSources_eq_map (first : UInt64) (stops : List UInt64) :
    blockSources first stops = (blocks first stops).map fun block =>
      blockSource block.1 block.2 := by
  induction stops generalizing first with
  | nil => rfl
  | cons stop stops ih => rw [blockSources, blocks, ih, List.map_cons]

section
variable {least greatest : UInt64}

theorem toNat_add_one {w : UInt64} (h : w.toNat ≤ 2 ^ 63) : (w + 1).toNat = w.toNat + 1 := by
  rw [UInt64.toNat_add]
  exact Nat.mod_eq_of_lt (by show w.toNat + 1 < 2 ^ 64; omega)

/-- The blocks together hold the numbers from the first one to the last stop. -/
theorem exists_mem_blocks_iff {first : UInt64} {stops : List UInt64}
    (hsorted : stops.Pairwise (· < ·)) (hsize : ∀ w ∈ stops, w.toNat ≤ 2 ^ 63)
    (hfirst : ∀ w ∈ stops, first ≤ w) (n : Nat) :
    (∃ block ∈ blocks first stops, block.1.toNat ≤ n ∧ n ≤ block.2.toNat) ↔
      first.toNat ≤ n ∧ ∃ w ∈ stops, n ≤ w.toNat := by
  induction stops generalizing first with
  | nil => simp [blocks]
  | cons stop stops ih =>
    have hnext := toNat_add_one (hsize stop List.mem_cons_self)
    have hfirst' := UInt64.le_iff_toNat_le.mp (hfirst stop List.mem_cons_self)
    have hrec := @ih (stop + 1) hsorted.of_cons
      (fun w hw => hsize w (List.mem_cons_of_mem _ hw)) fun w hw => by
        have hlt := UInt64.lt_iff_toNat_lt.mp (List.rel_of_pairwise_cons hsorted hw)
        rw [UInt64.le_iff_toNat_le, hnext]
        exact hlt
    rw [hnext] at hrec
    simp only [blocks, List.mem_cons, exists_eq_or_imp, hrec]
    constructor
    · rintro (⟨hge, hle⟩ | ⟨hge, hlater⟩)
      · exact ⟨hge, .inl hle⟩
      · exact ⟨by omega, .inr hlater⟩
    · rintro ⟨hge, hle | hlater⟩
      · exact .inl ⟨hge, hle⟩
      · cases Nat.lt_or_ge stop.toNat n with
        | inl hlt => exact .inr ⟨hlt, hlater⟩
        | inr hle => exact .inl ⟨hge, hle⟩

theorem IsStop.le_greatest {least greatest m : Nat} (h : IsStop least greatest m) :
    m ≤ greatest := by
  obtain rfl | ⟨j, -, -, h⟩ | ⟨j, -, rfl, -⟩ := h
  · exact Nat.le_refl m
  · exact h
  · exact ninesUntil_le greatest j

/-- Among sorted words from a first one on, those behind the head are those above it. -/
theorem mem_tail_iff {p : UInt64 → Prop} {first stop : UInt64} {stops : List UInt64}
    (hsorted : (stop :: stops).Pairwise (· < ·)) (hmem : ∀ w, w ∈ stop :: stops ↔ p w ∧ first ≤ w)
    (w : UInt64) : w ∈ stops ↔ p w ∧ stop < w := by
  constructor
  · intro hw
    exact ⟨((hmem w).mp (List.mem_cons_of_mem _ hw)).1, List.rel_of_pairwise_cons hsorted hw⟩
  · rintro ⟨hw, hlt⟩
    have hle := ((hmem stop).mp List.mem_cons_self).2
    have hge : first ≤ w := UInt64.le_trans hle (UInt64.le_of_lt hlt)
    cases List.mem_cons.mp ((hmem w).mpr ⟨hw, hge⟩) with
    | inl heq => exact absurd (heq ▸ hlt) (UInt64.lt_irrefl _)
    | inr hlater => exact hlater

/-- Every stop is a word, so the head of the sorted words that are the stops from a first word
on comes before all of these stops. -/
theorem head_le_of_isStop {first stop : UInt64} {stops : List UInt64}
    (hgreatest : greatest.toNat ≤ 2 ^ 63) (hsorted : (stop :: stops).Pairwise (· < ·))
    (hmem : ∀ w, w ∈ stop :: stops ↔
      IsStop least.toNat greatest.toNat w.toNat ∧ first ≤ w) {m : Nat}
    (hm : IsStop least.toNat greatest.toNat m) (hge : first.toNat ≤ m) : stop.toNat ≤ m := by
  have hword : (UInt64.ofNat m).toNat = m := by
    rw [UInt64.toNat_ofNat']
    exact Nat.mod_eq_of_lt (Nat.lt_of_le_of_lt (Nat.le_trans hm.le_greatest hgreatest)
      (by decide))
  have hmem' := (hmem (UInt64.ofNat m)).mpr
    ⟨hword.symm ▸ hm, UInt64.le_iff_toNat_le.mpr (hword.symm ▸ hge)⟩
  cases List.mem_cons.mp hmem' with
  | inl heq => exact Nat.le_of_eq (heq ▸ hword)
  | inr hlater =>
    have hlt := UInt64.lt_iff_toNat_lt.mp (List.rel_of_pairwise_cons hsorted hlater)
    omega

/-- From wherever a block begins, the blocks up to the remaining stops are boxes. -/
theorem isBox_of_mem_blocks {first : UInt64} {stops : List UInt64}
    (hgreatest : greatest.toNat ≤ 2 ^ 63) (hsorted : stops.Pairwise (· < ·))
    (hmem : ∀ w, w ∈ stops ↔ IsStop least.toNat greatest.toNat w.toNat ∧ first ≤ w)
    (hleast : least ≤ first) (hfirst : first.toNat = least.toNat ∨
      ∃ p, IsStop least.toNat greatest.toNat p ∧ first.toNat = p + 1) :
    ∀ block ∈ blocks first stops, ∃ position, IsBox position block.1.toNat block.2.toNat := by
  induction stops generalizing first with
  | nil => exact fun block hblock => absurd hblock List.not_mem_nil
  | cons stop stops ih =>
    obtain ⟨hstop, hle⟩ := (hmem stop).mp List.mem_cons_self
    have hnext := toNat_add_one (Nat.le_trans hstop.le_greatest hgreatest)
    rw [UInt64.le_iff_toNat_le] at hleast hle
    intro block hblock
    rw [blocks, List.mem_cons] at hblock
    cases hblock with
    | inl heq =>
      rw [heq]
      exact exists_isBox hleast hle hstop.le_greatest hfirst hstop
        fun m => head_le_of_isStop hgreatest hsorted hmem
    | inr hblock =>
      refine @ih (stop + 1) hsorted.of_cons (fun w => ?_) ?_
        (.inr ⟨stop.toNat, hstop, hnext⟩) block hblock
      · rw [mem_tail_iff hsorted hmem w, UInt64.le_iff_toNat_le, hnext, UInt64.lt_iff_toNat_lt,
          Nat.succ_le_iff]
      · rw [UInt64.le_iff_toNat_le]
        omega

theorem IsStop.least_le {least greatest m : Nat} (h : IsStop least greatest m)
    (hle : least ≤ greatest) : least ≤ m := by
  obtain rfl | ⟨j, -, rfl, -⟩ | ⟨j, -, -, h⟩ := h
  · exact hle
  · exact le_ninesFrom least j
  · exact Nat.le_of_lt h

variable (hgreatest : greatest.toNat ≤ 2 ^ 63) (hle : least ≤ greatest)
include hgreatest hle

/-- A range is cut into boxes. -/
theorem isBox_of_mem_blockStops :
    ∀ block ∈ blocks least (blockStops least greatest),
      ∃ position, IsBox position block.1.toNat block.2.toNat := by
  refine isBox_of_mem_blocks hgreatest (pairwise_blockStops least greatest) (fun w => ?_)
    (UInt64.le_refl least) (.inl rfl)
  rw [mem_blockStops_iff hgreatest hle, iff_self_and]
  intro h
  exact UInt64.le_iff_toNat_le.mpr (h.least_le (UInt64.le_iff_toNat_le.mp hle))

/-- The boxes that a range is cut into hold exactly the numbers of the range. -/
theorem exists_mem_blockStops_iff (n : Nat) :
    (∃ block ∈ blocks least (blockStops least greatest),
      block.1.toNat ≤ n ∧ n ≤ block.2.toNat) ↔ least.toNat ≤ n ∧ n ≤ greatest.toNat := by
  have hstop {w : UInt64} (hw : w ∈ blockStops least greatest) :=
    (mem_blockStops_iff hgreatest hle).mp hw
  rw [exists_mem_blocks_iff (pairwise_blockStops least greatest)
    (fun w hw => Nat.le_trans (hstop hw).le_greatest hgreatest) fun w hw =>
      UInt64.le_iff_toNat_le.mpr ((hstop hw).least_le (UInt64.le_iff_toNat_le.mp hle))]
  refine and_congr_right fun _ => ⟨?_, fun h => ?_⟩
  · rintro ⟨w, hw, hn⟩
    exact Nat.le_trans hn (hstop hw).le_greatest
  · exact ⟨greatest, (mem_blockStops_iff hgreatest hle).mpr (.inl rfl), h⟩

end

end PathGlob.Range
