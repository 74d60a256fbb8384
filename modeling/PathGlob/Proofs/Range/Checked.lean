import PathGlob.Proofs.Range.Blocks

/-!
# `PathGlob.Proofs.Range.Checked`: cutting a range with checked words

The words of `Range.compactWords` wrap around, and its two loops are cut off after `maxDigits`
rounds. `compactWords?` is the same computation with words that are checked: it fails where a sum,
a difference or a product is no word, and where a divisor is zero. As long as the greatest number
is at most 2^63 it never does (`compactWords?_eq_some`).

Nor are the loops cut off. Each one adds a stop for every number of digits from one on, as long as
the stop is in range, and with 19 digits neither of them is (`nineStops_eq_of_lt`,
`zeroStops_eq_of_lt`). So 18 rounds are enough, and more rounds than these make no difference.
-/

set_option autoImplicit false

namespace PathGlob.Range

/-! ### Checked words -/

/-- The sum, if it is a word. -/
def add? (a b : UInt64) : Option UInt64 :=
  if a.toNat + b.toNat < UInt64.size then some (a + b) else none

/-- The difference, if it is a word. -/
def sub? (a b : UInt64) : Option UInt64 :=
  if b.toNat ≤ a.toNat then some (a - b) else none

/-- The product, if it is a word. -/
def mul? (a b : UInt64) : Option UInt64 :=
  if a.toNat * b.toNat < UInt64.size then some (a * b) else none

/-- The quotient, if there is one. -/
def div? (a b : UInt64) : Option UInt64 := if b.toNat = 0 then none else some (a / b)

/-- The remainder, if there is one. -/
def mod? (a b : UInt64) : Option UInt64 := if b.toNat = 0 then none else some (a % b)

/-- The number with its last digits replaced by nines, computed with checked words. -/
def fillNines? (n : UInt64) (digits : Nat) : Option UInt64 :=
  match powerOfTen? digits with
  | some power => do
    let quotient ← div? n power
    let leading ← mul? quotient power
    let nines ← sub? power 1
    add? leading nines
  | none => some maxWord

/-- The number with its last digits replaced by zeros, computed with checked words. -/
def fillZeros? (n : UInt64) (digits : Nat) : Option UInt64 :=
  match powerOfTen? digits with
  | some power => do
    let last ← mod? n power
    sub? n last
  | none => some 0

/-- The ends of blocks that end in nines, computed with checked words. -/
def nineStops? (least greatest : UInt64) : Nat → Nat → Option (List UInt64)
  | 0, _ => some []
  | n + 1, nines => do
    let stop ← fillNines? least nines
    if least ≤ stop && stop ≤ greatest then
      let stops ← nineStops? least greatest n (nines + 1)
      return stop :: stops
    else return []

/-- The ends of blocks before numbers that end in zeros, computed with checked words. The next
number after the greatest one is a word, too. -/
def zeroStops? (least greatest : UInt64) : Nat → Nat → Option (List UInt64)
  | 0, _ => some []
  | n + 1, zeros => do
    let next ← add? greatest 1
    let round ← fillZeros? next zeros
    let stop := predSaturating round
    if least < stop && stop ≤ greatest then
      let stops ← zeroStops? least greatest n (zeros + 1)
      return stop :: stops
    else return []

/-- The ends of all blocks, computed with checked words. -/
def blockStops? (least greatest : UInt64) : Option (List UInt64) := do
  let up ← nineStops? least greatest maxDigits 1
  let down ← zeroStops? least greatest maxDigits 1
  return ((greatest :: (up ++ down)).mergeSort (· ≤ ·)).eraseReps

/-- The sources of the blocks that end at the given stops, with checked words for the beginnings of
the blocks. -/
def blockSources? (first : UInt64) : List UInt64 → Option (List (List Char))
  | [] => some []
  | stop :: stops => do
    let next ← add? stop 1
    let sources ← blockSources? next stops
    return blockSource first stop :: sources

/-- The source of a range of words, computed with checked words. -/
def compactWords? (least greatest : UInt64) : Option (List Char) := do
  let stops ← blockStops? least greatest
  let sources ← blockSources? least stops
  return ['|'].intercalate sources

section
variable {a b least greatest n : UInt64}

/-! ### No operation leaves the words -/

theorem add?_eq_some (h : a.toNat + b.toNat < 2 ^ 64) : add? a b = some (a + b) := if_pos h

theorem sub?_eq_some (h : b.toNat ≤ a.toNat) : sub? a b = some (a - b) := if_pos h

theorem mul?_eq_some (h : a.toNat * b.toNat < 2 ^ 64) : mul? a b = some (a * b) := if_pos h

theorem div?_eq_some (h : 0 < b.toNat) : div? a b = some (a / b) := if_neg (by omega)

theorem mod?_eq_some (h : 0 < b.toNat) : mod? a b = some (a % b) := if_neg (by omega)

theorem fillNines?_eq_some (hn : n.toNat ≤ 2 ^ 63) (digits : Nat) :
    fillNines? n digits = some (fillNines n digits) := by
  rw [fillNines?, fillNines]
  obtain ⟨hlt, power, hpower, heq⟩ | ⟨-, hnone⟩ := powerOfTen?_eq digits
  case inr => rw [hnone]
  case inl =>
    have hpos : 0 < power.toNat := heq ▸ pow_ten_pos digits
    have hself := Nat.div_mul_le_self n.toNat power.toNat
    have hone : (1 : UInt64).toNat ≤ power.toNat := hpos
    have hquotient : (n / power).toNat * power.toNat < 2 ^ 64 := by
      rw [UInt64.toNat_div]
      omega
    have hsum : (n / power * power).toNat + (power - 1).toNat < 2 ^ 64 := by
      have hfits := ninesFrom_lt hn hlt
      rw [UInt64.toNat_mul, Nat.mod_eq_of_lt hquotient, UInt64.toNat_div,
        UInt64.toNat_sub_of_le _ _ (UInt64.le_iff_toNat_le.mpr hone), heq]
      exact hfits
    rw [hpower]
    simp only [div?_eq_some hpos, mul?_eq_some hquotient, sub?_eq_some hone, add?_eq_some hsum,
      Option.bind_eq_bind, Option.bind_some]

theorem fillZeros?_eq_some (n : UInt64) (digits : Nat) :
    fillZeros? n digits = some (fillZeros n digits) := by
  rw [fillZeros?, fillZeros]
  obtain ⟨-, power, hpower, heq⟩ | ⟨-, hnone⟩ := powerOfTen?_eq digits
  case inr => rw [hnone]
  case inl =>
    have hpos : 0 < power.toNat := heq ▸ pow_ten_pos digits
    have hle : (n % power).toNat ≤ n.toNat := by
      rw [UInt64.toNat_mod]
      exact Nat.mod_le _ _
    rw [hpower]
    simp only [mod?_eq_some hpos, sub?_eq_some hle, Option.bind_eq_bind, Option.bind_some]

/-- The next word is reached without wrapping around. -/
theorem add?_one (hn : n.toNat ≤ 2 ^ 63) : add? n 1 = some (n + 1) :=
  add?_eq_some (by show n.toNat + 1 < 2 ^ 64; omega)

theorem succSaturating_eq (hn : n.toNat ≤ 2 ^ 63) : succSaturating n = n + 1 := by
  rw [succSaturating, if_neg]
  rintro rfl
  exact absurd hn (by decide)

theorem nineStops?_eq_some (hleast : least.toNat ≤ 2 ^ 63) (steps nines : Nat) :
    nineStops? least greatest steps nines = some (nineStops least greatest steps nines) := by
  induction steps generalizing nines with
  | zero => rfl
  | succ steps ih =>
    simp only [nineStops?, nineStops, fillNines?_eq_some hleast, ih]
    exact (apply_ite some _ _ _).symm

theorem zeroStops?_eq_some (hgreatest : greatest.toNat ≤ 2 ^ 63) (steps zeros : Nat) :
    zeroStops? least greatest steps zeros = some (zeroStops least greatest steps zeros) := by
  induction steps generalizing zeros with
  | zero => rfl
  | succ steps ih =>
    simp only [zeroStops?, zeroStops, add?_one hgreatest, succSaturating_eq hgreatest,
      fillZeros?_eq_some, ih]
    exact (apply_ite some _ _ _).symm

theorem blockSources?_eq_some {stops : List UInt64} (hstops : ∀ stop ∈ stops, stop.toNat ≤ 2 ^ 63)
    (first : UInt64) : blockSources? first stops = some (blockSources first stops) := by
  induction stops generalizing first with
  | nil => rfl
  | cons stop stops ih =>
    obtain ⟨hstop, hstops⟩ := List.forall_mem_cons.mp hstops
    simp only [blockSources?, blockSources, add?_one hstop, ih hstops]
    rfl

/-- As long as the greatest number is at most 2^63, no operation on the way to the source of a range
leaves the words. -/
theorem compactWords?_eq_some (hgreatest : greatest.toNat ≤ 2 ^ 63) (hle : least ≤ greatest) :
    compactWords? least greatest = some (compactWords least greatest) := by
  have hleast : least.toNat ≤ 2 ^ 63 :=
    Nat.le_trans (UInt64.le_iff_toNat_le.mp hle) hgreatest
  have hstops : blockStops? least greatest = some (blockStops least greatest) := by
    rw [blockStops?, nineStops?_eq_some hleast, zeroStops?_eq_some hgreatest]
    rfl
  have hsources : blockSources? least (blockStops least greatest) =
      some (blockSources least (blockStops least greatest)) :=
    blockSources?_eq_some (fun stop hstop => Nat.le_trans
      ((mem_blockStops_iff hgreatest hle).mp hstop).le_greatest hgreatest) least
  rw [compactWords?, hstops, Option.bind_eq_bind, Option.bind_some, hsources]
  rfl

/-! ### The loops end by themselves -/

/-- A run along the numbers of digits ends before the one at which the test fails, if it may be so
long. -/
theorem takeWhile_range' {f : Nat → UInt64} {test : UInt64 → Bool} {first enough steps : Nat}
    (hsteps : enough < steps) (htest : test (f (first + enough)) = false) :
    ((List.range' first steps).map f).takeWhile test =
      ((List.range' first enough).map f).takeWhile test := by
  obtain ⟨more, rfl⟩ := Nat.exists_eq_add_of_lt hsteps
  have hsplit : List.range' first (enough + more + 1) =
      List.range' first enough ++ (first + enough) :: List.range' (first + enough + 1) more := by
    rw [Nat.add_assoc, ← List.range'_append_1, List.range'_succ]
  rw [hsplit, List.map_append, List.takeWhile_append, List.map_cons,
    List.takeWhile_cons_of_neg (by simp [htest]), List.append_nil]
  split
  case isTrue hall => exact ((List.takeWhile_prefix _).eq_of_length hall).symm
  case isFalse => rfl

theorem nineStops_eq_takeWhile (steps nines : Nat) :
    nineStops least greatest steps nines =
      ((List.range' nines steps).map (fillNines least)).takeWhile
        fun stop => least ≤ stop && stop ≤ greatest := by
  induction steps generalizing nines with
  | zero => rfl
  | succ steps ih => rw [nineStops, ih, List.range'_succ, List.map_cons, List.takeWhile_cons]

theorem zeroStops_eq_takeWhile (steps zeros : Nat) :
    zeroStops least greatest steps zeros = ((List.range' zeros steps).map fun zeros =>
      predSaturating (fillZeros (succSaturating greatest) zeros)).takeWhile
        fun stop => least < stop && stop ≤ greatest := by
  induction steps generalizing zeros with
  | zero => rfl
  | succ steps ih => rw [zeroStops, ih, List.range'_succ, List.map_cons, List.takeWhile_cons]

/-- A number that ends in 19 nines is greater than 2^63, so the loop going up ends before. -/
theorem nineStops_eq_of_lt (hleast : least.toNat ≤ 2 ^ 63) (hgreatest : greatest.toNat ≤ 2 ^ 63)
    {steps : Nat} (hsteps : 18 < steps) :
    nineStops least greatest steps 1 = nineStops least greatest 18 1 := by
  have hstop := toNat_fillNines hleast 19
  have hnines : 10 ^ 19 - 1 ≤ ninesFrom least.toNat 19 := Nat.le_add_left _ _
  have habove : ¬fillNines least 19 ≤ greatest := by
    rw [UInt64.le_iff_toNat_le]
    omega
  rw [nineStops_eq_takeWhile, nineStops_eq_takeWhile]
  exact takeWhile_range' hsteps (by simp [habove])

/-- Below 2^63 no number but zero is left of one with its last 19 digits replaced by zeros, so the
loop going down ends before. -/
theorem zeroStops_eq_of_lt (hgreatest : greatest.toNat ≤ 2 ^ 63) {steps : Nat}
    (hsteps : 18 < steps) : zeroStops least greatest steps 1 = zeroStops least greatest 18 1 := by
  have hstop := toNat_predSaturating_fillZeros hgreatest 19
  rw [ninesUntil, Nat.div_eq_of_lt (by omega)] at hstop
  have hbelow : ¬least < predSaturating (fillZeros (succSaturating greatest) 19) := by
    rw [UInt64.lt_iff_toNat_lt]
    omega
  rw [zeroStops_eq_takeWhile, zeroStops_eq_takeWhile]
  exact takeWhile_range' hsteps (by simp [hbelow])

theorem length_nineStops_le (steps nines : Nat) :
    (nineStops least greatest steps nines).length ≤ steps := by
  rw [nineStops_eq_takeWhile]
  exact Nat.le_trans (List.takeWhile_prefix _).length_le (by simp)

theorem length_zeroStops_le (steps zeros : Nat) :
    (zeroStops least greatest steps zeros).length ≤ steps := by
  rw [zeroStops_eq_takeWhile]
  exact Nat.le_trans (List.takeWhile_prefix _).length_le (by simp)

end

end PathGlob.Range
