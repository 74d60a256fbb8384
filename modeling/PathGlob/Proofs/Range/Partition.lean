import PathGlob.Proofs.Range.Checked
import PathGlob.Proofs.Range.Compact

/-!
# `PathGlob.Proofs.Range.Partition`: the blocks of a range, digit by digit

`compactWords_partitions` collects what cutting a range into blocks comes to. It takes no operation
that leaves the words, and no round of a loop that is cut off. The stops grow from the first number
of the range to the last one. And the two numerals that a block begins and ends with have the same
length and agree up to a position, behind which there are only zeros and only nines (`Boxed`), so
the source that is computed from the two matches the numerals of the block and nothing else.
-/

set_option autoImplicit false

namespace PathGlob.Range

open Regex

/-- Two numerals of the same length. The digits before a position agree, the digit there does not
fall, and behind it the first numeral has only zeros and the last one only nines. -/
structure Boxed (position : Nat) (first last : List Char) : Prop where
  length_eq : first.length = last.length
  lt_length : position < first.length
  before : ∀ i < position, first[i]? = last[i]?
  digit : ∃ a b, first[position]? = some a ∧ last[position]? = some b ∧ a ≤ b
  behind : ∀ i, position < i → i < first.length → first[i]? = some '0' ∧ last[i]? = some '9'

/-- The words grow and lie within the bounds, and the last one is the upper bound. -/
structure CutsUpTo (least greatest : UInt64) (stops : List UInt64) : Prop where
  increasing : stops.Pairwise (· < ·)
  least_le : ∀ stop ∈ stops, least ≤ stop
  getLast?_eq : stops.getLast? = some greatest

/-- Both loops that look for stops make fewer rounds than they are allowed to, and would not go on
if they were allowed more. -/
structure LoopsEnd (least greatest : UInt64) : Prop where
  length_nineStops : (nineStops least greatest maxDigits 1).length < maxDigits
  length_zeroStops : (zeroStops least greatest maxDigits 1).length < maxDigits
  nineStops_eq : ∀ steps, maxDigits ≤ steps →
    nineStops least greatest steps 1 = nineStops least greatest maxDigits 1
  zeroStops_eq : ∀ steps, maxDigits ≤ steps →
    zeroStops least greatest steps 1 = zeroStops least greatest maxDigits 1

theorem boxed_append {a b : Char} (hab : a ≤ b) (before : List Char) (k : Nat) :
    Boxed before.length (before ++ a :: List.replicate k '0')
      (before ++ b :: List.replicate k '9') where
  length_eq := by simp
  lt_length := by simp
  before := by
    intro i hi
    rw [List.getElem?_append_left hi, List.getElem?_append_left hi]
  digit := ⟨a, b, by simp, by simp, hab⟩
  behind := by
    intro i hi hlength
    obtain ⟨j, rfl⟩ := Nat.exists_eq_add_of_lt hi
    rw [List.length_append, List.length_cons, List.length_replicate] at hlength
    have hindex : before.length + j + 1 - before.length = j + 1 := by omega
    rw [List.getElem?_append_right (by omega), List.getElem?_append_right (by omega), hindex,
      List.getElem?_cons_succ, List.getElem?_cons_succ, List.getElem?_replicate_of_lt (by omega),
      List.getElem?_replicate_of_lt (by omega)]
    exact ⟨rfl, rfl⟩

/-- The numerals of the first and the last number of a box. -/
theorem IsBox.exists_boxed {k first last : Nat} (h : IsBox k first last) :
    ∃ position, Boxed position (Nat.toDigits 10 first) (Nat.toDigits 10 last) := by
  have hdigit : Nat.digitChar (first / 10 ^ k % 10) ≤ Nat.digitChar (last / 10 ^ k % 10) :=
    (digitChar_le_iff (Nat.mod_lt _ (by decide)) (Nat.mod_lt _ (by decide))).mpr h.digit_le
  rw [h.toDigits_first, h.toDigits_last]
  exact ⟨_, boxed_append hdigit _ k⟩

section
variable {least greatest : UInt64}

theorem loopsEnd (hgreatest : greatest.toNat ≤ 2 ^ 63) (hle : least ≤ greatest) :
    LoopsEnd least greatest := by
  have hleast := Nat.le_trans (UInt64.le_iff_toNat_le.mp hle) hgreatest
  -- With 18 rounds the loops have ended, so it makes no difference how many more are allowed.
  have henough {steps : Nat} (hsteps : maxDigits ≤ steps) : 18 < steps :=
    Nat.lt_of_lt_of_le (by decide) hsteps
  have hnines {steps : Nat} (hsteps : maxDigits ≤ steps) :
      nineStops least greatest steps 1 = nineStops least greatest 18 1 :=
    nineStops_eq_of_lt hleast hgreatest (henough hsteps)
  have hzeros {steps : Nat} (hsteps : maxDigits ≤ steps) :
      zeroStops least greatest steps 1 = zeroStops least greatest 18 1 :=
    zeroStops_eq_of_lt hgreatest (henough hsteps)
  refine ⟨?_, ?_, fun steps hsteps => ?_, fun steps hsteps => ?_⟩
  · rw [hnines (Nat.le_refl _)]
    exact Nat.lt_of_le_of_lt (length_nineStops_le 18 1) (by decide)
  · rw [hzeros (Nat.le_refl _)]
    exact Nat.lt_of_le_of_lt (length_zeroStops_le 18 1) (by decide)
  · rw [hnines hsteps, hnines (Nat.le_refl _)]
  · rw [hzeros hsteps, hzeros (Nat.le_refl _)]

theorem cutsUpTo_blockStops (hgreatest : greatest.toNat ≤ 2 ^ 63) (hle : least ≤ greatest) :
    CutsUpTo least greatest (blockStops least greatest) := by
  have hsorted := pairwise_blockStops least greatest
  have hstop {stop : UInt64} := mem_blockStops_iff (m := stop) hgreatest hle
  have hmem : greatest ∈ blockStops least greatest := hstop.mpr (.inl rfl)
  refine ⟨hsorted, ?_, ?_⟩
  · intro stop hmem
    exact UInt64.le_iff_toNat_le.mpr
      ((hstop.mp hmem).least_le (UInt64.le_iff_toNat_le.mp hle))
  · obtain ⟨before, last, hlast⟩ :=
      (List.eq_nil_or_concat (blockStops least greatest)).resolve_left (List.ne_nil_of_mem hmem)
    rw [hlast, List.concat_eq_append] at hsorted hmem ⊢
    rw [List.getLast?_concat]
    -- No stop is greater than the greatest number, so that number does not come before another one.
    have hbound : last ≤ greatest := by
      have hmem : last ∈ blockStops least greatest := by simp [hlast]
      exact UInt64.le_iff_toNat_le.mpr (hstop.mp hmem).le_greatest
    cases List.mem_append.mp hmem with
    | inl hbefore =>
      have hlt := (List.pairwise_append.mp hsorted).2.2 greatest hbefore last List.mem_cons_self
      exact absurd hbound (UInt64.not_le.mpr hlt)
    | inr heq => rw [List.mem_singleton.mp heq]

/-- Cutting a range into blocks stays within the words, and its loops end by themselves. The stops
grow from the first number of the range to its last one, and the source of the range lists the
blocks up to them. The numerals of every block are those that its source matches: they share the
digits before a position, and any digits may stand behind it. -/
theorem compactWords_partitions (hle : least ≤ greatest) (hgreatest : greatest.toNat ≤ 2 ^ 63) :
    compactWords? least greatest = some (compactWords least greatest) ∧
      LoopsEnd least greatest ∧
      CutsUpTo least greatest (blockStops least greatest) ∧
      compactWords least greatest = ['|'].intercalate
        ((blocks least (blockStops least greatest)).map fun block => blockSource block.1 block.2) ∧
      ∀ block ∈ blocks least (blockStops least greatest),
        block.1 ≤ block.2 ∧
        (∃ position, Boxed position (numeral block.1) (numeral block.2)) ∧
        ∃ program, Program.ofSource?
            ('^' :: (['(', '?', ':'] ++ blockSource block.1 block.2 ++ [')']) ++ ['$']) =
              some program ∧
          ∀ text, program.isMatch text = true ↔
            ∃ n, (block.1.toNat ≤ n ∧ n ≤ block.2.toNat) ∧ text = Nat.toDigits 10 n := by
  refine ⟨compactWords?_eq_some hgreatest hle, loopsEnd hgreatest hle,
    cutsUpTo_blockStops hgreatest hle, by rw [compactWords, blockSources_eq_map], ?_⟩
  intro block hblock
  obtain ⟨k, hbox⟩ := isBox_of_mem_blockStops hgreatest hle block hblock
  exact ⟨UInt64.le_iff_toNat_le.mpr hbox.le, hbox.exists_boxed,
    (denotes_blockSource hbox).body.exists_program⟩

/-- The range of all magnitudes, from zero on. -/
theorem compactWords_partitions_magnitudes :
    (0 : UInt64) ≤ 9223372036854775808 ∧ (9223372036854775808 : UInt64).toNat ≤ 2 ^ 63 ∧
      compactWords? 0 9223372036854775808 = some (compactWords 0 9223372036854775808) ∧
      LoopsEnd 0 9223372036854775808 ∧
      CutsUpTo 0 9223372036854775808 (blockStops 0 9223372036854775808) ∧
      ∀ block ∈ blocks 0 (blockStops 0 9223372036854775808),
        ∃ position, Boxed position (numeral block.1) (numeral block.2) := by
  have hle : (0 : UInt64) ≤ 9223372036854775808 := by decide
  have hgreatest : (9223372036854775808 : UInt64).toNat ≤ 2 ^ 63 := by decide
  obtain ⟨hchecked, hloops, hcuts, -, hblocks⟩ := compactWords_partitions hle hgreatest
  exact ⟨hle, hgreatest, hchecked, hloops, hcuts, fun block hblock => (hblocks block hblock).2.1⟩

end

end PathGlob.Range
