import PathGlob.Proofs.Range.Compact
import PathGlob.Proofs.Regex.Assembled

/-!
# `PathGlob.Proofs.Range.Brackets`: what the sources of ranges are put together from

Whatever its operands are, a range is translated into a source that closes what it opens, and in
which no group captures unless that is asked for. In the compact form this only takes that numerals
have no characters but digits; that the blocks are boxes plays no part.
-/

set_option autoImplicit false

namespace PathGlob.Range

open Regex

/-! ### Blocks of numerals -/

theorem isLoose_of_isDigit {c : Char} (h : c.isDigit = true) : isLoose c = true := by
  have := (isMeta_of_isDigit h).1
  simp only [isMeta, List.contains_eq_mem, List.mem_cons, List.not_mem_nil, or_false,
    decide_eq_false_iff_not, not_or] at this
  simp [isLoose, this]

variable {capture : Bool}

theorem assembled_digits {text : List Char} (h : ∀ c ∈ text, c.isDigit = true) :
    Assembled capture text :=
  .loose fun c hc => isLoose_of_isDigit (h c hc)

theorem assembled_toDigits (n : Nat) : Assembled capture (Nat.toDigits 10 n) :=
  assembled_digits fun _ => isDigit_of_mem_toDigits

theorem classMoves_digit {c : Char} (h : c.isDigit = true) (p : ClassPart) :
    ClassMoves p .inside [c] := by
  have := classMoves_escapeClassChar p c
  rwa [escapeClassChar, (isMeta_of_isDigit h).2] at this

theorem uncounted_digit {c : Char} (h : c.isDigit = true) : Uncounted true true [c] := by
  have := uncounted_escapeClassChar c
  rwa [escapeClassChar, (isMeta_of_isDigit h).2] at this

theorem assembled_digitClass {x y : Char} (hx : x.isDigit = true) (hy : y.isDigit = true) :
    Assembled capture (digitClass x y) := by
  have hdash : ClassMoves .inside .inside (if y.val - x.val > 1 then ['-'] else []) ∧
      Uncounted true true (if y.val - x.val > 1 then ['-'] else []) := by
    split
    · exact ⟨fun _ => rfl, fun _ => rfl⟩
    · exact ⟨fun _ => rfl, fun _ => rfl⟩
  have := @Assembled.set capture _
    (((classMoves_digit hx _).append hdash.1).append (classMoves_digit hy _))
    (((uncounted_digit hx).append hdash.2).append (uncounted_digit hy))
  simpa [digitClass] using this

theorem assembled_digitSources {first last : List Char} (hfirst : ∀ c ∈ first, c.isDigit = true)
    (hlast : ∀ c ∈ last, c.isDigit = true) : Assembled capture (digitSources first last).1 := by
  induction first generalizing last with
  | nil => exact .nil
  | cons x first ih =>
    cases last with
    | nil => exact .nil
    | cons y last =>
      rw [List.forall_mem_cons] at hfirst hlast
      have hrest := ih hfirst.2 hlast.2
      rw [digitSources_cons]
      split
      · exact (Assembled.char (isLoose_of_isDigit hfirst.1)).append hrest
      · split
        · exact hrest
        · exact (assembled_digitClass hfirst.1 hlast.1).append hrest

theorem assembled_freeSource (n : Nat) : Assembled capture (freeSource n) := by
  have hdigit : Assembled capture anyDigit :=
    @Assembled.set capture ['0', '-', '9'] (fun _ => rfl) fun _ => rfl
  unfold freeSource
  split
  · exact .nil
  · exact hdigit
  · have hcount := ((hdigit.append (.char (c := '{') rfl)).append (assembled_toDigits n)).append
      (.char (c := '}') rfl)
    simpa using hcount

theorem assembled_blockSource (first last : UInt64) : Assembled capture (blockSource first last) := by
  by_cases h : first = last
  · rw [blockSource, if_pos h]
    exact assembled_toDigits _
  · rw [blockSource_of_ne h]
    exact (assembled_digitSources (fun _ => isDigit_of_mem_toDigits)
      fun _ => isDigit_of_mem_toDigits).append (assembled_freeSource _)

theorem assembled_compactWords (least greatest : UInt64) :
    Assembled capture (compactWords least greatest) := by
  rw [compactWords, blockSources_eq_map]
  refine .intercalate (by decide) fun source hsource => ?_
  obtain ⟨block, -, rfl⟩ := List.mem_map.mp hsource
  exact assembled_blockSource block.1 block.2

theorem assembled_compact (a b : Int) : Assembled capture (compact a b) := by
  have hminus (source : List Char) (h : Assembled capture source) :
      Assembled capture (['-', '(', '?', ':'] ++ source ++ [')']) :=
    (Assembled.char (c := '-') rfl).append (@Assembled.group capture false (by simp) _ h)
  have hbar : Assembled capture ['|'] := .char rfl
  unfold compact
  dsimp only
  split
  · exact assembled_compactWords _ _
  · split
    · exact hminus _ (assembled_compactWords _ _)
    · exact (hminus _ (assembled_compactWords _ _)).append (hbar.append (assembled_compactWords _ _))

/-! ### Ranges -/

theorem assembled_fillLeft (width : Nat) {text : List Char} (h : Assembled capture text) :
    Assembled capture (fillLeft width text) := by
  refine .append (.loose fun c hc => ?_) h
  rw [List.eq_of_mem_replicate hc]
  rfl

theorem assembled_valueText (width? : Option Nat) (value : Int) :
    Assembled capture (valueText width? value) := by
  have hminus {text : List Char} (h : Assembled capture text) : Assembled capture ('-' :: text) :=
    (Assembled.char (c := '-') rfl).append h
  have hdigits : Assembled capture _ := assembled_toDigits value.natAbs
  unfold valueText
  dsimp only
  split <;> split
  · exact hminus (assembled_fillLeft _ hdigits)
  · exact assembled_fillLeft _ hdigits
  · exact hminus hdigits
  · exact hdigits

theorem assembled_ownText (operands : Operands) : Assembled capture (ownText operands) := by
  have hdots : Assembled capture ['\\', '.', '\\', '.'] :=
    (Assembled.backslash '.').append (.backslash '.')
  unfold ownText
  refine (((Assembled.escape _).append hdots).append (.escape _)).append ?_
  split
  · exact hdots.append (.escape _)
  · exact .nil

theorem assembled_alternatives {sources : List (List Char)}
    (h : ∀ source ∈ sources, Assembled capture source) :
    Assembled capture (alternatives capture sources) :=
  .group id (.intercalate (by decide) h)

theorem assembled_classBetween (first last : Char) :
    Assembled capture (classBetween first last) := by
  have hdash : ClassMoves .inside .inside ['-'] := fun _ => rfl
  have hdash' : Uncounted true true ['-'] := fun _ => rfl
  have hclass (low high : Char) : Assembled capture ('[' :: escapeClassChar low ++
      (if low = high then [] else '-' :: escapeClassChar high) ++ [']']) := by
    refine .set ((classMoves_escapeClassChar _ low).append ?_)
      ((uncounted_escapeClassChar low).append ?_)
    · split
      · exact fun _ => rfl
      · exact hdash.append (classMoves_escapeClassChar _ high)
    · split
      · exact uncounted_nil true
      · exact hdash'.append (uncounted_escapeClassChar high)
  unfold classBetween
  split <;> exact hclass _ _

/-- The source of a range is put together from groups and classes. -/
theorem assembled_expand (operands : Operands) (capture : Bool) :
    Assembled capture (expand operands capture) := by
  unfold expand
  split
  · exact assembled_ownText operands
  · rename_i first last _
    unfold expandIntegers
    dsimp only
    split
    · split
      · exact .group id (assembled_compact first last)
      · exact assembled_ownText operands
    · refine assembled_alternatives fun source hsource => ?_
      obtain ⟨value, -, rfl⟩ := List.mem_map.mp hsource
      exact assembled_valueText _ value
  · rename_i first last _
    unfold expandCharacters
    dsimp only
    split
    · exact .group id (assembled_classBetween first last)
    · refine assembled_alternatives fun source hsource => ?_
      obtain ⟨c, -, rfl⟩ := List.mem_map.mp hsource
      exact .escapeChar c

/-- The source of a range closes what it opens. -/
theorem neutral_expand (operands : Operands) (capture : Bool) :
    Neutral (expand operands capture) :=
  (assembled_expand operands capture).neutral

end PathGlob.Range
