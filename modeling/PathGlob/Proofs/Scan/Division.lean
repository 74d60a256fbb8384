import PathGlob.Proofs.Scan.Cuts

/-!
# `PathGlob.Proofs.Scan.Division`: scanning loses no text

A scan divides a pattern into a leading part, a base and a glob, and leaves out one separator between
the last two at most (`Result.Divides`). The places where it does are those that the pass over the
pattern keeps in order (`Scanner.Ordered`), and each of them is a place between two characters
(`scan_divides`).
-/

set_option autoImplicit false

namespace PathGlob

open Text

namespace Scan

/-- The leading part, the base, the separator and the glob are the pattern, and the first construct
begins within the glob. -/
structure Result.Divides (windows : Bool) (separator : List Char) (result : Result) : Prop where
  input : result.input = result.lead ++ result.base ++ separator ++ result.glob
  atMostSeparator : AtMostSeparator windows separator
  glob_eq_nil_iff : result.glob = [] ↔ result.isGlob = false
  start_of_isGlob : result.isGlob = true → ∃ before c after, result.glob = before ++ c :: after ∧
    result.start = byteSize (result.lead ++ result.base ++ separator ++ before)
  start_of_not_isGlob : result.isGlob = false → result.start = byteSize result.input

/-- The base leaves out a separator at its end, and nothing more. -/
theorem exists_trimBase (windows : Bool) (base whole : List Char) :
    ∃ separator, AtMostSeparator windows separator ∧ base = trimBase windows base whole ++ separator := by
  have hall : ∃ separator, AtMostSeparator windows separator ∧ base = base ++ separator :=
    ⟨[], .inl rfl, (List.append_nil base).symm⟩
  unfold trimBase
  split
  case isTrue => exact hall
  case isFalse =>
    split
    case h_2 => exact hall
    case h_1 c hlast =>
      split
      case isFalse => exact hall
      case isTrue hc =>
        obtain ⟨before, rfl⟩ := List.getLast?_eq_some_iff.mp hlast
        refine ⟨[c], .inr ⟨c, by simpa [IsSeparator] using hc, rfl⟩, ?_⟩
        rw [List.dropLast_concat]

variable {input : List Char} {options : Options}

/-- The first construct begins within what follows the leading part and the base. -/
theorem exists_glob_eq {s : Scanner} (h : s.Ordered options.windows input) {place : Nat}
    (hfirst : s.first = some place) :
    ∃ before c after,
      (input.drop s.start).drop (s.lastSeparator - s.start) = before ++ c :: after ∧
      input.take place =
        input.take s.start ++ (input.drop s.start).take (s.lastSeparator - s.start) ++ before := by
  obtain ⟨hstart, hlast, hplace, -⟩ := h.first place hfirst
  obtain ⟨done, hdone⟩ := h.behind
  have hlength := hdone.index_le
  -- A path that ends before the leading part does is no base.
  obtain ⟨k, hk⟩ : ∃ k, s.start + (s.lastSeparator - s.start) + k = place :=
    Nat.le.dest (by omega)
  refine ⟨(input.drop (s.start + (s.lastSeparator - s.start))).take k, input[place],
    input.drop (place + 1), ?_, ?_⟩
  · have hcut := List.take_append_drop k (input.drop (s.start + (s.lastSeparator - s.start)))
    rw [List.drop_drop, hk] at hcut
    rw [List.drop_drop, ← List.drop_eq_getElem_cons, hcut]
  · rw [← List.take_add, ← List.take_add, hk]

theorem divides_scan (input : List Char) (options : Options) (h : options.unescape = false) :
    ∃ separator, (scan input options).Divides options.windows separator := by
  have hordered := Scanner.ordered_pass options input
  rw [Scanner.scan_eq_result]
  generalize Scanner.pass options input = s at hordered
  simp only [Scanner.result, h, Bool.false_and, Bool.false_eq_true, if_false]
  generalize hsplit : (if s.first.isSome then s.lastSeparator - s.start
    else (input.drop s.start).length) = split
  obtain ⟨separator, hseparator, hbase⟩ := exists_trimBase options.windows
    ((input.drop s.start).take split) (input.drop s.start)
  have hinput : input = input.take s.start ++ trimBase options.windows
      ((input.drop s.start).take split) (input.drop s.start) ++ separator ++
        (input.drop s.start).drop split := by
    rw [List.append_assoc (List.take _ _), ← hbase, List.append_assoc, List.take_append_drop,
      List.take_append_drop]
  cases hfirst : s.first with
  | none =>
    rw [hfirst] at hsplit
    have hglob : (input.drop s.start).drop split = [] := by rw [← hsplit]; exact List.drop_length
    exact ⟨separator, hinput, hseparator, iff_of_true hglob rfl, nofun, fun _ => rfl⟩
  | some place =>
    obtain ⟨before, c, after, hglob, htake⟩ := exists_glob_eq hordered hfirst
    rw [hfirst] at hsplit
    obtain rfl : s.lastSeparator - s.start = split := hsplit
    rw [hglob] at hinput ⊢
    refine ⟨separator, hinput, hseparator, iff_of_false (by simp) nofun,
      fun _ => ⟨before, c, after, rfl, ?_⟩, nofun⟩
    dsimp only
    rw [List.append_assoc (List.take _ _), ← hbase, ← htake]

end Scan

open Scan

/-- A scan takes nothing away from a pattern: it succeeds on the bytes as on the characters, divides
the pattern into its parts, and the segments that it reports make up all but the leading part. -/
theorem scan_divides (input : List Char) (options : Options) (h : options.unescape = false) :
    bytewise? input options = some (scan input options) ∧ (scan input options).input = input ∧
      (∃ separator, (scan input options).Divides options.windows separator) ∧
      (options.parts = true → ∃ texts path, (scan input options).parts = some texts ∧
        input = (scan input options).lead ++ path ∧ Segments options.windows texts path) := by
  refine ⟨bytewise?_eq input options, rfl, divides_scan input options h, fun hparts => ?_⟩
  refine ⟨_, _, ?_, (List.take_append_drop _ input).symm, segments_parts options.windows _⟩
  unfold scan
  rw [hparts]
  rfl

/-- A pattern with a negation, characters of two bytes and a group that is never closed. -/
theorem scan_divides_unclosed :
    ({ parts := true } : Options).unescape = false ∧
    ∃ result, bytewise? ['!', '.', '/', 'é', '/', 'ü', 'b', '/', 'c', '*', '/', '(', '['] { parts := true } =
        some result ∧
      result.lead = ['!', '.', '/'] ∧ result.base = ['é', '/', 'ü', 'b'] ∧
      result.glob = ['c', '*', '/', '(', '['] ∧ result.start = 11 ∧
      result.Divides false ['/'] ∧
      result.parts = some [['é'], ['ü', 'b'], ['c', '*'], ['(', '[']] := by
  let input := ['!', '.', '/', 'é', '/', 'ü', 'b', '/', 'c', '*', '/', '(', '[']
  let options : Options := { parts := true }
  obtain ⟨hbytes, hinput, ⟨separator, hdivides⟩, -⟩ := scan_divides input options rfl
  have hlead : (scan input options).lead = ['!', '.', '/'] := by decide
  have hbase : (scan input options).base = ['é', '/', 'ü', 'b'] := by decide
  have hglob : (scan input options).glob = ['c', '*', '/', '(', '['] := by decide
  obtain rfl : separator = ['/'] := by
    have hwhole := hdivides.input
    rw [hinput, hlead, hbase, hglob] at hwhole
    have hcut : ['/'] ++ ['c', '*', '/', '(', '['] = separator ++ ['c', '*', '/', '(', '['] := by
      simpa [input] using hwhole
    exact (List.append_cancel_right hcut).symm
  exact ⟨rfl, _, hbytes, hlead, hbase, hglob, by decide, hdivides, by decide⟩

end PathGlob
