import PathGlob.Proofs.Scan.Division

/-!
# `PathGlob.Proofs.Scan.Unescape`: leaving out the backslashes that escape

Asked to, a scan leaves the escaping backslashes out of the base and the glob. It looks at the whole
of both, but only if the pass over the pattern has come upon a backslash. None of the places that the
pass keeps tears a backslash from the character behind it (`Scanner.Intact`), so where every backslash
escapes something the scan leaves out what it is to leave out, unless the pass ends before the first
backslash (`scan_unescape_iff`).
-/

set_option autoImplicit false

namespace PathGlob

namespace Scan

variable {windows : Bool} {text : List Char}

/-! ### Leaving out backslashes -/

/-- A text without the backslashes that escape the character after them. An escaped backslash stays,
and so does one that separates. -/
def withoutEscapes (windows : Bool) : List Char → List Char
  | [] => []
  | [c] => [c]
  | c :: d :: rest =>
    if c = '\\' && escapes windows (some d) then d :: withoutEscapes windows rest
    else c :: withoutEscapes windows (d :: rest)

theorem unescape_cons {c : Char} (hc : c ≠ '\\') (rest : List Char) :
    unescape (c :: rest) = c :: unescape rest := by
  rw [unescape]
  exact fun h => hc h

theorem withoutEscapes_cons {c : Char} (hc : c ≠ '\\') (rest : List Char) :
    withoutEscapes windows (c :: rest) = c :: withoutEscapes windows rest := by
  cases rest with
  | nil => rfl
  | cons d rest => simp [withoutEscapes, hc]

/-- Where every backslash escapes something, it does not matter whether that is looked at. -/
theorem unescape_of_paired (h : Paired windows text) : unescape text = withoutEscapes windows text := by
  induction h with
  | nil => rfl
  | pair hd _ ih => simp [unescape, withoutEscapes, hd, ih]
  | cons hc _ ih => rw [unescape_cons hc, withoutEscapes_cons hc, ih]

theorem withoutEscapes_of_not_mem (h : '\\' ∉ text) : withoutEscapes windows text = text := by
  induction text with
  | nil => rfl
  | cons c rest ih =>
    rw [List.mem_cons, not_or] at h
    rw [withoutEscapes_cons (Ne.symm h.1), ih h.2]

theorem length_unescape_le (text : List Char) : (unescape text).length ≤ text.length := by
  fun_induction unescape text with
  | case1 => exact Nat.le_refl 0
  | case2 => exact Nat.zero_le _
  | case3 c rest ih => simp only [List.length_cons]; omega
  | case4 c rest _ ih => simp only [List.length_cons]; omega

theorem length_unescape_lt (h : '\\' ∈ text) : (unescape text).length < text.length := by
  induction text with
  | nil => cases h
  | cons c rest ih =>
    by_cases hc : c = '\\'
    · subst hc
      cases rest with
      | nil => exact Nat.zero_lt_one
      | cons d rest =>
        have := length_unescape_le rest
        simp only [unescape, List.length_cons]
        omega
    · rw [unescape_cons hc, List.length_cons, List.length_cons]
      exact Nat.succ_lt_succ (ih ((List.mem_cons.mp h).resolve_left (Ne.symm hc)))

/-! ### Places -/

namespace Scanner

variable {options : Options} {s s' : Scanner} {input done : List Char}

/-- No backslash before the place escapes the character at the place. -/
def IsCut (input : List Char) (place : Nat) : Prop := Paired false (input.take place)

/-- None of the places that the scanner keeps tears a backslash from what it escapes, and all
backslashes that were read are noted. -/
structure Intact (input : List Char) (s : Scanner) : Prop where
  index : IsCut input s.index
  start : IsCut input s.start
  lastSeparator : IsCut input s.lastSeparator
  beforeSeparator : IsCut input (s.lastSeparator - 1)
  noted : '\\' ∈ input.take s.index → s.hasEscapes = true

theorem intact_initial (input : List Char) : Intact input { rest := input } :=
  ⟨.nil, .nil, .nil, .nil, nofun⟩

theorem Behind.take_index (h : Behind input done s) : input.take s.index = done := by
  rw [h.index, h.input, List.take_left]

/-- Where every backslash escapes something, a step passes each of them with what it escapes. -/
theorem Reads.paired_of_rest {taken : List Char} (h : s.Reads windows s' taken)
    (hrest : Paired windows s.rest) : Paired false taken := by
  refine h.paired.resolve_right fun ⟨htaken, hfree⟩ => ?_
  rw [h.rest, htaken, List.singleton_append] at hrest
  cases hnext : s'.rest with
  | nil => exact not_paired_backslash (hnext ▸ hrest)
  | cons d rest =>
    rw [hnext] at hrest
    have hd := (paired_pair_iff.mp hrest).1
    rw [hfree d (by rw [hnext]; rfl)] at hd
    cases hd

theorem Intact.steps (h : s.Intact input) (hordered : s.Ordered windows input)
    (hinput : Paired windows input) (hsteps : s.Steps windows s') : s'.Intact input := by
  obtain ⟨⟨taken, hreads⟩, hchange⟩ := hsteps
  obtain ⟨done, hdone⟩ := hordered.behind
  have htake := hdone.take_index
  have htake' := (hdone.moves hreads.toMoves).take_index
  have hpaired : Paired false done := htake ▸ h.index
  have hrest : Paired windows s.rest := (Paired.cut (hdone.input ▸ hinput) hpaired).2
  have htaken := hreads.paired_of_rest hrest
  have hindex : IsCut input s'.index := by
    rw [IsCut, htake']
    exact hpaired.append htaken
  have hnoted : '\\' ∈ input.take s'.index → s'.hasEscapes = true := by
    rw [htake', List.mem_append]
    rintro (hmem | hmem)
    · exact hreads.kept (h.noted (htake.symm ▸ hmem))
    · exact hreads.noted htaken hmem
  cases hchange with
  | none eq =>
    obtain ⟨hbegin, hlast, -⟩ := places_of_movedTo eq
    exact ⟨hindex, hbegin ▸ h.start, hlast ▸ h.lastSeparator, hlast ▸ h.beforeSeparator, hnoted⟩
  | drop _ index eq | negation _ index eq =>
    obtain ⟨hbegin, hlast, -⟩ := places_of_movedTo eq
    exact ⟨hindex, hbegin ▸ index ▸ hindex, hlast ▸ h.lastSeparator, hlast ▸ h.beforeSeparator,
      hnoted⟩
  | separator _ rest eq =>
    obtain ⟨hbegin, hlast, -⟩ := places_of_movedTo eq
    obtain ⟨c, -, hrest⟩ := rest
    have hbefore : s'.lastSeparator - 1 = s.index := by
      rw [hlast, hreads.index_eq_succ hrest, Nat.add_sub_cancel]
    exact ⟨hindex, hbegin ▸ h.start, hlast ▸ hindex, hbefore ▸ h.index, hnoted⟩
  | construct kind _ eq =>
    obtain ⟨hbegin, hlast, -⟩ := places_of_movedTo eq
    rw [start_report] at hbegin
    rw [lastSeparator_report] at hlast
    exact ⟨hindex, hbegin ▸ h.start, hlast ▸ h.lastSeparator, hlast ▸ h.beforeSeparator, hnoted⟩

theorem intact_pass (options : Options) (hinput : Paired options.windows input) :
    (pass options input).Intact input := by
  have hpass : (pass options input).Intact input ∧
      (pass options input).Ordered options.windows input :=
    finish_induction (motive := fun s => s.Intact input ∧ s.Ordered options.windows input)
      (fun s c rest _ _ hsteps hs => ⟨hs.1.steps hs.2 hinput hsteps, hs.2.steps hsteps⟩)
      ⟨intact_initial input, ordered_initial options.windows input⟩
  exact hpass.1

/-- The text between two places. -/
theorem IsCut.paired {j k : Nat} (hinput : Paired windows input) (hj : IsCut input j)
    (hk : IsCut input k) : Paired windows ((input.drop j).take (k - j)) := by
  rcases Nat.le_total k j with h | h
  · rw [Nat.sub_eq_zero_of_le h]
    exact .nil
  · rw [← List.take_append_drop k input] at hinput
    have htake := (hinput.cut hk).1
    rw [← Nat.add_sub_cancel' h, List.take_add] at htake
    exact (htake.cut hj).2

theorem IsCut.paired_drop {k : Nat} (hinput : Paired windows input) (hk : IsCut input k) :
    Paired windows (input.drop k) := by
  rw [← List.take_append_drop k input] at hinput
  exact (hinput.cut hk).2

/-- Whether escapes are left out is of no matter to the pass. -/
theorem scan_eq_result_unescape (input : List Char) (options : Options) (unescape : Bool) :
    scan input { options with unescape } =
      (pass options input).result input { options with unescape } := by
  have hrun (n : Nat) (s : Scanner) : run { options with unescape } n s = run options n s := by
    induction n generalizing s with
    | zero => rfl
    | succ n ih =>
      unfold run
      simp only [ih]
      rfl
  rw [scan_eq_result, pass, finish, hrun]
  rfl

end Scanner

/-! ### The base and the glob -/

theorem trimBase_eq_or (windows : Bool) (base whole : List Char) :
    trimBase windows base whole = base ∨
      base.length ≠ whole.length ∧ trimBase windows base whole = base.dropLast := by
  unfold trimBase
  split
  case isTrue => exact .inl rfl
  case isFalse hnot =>
    simp only [Bool.or_eq_true, decide_eq_true_iff, not_or] at hnot
    split
    case h_2 => exact .inl rfl
    case h_1 c _ =>
      split
      case isTrue => exact .inr ⟨hnot.2, rfl⟩
      case isFalse => exact .inl rfl

variable {options : Options} {s : Scanner} {input : List Char}

/-- Neither the base nor the glob begins or ends within an escape. -/
theorem Scanner.Intact.paired_result (h : s.Intact input) (hordered : s.Ordered options.windows input)
    (hinput : Paired options.windows input) :
    Paired options.windows (s.result input { options with unescape := false }).base ∧
      Paired options.windows (s.result input { options with unescape := false }).glob := by
  simp only [Scanner.result, Bool.false_and, Bool.false_eq_true, if_false]
  have hwhole : Paired options.windows (input.drop s.start) := h.start.paired_drop hinput
  cases hfirst : s.first with
  | none =>
    simp only [Option.isSome_none, Bool.false_eq_true, if_false, List.take_length, List.drop_length]
    refine ⟨?_, .nil⟩
    rcases trimBase_eq_or options.windows (input.drop s.start) (input.drop s.start) with heq | hne
    · rwa [heq]
    · exact absurd rfl hne.1
  | some place =>
    simp only [Option.isSome_some, if_true]
    constructor
    · rcases trimBase_eq_or options.windows
        ((input.drop s.start).take (s.lastSeparator - s.start)) (input.drop s.start) with heq | ⟨-, heq⟩
      · rw [heq]
        exact h.start.paired hinput h.lastSeparator
      -- The separator at the end is cut off, and no backslash escapes it.
      · obtain ⟨hstart, hlast, hplace, -⟩ := hordered.first place hfirst
        obtain ⟨done, hdone⟩ := hordered.behind
        have hlength := hdone.index_le
        rw [heq, List.dropLast_take (by rw [List.length_drop]; omega), Nat.sub_right_comm]
        exact h.start.paired hinput h.beforeSeparator
    · rw [List.drop_drop]
      rcases Nat.le_total s.lastSeparator s.start with hle | hle
      · rw [Nat.sub_eq_zero_of_le hle, Nat.add_zero]
        exact hwhole
      · rw [Nat.add_sub_cancel' hle]
        exact h.lastSeparator.paired_drop hinput

/-- A backslash that is not noted is not read, so it is part of the glob. -/
theorem Scanner.Intact.mem_glob (h : s.Intact input) (hordered : s.Ordered options.windows input)
    (hend : s.rest = [] ∨ s.counts options = false) (hmem : '\\' ∈ input)
    (hnoted : s.hasEscapes = false) :
    '\\' ∈ (s.result input { options with unescape := false }).glob := by
  have hahead : '\\' ∈ s.rest := by
    rw [← List.take_append_drop s.index input, List.mem_append, ← hordered.rest_eq] at hmem
    exact hmem.resolve_left fun hread => by simp [h.noted hread] at hnoted
  obtain ⟨place, hfirst⟩ : ∃ place, s.first = some place := by
    have hcounts := hend.resolve_left (List.ne_nil_of_mem hahead)
    exact Option.isSome_iff_exists.mp (by simpa [Scanner.counts, Option.isNone_iff_eq_none,
      Option.isSome_iff_ne_none] using (Bool.or_eq_false_iff.mp hcounts).1)
  obtain ⟨hstart, hlast, hplace, -⟩ := hordered.first place hfirst
  obtain ⟨k, hk⟩ : ∃ k, s.start + (s.lastSeparator - s.start) + k = s.index :=
    Nat.le.dest (by omega)
  simp only [Scanner.result, hfirst, Option.isSome_some, if_true, Bool.false_and, Bool.false_eq_true,
    if_false, List.drop_drop]
  rw [hordered.rest_eq, ← hk, ← List.drop_drop] at hahead
  exact List.mem_of_mem_drop hahead

/-- A pass that goes on to the end notes every backslash. -/
theorem Scanner.Intact.noted_of_scanToEnd (h : s.Intact input)
    (hordered : s.Ordered options.windows input) (hend : s.rest = [] ∨ s.counts options = false)
    (htoEnd : options.scanToEnd = true) (hmem : '\\' ∈ input) : s.hasEscapes = true := by
  have hrest : s.rest = [] := hend.resolve_right (by simp [Scanner.counts, htoEnd])
  refine h.noted ?_
  rwa [← List.take_append_drop s.index input, ← hordered.rest_eq, hrest, List.append_nil] at hmem

/-- The second result is the first one without the backslashes that escape. -/
def Result.WithoutEscapes (windows : Bool) (result result' : Result) : Prop :=
  result'.base = withoutEscapes windows result.base ∧
    result'.glob = withoutEscapes windows result.glob

/-- If no backslash is noted, everything stays. -/
theorem Scanner.withoutEscapes_result_of_not_noted (hnoted : s.hasEscapes = false) :
    Result.WithoutEscapes windows (s.result input { options with unescape := false })
        (s.result input { options with unescape := true }) ↔
      withoutEscapes windows (s.result input { options with unescape := false }).base =
          (s.result input { options with unescape := false }).base ∧
        withoutEscapes windows (s.result input { options with unescape := false }).glob =
          (s.result input { options with unescape := false }).glob := by
  simp only [Result.WithoutEscapes, Scanner.result, hnoted, Bool.and_false, Bool.false_eq_true,
    if_false, eq_comm]

/-- If one is noted, all of them are left out. -/
theorem Scanner.withoutEscapes_result_of_noted (hnoted : s.hasEscapes = true)
    (hbase : Paired windows (s.result input { options with unescape := false }).base)
    (hglob : Paired windows (s.result input { options with unescape := false }).glob) :
    Result.WithoutEscapes windows (s.result input { options with unescape := false })
      (s.result input { options with unescape := true }) := by
  refine ⟨Eq.trans ?_ (unescape_of_paired hbase), Eq.trans ?_ (unescape_of_paired hglob)⟩ <;>
    simp only [Scanner.result, hnoted, Bool.and_self, Bool.false_and, Bool.false_eq_true, if_false,
      if_true]

end Scan

open Scan

/-- Where every backslash of a pattern escapes something, a scan leaves these backslashes out of the
base and the glob exactly if it comes upon one of them, should there be any. A scan that goes on to
the end does. -/
theorem scan_unescape_iff (input : List Char) (options : Options)
    (h : Paired options.windows input) :
    (Result.WithoutEscapes options.windows (scan input { options with unescape := false })
        (scan input { options with unescape := true }) ↔
      ('\\' ∈ input → (Scanner.pass options input).hasEscapes = true)) ∧
    (options.scanToEnd = true → '\\' ∈ input →
      (Scanner.pass options input).hasEscapes = true) := by
  have hordered := Scanner.ordered_pass options input
  have hintact := Scanner.intact_pass options h
  have hend : (Scanner.pass options input).rest = [] ∨
      (Scanner.pass options input).counts options = false :=
    Scanner.rest_or_not_counts_finish options { rest := input }
  obtain ⟨separator, hdivides⟩ := divides_scan input { options with unescape := false } rfl
  have hinput := hdivides.input
  rw [Scanner.scan_eq_result_unescape] at hinput
  rw [Scanner.scan_eq_result_unescape input options false,
    Scanner.scan_eq_result_unescape input options true]
  generalize Scanner.pass options input = s at hordered hintact hend hinput ⊢
  obtain ⟨hbase, hglob⟩ := hintact.paired_result hordered h
  refine ⟨?_, hintact.noted_of_scanToEnd hordered hend⟩
  cases hnoted : s.hasEscapes with
  | true => exact iff_of_true (Scanner.withoutEscapes_result_of_noted hnoted hbase hglob) fun _ => rfl
  | false =>
    rw [Scanner.withoutEscapes_result_of_not_noted hnoted]
    refine ⟨fun hsame hmem => ?_, fun hfree => ?_⟩
    · have hlt := length_unescape_lt (hintact.mem_glob hordered hend hmem hnoted)
      rw [unescape_of_paired hglob, hsame.2] at hlt
      exact absurd hlt (Nat.lt_irrefl _)
    · have hnot : '\\' ∉ input := fun hmem => nomatch hfree hmem
      rw [show input = _ from hinput] at hnot
      simp only [List.mem_append, not_or] at hnot
      exact ⟨withoutEscapes_of_not_mem hnot.1.1.2, withoutEscapes_of_not_mem hnot.2⟩

/-- A backslash before the first construct takes one behind it along. Alone, that one stays. -/
theorem scan_unescape_iff_star :
    Paired false ['\\', '!', 'a', '/', '*', '\\', 'b'] ∧ Paired false ['*', '\\', 'b'] ∧
    (scan ['\\', '!', 'a', '/', '*', '\\', 'b'] { unescape := true }).base = ['!', 'a'] ∧
    (scan ['\\', '!', 'a', '/', '*', '\\', 'b'] { unescape := true }).glob = ['*', 'b'] ∧
    ¬Result.WithoutEscapes false (scan ['*', '\\', 'b'] {})
      (scan ['*', '\\', 'b'] { unescape := true }) := by
  have hboth : Paired false ['\\', '!', 'a', '/', '*', '\\', 'b'] :=
    .pair rfl (.cons (by decide) (.cons (by decide) (.cons (by decide) (.pair rfl .nil))))
  have hglob : Paired false ['*', '\\', 'b'] := .cons (by decide) (.pair rfl .nil)
  obtain ⟨hbase, hleft⟩ := (scan_unescape_iff _ {} hboth).1.mpr fun _ => by decide
  refine ⟨hboth, hglob, hbase.trans (by decide), hleft.trans (by decide), fun hleaves => ?_⟩
  have hnoted := (scan_unescape_iff _ {} hglob).1.mp hleaves (by decide)
  revert hnoted
  decide

end PathGlob
