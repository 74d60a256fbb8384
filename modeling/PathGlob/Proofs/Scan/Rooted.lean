import PathGlob.Proofs.Scan.Division

/-!
# `PathGlob.Proofs.Scan.Rooted`: whether the base of a rooted pattern begins with its root

The leading part ends where the scanner stands at that moment, so a separator behind it is the next
character that is read. It is noted as the last separator before the first construct, and from then
on the leading part grows no more (`Scanner.NotesRoot`).

The base therefore reaches beyond the root. Only then is the separator at its end taken away, which
spares a slash that is all there is, but not a backslash: where the glob begins right behind such a
root, the base is left empty (`scan_keeps_root_iff`).
-/

set_option autoImplicit false

namespace PathGlob

namespace Scan

variable {windows : Bool} {options : Options} {input : List Char}

/-! ### The root among the separators -/

theorem not_escapes_of_separates {c : Char} {next : Option Char}
    (h : separates windows c next = true) : (c = '\\' && escapes windows next) = false := by
  simp only [separates, Bool.or_eq_true, Bool.and_eq_true, decide_eq_true_iff] at h
  rcases h with rfl | ⟨-, h⟩
  case inl => simp
  case inr => simpa using fun _ => h

namespace Scanner

variable {s s' : Scanner} {c : Char} {rest : List Char}

/-- A separator behind the leading part has been noted once it is read. -/
def NotesRoot (windows : Bool) (input : List Char) (s : Scanner) : Prop :=
  ∀ c rest, input.drop s.start = c :: rest → separates windows c rest.head? = true →
    s.start < s.index → s.start < s.lastSeparator

/-- A separator before the first construct is noted, unless a leading `./` is dropped with it. -/
theorem step_of_separates (hseparates : separates options.windows c rest.head? = true)
    (hfirst : s.first = none) (hindex : s.index = s.start) :
    s.step options c rest = { s.past [c] rest with lastSeparator := s.start + 1 } := by
  unfold step
  simp only [not_escapes_of_separates hseparates, hseparates, if_true, Bool.false_eq_true, if_false]
  unfold separator
  have hnone : (s.past [c] rest).first = none := hfirst
  have hstart : (s.past [c] rest).start = s.start := rfl
  simp [hnone, hstart, hindex]

/-- A step that leaves the leading part as it is forgets no separator. -/
theorem Ordered.lastSeparator_le_of_change (h : s.Ordered windows input)
    (hindex : s.index < s'.index) (hchange : s.Change windows s') (hstart : s'.start = s.start) :
    s.lastSeparator ≤ s'.lastSeparator := by
  have hle := h.lastSeparator_le
  cases hchange with
  | none eq => exact Nat.le_of_eq (places_of_movedTo eq).2.1.symm
  | separator first rest eq =>
    have hlast : s'.lastSeparator = s'.index := (places_of_movedTo eq).2.1
    omega
  | drop first index eq =>
    have hgrown : s'.start = s.start + 2 := (places_of_movedTo eq).1
    omega
  | negation first index eq =>
    have hgrown : s'.start = s.start + 1 := (places_of_movedTo eq).1
    omega
  | construct kind begins eq =>
    exact Nat.le_of_eq ((places_of_movedTo eq).2.1.trans (lastSeparator_report s kind)).symm

/-- Where a step makes the leading part longer, the scanner stands right behind it. -/
theorem Change.start_eq_or (h : s.Change windows s') :
    s'.start = s.start ∨ s'.index = s'.start := by
  cases h with
  | none eq => exact .inl (places_of_movedTo eq).1
  | separator first rest eq => exact .inl (places_of_movedTo eq).1
  | drop first index eq => exact .inr (index.trans (places_of_movedTo eq).1.symm)
  | negation first index eq => exact .inr (index.trans (places_of_movedTo eq).1.symm)
  | construct kind begins eq =>
    exact .inl ((places_of_movedTo eq).1.trans (start_report s kind))

/-- No construct has been met where nothing has been read behind the leading part. -/
theorem Ordered.first_eq_none (h : s.Ordered windows input) (hindex : s.index = s.start) :
    s.first = none := by
  cases hfirst : s.first with
  | none => rfl
  | some place =>
    obtain ⟨hge, -, hlt, -⟩ := h.first place hfirst
    omega

theorem NotesRoot.step (h : s.NotesRoot options.windows input)
    (hordered : s.Ordered options.windows input) (hrest : s.rest = c :: rest)
    (hsteps : s.Steps options.windows (s.step options c rest)) :
    (s.step options c rest).NotesRoot options.windows input := by
  intro root path hpath hseparates hread
  obtain ⟨⟨taken, hreads⟩, hchange⟩ := hsteps
  have hindex : s.index < (s.step options c rest).index := by
    have := List.length_pos_iff.mpr hreads.ne_nil
    have := hreads.toMoves.index
    omega
  obtain hstart | hstands := hchange.start_eq_or
  case inr => omega
  case inl =>
    rw [hstart] at hpath hread ⊢
    have hle := hordered.start_le
    obtain hstands | hbehind := Nat.eq_or_lt_of_le hle
    case inl =>
      -- The root is the character that the step reads.
      rw [hordered.rest_eq, ← hstands, hpath, List.cons.injEq] at hrest
      obtain ⟨rfl, rfl⟩ := hrest
      rw [step_of_separates hseparates (hordered.first_eq_none hstands.symm) hstands.symm]
      exact Nat.lt_succ_self _
    case inr =>
      have hnoted := h root path hpath hseparates hbehind
      exact Nat.lt_of_lt_of_le hnoted (hordered.lastSeparator_le_of_change hindex hchange hstart)

theorem notesRoot_pass (options : Options) (input : List Char) :
    (pass options input).NotesRoot options.windows input := by
  have hboth : (pass options input).Ordered options.windows input ∧
      (pass options input).NotesRoot options.windows input := by
    refine finish_induction (motive := fun s => s.Ordered options.windows input ∧
      s.NotesRoot options.windows input) ?_ ⟨ordered_initial options.windows input, ?_⟩
    case refine_1 =>
      intro s c rest hrest _ hsteps h
      exact ⟨h.1.steps hsteps, h.2.step h.1 hrest hsteps⟩
    case refine_2 =>
      intro root path _ _ hread
      exact absurd hread (Nat.lt_irrefl 0)
  exact hboth.2

end Scanner

/-! ### The base -/

/-- A base that is no more than its root is kept if that is a slash. Otherwise the separator at its
end is not the one that it begins with. -/
theorem head?_trimBase_eq_iff {root : Char} {base whole : List Char}
    (hroot : root = '/' ∨ root = '\\' ∧ windows = true) (hbase : base.head? = some root)
    (hwhole : base.length ≠ whole.length) :
    (trimBase windows base whole).head? = some root ↔ root = '/' ∨ base.length ≠ 1 := by
  obtain ⟨rest, rfl⟩ := List.head?_eq_some_iff.mp hbase
  cases rest with
  | nil =>
    rcases hroot with rfl | ⟨rfl, rfl⟩
    case inl => simp [trimBase]
    case inr =>
      have hne : 1 ≠ whole.length := hwhole
      simp [trimBase, hne]
  | cons c rest =>
    refine iff_of_true ?_ (.inr (by simp))
    unfold trimBase
    split
    case isTrue => rfl
    case isFalse =>
      split
      case h_2 => rfl
      case h_1 =>
        split <;> rfl

end Scan

open Scan

/-- The base of a pattern with a construct begins with the separator that the path begins with,
unless that is a backslash and the glob begins right behind it. -/
theorem scan_keeps_root_iff {path : List Char} {root : Char} {input : List Char} {options : Options}
    (hunescape : options.unescape = false) (hglob : (scan input options).isGlob = true)
    (hinput : input = (scan input options).lead ++ root :: path)
    (hroot : separates options.windows root path.head? = true) :
    (scan input options).base.head? = some root ↔
      root = '/' ∨ (scan input options).glob ≠ path := by
  have hordered := Scanner.ordered_pass options input
  have hnotes := Scanner.notesRoot_pass options input
  rw [Scanner.scan_eq_result] at hglob hinput ⊢
  generalize Scanner.pass options input = s at *
  obtain ⟨place, hfirst⟩ : ∃ place, s.first = some place := Option.isSome_iff_exists.mp hglob
  have hpath : input.drop s.start = root :: path :=
    List.append_cancel_left ((List.take_append_drop s.start input).trans hinput)
  -- The construct has been read, and so has the root before it.
  obtain ⟨hstart, -, hplace, -⟩ := hordered.first place hfirst
  have hsplit : s.start < s.lastSeparator := hnotes root path hpath hroot (by omega)
  obtain ⟨before, c, after, hdrop, -⟩ := exists_glob_eq hordered hfirst
  obtain ⟨split, hlast⟩ : ∃ split, s.lastSeparator = s.start + (split + 1) :=
    Nat.exists_eq_add_of_lt hsplit
  simp only [Scanner.result, hunescape, Bool.false_and, Bool.false_eq_true, if_false, hfirst,
    Option.isSome_some, if_true]
  rw [hlast, Nat.add_sub_cancel_left, hpath] at hdrop ⊢
  have hlength := congrArg List.length hdrop
  simp only [List.length_drop, List.length_cons, List.length_append] at hlength
  rw [head?_trimBase_eq_iff (IsSeparator.of_separates hroot) rfl (by simp; omega)]
  -- The base without what is trimmed is the root alone exactly if the glob is all of the path.
  refine or_congr_right (not_congr ⟨fun hone => ?_, fun heq => ?_⟩)
  case refine_1 =>
    have hzero : split = 0 := by
      simp only [List.length_take, List.length_cons] at hone
      omega
    rw [hzero]
    rfl
  case refine_2 =>
    have hsame := congrArg List.length heq
    simp only [List.length_drop, List.length_take, List.length_cons] at hsame ⊢
    omega

/-- A backslash is kept where more of the path stands before the glob, but not right before it. -/
theorem scan_keeps_root_iff_backslash :
    (scan ['\\', 'a', '\\', 'b', '*'] { windows := true }).isGlob = true ∧
      (scan ['\\', 'a', '\\', 'b', '*'] { windows := true }).base.head? = some '\\' ∧
      (scan ['\\', 'a', '*'] { windows := true }).isGlob = true ∧
      (scan ['\\', 'a', '*'] { windows := true }).base.head? ≠ some '\\' := by
  have hdeep : (scan ['\\', 'a', '\\', 'b', '*'] { windows := true }).base.head? = some '\\' ↔
      '\\' = '/' ∨ (scan ['\\', 'a', '\\', 'b', '*'] { windows := true }).glob ≠
          ['a', '\\', 'b', '*'] :=
    scan_keeps_root_iff rfl (by decide) (by decide) (by decide)
  have hshallow : (scan ['\\', 'a', '*'] { windows := true }).base.head? = some '\\' ↔
      '\\' = '/' ∨ (scan ['\\', 'a', '*'] { windows := true }).glob ≠ ['a', '*'] :=
    scan_keeps_root_iff rfl (by decide) (by decide) (by decide)
  refine ⟨by decide, hdeep.mpr (.inr (by decide)), by decide, fun h => ?_⟩
  obtain heq | hne := hshallow.mp h
  · exact absurd heq (by decide)
  · exact hne (by decide)

end PathGlob
