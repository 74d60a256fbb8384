import PathGlob.Proofs.Regex.Guides

/-!
# `PathGlob.Proofs.Regex.Guards`: what the emitted fragments lead past

Every fragment that wildcards are translated into leads past no hidden segment, whatever the
convention of separators, with or without captures, and with or without case. Where a segment
begins, only a guard makes sure of that (`guides_dotGuard`); a globstar makes sure of it itself at
each separator it passes (`guides_globstar`).
-/

set_option autoImplicit false

namespace PathGlob.Regex

open Cursor

variable {blind windows capture : Bool} {P Q : Cursor → Prop}

/-! ### Separators and characters -/

namespace Piece

/-- The separators, as a class of characters. -/
def separators (windows : Bool) : CharSet :=
  if windows then .union (.union .none (.single '\\')) (.single '/') else .union .none (.single '/')

/-- A separator. -/
def separator (windows : Bool) : Node :=
  if windows then .set (separators true) else .char '/'

/-- A character that is no separator. -/
def otherChar (windows : Bool) : Node := .set (.compl (separators windows))

/-- A character that is neither a separator nor a dot. -/
def otherCharNoDot (windows : Bool) : Node :=
  if windows then
    .set (.compl (.union (.union (.union .none (.single '.')) (.single '\\')) (.single '/')))
  else .set (.compl (.union (.union .none (.single '.')) (.single '/')))

/-- The start or a separator. -/
def opening (windows : Bool) : Node :=
  .group (.alt (.ofSequence [.start]) (.ofSequence [separator windows]))

/-- One character of a globstar. -/
def walk (windows : Bool) : Node :=
  .group (.ofSequence
    [.look false true (.ofSequence [opening windows, .char '.']), .dot])

theorem takes_separator : (separator windows).Takes blind Clear Clear := by
  cases windows with
  | false =>
    exact .clear_clear rfl (fun _ _ h => h) (sameChar_eq_false (.inr rfl) (by decide))
  | true =>
    refine .clear_clear rfl (fun _ _ h => h) ?_
    cases blind <;> decide +kernel

theorem spans_separator {c d : Cursor} (h : c.Passes ['/'] d) :
    (separator windows).Spans blind c d := by
  cases windows with
  | false => exact ⟨'/', by simp [sameChar], h⟩
  | true => exact ⟨'/', by cases blind <;> decide +kernel, h⟩

theorem takes_otherChar : (otherChar windows).Takes blind Safe Safe := by
  refine .safe_safe rfl (fun _ _ h => h) ?_
  cases windows <;> cases blind <;> decide +kernel

theorem takes_otherCharNoDot : (otherCharNoDot windows).Takes blind Clear Safe := by
  cases windows with
  | false =>
    refine .clear_safe rfl (fun _ _ h => h) ?_ ?_ <;> cases blind <;> decide +kernel
  | true =>
    refine .clear_safe rfl (fun _ _ h => h) ?_ ?_ <;> cases blind <;> decide +kernel

/-- Where a segment begins, a globstar looks out for a dot. -/
theorem takes_walk : (walk windows).Takes blind Safe Safe := by
  have hregular : (walk windows).refers = false := by cases windows <;> rfl
  refine ⟨hregular, fun {c d} hc hspans => ?_⟩
  rw [walk, Node.spans_group_iff, Node.spans_ofSequence_cons] at hspans
  obtain ⟨e, hlook, hdot⟩ := hspans
  obtain ⟨hnone, rfl⟩ := Node.spans_not_ahead_iff.mp hlook
  have hstep : Steps (· ≠ '\n') e d := Node.spans_ofSequence_singleton.mp hdot
  refine ⟨hc.clear_of_steps hstep, fun hbegins hhead => hnone ?_⟩
  -- The character passed was a separator, and the dot behind it would have been seen.
  obtain ⟨x, -, hpass⟩ := hstep
  have hbefore : d.before = x :: e.before := hpass.2
  obtain rfl : x = '/' := by
    obtain hnil | hslash := hbegins
    · exact absurd (hbefore.symm.trans hnil) (by simp)
    · rw [hbefore] at hslash
      exact Option.some.inj hslash
  obtain ⟨rest, hrest⟩ := List.head?_eq_some_iff.mp hhead
  refine ⟨⟨'.' :: d.before, rest⟩, ?_⟩
  rw [Node.spans_ofSequence_cons]
  refine ⟨d, .inr ?_, ?_⟩
  · exact Node.spans_ofSequence_singleton.mpr (spans_separator hpass)
  · exact Node.spans_ofSequence_singleton.mpr ⟨'.', by simp [sameChar], hrest, rfl⟩

end Piece

open Piece

theorem guidesPiece_slash : GuidesPiece blind Clear (Fragment.slash windows) Clear := by
  intro repeated branches before outer groups names strayBrace
  refine ⟨false, separator windows, groups, ?_, takes_separator⟩
  cases windows <;> rfl

theorem guides_slash : Guides blind Clear (Fragment.slash windows) Clear :=
  guidesPiece_slash.guides

/-- A separator at the end that may be missing. -/
theorem guides_optionalSlash : Guides blind Clear (Fragment.slash windows ++ ['?']) Clear :=
  (guidesPiece_slash.quantified (by simp)).guides

/-- Text without dots and slashes. -/
theorem guides_escape {text : List Char} (hne : text ≠ [])
    (h : ∀ c ∈ text, c ≠ '.' ∧ c ≠ '/') : Guides blind Clear (escape text) Safe := by
  have hchar {c : Char} (hc : c ≠ '.' ∧ c ≠ '/') : Guides blind Clear (escapeChar c) Safe :=
    .of_reads_piece (reads_escapeChar c) (.char hc.1 hc.2)
  induction text with
  | nil => exact absurd rfl hne
  | cons c text ih =>
    rw [List.forall_mem_cons] at h
    have hfirst := hchar h.1
    by_cases hnil : text = []
    · simpa [escape, hnil] using hfirst
    · exact hfirst.append (ih hnil h.2).of_safe

/-! ### Wildcards -/

theorem guides_anyChar : Guides blind Safe (Fragment.anyChar windows) Safe := by
  refine .of_reads_piece (a := otherChar windows) ?_ takes_otherChar
  cases windows <;> exact fun _ _ _ _ _ _ _ => ⟨_, rfl⟩

theorem guides_anyCharNoDot : Guides blind Clear (Fragment.anyCharNoDot windows) Safe := by
  refine .of_reads_piece (a := otherCharNoDot windows) ?_ takes_otherCharNoDot
  cases windows <;> exact fun _ _ _ _ _ _ _ => ⟨_, rfl⟩

theorem guides_star : Guides blind Safe (Fragment.star windows) Safe := by
  refine .of_reads_piece (a := .loop (otherChar windows) 0 none true) ?_
    (takes_otherChar.loop _ _ _)
  cases windows <;> exact fun _ _ _ _ _ _ _ => ⟨_, rfl⟩

/-- A group that captures if that is asked for. -/
theorem Guides.wrapped {source : List Char} (h : Guides blind P source Q) (capture : Bool)
    (hquestion : source.head? ≠ some '?') :
    Guides blind P (Fragment.openGroup capture ++ source ++ [')']) Q := by
  cases capture with
  | false => exact (h.body (R := Q)).group.guides
  | true => exact ((h.body (R := Q)).capture hquestion).guides

theorem guides_globstar :
    Guides blind Safe (Fragment.globstar windows false capture) Safe := by
  let steps : List Char := ['(', '?', ':', '(', '?', '!'] ++ Fragment.segmentStart windows ++
    Fragment.dot ++ [')', '.', ')', '*', '?']
  have hsteps : Guides blind Safe steps Safe := by
    refine .of_reads_piece (a := .loop (walk windows) 0 none true) ?_ (takes_walk.loop _ _ _)
    cases windows <;> exact fun _ _ _ _ _ _ _ => ⟨_, rfl⟩
  have := hsteps.wrapped capture (by simp [steps])
  simpa [steps, Fragment.globstar] using this

/-! ### Conditions -/

theorem guides_oneChar : Guides blind P Fragment.oneChar P :=
  .of_reads_piece reads_oneChar (.look rfl false false)

/-- Behind a guard, a segment that begins does not begin with a dot. -/
theorem guides_dotGuard : Guides blind Clear (Fragment.dotGuard windows false) Safe := by
  refine .of_reads_piece (reads_dotGuard false) ⟨rfl, fun {c d} hc hspans => ?_⟩
  obtain ⟨hnone, rfl⟩ := Node.spans_not_ahead_iff.mp hspans
  refine ⟨hc, fun _ hhead => hnone ?_⟩
  obtain ⟨rest, hrest⟩ := List.head?_eq_some_iff.mp hhead
  exact ⟨⟨'.' :: d.before, rest⟩,
    Node.spans_ofSequence_singleton.mpr ⟨'.', by simp [sameChar], hrest, rfl⟩⟩

theorem guides_start : Guides blind P ['^'] P := by
  refine .of_reads_piece (a := .start) (fun _ _ _ _ _ _ _ => ⟨_, rfl⟩) ⟨rfl, fun hc hspans => ?_⟩
  exact hspans.2 ▸ hc

/-- Nothing is left at the end. -/
theorem guides_finish : Guides blind Clear ['$'] Safe := by
  refine .of_reads_piece (a := .finish) (fun _ _ _ _ _ _ _ => ⟨_, rfl⟩)
    ⟨rfl, fun {c d} hc hspans => ?_⟩
  obtain ⟨hafter, rfl⟩ := Node.spans_finish_iff.mp hspans
  exact ⟨hc, fun _ hhead => absurd hhead (by simp [hafter])⟩

/-! ### Globstars with their separators -/

/-- A globstar at the start, with the separator behind it. -/
theorem guides_leadingGlobstar : Guides blind Safe
    (['(', '?', ':', '^', '|'] ++ Fragment.slash windows ++
      '|' :: Fragment.globstar windows false capture ++ Fragment.slash windows ++ [')']) Clear := by
  have hstart : Guides blind Safe ['^'] Clear := guides_start.mono (fun _ => id) fun _ => And.left
  have hslash : Guides blind Safe (Fragment.slash windows) Clear := guides_slash.of_safe
  have hglobstar : Guides blind Safe (Fragment.globstar windows false capture) Safe :=
    guides_globstar
  have hbody := (((hstart.body (R := Clear)).bar.append hslash).bar.append hglobstar).append hslash
  have := hbody.group.guides
  simpa using this

section
variable {slash : List Char} (hslash : Guides blind Clear slash Safe)
include hslash

/-- A globstar between two separators, of which the first one has its guard. -/
theorem guides_innerGlobstar {closing : List Char}
    (hclosing : closing = ['|', '$', ')'] ∨ closing = [')']) : Guides blind Clear
    (['(', '?', ':'] ++ slash ++ (Fragment.globstar windows false capture ++
      Fragment.slash windows ++ '|' :: Fragment.slash windows ++ closing)) Clear := by
  have hglobstar : Guides blind Safe (Fragment.globstar windows false capture) Safe :=
    guides_globstar
  have hnext : Guides blind Clear (Fragment.slash windows) Clear := guides_slash
  have hfinish : Guides blind Clear ['$'] Clear :=
    guides_finish.mono (fun _ => id) fun _ => And.left
  have hwalk := ((hslash.append hglobstar).append hnext.of_safe).body (R := Clear)
  have hbody := hwalk.bar.append hnext
  obtain rfl | rfl := hclosing
  · have := (hbody.bar.append hfinish).group.guides
    simpa using this
  · have := hbody.group.guides
    simpa using this

/-- A globstar at the end, behind a separator with its guard. -/
theorem guides_trailingGlobstar {closing : List Char}
    (hclosing : closing = ['|', '$', ')'] ∨ closing = [')']) : Guides blind Clear
    (['(', '?', ':'] ++ slash ++ (Fragment.globstar windows false capture ++ closing)) Safe := by
  have hglobstar : Guides blind Safe (Fragment.globstar windows false capture) Safe :=
    guides_globstar
  have hbody := (hslash.append hglobstar).body (R := Safe)
  obtain rfl | rfl := hclosing
  · have := (hbody.bar.append guides_finish).group.guides
    simpa using this
  · have := hbody.group.guides
    simpa using this

end

end PathGlob.Regex
