import PathGlob.Proofs.Regex.Reads
import PathGlob.Proofs.Text.Segments

/-!
# `PathGlob.Proofs.Regex.Pieces`: what the emitted fragments mean

Each fragment that wildcards are translated into is read as a fixed piece, and for each
piece there is a statement of the texts it spans. The separator is a slash and case counts
throughout.

Two pieces need more than a look at the next character. A guard asks about the segment
that begins at a cursor (`spans_dotGuard_iff`). A globstar asks the same question at every
character that it passes over, so it sees past the end of what it matches
(`spans_globstar_iff`).
-/

set_option autoImplicit false

namespace PathGlob.Regex.Piece

open Cursor Text

/-! ### The pieces -/

/-- A character that is no separator. -/
def anyChar : Node := .set (.compl (.union .none (.single '/')))

/-- A character that is neither a separator nor a dot. -/
def anyCharNoDot : Node := .set (.compl (.union (.union .none (.single '.')) (.single '/')))

/-- Any run of characters that are no separators. -/
def star : Node := .loop anyChar 0 none true

/-- Some character other than a line feed follows. -/
def oneChar : Node := .look false false (.ofSequence [.dot])

/-- A separator or the end. -/
def segmentEnd : Node := .group (.alt (.ofSequence [.char '/']) (.ofSequence [.finish]))

/-- The start or a separator. -/
def segmentStart : Node := .group (.alt (.ofSequence [.start]) (.ofSequence [.char '/']))

/-- The beginning of a segment that no wildcard matches. -/
def dotSegment (dots : Bool) : List Node :=
  if dots then [.loop (.char '.') 1 (some 2) false, segmentEnd] else [.char '.']

/-- No segment begins here that no wildcard matches. -/
def dotGuard (dots : Bool) : Node := .look false true (.ofSequence (dotSegment dots))

/-- After a dot, neither the end of the segment nor a last dot follows. -/
def noDotSegment : Node :=
  .look false true (.ofSequence [.loop (.char '.') 0 (some 1) false, segmentEnd])

/-- One character of a globstar. -/
def globstarChar (dots : Bool) : Node :=
  .group (.ofSequence [.look false true (.ofSequence (segmentStart :: dotSegment dots)), .dot])

/-- Any run of characters in which no segment begins that no wildcard matches. -/
def globstar (dots : Bool) : Node :=
  .group (.ofSequence [.loop (globstarChar dots) 0 none true])

/-- A separator that may be missing. -/
def optionalSlash : Node := .loop (.char '/') 0 (some 1) false

/-! ### How they are read -/

theorem reads_slash : Reads (Fragment.slash false) [.char '/'] := reads_escapeChar '/'

theorem reads_anyChar : Reads (Fragment.anyChar false) [anyChar] :=
  fun _ _ _ _ _ _ _ => ⟨_, rfl⟩

theorem reads_anyCharNoDot : Reads (Fragment.anyCharNoDot false) [anyCharNoDot] :=
  fun _ _ _ _ _ _ _ => ⟨_, rfl⟩

theorem reads_star : Reads (Fragment.star false) [star] := fun _ _ _ _ _ _ _ => ⟨_, rfl⟩

theorem reads_oneChar : Reads Fragment.oneChar [oneChar] := fun _ _ _ _ _ _ _ => ⟨_, rfl⟩

theorem reads_dotGuard (dots : Bool) : Reads (Fragment.dotGuard false dots) [dotGuard dots] := by
  cases dots <;> exact fun _ _ _ _ _ _ _ => ⟨_, rfl⟩

theorem reads_noDotSegment : Reads (Fragment.noDotSegment false) [noDotSegment] :=
  fun _ _ _ _ _ _ _ => ⟨_, rfl⟩

theorem reads_globstar (dots : Bool) :
    Reads (Fragment.globstar false dots false) [globstar dots] := by
  cases dots <;> exact fun _ _ _ _ _ _ _ => ⟨_, rfl⟩

theorem reads_optionalSlash : Reads (Fragment.slash false ++ ['?']) [optionalSlash] :=
  fun _ _ _ _ _ _ _ => ⟨_, rfl⟩

/-! ### What they span -/

variable {dots : Bool} {c d : Cursor}

theorem spans_char_iff {x : Char} : (Node.char x).Spans false c d ↔ c.Passes [x] d := by
  simp [Node.Spans, Steps, sameChar]

theorem spans_dot_iff : Node.dot.Spans false c d ↔ ∃ x, x ≠ '\n' ∧ c.Passes [x] d := by
  simp [Node.Spans, Steps]

theorem has_single_iff {x y : Char} : (CharSet.single x).has false y = true ↔ y = x := by
  simp only [CharSet.single, CharSet.has, Bool.false_eq_true, if_false, Bool.and_eq_true,
    decide_eq_true_eq]
  exact ⟨fun ⟨h, h'⟩ => Char.le_antisymm h' h, fun h => h ▸ ⟨Char.le_refl _, Char.le_refl _⟩⟩

theorem spans_anyChar_iff : anyChar.Spans false c d ↔ ∃ x, x ≠ '/' ∧ c.Passes [x] d := by
  simp only [anyChar, Node.Spans, Steps, CharSet.has, Bool.false_or, Bool.not_eq_true',
    ← Bool.not_eq_true, has_single_iff, ne_eq]

theorem spans_anyCharNoDot_iff :
    anyCharNoDot.Spans false c d ↔ ∃ x, (x ≠ '.' ∧ x ≠ '/') ∧ c.Passes [x] d := by
  simp only [anyCharNoDot, Node.Spans, Steps, CharSet.has, Bool.false_or, Bool.not_eq_true',
    ← Bool.not_eq_true, Bool.or_eq_true, has_single_iff, not_or, ne_eq]

theorem spans_optional_iff {blind reluctant : Bool} {a : Node} :
    (Node.loop a 0 (some 1) reluctant).Spans blind c d ↔ d = c ∨ a.Spans blind c d := by
  constructor
  · rintro ⟨e, rfl, n, hn, hrounds⟩
    have hn : n ≤ 1 := by simpa using hn
    obtain rfl | rfl : n = 0 ∨ n = 1 := by omega
    · exact .inl hrounds
    · obtain ⟨f, hf, rfl⟩ := hrounds
      exact .inr hf
  · rintro (rfl | h)
    · exact ⟨d, rfl, 0, by simp, rfl⟩
    · exact ⟨c, rfl, 1, by simp, d, h, rfl⟩

theorem spans_optionalSlash_iff :
    optionalSlash.Spans false c d ↔ d = c ∨ c.Passes ['/'] d := by
  rw [optionalSlash, spans_optional_iff, spans_char_iff]

/-- One or two rounds are one round and perhaps another. -/
theorem spans_oneOrTwo_iff {blind reluctant : Bool} {a : Node} :
    (Node.loop a 1 (some 2) reluctant).Spans blind c d ↔
      ∃ e, a.Spans blind c e ∧ (d = e ∨ a.Spans blind e d) := by
  constructor
  · rintro ⟨e, ⟨f, hf, he⟩, n, hn, hrounds⟩
    obtain rfl : e = f := he
    have hn : n ≤ 1 := by simpa using hn
    obtain rfl | rfl : n = 0 ∨ n = 1 := by omega
    · exact ⟨e, hf, .inl hrounds⟩
    · obtain ⟨g, hg, hd⟩ := hrounds
      obtain rfl : d = g := hd
      exact ⟨e, hf, .inr hg⟩
  · rintro ⟨e, he, rfl | h⟩
    · exact ⟨d, ⟨d, he, rfl⟩, 0, by simp, rfl⟩
    · exact ⟨e, ⟨e, he, rfl⟩, 1, by simp, d, h, rfl⟩

theorem spans_unbounded_iff {blind reluctant : Bool} {a : Node} :
    (Node.loop a 0 none reluctant).Spans blind c d ↔ ∃ n, Rounds (a.Spans blind) n c d := by
  constructor
  · rintro ⟨e, rfl, n, _, hrounds⟩
    exact ⟨n, hrounds⟩
  · rintro ⟨n, hrounds⟩
    exact ⟨c, rfl, n, by simp, hrounds⟩

/-- A loop whose rounds consume a character each passes over a text all of whose
characters qualify where they stand. -/
theorem exists_rounds_iff {round : Cursor → Cursor → Prop} {Q : Char → Cursor → Prop}
    (hround : ∀ c d, round c d ↔ ∃ x, Q x c ∧ c.Passes [x] d) :
    (∃ n, Rounds round n c d) ↔ ∃ text, c.Passes text d ∧
      ∀ u x v, text = u ++ x :: v → Q x ⟨u.reverse ++ c.before, x :: v ++ d.after⟩ := by
  constructor
  · rintro ⟨n, h⟩
    induction n generalizing c with
    | zero =>
      obtain rfl : d = c := h
      exact ⟨[], .refl _, fun u x v h => absurd h (by simp)⟩
    | succ n ih =>
      obtain ⟨e, he, h⟩ := h
      obtain ⟨y, hy, hpass⟩ := (hround c e).mp he
      -- The characters after the first one qualify at their places, one further on.
      obtain ⟨text, htext, hQ⟩ := ih h
      refine ⟨y :: text, hpass.trans htext, fun u x v heq => ?_⟩
      cases u with
      | nil =>
        obtain ⟨rfl, rfl⟩ := List.cons.inj heq
        have hc : c = ⟨c.before, y :: text ++ d.after⟩ :=
          congrArg (mk c.before) (hpass.trans htext).1
        exact hc ▸ hy
      | cons z u =>
        obtain ⟨rfl, rfl⟩ := List.cons.inj heq
        have := hQ u x v rfl
        rw [hpass.2] at this
        simpa using this
  · rintro ⟨text, hpass, hQ⟩
    induction text generalizing c with
    | nil => exact ⟨0, passes_nil_iff.mp hpass⟩
    | cons y text ih =>
      -- The first round reads one character, and the others start behind it.
      let e : Cursor := ⟨y :: c.before, text ++ d.after⟩
      have he : c.Passes [y] e := ⟨hpass.1, rfl⟩
      obtain ⟨n, hn⟩ := ih (c := e) ⟨rfl, by simpa [e] using hpass.2⟩ fun u x v heq => by
        have := hQ (y :: u) x v (by rw [heq]; rfl)
        simpa [e] using this
      have hc : c = ⟨c.before, y :: text ++ d.after⟩ := congrArg (mk c.before) hpass.1
      exact ⟨n + 1, e, (hround c e).mpr ⟨y, hc ▸ hQ [] y text rfl, he⟩, hn⟩

/-- A star passes over any text without a separator. -/
theorem spans_star_iff : star.Spans false c d ↔ ∃ text, '/' ∉ text ∧ c.Passes text d := by
  rw [star, spans_unbounded_iff, exists_rounds_iff (Q := fun x _ => x ≠ '/')
    fun c d => spans_anyChar_iff]
  constructor
  · rintro ⟨text, hpass, h⟩
    refine ⟨text, fun hmem => ?_, hpass⟩
    obtain ⟨u, v, rfl⟩ := List.append_of_mem hmem
    exact h u '/' v rfl rfl
  · rintro ⟨text, h, hpass⟩
    refine ⟨text, hpass, fun u x v heq hx => h ?_⟩
    rw [heq, hx]
    exact List.mem_append_right u List.mem_cons_self

theorem spans_oneChar_iff :
    oneChar.Spans false c d ↔ (∃ x, x ≠ '\n' ∧ c.after.head? = some x) ∧ d = c := by
  simp only [oneChar, Node.spans_ahead_iff, Node.spans_ofSequence_singleton, spans_dot_iff]
  refine and_congr_left fun _ => ⟨?_, ?_⟩
  · rintro ⟨e, x, hx, hpass⟩
    exact ⟨x, hx, by rw [hpass.1]; rfl⟩
  · rintro ⟨x, hx, hhead⟩
    obtain ⟨rest, hrest⟩ := List.head?_eq_some_iff.mp hhead
    exact ⟨_, x, hx, passes_of_after [x] hrest⟩

/-- The end of a segment comes next: the end of the text or a separator. -/
theorem exists_spans_segmentEnd_iff :
    (∃ e, segmentEnd.Spans false c e) ↔ c.after = [] ∨ c.after.head? = some '/' := by
  simp only [segmentEnd, Node.spans_group_iff, Node.spans_alt_iff, Node.spans_finish_iff,
    Node.spans_ofSequence_singleton, spans_char_iff]
  constructor
  · rintro ⟨e, h | ⟨h, -⟩⟩
    · exact .inr (by rw [h.1]; rfl)
    · exact .inl h
  · rintro (h | h)
    · exact ⟨c, .inr ⟨h, rfl⟩⟩
    · obtain ⟨rest, hrest⟩ := List.head?_eq_some_iff.mp h
      exact ⟨_, .inl (passes_of_after ['/'] hrest)⟩

/-- The text comes next and fills the rest of its segment. -/
theorem exists_passes_segmentEnd_iff (text : List Char) (h : '/' ∉ text) :
    (∃ e, c.Passes text e ∧ ∃ f, segmentEnd.Spans false e f) ↔ firstPiece '/' c.after = text := by
  simp only [exists_spans_segmentEnd_iff]
  rw [exists_passes_iff (P := fun rest => rest = [] ∨ rest.head? = some '/'), firstPiece_eq_iff h]

/-- A segment that no wildcard matches begins at the cursor. -/
theorem exists_spans_dotSegment_iff :
    (∃ e, (Node.ofSequence (dotSegment dots)).Spans false c e) ↔
      isDotSegment dots (firstPiece '/' c.after) = true := by
  cases dots with
  | false =>
    simp only [dotSegment, isDotSegment, Bool.false_eq_true, if_false,
      Node.spans_ofSequence_singleton, spans_char_iff, decide_eq_true_eq]
    rw [head?_firstPiece (by decide), List.head?_eq_some_iff]
    exact ⟨fun ⟨e, h⟩ => ⟨e.after, h.1⟩, fun ⟨_, h⟩ => ⟨_, passes_of_after ['.'] h⟩⟩
  | true =>
    -- With dots allowed, only `.` and `..` are refused, each up to the end of its segment.
    have hone := exists_passes_segmentEnd_iff (c := c) ['.'] (by decide)
    have htwo := exists_passes_segmentEnd_iff (c := c) ['.', '.'] (by decide)
    simp only [isDotSegment, if_true, Bool.or_eq_true, decide_eq_true_eq, ← hone, ← htwo,
      dotSegment, Node.spans_ofSequence_cons, Node.spans_ofSequence_nil, spans_oneOrTwo_iff,
      spans_char_iff]
    constructor
    · rintro ⟨_, e, ⟨f, hf, rfl | he⟩, g, hg, rfl⟩
      · exact .inl ⟨e, hf, _, hg⟩
      · exact .inr ⟨e, hf.trans he, _, hg⟩
    · rintro (⟨e, he, g, hg⟩ | ⟨e, he, g, hg⟩)
      · exact ⟨g, e, ⟨e, he, .inl rfl⟩, g, hg, rfl⟩
      · let f : Cursor := ⟨'.' :: c.before, '.' :: e.after⟩
        have hf : c.Passes ['.'] f := ⟨he.1, rfl⟩
        exact ⟨g, e, ⟨f, hf, .inr ⟨rfl, he.2⟩⟩, g, hg, rfl⟩

/-- A guard admits exactly the places where no segment begins that wildcards do not match. -/
theorem spans_dotGuard_iff : (dotGuard dots).Spans false c d ↔
    isDotSegment dots (firstPiece '/' c.after) = false ∧ d = c := by
  rw [dotGuard, Node.spans_not_ahead_iff, exists_spans_dotSegment_iff, Bool.not_eq_true]

theorem spans_guarded_iff {pieces : List Node} :
    (Node.ofSequence (dotGuard dots :: pieces)).Spans false c d ↔
      isDotSegment dots (firstPiece '/' c.after) = false ∧
        (Node.ofSequence pieces).Spans false c d := by
  rw [Node.spans_ofSequence_cons]
  simp only [spans_dotGuard_iff]
  exact ⟨fun ⟨e, ⟨hguard, he⟩, h⟩ => ⟨hguard, he ▸ h⟩, fun ⟨hguard, h⟩ => ⟨c, ⟨hguard, rfl⟩, h⟩⟩

/-- A segment that wildcards do not match begins at the cursor or right behind the separator
that follows it. -/
def DotSegmentAt (dots : Bool) (c : Cursor) : Prop :=
  (c.before = [] ∧ isDotSegment dots (firstPiece '/' c.after) = true) ∨
    ∃ rest, c.after = '/' :: rest ∧ isDotSegment dots (firstPiece '/' rest) = true

/-- What a globstar looks out for at each character. -/
theorem exists_spans_dotSegmentAt_iff :
    (∃ e, (Node.ofSequence (segmentStart :: dotSegment dots)).Spans false c e) ↔
      DotSegmentAt dots c := by
  rw [DotSegmentAt]
  simp only [Node.spans_ofSequence_cons]
  constructor
  · rintro ⟨e, f, ⟨f', ⟨hbefore, rfl⟩, hf⟩ | ⟨f', hf', hf⟩, he⟩
    · obtain rfl : f = f' := hf
      exact .inl ⟨hbefore, exists_spans_dotSegment_iff.mp ⟨e, he⟩⟩
    · obtain rfl : f = f' := hf
      exact .inr ⟨f.after, (spans_char_iff.mp hf').1, exists_spans_dotSegment_iff.mp ⟨e, he⟩⟩
  · rintro (⟨hbefore, h⟩ | ⟨rest, hrest, h⟩)
    · obtain ⟨e, he⟩ := exists_spans_dotSegment_iff.mpr h
      exact ⟨e, c, .inl ⟨c, ⟨hbefore, rfl⟩, rfl⟩, he⟩
    · obtain ⟨e, he⟩ := exists_spans_dotSegment_iff (c := ⟨['/'] ++ c.before, rest⟩).mpr h
      have hslash := passes_of_after ['/'] hrest
      exact ⟨e, _, .inr ⟨_, spans_char_iff.mpr hslash, rfl⟩, he⟩

theorem spans_globstarChar_iff : (globstarChar dots).Spans false c d ↔
    ∃ x, (x ≠ '\n' ∧ ¬ DotSegmentAt dots c) ∧ c.Passes [x] d := by
  rw [globstarChar, Node.spans_group_iff, Node.spans_ofSequence_cons]
  simp only [Node.spans_not_ahead_iff, exists_spans_dotSegmentAt_iff,
    Node.spans_ofSequence_singleton, spans_dot_iff]
  constructor
  · rintro ⟨_, ⟨hnot, rfl⟩, x, hx, hpass⟩
    exact ⟨x, ⟨hx, hnot⟩, hpass⟩
  · rintro ⟨x, ⟨hx, hnot⟩, hpass⟩
    exact ⟨c, ⟨hnot, rfl⟩, x, hx, hpass⟩

theorem spans_globstar_iff : (globstar dots).Spans false c d ↔ ∃ text, c.Passes text d ∧
    ∀ u x v, text = u ++ x :: v →
      x ≠ '\n' ∧ ¬ DotSegmentAt dots ⟨u.reverse ++ c.before, x :: v ++ d.after⟩ := by
  rw [globstar, Node.spans_group_iff, Node.spans_ofSequence_singleton, spans_unbounded_iff,
    exists_rounds_iff (Q := fun x c => x ≠ '\n' ∧ ¬ DotSegmentAt dots c)
      fun c d => spans_globstarChar_iff]

/-- A globstar behind its guard passes over any clear text, provided that the text ends with
a segment. -/
theorem spans_guarded_globstar_iff (hend : d.after = [] ∨ d.after.head? = some '/') :
    (Node.ofSequence [dotGuard dots, globstar dots]).Spans false c d ↔
      ∃ text, IsClear dots text ∧ c.Passes text d := by
  rw [spans_guarded_iff, Node.spans_ofSequence_singleton, spans_globstar_iff]
  simp only [IsClear, forall_mem_pieces_iff]
  constructor
  · rintro ⟨hguard, text, hpass, h⟩
    rw [hpass.1, firstPiece_append text hend] at hguard
    refine ⟨text, ⟨fun hmem => ?_, hguard, fun u v heq => ?_⟩, hpass⟩
    · -- No character of the text is a line feed.
      obtain ⟨u, v, heq⟩ := List.append_of_mem hmem
      exact (h u '\n' v heq).1 rfl
    · -- Each later segment begins behind a separator that the globstar passes over.
      have hnot := (h u '/' v heq).2
      rw [DotSegmentAt, not_or, not_exists] at hnot
      have := hnot.2 (v ++ d.after)
      rw [firstPiece_append v hend] at this
      simpa using this
  · rintro ⟨text, ⟨hfeed, hguard, hlater⟩, hpass⟩
    refine ⟨by rw [hpass.1, firstPiece_append text hend]; exact hguard, text, hpass, ?_⟩
    rintro u x v rfl
    refine ⟨fun hx => hfeed (by simp [hx]), ?_⟩
    rintro (⟨hbefore, h⟩ | ⟨rest, hrest, h⟩)
    · -- Nothing stands before the first segment, which the guard has looked at.
      obtain rfl : u = [] := List.reverse_eq_nil_iff.mp (List.append_eq_nil_iff.mp hbefore).1
      rw [firstPiece_append _ hend] at h
      exact absurd (hguard.symm.trans h) (by decide)
    · obtain ⟨rfl, rfl⟩ := List.cons.inj hrest
      have h : isDotSegment dots (firstPiece '/' (v ++ d.after)) = true := h
      rw [firstPiece_append v hend] at h
      exact absurd ((hlater u v rfl).symm.trans h) (by decide)

end PathGlob.Regex.Piece
