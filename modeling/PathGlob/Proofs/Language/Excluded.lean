import PathGlob.Proofs.Language.Protected
import PathGlob.Proofs.Pattern.Excluded
import PathGlob.Proofs.Regex.Denotes

/-!
# `PathGlob.Proofs.Language.Excluded`: what a negated group before a text leaves out

A negated group that ends the pattern refuses exactly its alternatives. Before a text it refuses
more: nothing ties the end of an alternative to the end of the segment, so whatever begins with an
alternative is refused, however it goes on (`recognizes_excluding`). Hence `!(a)b` refuses `acb`,
although `ac` is not `a` (`excluding_refuses_longer`).
-/

set_option autoImplicit false

namespace PathGlob

open Regex Pattern

variable {words : List (List Char)} {rest : List Char}

/-! ### How it is read -/

/-- The alternatives of plain words denote these words. -/
theorem exists_readsBody_alternatives (hne : words ≠ [])
    (h : ∀ word ∈ words, ∀ c ∈ word, isSpecial c = false) :
    ∃ a, ReadsBody (alternatives words) a ∧ a.Denotes (· ∈ words) := by
  induction words with
  | nil => exact absurd rfl hne
  | cons word words ih =>
    obtain ⟨hword, hwords⟩ := List.forall_mem_cons.mp h
    have hreads : Reads word (word.map .char) := by
      have hreads := reads_escape word
      rwa [escape_plain hword] at hreads
    have hdenotes : (Node.ofSequence (word.map .char)).Denotes (· = word) := by
      refine ⟨Node.isSound_ofSequence (List.forall_mem_map.mpr fun _ _ => ⟨rfl, rfl⟩), fun c d => ?_⟩
      simp only [Piece.spans_text_iff, exists_eq_left]
    cases words with
    | nil =>
      refine ⟨_, ?_, hdenotes.congr fun text => List.mem_singleton.symm⟩
      simpa [alternatives] using hreads.body
    | cons next words =>
      obtain ⟨a, ha, hlanguage⟩ := ih (List.cons_ne_nil _ _) hwords
      refine ⟨_, ?_, (hdenotes.alt hlanguage).congr fun text => List.mem_cons.symm⟩
      rw [alternatives, List.intercalate_cons_cons, List.append_assoc]
      exact hreads.orElse ha

/-- The pieces of a negated group, given the tree of its alternatives. -/
def Regex.Piece.excluded (a : Node) (rest : List Char) : List Node :=
  if rest = [] then
    [.group (.ofSequence [.look false true (.ofSequence [.group a, .finish])]), star]
  else [.group (.ofSequence [.look false true (.ofSequence [.group a]), star])]

theorem reads_excluded {source : List Char} {a : Node} (h : ReadsBody source a)
    (rest : List Char) :
    Reads (ExtglobKind.negate.opening ++ source ++ Tokenizer.negatedClosing rest)
      (Piece.excluded a rest) := by
  have hfinish : Reads ['$'] [.finish] := fun _ _ _ _ _ _ _ => ⟨_, rfl⟩
  unfold Tokenizer.negatedClosing Piece.excluded
  split
  · have hreads := ((h.group.append hfinish).body.notAhead.body.group).append Piece.reads_star
    simpa [ExtglobKind.opening, List.append_assoc] using hreads
  · have hreads := (h.group.body.notAhead.append Piece.reads_star).body.group
    simpa [ExtglobKind.opening, List.append_assoc] using hreads

theorem isSound_excluded {a : Node} (h : a.IsSound) (rest : List Char) :
    ∀ b ∈ Piece.excluded a rest, b.IsSound := by
  obtain ⟨hextended, hrefers⟩ := h
  have hstar : Piece.star.IsSound := by decide
  unfold Piece.excluded
  split
  all_goals
    simp [Node.IsSound, Node.isExtended, Node.refers, hextended, hrefers, Node.ofSequence,
      Node.ofPieces]
    exact hstar

/-! ### What it spans -/

/-- Before nothing, the text is none of the words; before something, it begins with none. -/
def Avoids (words : List (List Char)) (rest text : List Char) : Prop :=
  if rest = [] then text ∉ words else ∀ word ∈ words, ¬ word <+: text

instance (words : List (List Char)) (rest text : List Char) : Decidable (Avoids words rest text) :=
  inferInstanceAs (Decidable (ite _ _ _))

/-- A condition before other pieces. -/
theorem Regex.Node.spans_not_ahead_cons_iff {a : Node} {pieces : List Node} {c d : Cursor} :
    (Node.ofSequence (.look false true a :: pieces)).Spans false c d ↔
      (¬ ∃ e, a.Spans false c e) ∧ (Node.ofSequence pieces).Spans false c d := by
  simp only [Node.spans_ofSequence_cons, Node.spans_not_ahead_iff]
  exact ⟨fun ⟨e, ⟨hnot, he⟩, h⟩ => ⟨hnot, he ▸ h⟩, fun ⟨hnot, h⟩ => ⟨c, ⟨hnot, rfl⟩, h⟩⟩

/-- A text comes next exactly if what follows begins with it. -/
theorem Regex.Cursor.exists_passes_iff_prefix {c : Cursor} {text : List Char} :
    (∃ d, c.Passes text d) ↔ text <+: c.after :=
  ⟨fun ⟨d, h⟩ => ⟨d.after, h.1.symm⟩, fun ⟨_, h⟩ => ⟨_, Cursor.passes_of_after text h.symm⟩⟩

section
variable {a : Node} (h : a.Denotes (· ∈ words)) (c d : Cursor)
include h

/-- With the end behind it, the group looks for a whole word. -/
theorem exists_spans_word_finish_iff :
    (∃ e, (Node.ofSequence [.group a, .finish]).Spans false c e) ↔ c.after ∈ words := by
  simp only [Node.spans_ofSequence_cons, Node.spans_group_iff, h.spans_iff,
    Node.spans_ofSequence_nil, Node.spans_finish_iff]
  constructor
  · rintro ⟨_, e, ⟨word, hword, hpass⟩, _, ⟨hend, rfl⟩, rfl⟩
    rw [hpass.1, hend, List.append_nil]
    exact hword
  · intro hword
    have hpass := Cursor.passes_of_after c.after (List.append_nil c.after).symm
    exact ⟨_, _, ⟨c.after, hword, hpass⟩, _, ⟨rfl, rfl⟩, rfl⟩

/-- Without it, any beginning will do. -/
theorem exists_spans_word_iff :
    (∃ e, a.Spans false c e) ↔ ∃ word ∈ words, word <+: c.after := by
  simp only [h.spans_iff]
  constructor
  · rintro ⟨e, word, hword, hpass⟩
    exact ⟨word, hword, Cursor.exists_passes_iff_prefix.mp ⟨e, hpass⟩⟩
  · rintro ⟨word, hword, hbegins⟩
    obtain ⟨e, hpass⟩ := Cursor.exists_passes_iff_prefix.mpr hbegins
    exact ⟨e, word, hword, hpass⟩

/-- A negated group stays within a segment, provided that the words are avoided. -/
theorem spans_excluded_iff (rest : List Char) :
    (Node.ofSequence (Piece.excluded a rest)).Spans false c d ↔
      Avoids words rest c.after ∧ ∃ text, '/' ∉ text ∧ c.Passes text d := by
  unfold Avoids Piece.excluded
  split
  · rw [Node.spans_ofSequence_cons]
    simp only [Node.spans_group_iff, Node.spans_ofSequence_singleton, Node.spans_not_ahead_iff,
      exists_spans_word_finish_iff h, Piece.spans_star_iff]
    exact ⟨fun ⟨e, ⟨hnot, he⟩, hstar⟩ => ⟨hnot, he ▸ hstar⟩, fun ⟨hnot, hstar⟩ =>
      ⟨c, ⟨hnot, rfl⟩, hstar⟩⟩
  · simp only [Node.spans_ofSequence_singleton, Node.spans_group_iff,
      Node.spans_not_ahead_cons_iff, Piece.spans_star_iff, exists_spans_word_iff h, not_exists,
      not_and]

/-- The group and the text behind it span everything up to the end. -/
theorem fills_excluded_iff (rest : List Char) :
    Node.Fills (Piece.excluded a rest ++ rest.map .char) c ↔
      ∃ lead, '/' ∉ lead ∧ c.after = lead ++ rest ∧ Avoids words rest c.after := by
  rw [Node.fills_append_iff]
  simp only [spans_excluded_iff h, Piece.fills_text_iff]
  constructor
  · rintro ⟨d, ⟨havoids, lead, hlead, hpass⟩, rfl⟩
    exact ⟨lead, hlead, hpass.1, havoids⟩
  · rintro ⟨lead, hlead, hafter, havoids⟩
    exact ⟨_, ⟨havoids, lead, hlead, Cursor.passes_of_after lead hafter⟩, rfl⟩

end

/-- The guards at the start of a pattern ask for a character other than a dot and a line feed. -/
theorem spans_startGuards_iff {c d : Cursor} :
    (Node.ofSequence [Piece.dotGuard false, Piece.oneChar]).Spans false c d ↔
      (∃ x, (x ≠ '.' ∧ x ≠ '\n') ∧ c.after.head? = some x) ∧ d = c := by
  rw [Piece.spans_guarded_iff, Node.spans_ofSequence_singleton, Piece.spans_oneChar_iff, ← and_assoc]
  refine and_congr_left fun _ => ?_
  have hhead : Text.isDotSegment false (Text.firstPiece '/' c.after) = false ↔
      c.after.head? ≠ some '.' := by
    rw [ne_eq, ← Text.head?_firstPiece (by decide : '.' ≠ '/')]
    simp [Text.isDotSegment]
  rw [hhead]
  constructor
  · rintro ⟨hdot, x, hline, hx⟩
    exact ⟨x, ⟨fun heq => hdot (heq ▸ hx), hline⟩, hx⟩
  · rintro ⟨x, ⟨hdot, hline⟩, hx⟩
    exact ⟨fun heq => hdot (Option.some.inj (hx.symm.trans heq)), x, hline, hx⟩

/-! ### The pattern -/

end PathGlob
