import PathGlob.Proofs.Compile

/-!
# `PathGlob.Proofs.Language.Literal`: patterns and parts of patterns that stand for themselves

A verbatim text is translated character by character into pieces that pass over exactly
this text, wherever in a pattern it stands. Only the beginning of a pattern needs a further
condition, since an exclamation mark and `./` have a meaning there and nowhere else.
-/

set_option autoImplicit false

namespace PathGlob

open Regex Pattern

namespace Regex.Piece

variable {c d : Cursor}

theorem spans_text_iff (text : List Char) :
    (Node.ofSequence (text.map .char)).Spans false c d ↔ c.Passes text d := by
  induction text generalizing c with
  | nil => exact Cursor.passes_nil_iff.symm
  | cons x text ih =>
    rw [List.map_cons, Node.spans_ofSequence_cons, ← List.singleton_append,
      Cursor.passes_append_iff]
    simp only [spans_char_iff, ih]

theorem fills_text_iff (text : List Char) :
    Node.Fills (text.map .char) c ↔ c.after = text := by
  simp only [Node.Fills, spans_text_iff, Cursor.exists_passes_iff (P := (· = []))]
  simp

end Regex.Piece

/-- Nothing at the beginning of the pattern has a meaning only there. -/
def BeginsPlainly (pattern : List Char) : Prop :=
  pattern.head? ≠ some '!' ∧ ∀ rest, pattern ≠ '.' :: '/' :: rest

/-- No character of the text is a wildcard or delimits anything but segments. -/
structure IsVerbatim (text : List Char) : Prop where
  ne_nil : text ≠ []
  chars : ∀ c ∈ text, (c = '/' ∨ isStructural c = false) ∧ c ≠ '?' ∧ c ≠ '*'

namespace IsVerbatim

variable {text : List Char} (h : IsVerbatim text)
include h

theorem head?_ne_star (rest : List Char) : (text ++ rest).head? ≠ some '*' := by
  obtain ⟨c, text, rfl⟩ := List.exists_cons_of_ne_nil h.ne_nil
  exact fun heq => (h.chars c List.mem_cons_self).2.2 (Option.some.inj heq)

theorem getLast?_ne_star (lead : List Char) : (lead ++ text).getLast? ≠ some '*' := by
  rw [List.getLast?_append, List.getLast?_eq_some_getLast h.ne_nil, Option.some_or]
  exact fun heq => (h.chars _ (List.getLast_mem h.ne_nil)).2.2 (Option.some.inj heq)

/-- The characters are admitted anywhere, and at the start of a pattern that begins plainly. -/
theorem admitsAll {kind : TokenKind} {rest : List Char}
    (hbegins : kind = .bos → BeginsPlainly (text ++ rest)) : kind.AdmitsAll rest text := by
  have hchars := h.chars
  clear h
  induction text generalizing kind with
  | nil => exact trivial
  | cons c text ih =>
    obtain ⟨⟨hc, -, hstar⟩, htext⟩ := List.forall_mem_cons.mp hchars
    have hafter : kind.after c ≠ .bos := by
      unfold TokenKind.after
      repeat' split
      all_goals decide
    refine ⟨⟨hc, fun hbos heq => ?_, fun hbos heq hnext => ?_, fun _ heq => absurd heq hstar⟩,
      ih (fun heq => absurd heq hafter) htext⟩
    · exact (hbegins hbos).1 (congrArg some heq)
    · obtain ⟨more, hmore⟩ := List.head?_eq_some_iff.mp hnext
      exact (hbegins hbos).2 more (by rw [List.cons_append, heq, hmore])

/-- The pieces of a verbatim text are its characters. -/
theorem ofText_eq (dots : Bool) (kind : TokenKind) :
    Piece.ofText dots kind text = text.map .char := by
  have hchars := h.chars
  clear h
  induction text generalizing kind with
  | nil => rfl
  | cons c text ih =>
    obtain ⟨⟨-, hqmark, hstar⟩, htext⟩ := List.forall_mem_cons.mp hchars
    have hchar : Piece.ofChar dots kind c = [.char c] := by
      by_cases hslash : c = '/' <;> simp [Piece.ofChar, hslash, hqmark, hstar]
    rw [Piece.ofText, hchar, ih _ htext]
    rfl

/-- A verbatim text ends with an ordinary token. -/
theorem foldl_after_notMem (kind : TokenKind) :
    text.foldl TokenKind.after kind ∉ [.bos, .star, .globstar] := by
  -- Only the last character decides on the kind of the last token.
  obtain ⟨init, c, rfl⟩ := (List.eq_nil_or_concat text).resolve_left h.ne_nil
  have hstar := (h.chars c (by simp)).2.2
  rw [List.concat_eq_append, List.foldl_append, List.foldl_cons, List.foldl_nil, TokenKind.after,
    if_neg hstar]
  repeat' split
  all_goals decide

/-- Nothing is added after a verbatim text. -/
theorem closing_eq_nil (options : Options) : Piece.closing options text = [] :=
  if_neg fun heq => h.getLast?_ne_star [] heq.1

end IsVerbatim

/-- A verbatim pattern recognizes itself only. -/
theorem recognizes_verbatim {pattern : List Char} {options : Options} (hplain : options.IsPlain)
    (hsize : Text.byteSize pattern ≤ options.effectiveMaxLength) (h : IsVerbatim pattern)
    (hbegins : BeginsPlainly pattern) : Recognizes pattern options fun text => text = pattern := by
  have hadmits : TokenKind.AdmitsAll [] .bos pattern :=
    h.admitsAll fun _ => by rwa [List.append_nil]
  refine (recognizes_ungrouped hplain hsize h.ne_nil hadmits).congr fun text => ?_
  rw [h.ofText_eq, h.closing_eq_nil, List.append_nil]
  exact Piece.fills_text_iff pattern

end PathGlob
