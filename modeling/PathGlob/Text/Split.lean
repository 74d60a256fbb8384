/-!
# `PathGlob.Text.Split`: pieces of a text

Splitting at a character, and the two tests for a given beginning that also hand back
what follows it.
-/

set_option autoImplicit false

namespace PathGlob.Text

/-- The pieces between the occurrences of a character. There is always one piece more
than there are occurrences, so the empty text has one empty piece. -/
def pieces (separator : Char) : List Char → List (List Char)
  | [] => [[]]
  | c :: rest =>
    if c = separator then [] :: pieces separator rest
    else match pieces separator rest with
      | [] => [[c]]
      | piece :: others => (c :: piece) :: others

theorem pieces_ne_nil (separator : Char) (text : List Char) : pieces separator text ≠ [] := by
  cases text with
  | nil => simp [pieces]
  | cons c rest =>
    rw [pieces]
    split
    · simp
    · split <;> simp

/-- The pieces put together again, with the separator between them, are the text. -/
theorem intercalate_pieces (separator : Char) (text : List Char) :
    [separator].intercalate (pieces separator text) = text := by
  induction text with
  | nil => rfl
  | cons c rest ih =>
    have hne := pieces_ne_nil separator rest
    rw [pieces]
    split
    · rename_i heq
      obtain ⟨piece, others, h⟩ := List.exists_cons_of_ne_nil hne
      rw [h] at ih ⊢
      rw [List.intercalate_cons_cons, ih, heq]
      rfl
    · split
      · exact absurd ‹_› hne
      · rename_i piece others h
        rw [h] at ih
        cases others with
        | nil => simpa using ih
        | cons other others =>
          rw [List.intercalate_cons_cons] at ih ⊢
          rw [List.cons_append, List.cons_append, ih]

/-- What follows a given beginning, if the text has it. -/
def after? : List Char → List Char → Option (List Char)
  | [], text => some text
  | _ :: _, [] => none
  | b :: beginning, c :: text => if b = c then after? beginning text else none

theorem after?_eq_some_iff {beginning text rest : List Char} :
    after? beginning text = some rest ↔ text = beginning ++ rest := by
  induction beginning generalizing text with
  | nil => simp [after?]
  | cons b beginning ih =>
    cases text with
    | nil => simp [after?]
    | cons c text =>
      rw [after?]
      by_cases h : b = c
      · simp [h, ih]
      · simp [h, Ne.symm h]

/-- What precedes a given ending, if the text has it. -/
def before? (ending text : List Char) : Option (List Char) :=
  (after? ending.reverse text.reverse).map List.reverse

theorem before?_eq_some_iff {ending text rest : List Char} :
    before? ending text = some rest ↔ text = rest ++ ending := by
  rw [before?, Option.map_eq_some_iff]
  constructor
  · rintro ⟨reversed, h, rfl⟩
    rw [after?_eq_some_iff] at h
    rw [← List.reverse_reverse text, h]
    simp
  · rintro rfl
    exact ⟨rest.reverse, after?_eq_some_iff.mpr (by simp), by simp⟩

/-- The text with one trailing separator removed, if it has one. -/
def dropTrailingSlash (text : List Char) : List Char :=
  (before? ['/'] text).getD text

end PathGlob.Text
