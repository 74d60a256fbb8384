import PathGlob.Text.Split

/-!
# `PathGlob.Proofs.Text.Segments`: the pieces of a text, read from the left

`Text.pieces` cuts a text at every occurrence of a separator. The equations here say what
the first piece is and what is left after it, so that a proof can go through a text piece
by piece: a text without the separator is its only piece (`pieces_of_not_mem`), and
otherwise the text before the first separator is the first piece (`pieces_append`).
-/

set_option autoImplicit false

namespace PathGlob.Text

variable {separator : Char}

theorem pieces_of_not_mem {text : List Char} (h : separator ∉ text) :
    pieces separator text = [text] := by
  induction text with
  | nil => rfl
  | cons c text ih =>
    obtain ⟨hc, htext⟩ := not_or.mp (fun hmem => h (List.mem_cons.mpr hmem))
    rw [pieces, if_neg (Ne.symm hc), ih htext]

theorem pieces_append {text : List Char} (h : separator ∉ text) (rest : List Char) :
    pieces separator (text ++ separator :: rest) = text :: pieces separator rest := by
  induction text with
  | nil => simp [pieces]
  | cons c text ih =>
    obtain ⟨hc, htext⟩ := not_or.mp (fun hmem => h (List.mem_cons.mpr hmem))
    rw [List.cons_append, pieces, if_neg (Ne.symm hc), ih htext]

theorem not_mem_of_mem_pieces {text piece : List Char} (h : piece ∈ pieces separator text) :
    separator ∉ piece := by
  induction text generalizing piece with
  | nil =>
    rw [pieces, List.mem_singleton] at h
    exact h ▸ List.not_mem_nil
  -- A separator begins a new piece, and any other character belongs to the first one.
  | cons c text ih =>
    rw [pieces] at h
    split at h
    · rcases List.mem_cons.mp h with rfl | h
      · exact List.not_mem_nil
      · exact ih h
    · rename_i hc
      split at h
      · rename_i hnil
        exact absurd hnil (pieces_ne_nil separator text)
      · rename_i first others heq
        rw [heq] at ih
        rcases List.mem_cons.mp h with rfl | h
        · simp [Ne.symm hc, ih List.mem_cons_self]
        · exact ih (List.mem_cons_of_mem _ h)

/-- A piece is made of characters of the text. -/
theorem mem_of_mem_pieces {text piece : List Char} (h : piece ∈ pieces separator text) {d : Char}
    (hd : d ∈ piece) : d ∈ text := by
  induction text generalizing piece with
  | nil =>
    rw [pieces, List.mem_singleton] at h
    exact h ▸ hd
  | cons c text ih =>
    rw [pieces] at h
    split at h
    · rcases List.mem_cons.mp h with rfl | h
      · exact absurd hd List.not_mem_nil
      · exact List.mem_cons_of_mem c (ih h hd)
    · split at h
      · rw [List.mem_singleton] at h
        exact List.mem_cons.mpr (.inl (List.mem_singleton.mp (h ▸ hd)))
      · rename_i first others heq
        rw [heq] at ih
        rcases List.mem_cons.mp h with rfl | h
        · exact (List.mem_cons.mp hd).elim (fun heq => List.mem_cons.mpr (.inl heq))
            fun hd => List.mem_cons_of_mem c (ih List.mem_cons_self hd)
        · exact List.mem_cons_of_mem c (ih (List.mem_cons_of_mem _ h) hd)

theorem intercalate_cons (piece : List Char) (pieces : List (List Char)) :
    [separator].intercalate (piece :: pieces) = piece ++ pieces.flatMap (separator :: ·) := by
  induction pieces generalizing piece with
  | nil => simp
  | cons next pieces ih => rw [List.intercalate_cons_cons, ih, List.flatMap_cons]; simp

/-- Texts without the separator, put together, are cut into those texts again. -/
theorem pieces_intercalate {texts : List (List Char)} (hne : texts ≠ [])
    (h : ∀ text ∈ texts, separator ∉ text) :
    pieces separator ([separator].intercalate texts) = texts := by
  induction texts with
  | nil => exact absurd rfl hne
  | cons text texts ih =>
    obtain ⟨htext, htexts⟩ := List.forall_mem_cons.mp h
    cases texts with
    | nil => simpa using pieces_of_not_mem htext
    | cons next texts =>
      rw [List.intercalate_cons_cons, List.append_assoc, List.singleton_append,
        pieces_append htext, ih (List.cons_ne_nil _ _) htexts]

/-- The text before the first separator. -/
def firstPiece (separator : Char) (text : List Char) : List Char :=
  text.takeWhile (· ≠ separator)

/-- The first piece is followed by the end or by a separator, and nothing else is. -/
theorem firstPiece_eq_iff {piece text : List Char} (h : separator ∉ piece) :
    firstPiece separator text = piece ↔
      ∃ rest, text = piece ++ rest ∧ (rest = [] ∨ rest.head? = some separator) := by
  constructor
  · rintro rfl
    refine ⟨text.dropWhile (· ≠ separator), List.takeWhile_append_dropWhile.symm, ?_⟩
    -- What `takeWhile` leaves begins with the separator, if with anything.
    cases hrest : text.dropWhile (· ≠ separator) with
    | nil => exact .inl rfl
    | cons c rest =>
      have hhead := List.head?_dropWhile_not (fun c => decide (c ≠ separator)) text
      rw [hrest] at hhead
      exact .inr (congrArg some (Decidable.not_not.mp (of_decide_eq_false hhead)))
  · rintro ⟨rest, rfl, hrest⟩
    have hpiece : ∀ c ∈ piece, decide (c ≠ separator) = true := by
      intro c hc
      exact decide_eq_true fun heq => h (heq ▸ hc)
    rw [firstPiece, List.takeWhile_append_of_pos hpiece]
    rcases hrest with rfl | hrest
    · simp
    · obtain ⟨more, rfl⟩ := List.head?_eq_some_iff.mp hrest
      simp

theorem not_mem_firstPiece (separator : Char) (text : List Char) :
    separator ∉ firstPiece separator text := fun h =>
  of_decide_eq_true (List.all_eq_true.mp List.all_takeWhile separator h) rfl

theorem head?_firstPiece {c : Char} (hc : c ≠ separator) (text : List Char) :
    (firstPiece separator text).head? = some c ↔ text.head? = some c := by
  cases text with
  | nil => simp [firstPiece]
  | cons x text =>
    by_cases hx : x = separator
    · simp [firstPiece, hx, Ne.symm hc]
    · simp [firstPiece, hx]

/-- What follows a text at a separator does not change its first piece. -/
theorem firstPiece_append {rest : List Char} (text : List Char)
    (hrest : rest = [] ∨ rest.head? = some separator) :
    firstPiece separator (text ++ rest) = firstPiece separator text := by
  rw [firstPiece_eq_iff (not_mem_firstPiece separator text)]
  obtain ⟨more, htext, hmore⟩ :=
    (firstPiece_eq_iff (not_mem_firstPiece separator text)).mp rfl
  refine ⟨more ++ rest, by rw [← List.append_assoc, ← htext], ?_⟩
  -- If the text itself goes on, the separator after its first piece is already there.
  cases more with
  | nil => exact hrest
  | cons c more => exact .inr (by simpa using hmore)

/-- The pieces are the first one and the first ones after each separator. -/
theorem forall_mem_pieces_iff {P : List Char → Prop} {text : List Char} :
    (∀ piece ∈ pieces separator text, P piece) ↔ P (firstPiece separator text) ∧
      ∀ u v, text = u ++ separator :: v → P (firstPiece separator v) := by
  -- The part about later pieces goes through the text, whatever its first piece is.
  have hsplit (text : List Char) : ∃ others, pieces separator text =
      firstPiece separator text :: others ∧ ((∀ piece ∈ others, P piece) ↔
        ∀ u v, text = u ++ separator :: v → P (firstPiece separator v)) := by
    induction text with
    | nil => exact ⟨[], rfl, by simp⟩
    | cons c text ih =>
      obtain ⟨others, hpieces, hothers⟩ := ih
      by_cases hc : c = separator
      · refine ⟨pieces separator text, by rw [pieces, if_pos hc]; simp [firstPiece, hc], ?_⟩
        rw [hpieces, List.forall_mem_cons, hothers]
        constructor
        · rintro ⟨hfirst, hlater⟩ u v heq
          cases u with
          | nil => exact (List.cons.inj heq).2 ▸ hfirst
          | cons x u => exact hlater u v (List.cons.inj heq).2
        · intro h
          exact ⟨h [] text (by rw [hc]; rfl), fun u v heq => h (c :: u) v (by rw [heq]; rfl)⟩
      · refine ⟨others, by rw [pieces, if_neg hc, hpieces]; simp [firstPiece, hc], ?_⟩
        rw [hothers]
        constructor
        · intro h u v heq
          cases u with
          | nil => exact absurd (List.cons.inj heq).1 hc
          | cons x u => exact h u v (List.cons.inj heq).2
        · exact fun h u v heq => h (c :: u) v (by rw [heq]; rfl)
  obtain ⟨others, hpieces, hothers⟩ := hsplit text
  rw [hpieces, List.forall_mem_cons, hothers]

/-- No wildcard matches the segment: it begins with a dot or, with `dots` allowed, is `.`
or `..`. -/
def isDotSegment (dots : Bool) (segment : List Char) : Bool :=
  if dots then segment = ['.'] || segment = ['.', '.'] else segment.head? = some '.'

@[simp] theorem isDotSegment_nil (dots : Bool) : isDotSegment dots [] = false := by
  cases dots <;> rfl

/-- A globstar matches the text: it has no line feed and no segment that wildcards do not
match. -/
def IsClear (dots : Bool) (text : List Char) : Prop :=
  '\n' ∉ text ∧ ∀ segment ∈ pieces '/' text, isDotSegment dots segment = false

end PathGlob.Text
