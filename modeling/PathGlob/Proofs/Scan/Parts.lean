import PathGlob.Proofs.Scan.Run

/-!
# `PathGlob.Proofs.Scan.Parts`: the segments of a path

Texts with one separator between each two of them make up a path (`Joined`). The segments of a
text do (`joined_segments`), and none of them holds an unescaped separator
(`holdsSeparator_of_mem_segments`). The parts that a scan reports leave out an empty segment at
either end, and with it one separator there and nothing more (`segments_parts`).
-/

set_option autoImplicit false

namespace PathGlob.Scan

/-- The text consists of the given ones, with a separator between each two of them. -/
inductive Joined (windows : Bool) : List (List Char) → List Char → Prop
  | one (text : List Char) : Joined windows [text] text
  | cons (text : List Char) {c : Char} (hc : IsSeparator windows c) {texts : List (List Char)}
    {rest : List Char} (h : Joined windows texts rest) :
    Joined windows (text :: texts) (text ++ c :: rest)

/-- At most one separator. -/
def AtMostSeparator (windows : Bool) (text : List Char) : Prop :=
  text = [] ∨ ∃ c, IsSeparator windows c ∧ text = [c]

/-- The text holds a separator that no backslash escapes. -/
def holdsSeparator (windows : Bool) : List Char → Bool
  | [] => false
  | [c] => separates windows c none
  | c :: d :: rest =>
    if c = '\\' && escapes windows d then holdsSeparator windows rest
    else separates windows c d || holdsSeparator windows (d :: rest)

variable {windows : Bool} {texts : List (List Char)} {text : List Char}

namespace Joined

theorem ne_nil (h : Joined windows texts text) : texts ≠ [] := by
  cases h <;> exact List.cons_ne_nil _ _

/-- Characters before the first text. -/
theorem ontoFirst (h : Joined windows texts text) (chars : List Char) :
    Joined windows (ontoFirst chars texts) (chars ++ text) := by
  cases h with
  | one => exact .one _
  | cons first hc h =>
    rw [← List.append_assoc]
    exact .cons (chars ++ first) hc h

/-- An empty text at the beginning stands before a separator. -/
theorem exists_dropFirstEmpty (h : Joined windows texts text) :
    ∃ before rest, text = before ++ rest ∧ AtMostSeparator windows before ∧
      Joined windows (dropFirstEmpty texts) rest := by
  unfold dropFirstEmpty
  split
  case h_1 next others =>
    cases h with
    | cons first hc h => exact ⟨[_], _, rfl, .inr ⟨_, hc, rfl⟩, h⟩
  case h_2 => exact ⟨[], text, rfl, .inl rfl, h⟩

/-- The texts in reverse order, each of them read backwards. -/
theorem reverse (h : Joined windows texts text) :
    Joined windows (texts.map List.reverse).reverse text.reverse := by
  have happend {texts : List (List Char)} {text : List Char} (h : Joined windows texts text)
      {c : Char} (hc : IsSeparator windows c) (last : List Char) :
      Joined windows (texts ++ [last]) (text ++ c :: last) := by
    induction h with
    | one first => exact .cons first hc (.one last)
    | cons first hd h ih =>
      rw [List.append_assoc, List.cons_append]
      exact .cons first hd ih
  induction h with
  | one text => exact .one _
  | cons first hc h ih =>
    rw [List.map_cons, List.reverse_cons, List.reverse_append, List.reverse_cons,
      List.append_assoc]
    exact happend ih hc first.reverse

end Joined

theorem dropFirstEmpty_of_ne_nil (h : text ≠ []) (texts : List (List Char)) :
    dropFirstEmpty (text :: texts) = text :: texts := by
  cases text with
  | nil => exact absurd rfl h
  | cons => rfl

theorem dropFirstEmpty_map_reverse (texts : List (List Char)) :
    dropFirstEmpty (texts.map List.reverse) = (dropFirstEmpty texts).map List.reverse := by
  match texts with
  | [] | [] :: _ :: _ | [[]] => rfl
  | (c :: rest) :: others =>
    rw [dropFirstEmpty_of_ne_nil (List.cons_ne_nil c rest), List.map_cons,
      dropFirstEmpty_of_ne_nil (by simp)]

/-- An empty text at the end stands behind a separator. -/
theorem Joined.exists_dropLastEmpty (h : Joined windows texts text) :
    ∃ rest after, text = rest ++ after ∧ AtMostSeparator windows after ∧
      Joined windows (dropFirstEmpty texts.reverse).reverse rest := by
  obtain ⟨before, rest, htext, hbefore, hrest⟩ := h.reverse.exists_dropFirstEmpty
  refine ⟨rest.reverse, before.reverse, ?_, ?_, ?_⟩
  · rw [← List.reverse_append, ← htext, List.reverse_reverse]
  · obtain rfl | ⟨c, hc, rfl⟩ := hbefore
    · exact .inl rfl
    · exact .inr ⟨c, hc, rfl⟩
  · rw [← List.map_reverse, dropFirstEmpty_map_reverse] at hrest
    simpa [Function.comp_def] using hrest.reverse

theorem mem_of_mem_dropFirstEmpty {segment : List Char} (h : segment ∈ dropFirstEmpty texts) :
    segment ∈ texts := by
  unfold dropFirstEmpty at h
  split at h
  case h_1 => exact List.mem_cons_of_mem _ h
  case h_2 => exact h

/-! ### Segments -/

theorem joined_segments (windows : Bool) (text : List Char) :
    Joined windows (segments windows text) text := by
  fun_induction segments windows text with
  | case1 => exact .one []
  | case2 c => exact .one [c]
  | case3 c d rest _ ih => exact ih.ontoFirst [c, d]
  | case4 c rest _ hseparates ih => exact .cons [] (.of_separates hseparates) ih
  | case5 c rest _ _ ih => exact ih.ontoFirst [c]

/-- A text of which only the beginning is known holds no separator if that has none and what
follows has none. -/
theorem holdsSeparator_of_mem_ontoFirst {chars : List Char}
    (hchars : ∀ rest, holdsSeparator windows rest = false →
      holdsSeparator windows (chars ++ rest) = false)
    (h : ∀ segment ∈ texts, holdsSeparator windows segment = false) :
    ∀ segment ∈ ontoFirst chars texts, holdsSeparator windows segment = false := by
  cases texts with
  | nil =>
    intro segment hsegment
    obtain rfl := List.mem_singleton.mp hsegment
    simpa using hchars [] rfl
  | cons first others =>
    obtain ⟨hfirst, hothers⟩ := List.forall_mem_cons.mp h
    exact List.forall_mem_cons.mpr ⟨hchars first hfirst, hothers⟩

theorem holdsSeparator_of_mem_segments (windows : Bool) (text : List Char) :
    ∀ segment ∈ segments windows text, holdsSeparator windows segment = false := by
  fun_induction segments windows text with
  | case1 => simp [holdsSeparator]
  | case2 c hescapes =>
    simp only [Bool.and_eq_true, decide_eq_true_iff, List.head?_nil] at hescapes
    simp [holdsSeparator, separates, hescapes]
  | case3 c d rest hescapes ih =>
    refine holdsSeparator_of_mem_ontoFirst (fun rest hrest => ?_) ih
    rw [List.cons_append, List.singleton_append, holdsSeparator, if_pos (by exact hescapes), hrest]
  | case4 c rest _ _ ih => exact List.forall_mem_cons.mpr ⟨rfl, ih⟩
  -- A backslash that does not escape separates, so the character is none.
  | case5 c rest hescapes hseparates ih =>
    have hc : c ≠ '\\' := by
      rintro rfl
      simp_all [separates]
    have hslash : c ≠ '/' := by
      rintro rfl
      simp [separates] at hseparates
    refine holdsSeparator_of_mem_ontoFirst (fun rest hrest => ?_) ih
    cases rest with
    | nil => simp [holdsSeparator, separates, hc, hslash]
    | cons d rest => simpa [holdsSeparator, separates, hc, hslash] using hrest

/-- The texts are the segments of a path: they make it up with one separator between each two of
them, but for a separator at either end, and none of them can be divided any further. -/
def Segments (windows : Bool) (texts : List (List Char)) (path : List Char) : Prop :=
  ∃ before inner after, path = before ++ inner ++ after ∧ AtMostSeparator windows before ∧
    AtMostSeparator windows after ∧ Joined windows texts inner ∧
    ∀ text ∈ texts, holdsSeparator windows text = false

theorem segments_parts (windows : Bool) (text : List Char) :
    Segments windows (parts windows text) text := by
  obtain ⟨before, rest, rfl, hbefore, hrest⟩ := (joined_segments windows text).exists_dropFirstEmpty
  obtain ⟨inner, after, rfl, hafter, hinner⟩ := hrest.exists_dropLastEmpty
  refine ⟨before, inner, after, (List.append_assoc ..).symm, hbefore, hafter, hinner, ?_⟩
  intro part hpart
  have hmem := mem_of_mem_dropFirstEmpty (List.mem_reverse.mp hpart)
  exact holdsSeparator_of_mem_segments windows _ part
    (mem_of_mem_dropFirstEmpty (List.mem_reverse.mp hmem))

end PathGlob.Scan
