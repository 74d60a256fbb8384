import PathGlob.Proofs.Scan.Cuts

/-!
# `PathGlob.Proofs.Scan.Normalized`: two readings of a backslash

Which backslashes of a text separate is decided twice where they may: by the normalization, which
looks one character ahead, and by the division into segments, which counts bytes. `Settles` is what
the two have in common. A text and its normal form are of one size, and the segments of the one are
those that the other has where every backslash escapes (`normalize_settles_separators`).
-/

set_option autoImplicit false

namespace PathGlob

open Separator Text

namespace Scan

/-! ### The segments of a text, from its first characters -/

section
variable {windows : Bool} {c : Char} {rest : List Char}

theorem segments_pair {d : Char} (h : (c = '\\' && escapes windows (some d)) = true)
    (rest : List Char) :
    segments windows (c :: d :: rest) = ontoFirst [c, d] (segments windows rest) := by
  rw [segments.eq_def]
  dsimp only
  rw [if_pos (by exact h)]

theorem segments_separator (hescapes : ¬(c = '\\' && escapes windows rest.head?))
    (hseparates : separates windows c rest.head? = true) :
    segments windows (c :: rest) = [] :: segments windows rest := by
  rw [segments.eq_def]
  dsimp only
  rw [if_neg hescapes, if_pos hseparates]

theorem segments_cons (hescapes : ¬(c = '\\' && escapes windows rest.head?))
    (hseparates : ¬separates windows c rest.head? = true) :
    segments windows (c :: rest) = ontoFirst [c] (segments windows rest) := by
  rw [segments.eq_def]
  dsimp only
  rw [if_neg hescapes, if_neg hseparates]

end

/-! ### Normal forms -/

/-- The second text is the first with a slash for each backslash that separates. -/
inductive Settles : List Char → List Char → Prop
  | nil : Settles [] []
  | escape {c : Char} {rest normal : List Char} (hc : isGlobMeta c = true)
    (h : Settles rest normal) : Settles ('\\' :: c :: rest) ('\\' :: c :: normal)
  | separator {rest normal : List Char} (hrest : rest.head?.any isGlobMeta = false)
    (h : Settles rest normal) : Settles ('\\' :: rest) ('/' :: normal)
  | other {c : Char} {rest normal : List Char} (hc : c ≠ '\\') (h : Settles rest normal) :
    Settles (c :: rest) (c :: normal)

theorem settles_normalize (text : List Char) : Settles text (Separator.normalize text) := by
  unfold Separator.normalize
  induction hn : text.length using Nat.strongRecOn generalizing text with
  | ind n ih =>
    cases text with
    | nil => exact .nil
    | cons c rest =>
      rw [List.length_cons] at hn
      rw [normalizeFrom]
      split
      case isTrue hc => exact .other hc (ih _ (by omega) rest rfl)
      case isFalse hc =>
        obtain rfl : c = '\\' := Decidable.not_not.mp hc
        split
        case isFalse hrest =>
          exact .separator (Bool.eq_false_iff.mpr hrest) (ih _ (by omega) rest rfl)
        case isTrue hrest =>
          cases rest with
          | nil => exact absurd hrest Bool.false_ne_true
          | cons d rest =>
            rw [List.length_cons] at hn
            exact .escape hrest (ih _ (by omega) rest rfl)

namespace Settles

variable {text normal : List Char}

theorem byteSize_eq (h : Settles text normal) : byteSize normal = byteSize text := by
  induction h with
  | nil => rfl
  | escape hc h ih => rw [byteSize, byteSize, byteSize, byteSize, ih]
  | separator hrest h ih =>
    rw [byteSize, byteSize, ih]
    rfl
  | other hc h ih => rw [byteSize, byteSize, ih]

/-- No backslash of a normal form separates. -/
theorem normalize_eq (h : Settles text normal) : Separator.normalize normal = normal := by
  unfold Separator.normalize
  induction h with
  | nil => rfl
  | @escape c rest normal hc h ih =>
    have hescapes : (c :: normal).head?.any isGlobMeta = true := hc
    rw [normalizeFrom, if_neg (fun h => h rfl), if_pos hescapes, normalizeFrom, ih]
  | separator hrest h ih => rw [normalizeFrom, if_pos (by decide), ih]
  | other hc h ih => rw [normalizeFrom, if_pos hc, ih]

theorem segments_eq (h : Settles text normal) : segments true text = segments false normal := by
  induction h with
  | nil => rfl
  | @escape c rest normal hc h ih =>
    rw [segments_pair (by simp [escapes, hc]), segments_pair (by simp [escapes]), ih]
  | separator hrest h ih =>
    rw [segments_separator (by simp [escapes, hrest]) (by simp [separates, escapes, hrest]),
      segments_separator (by simp) (by simp [separates]), ih]
  | @other c rest normal hc h ih =>
    by_cases hslash : c = '/'
    · rw [segments_separator (by simp [hc]) (by simp [separates, hslash]),
        segments_separator (by simp [hc]) (by simp [separates, hslash]), ih]
    · rw [segments_cons (by simp [hc]) (by simp [separates, hc, hslash]),
        segments_cons (by simp [hc]) (by simp [separates, hc, hslash]), ih]

end Settles

end Scan

open Scan

/-- Normalizing changes neither the size of a text nor a text that is normalized already, and it
settles the separators: the segments of a text are those of its normal form, in which every
backslash escapes. -/
theorem normalize_settles_separators (text : List Char) :
    byteSize (Separator.normalize text) = byteSize text ∧
      Separator.normalize (Separator.normalize text) = Separator.normalize text ∧
      ∃ segments, bytewiseParts? true text = some segments ∧
        bytewiseParts? false (Separator.normalize text) = some segments := by
  have h := settles_normalize text
  have hparts : parts true text = parts false (Separator.normalize text) := by
    rw [parts, parts, h.segments_eq]
  exact ⟨h.byteSize_eq, h.normalize_eq, _, bytewiseParts?_eq true text,
    hparts ▸ bytewiseParts?_eq false (Separator.normalize text)⟩

/-- Runs of backslashes, a wide character behind one, and a backslash at the end. -/
example : bytewiseParts? true ['\\', '\\', '*', '\\', 'é', '\\', '\\', 'b', '\\'] =
    some [['\\', '*'], ['é'], [], ['b']] := by decide

end PathGlob
