import PathGlob.Proofs.Language.Literal
import PathGlob.Proofs.Pattern.Protected

/-!
# `PathGlob.Proofs.Language.Protected`: patterns that quote a text

A text with its special characters behind backslashes, and a text between double quotes, are
patterns for exactly this text (`recognizes_protected`). Under which dialect they are read does
not matter, as long as only a slash separates, case counts and the whole text has to match.
-/

set_option autoImplicit false

namespace PathGlob

open Regex Pattern

variable {options : Options} {pattern text : List Char}

/-- A pattern that is translated into an escaped text recognizes this text only. -/
theorem recognizes_of_escape (hcase : options.noCase = false) (hcontains : options.contains = false)
    (hsize : Text.byteSize pattern ≤ options.effectiveMaxLength) (hne : pattern ≠ [])
    (htokenize : ∀ tail, ∃ translation,
      (Context.ofPattern options pattern).tokenize tail = .ok translation ∧
        translation.output = Regex.escape text ∧ translation.negated = false) :
    Recognizes pattern options (· = text) := by
  have hsound : ∀ a ∈ text.map Node.char, a.IsSound := List.forall_mem_map.mpr fun _ _ => ⟨rfl, rfl⟩
  exact (recognizes_of_sound hcontains hcase hsize hne htokenize (reads_escape text) hsound).congr
    fun s => Piece.fills_text_iff text

/-- A pattern that begins neither with a star nor with a dot is read as it stands. -/
theorem body_ofPattern_of_head? (hwindows : options.windows = false)
    (hstar : pattern.head? ≠ some '*') (hdot : pattern.head? ≠ some '.') :
    (Context.ofPattern options pattern).body = pattern := by
  have hstars (more : List Char) : pattern ≠ '*' :: more := fun heq => hstar (heq ▸ rfl)
  have hsimplify : simplify pattern = pattern := by
    rw [simplify, if_neg (hstars _), if_neg (hstars _), if_neg (hstars _)]
  rw [body_ofPattern hwindows, hsimplify]
  exact fun rest heq => hdot (hsimplify.symm.trans heq ▸ rfl)

/-- Quoting protects every text from being read as anything but itself, whether each character
that has a meaning has a backslash before it, or the whole text stands between double quotes. -/
theorem recognizes_protected (hwindows : options.windows = false)
    (hcase : options.noCase = false) (hcontains : options.contains = false) (text : List Char) :
    (text ≠ [] → Text.byteSize (protect text) ≤ options.effectiveMaxLength →
      Recognizes (protect text) options (· = text)) ∧
    ((∀ c ∈ text, c ≠ '"' ∧ c ≠ '\\' ∧ c ≠ '\x00') → options.keepQuotes = false →
      Text.byteSize (enclose text) ≤ options.effectiveMaxLength →
      Recognizes (enclose text) options (· = text)) := by
  constructor
  · intro hne hsize
    have hhead (c : Char) (hspecial : isSpecial c = true) (hc : c ≠ '\\') :
        (protect text).head? ≠ some c := fun heq =>
      (head?_protect heq).elim hc fun h => absurd (h.symm.trans hspecial) (by decide)
    have hbody := body_ofPattern_of_head? hwindows (hhead '*' rfl (by decide))
      (hhead '.' rfl (by decide))
    exact recognizes_of_escape hcase hcontains hsize (protect_ne_nil hne) fun tail =>
      Context.tokenize_protect hwindows hbody tail
  · intro htext hkeep hsize
    have hbody : (Context.ofPattern options (enclose text)).body = enclose text :=
      body_ofPattern_of_head? hwindows (by simp [enclose]) (by simp [enclose])
    exact recognizes_of_escape hcase hcontains hsize (by simp [enclose]) fun tail =>
      Context.tokenize_enclose hkeep htext hbody tail

/-- Stars, separators and dots are nothing but text when they are quoted, even where a star would
cross separators. -/
theorem recognizes_protected_star :
    (Recognizes ['\\', '.', '\\', '/', '\\', '*'] { bash := true } (· = ['.', '/', '*'])) ∧
    (Recognizes ['"', '.', '/', '*', '"'] { bash := true } (· = ['.', '/', '*'])) := by
  obtain ⟨hprotect, henclose⟩ := recognizes_protected
    (show ({ bash := true } : Options).windows = false from rfl) rfl rfl ['.', '/', '*']
  exact ⟨hprotect (by decide) (by decide), henclose (by simp) rfl (by decide)⟩

end PathGlob
