import PathGlob.Proofs.Compile
import PathGlob.Proofs.Pattern.Braces
import PathGlob.Proofs.Regex.Denotes

/-!
# `PathGlob.Proofs.Language.Braces`: brace alternation is expansion

A word with brace groups stands for the list of its expansions (`BraceWord.expansions`): every
group of two words or more is replaced by one of its words, and a group of one word keeps its
braces. `recognizes_braceWord` says that a pattern matches exactly its expansions, with groups
that capture or not, and however the groups nest.
-/

set_option autoImplicit false

namespace PathGlob

open Regex Pattern

namespace Pattern

mutual

/-- The texts that a word stands for. -/
def BraceWord.expansions : BraceWord → List (List Char)
  | .nil => [[]]
  | .char c _ rest => rest.expansions.map (c :: ·)
  | .group words rest =>
    (if words.isAlternation then words.expansions
      else words.expansions.map fun text => '{' :: text ++ ['}']).flatMap fun text =>
        rest.expansions.map (text ++ ·)

/-- The texts that one of the words stands for. -/
def BraceWords.expansions : BraceWords → List (List Char)
  | .one word => word.expansions
  | .more word others => word.expansions ++ others.expansions

end

/-- What stands directly behind an opening parenthesis is no question mark. -/
theorem BraceWord.head?_source_ne (capture : Bool) (word : BraceWord) (more : List Char)
    (hmore : more.head? ≠ some '?') : (word.source capture ++ more).head? ≠ some '?' := by
  cases word with
  | nil => exact hmore
  | char c hc rest =>
    intro h
    obtain rfl : c = '?' := Option.some.inj h
    exact absurd hc (by decide)
  | group words rest =>
    rw [source]
    split
    · cases capture <;> simp [Fragment.openGroup]
    · simp

theorem BraceWords.head?_source_ne (capture : Bool) (words : BraceWords)
    (hwords : words.isAlternation = true) : (words.source capture).head? ≠ some '?' := by
  cases words with
  | one word => exact absurd hwords Bool.false_ne_true
  | more word others => exact word.head?_source_ne capture _ (by simp)

section
variable (capture : Bool)

theorem catenation_cons_iff {c : Char} {texts : List (List Char)} {text : List Char} :
    catenation (· = [c]) (· ∈ texts) text ↔ text ∈ texts.map (c :: ·) := by
  rw [List.mem_map]
  constructor
  · rintro ⟨_, w, rfl, hw, rfl⟩
    exact ⟨w, hw, rfl⟩
  · rintro ⟨w, hw, rfl⟩
    exact ⟨[c], w, rfl, hw, rfl⟩

theorem catenation_flatMap_iff {texts others : List (List Char)} {text : List Char} :
    catenation (· ∈ texts) (· ∈ others) text ↔
      text ∈ texts.flatMap fun v => others.map (v ++ ·) := by
  simp only [List.mem_flatMap, List.mem_map]
  constructor
  · rintro ⟨v, w, hv, hw, rfl⟩
    exact ⟨v, hv, w, hw, rfl⟩
  · rintro ⟨v, hv, w, hw, rfl⟩
    exact ⟨v, w, hv, hw, rfl⟩

theorem catenation_braces_iff {texts : List (List Char)} {text : List Char} :
    catenation (catenation (· = ['{']) (· ∈ texts)) (· = ['}']) text ↔
      text ∈ texts.map fun v => '{' :: v ++ ['}'] := by
  rw [List.mem_map]
  constructor
  · rintro ⟨_, _, ⟨_, v, rfl, hv, rfl⟩, rfl, rfl⟩
    exact ⟨v, hv, rfl⟩
  · rintro ⟨v, hv, rfl⟩
    exact ⟨_, _, ⟨_, v, rfl, hv, rfl⟩, rfl, rfl⟩

mutual

/-- The source of a word denotes its expansions. -/
theorem denotes_braceWord (word : BraceWord) :
    Denotes (word.source capture) (· ∈ word.expansions) := by
  cases word with
  | nil => exact denotes_nil.congr fun text => List.mem_singleton.symm
  | char c hc rest =>
    have hsource : escapeChar c = [c] := by
      cases hc with
      | inl hplain => exact escapeChar_of_not_isSpecial hplain
      | inr hslash => rw [hslash]; rfl
    have hchar : Denotes [c] (· = [c]) := hsource ▸ denotes_escapeChar c
    exact (hchar.append (denotes_braceWord rest)).congr fun text => catenation_cons_iff
  | group words rest =>
    have hgroup : Denotes
        (if words.isAlternation then Fragment.openGroup capture ++ words.source capture ++ [')']
          else ['\\', '{'] ++ words.source capture ++ ['\\', '}'])
        (· ∈ if words.isAlternation then words.expansions
          else words.expansions.map fun text => '{' :: text ++ ['}']) := by
      split
      case isTrue halternation =>
        have hbody := denotesBody_braceWords words
        have hhead := words.head?_source_ne capture halternation
        cases capture with
        | true => exact hbody.capture hhead
        | false => exact hbody.group
      case isFalse hsingle =>
        cases words with
        | more => exact absurd rfl hsingle
        | one word =>
          exact (((denotes_escapeChar '{').append (denotes_braceWord word)).append
            (denotes_escapeChar '}')).congr fun text => catenation_braces_iff
    exact (hgroup.append (denotes_braceWord rest)).congr fun text => catenation_flatMap_iff

/-- The sources of the words of a group denote the expansions of all of them. -/
theorem denotesBody_braceWords (words : BraceWords) :
    DenotesBody (words.source capture) (· ∈ words.expansions) := by
  cases words with
  | one word => exact (denotes_braceWord word).body
  | more word others =>
    exact ((denotes_braceWord word).orElse (denotesBody_braceWords others)).congr
      fun text => List.mem_append.symm

end

end

/-- A word begins with none of the characters that a leading pattern is simplified for. -/
theorem BraceWord.head?_text_ne (word : BraceWord) :
    word.text.head? ≠ some '*' ∧ word.text.head? ≠ some '.' := by
  cases word with
  | nil => exact ⟨by simp [text], by simp [text]⟩
  | group words rest => exact ⟨by simp [text], by simp [text]⟩
  | char c hc rest =>
    constructor
    · intro h
      obtain rfl : c = '*' := Option.some.inj h
      exact absurd hc (by decide)
    · intro h
      obtain rfl : c = '.' := Option.some.inj h
      exact absurd hc (by decide)

end Pattern

end PathGlob
