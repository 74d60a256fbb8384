import Mathlib.Computability.Language
import PathGlob.Proofs.Regex.Denotes

/-!
# `PathGlob.Proofs.Regex.Rounds`: the languages of quantified groups

A quantifier behind a group takes its language to powers (`DenotesBody.quantified`). The
extended dialect refuses to repeat what amounts to nothing. A piece that can move a cursor
amounts to something (`Node.substance_of_spans`), so a group may be repeated as soon as its
language has a text that is not empty.

`compile_of_guarded` is for sources that begin with conditions on what follows and otherwise
denote a language.
-/

set_option autoImplicit false

namespace PathGlob.Regex

open Cursor Computability

/-- A number of texts in a row, within bounds. -/
def powers (language : Language Char) (least : Nat) (most : Option Nat) : Language Char :=
  {text | ∃ n, (least ≤ n ∧ ∀ m, most = some m → n ≤ m) ∧ text ∈ language ^ n}

section
variable (language : Language Char)

theorem powers_zero_one : powers language 0 (some 1) = 1 + language := by
  ext text
  show (∃ n, (0 ≤ n ∧ ∀ m, some 1 = some m → n ≤ m) ∧ text ∈ language ^ n) ↔ _
  rw [Language.mem_add]
  constructor
  · rintro ⟨n, ⟨-, hn⟩, htext⟩
    obtain rfl | rfl : n = 0 ∨ n = 1 := by
      have := hn 1 rfl
      omega
    · exact .inl htext
    · exact .inr (pow_one language ▸ htext)
  · rintro (htext | htext)
    · exact ⟨0, ⟨Nat.le_refl 0, by simp⟩, htext⟩
    · exact ⟨1, ⟨Nat.zero_le 1, by simp⟩, (pow_one language).symm ▸ htext⟩

theorem powers_zero : powers language 0 none = language∗ := by
  ext text
  show (∃ n, (0 ≤ n ∧ ∀ m, none = some m → n ≤ m) ∧ text ∈ language ^ n) ↔ _
  simp [Language.kstar_eq_iSup_pow, Language.mem_iSup]

theorem powers_one : powers language 1 none = language * language∗ := by
  ext text
  show (∃ n, (1 ≤ n ∧ ∀ m, none = some m → n ≤ m) ∧ text ∈ language ^ n) ↔ _
  simp only [Language.kstar_eq_iSup_pow, Language.mul_iSup, Language.mem_iSup, ← pow_succ']
  constructor
  · rintro ⟨n, ⟨hn, -⟩, htext⟩
    exact ⟨n - 1, (Nat.sub_add_cancel hn).symm ▸ htext⟩
  · rintro ⟨n, htext⟩
    exact ⟨n + 1, ⟨Nat.le_add_left 1 n, by simp⟩, htext⟩

end

namespace Node

/-- What amounts to nothing, or to a condition only, does not move the cursor. -/
theorem substance_of_spans {blind : Bool} {a : Node} {c d : Cursor} (h : a.Spans blind c d)
    (hne : d ≠ c) : a.substance = .solid := by
  induction a generalizing c d with
  | empty => exact absurd h hne
  | start | finish | edge => exact absurd h.2 hne
  | look behind => cases behind <;> exact absurd h.2 hne
  | char | dot | set | alt | capture | ref | loop => rfl
  | group a ih => exact ih h hne
  | seq a b iha ihb =>
    obtain ⟨e, ha, hb⟩ := h
    by_cases he : e = c
    · -- The first part stays, so the second one moves.
      have hsolid := ihb (he ▸ hb) hne
      unfold substance
      rw [hsolid]
      cases a.substance <;> rfl
    · have hsolid := iha ha he
      unfold substance
      rw [hsolid]
      cases b.substance <;> rfl

namespace Denotes

variable {a : Node} {language : Language Char}

/-- What a tree denotes, a number of rounds denotes to that power. -/
theorem rounds_iff (h : a.Denotes (· ∈ language)) (n : Nat) {c d : Cursor} :
    Rounds (a.Spans false) n c d ↔ ∃ text ∈ language ^ n, c.Passes text d := by
  induction n generalizing c with
  | zero =>
    show d = c ↔ _
    simp only [pow_zero, Language.mem_one, exists_eq_left, passes_nil_iff]
  | succ n ih =>
    show (∃ e, a.Spans false c e ∧ Rounds (a.Spans false) n e d) ↔ _
    simp only [h.spans_iff, ih, pow_succ', Language.mem_mul]
    constructor
    · rintro ⟨e, ⟨v, hv, hpass⟩, w, hw, hpass'⟩
      exact ⟨v ++ w, ⟨v, hv, w, hw, rfl⟩, hpass.trans hpass'⟩
    · rintro ⟨_, ⟨v, hv, w, hw, rfl⟩, hpass⟩
      obtain ⟨e, hpass, hpass'⟩ := (passes_append_iff v w).mp hpass
      exact ⟨e, ⟨v, hv, hpass⟩, w, hw, hpass'⟩

/-- A loop denotes the powers that its bounds allow. -/
theorem loop (h : a.Denotes (· ∈ language)) (hloop : a.isLoop = false)
    (hsolid : ∃ text ∈ language, text ≠ []) {least : Nat} {most : Option Nat}
    (hbounds : ∀ m, most = some m → least ≤ m) (reluctant : Bool) :
    (Node.loop a least most reluctant).Denotes (· ∈ powers language least most) := by
  have hsubstance : a.substance = .solid := by
    obtain ⟨text, htext, hne⟩ := hsolid
    have hpass : Passes ⟨[], text⟩ text ⟨text.reverse ++ [], []⟩ :=
      passes_of_after text (List.append_nil text).symm
    refine substance_of_spans ((h.spans_iff _ _).mpr ⟨text, htext, hpass⟩) fun heq => hne ?_
    exact (congrArg Cursor.after heq).symm
  refine ⟨⟨?_, h.sound.2⟩, fun c d => ?_⟩
  · simp [isExtended, h.sound.1, hloop, hsubstance]
  show (∃ e, Rounds (a.Spans false) least c e ∧ ∃ n, (∀ m, most = some m → n ≤ m - least) ∧
    Rounds (a.Spans false) n e d) ↔ _
  simp only [h.rounds_iff]
  constructor
  · rintro ⟨e, ⟨v, hv, hpass⟩, n, hn, w, hw, hpass'⟩
    refine ⟨v ++ w, ⟨least + n, ⟨Nat.le_add_right _ _, fun m hm => ?_⟩, ?_⟩, hpass.trans hpass'⟩
    · have := hn m hm
      have := hbounds m hm
      omega
    · rw [pow_add]
      exact Language.append_mem_mul hv hw
  · rintro ⟨text, ⟨n, ⟨hleast, hmost⟩, htext⟩, hpass⟩
    rw [← Nat.add_sub_cancel' hleast, pow_add] at htext
    obtain ⟨v, hv, w, hw, rfl⟩ := Language.mem_mul.mp htext
    obtain ⟨e, hpass, hpass'⟩ := (passes_append_iff v w).mp hpass
    refine ⟨e, ⟨v, hv, hpass⟩, n - least, fun m hm => ?_, w, hw, hpass'⟩
    have := hmost m hm
    omega

end Denotes

end Node

/-- Behind a piece, the character is a quantifier with the given bounds. -/
def IsQuantifier (quantifier : Char) (least : Nat) (most : Option Nat) : Prop :=
  ∀ branches piece before outer groups names strayBrace,
    (Reader.resting false ⟨branches, piece :: before⟩ outer groups names strayBrace).read
      [quantifier] = some (.resting true ⟨branches, .loop piece least most false :: before⟩ outer
        groups names strayBrace)

/-- A group with a quantifier. -/
theorem DenotesBody.quantified {source : List Char} {language : Language Char}
    (h : DenotesBody source (· ∈ language)) (hsolid : ∃ text ∈ language, text ≠ [])
    (quantifier : Char) (least : Nat) (most : Option Nat)
    (hquantifier : IsQuantifier quantifier least most)
    (hbounds : ∀ m, most = some m → least ≤ m) :
    Denotes (['(', '?', ':'] ++ source ++ [')', quantifier])
      (· ∈ powers language least most) := by
  intro repeated branches before outer groups names strayBrace
  obtain ⟨r, level, groups', a, hr, hlevel, ha⟩ :=
    h [] ((⟨branches, before⟩, .bare) :: outer) groups names strayBrace
  obtain rfl : level.node = a := hlevel
  refine ⟨true, [.loop (.group level.node) least most false], groups', ?_,
    (ha.group.loop rfl hsolid hbounds false).ofSequence_singleton⟩
  have hopen : (Reader.resting repeated ⟨branches, before⟩ outer groups names strayBrace).read
      ['(', '?', ':'] = some (.resting false ⟨[], []⟩ ((⟨branches, before⟩, .bare) :: outer) groups
        names strayBrace) := rfl
  have hclose : (Reader.resting r level ((⟨branches, before⟩, .bare) :: outer) groups' names
      strayBrace).read [')'] = some (.resting false ⟨branches, .group level.node :: before⟩ outer
        groups' names strayBrace) := rfl
  rw [List.append_assoc, Reader.read_append, hopen, Option.bind_some, Reader.read_append, hr,
    Option.bind_some, show [')', quantifier] = [')'] ++ [quantifier] from rfl, Reader.read_append,
    hclose, Option.bind_some, hquantifier]
  rfl

end PathGlob.Regex

namespace PathGlob

open Regex

/-- A translation whose output is a source behind guards can be compiled, and it accepts the
texts of the language that the guards admit. -/
theorem compile_of_guarded {translation : Pattern.Translation} {options : Options}
    {guard source : List Char} {guards : List Node} {language : List Char → Prop}
    (admits : List Char → Prop) (hguard : Reads guard guards) (hsound : ∀ a ∈ guards, a.IsSound)
    (hspans : ∀ c d, (Node.ofSequence guards).Spans false c d ↔ admits c.after ∧ d = c)
    (hsource : Denotes source language) (houtput : translation.output = guard ++ source)
    (hnegated : translation.negated = false) (hcontains : options.contains = false)
    (hcase : options.noCase = false) :
    ∃ compiled, compile translation options = .ok compiled ∧ ∀ text,
      compiled.isMatch text = true ↔ admits text ∧ language text := by
  obtain ⟨r, hr⟩ := hguard false [] [] Reader.anchorLevel 0 [] false
  obtain ⟨s, pieces, groups, hs, hpieces⟩ :=
    hsource r [] (guards.reverse ++ []) Reader.anchorLevel 0 [] false
  have hread : (Reader.resting false {} Reader.anchorLevel 0 [] false).read translation.output =
      some (.resting s ⟨[], (guards ++ pieces).reverse⟩ Reader.anchorLevel groups [] false) := by
    rw [houtput, Reader.read_append]
    show ((Reader.resting false ⟨[], []⟩ Reader.anchorLevel 0 [] false).read guard).bind _ = _
    rw [hr, Option.bind_some, hs, List.append_nil, List.reverse_append]
  have hsound' : (Node.ofSequence (guards ++ pieces)).IsSound :=
    Node.isSound_append (Node.isSound_ofSequence hsound) hpieces.sound
  obtain ⟨compiled, hcompile, hmatch⟩ := compile_of_read hread hsound' hnegated hcontains hcase
  refine ⟨compiled, hcompile, fun text => (hmatch text).trans ?_⟩
  show (∃ d, (Node.ofSequence (guards ++ pieces)).Spans false ⟨[], text⟩ d ∧ d.after = []) ↔ _
  rw [← hpieces.fills_iff text]
  simp only [Node.spans_ofSequence_append, hspans]
  constructor
  · rintro ⟨d, ⟨e, ⟨hadmits, rfl⟩, hd⟩, hend⟩
    exact ⟨hadmits, d, hd, hend⟩
  · rintro ⟨hadmits, d, hd, hend⟩
    exact ⟨d, ⟨_, ⟨hadmits, rfl⟩, hd⟩, hend⟩

end PathGlob
