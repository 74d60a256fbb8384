import PathGlob.Pattern.Token
import PathGlob.Proofs.Regex.Brackets

/-!
# `PathGlob.Proofs.Pattern.Levels`: the parentheses of a list of tokens

The source of a token may open parentheses that a later token closes. In between, groups of
another kind may open and close, since groups may cross. `Balanced` gives each place of the list
a number of open parentheses, such that every token leads from its own number to the next one.
Tokens that opened a group which is still open are held back: they count as if they were
text, which is what they become if nothing closes their group.

Each lemma says what one change of the list does to the numbers. Closing a group is the only
one that changes many: it raises all numbers behind the token that opened it.
-/

set_option autoImplicit false

namespace PathGlob.Pattern

open Regex

/-! ### Looking up -/

section
variable {α : Type} {items : List α} {i place : Nat} {found : α}

theorem getElem?_append_iff {more : List α} : (items ++ more)[i]? = some found ↔
    items[i]? = some found ∨ ∃ j, i = items.length + j ∧ more[j]? = some found := by
  constructor
  · intro h
    rw [List.getElem?_append] at h
    split at h
    case isTrue => exact .inl h
    case isFalse hge => exact .inr ⟨i - items.length, by omega, h⟩
  · rintro (h | ⟨j, rfl, h⟩)
    · rw [List.getElem?_append_left (List.getElem?_eq_some_iff.mp h).1, h]
    · rw [List.getElem?_append_right (Nat.le_add_right _ _), Nat.add_sub_cancel_left, h]

theorem getElem?_concat_iff {item : α} : (items ++ [item])[i]? = some found ↔
    items[i]? = some found ∨ (i = items.length ∧ item = found) := by
  rw [getElem?_append_iff]
  refine or_congr_right ⟨?_, ?_⟩
  · rintro ⟨j, rfl, hj⟩
    obtain ⟨rfl, rfl⟩ : j = 0 ∧ item = found := by
      cases j <;> simp_all
    exact ⟨rfl, rfl⟩
  · rintro ⟨rfl, rfl⟩
    exact ⟨0, rfl, rfl⟩

theorem getElem?_append_two_iff {x y : α} : (items ++ [x, y])[i]? = some found ↔
    items[i]? = some found ∨ (i = items.length ∧ x = found) ∨
      (i = items.length + 1 ∧ y = found) := by
  rw [List.append_cons, getElem?_concat_iff, getElem?_concat_iff, or_assoc, List.length_append,
    List.length_singleton]

theorem getElem?_append_three_iff {x y z : α} : (items ++ [x, y, z])[i]? = some found ↔
    items[i]? = some found ∨ (i = items.length ∧ x = found) ∨
      (i = items.length + 1 ∧ y = found) ∨ (i = items.length + 2 ∧ z = found) := by
  rw [List.append_cons, getElem?_append_two_iff, getElem?_concat_iff, or_assoc, List.length_append,
    List.length_singleton]

theorem getElem?_modify_iff {change : α → α} : (items.modify place change)[i]? = some found ↔
    (i = place ∧ ∃ item, items[i]? = some item ∧ change item = found) ∨
      (i ≠ place ∧ items[i]? = some found) := by
  rw [List.getElem?_modify]
  by_cases h : place = i
  · simp [h]
  · simp [h, Ne.symm h]

theorem lt_of_getElem?_eq (h : items[i]? = some found) : i < items.length :=
  (List.getElem?_eq_some_iff.mp h).1

end

/-! ### Levels -/

/-- The levels begin and end at zero, and every token that is not held back leads from its
level to the next one. -/
structure IsLevel (held : List Nat) (tokens : List Token) (level : Nat → Nat) : Prop where
  start : level 0 = 0
  finish : level tokens.length = 0
  stays : ∀ i ∈ held, i < tokens.length → level (i + 1) = level i
  moves : ∀ i token, tokens[i]? = some token → i ∉ held →
    Moves (level i) (level (i + 1)) token.source

/-- All tokens but those held back open and close parentheses in turn. -/
def Balanced (held : List Nat) (tokens : List Token) : Prop := ∃ level, IsLevel held tokens level

namespace Balanced

variable {held : List Nat} {tokens : List Token}

theorem congr {held' : List Nat} (h : Balanced held tokens) (hheld : ∀ i, i ∈ held ↔ i ∈ held') :
    Balanced held' tokens := by
  obtain ⟨level, hlevel⟩ := h
  exact ⟨level, hlevel.start, hlevel.finish, fun i hi => hlevel.stays i ((hheld i).mpr hi),
    fun i token htoken hi => hlevel.moves i token htoken fun h => hi ((hheld i).mp h)⟩

theorem singleton {token : Token} (h : Neutral token.source) : Balanced [] [token] := by
  refine ⟨fun _ => 0, rfl, rfl, fun _ _ _ => rfl, fun i found hfound _ => ?_⟩
  obtain rfl : token = found := by
    cases i <;> simp_all
  exact h

/-- A token at the end that is held back, or moves nothing. -/
theorem append {held' : List Nat} {token : Token} (h : Balanced held tokens)
    (hheld : ∀ i < tokens.length, i ∈ held' ↔ i ∈ held)
    (htoken : tokens.length ∈ held' ∨ Neutral token.source) :
    Balanced held' (tokens ++ [token]) := by
  obtain ⟨level, hlevel⟩ := h
  refine ⟨fun i => if i ≤ tokens.length then level i else 0, hlevel.start, ?_, ?_, ?_⟩
  · rw [List.length_append, List.length_singleton, if_neg (by omega)]
  · intro i hi hlt
    rw [List.length_append, List.length_singleton] at hlt
    by_cases hend : i < tokens.length
    · rw [if_pos (by omega), if_pos (by omega)]
      exact hlevel.stays i ((hheld i hend).mp hi) hend
    · obtain rfl : i = tokens.length := by omega
      rw [if_neg (by omega), if_pos (Nat.le_refl _), hlevel.finish]
  · intro i found hfound hi
    obtain hfound | ⟨rfl, rfl⟩ := getElem?_concat_iff.mp hfound
    · have hlt := lt_of_getElem?_eq hfound
      rw [if_pos (by omega), if_pos (by omega)]
      exact hlevel.moves i found hfound fun h => hi ((hheld i hlt).mpr h)
    · rw [if_pos (Nat.le_refl _), if_neg (by omega), hlevel.finish]
      exact htoken.resolve_left hi

/-- The token that opened a group is let go of, and a token at the end closes the group. -/
theorem close {place width : Nat} {opener token : Token} (h : Balanced (place :: held) tokens)
    (hplace : place ∉ held) (hheld : ∀ i ∈ held, i < tokens.length)
    (hopener : tokens[place]? = some opener) (hopens : Moves 0 width opener.source)
    (hcloses : Moves width 0 token.source) : Balanced held (tokens ++ [token]) := by
  obtain ⟨level, hlevel⟩ := h
  have hlt := lt_of_getElem?_eq hopener
  have hstay := hlevel.stays place List.mem_cons_self hlt
  refine ⟨fun i => if i ≤ place then level i else if i ≤ tokens.length then level i + width else 0,
    hlevel.start, ?_, ?_, ?_⟩
  · rw [List.length_append, List.length_singleton, if_neg (by omega), if_neg (by omega)]
  · intro i hi _
    have hilt := hheld i hi
    have hne : i ≠ place := fun heq => hplace (heq ▸ hi)
    have := hlevel.stays i (List.mem_cons_of_mem _ hi) hilt
    by_cases hle : i ≤ place
    · rw [if_pos (by omega), if_pos hle, this]
    · rw [if_neg (by omega), if_neg hle, if_pos (by omega), if_pos (by omega), this]
  · intro i found hfound hi
    obtain hfound | ⟨rfl, rfl⟩ := getElem?_concat_iff.mp hfound
    · have hilt := lt_of_getElem?_eq hfound
      by_cases heq : i = place
      · subst heq
        cases hopener.symm.trans hfound
        have := hopens.deepen (level i)
        rw [if_pos (Nat.le_refl _), if_neg (by omega), if_pos (by omega), hstay, Nat.add_comm]
        rwa [Nat.zero_add] at this
      · have hmoves := hlevel.moves i found hfound
          (List.not_mem_cons_of_ne_of_not_mem heq hi)
        by_cases hle : i < place
        · rw [if_pos (by omega), if_pos (by omega)]
          exact hmoves
        · rw [if_neg (by omega), if_pos (by omega), if_neg (by omega), if_pos (by omega)]
          exact hmoves.deepen width
    · rw [if_neg (by omega), if_pos (Nat.le_refl _), if_neg (by omega), if_neg (by omega),
        hlevel.finish, Nat.zero_add]
      exact hcloses

/-- A token that opened a group becomes text. -/
theorem release {place : Nat} {change : Token → Token} (h : Balanced (place :: held) tokens)
    (hchange : ∀ token, tokens[place]? = some token → Neutral (change token).source) :
    Balanced held (tokens.modify place change) := by
  obtain ⟨level, hlevel⟩ := h
  refine ⟨level, hlevel.start, ?_, ?_, ?_⟩
  · rw [List.length_modify]
    exact hlevel.finish
  · intro i hi hlt
    rw [List.length_modify] at hlt
    exact hlevel.stays i (List.mem_cons_of_mem _ hi) hlt
  · intro i found hfound hi
    obtain ⟨rfl, token, htoken, rfl⟩ | ⟨hne, hfound⟩ := getElem?_modify_iff.mp hfound
    · rw [hlevel.stays i List.mem_cons_self (lt_of_getElem?_eq htoken)]
      exact (hchange token htoken).moves _
    · exact hlevel.moves i found hfound (List.not_mem_cons_of_ne_of_not_mem hne hi)

/-- A change of a token that moves what the token moved. -/
theorem modify {place : Nat} {change : Token → Token} (h : Balanced held tokens)
    (hchange : ∀ token, tokens[place]? = some token →
      ∀ a b, Moves a b token.source → Moves a b (change token).source) :
    Balanced held (tokens.modify place change) := by
  obtain ⟨level, hlevel⟩ := h
  refine ⟨level, hlevel.start, ?_, ?_, ?_⟩
  · rw [List.length_modify]
    exact hlevel.finish
  · intro i hi hlt
    rw [List.length_modify] at hlt
    exact hlevel.stays i hi hlt
  · intro i found hfound hi
    obtain ⟨rfl, token, htoken, rfl⟩ | ⟨hne, hfound⟩ := getElem?_modify_iff.mp hfound
    · exact hchange token htoken _ _ (hlevel.moves i token htoken hi)
    · exact hlevel.moves i found hfound hi

/-- Tokens at the end that are held back or move nothing may be missing. -/
theorem take {held' : List Nat} {place : Nat} (h : Balanced held tokens)
    (hplace : place ≤ tokens.length) (hheld : ∀ i < place, i ∈ held' ↔ i ∈ held)
    (hend : ∀ i token, place ≤ i → tokens[i]? = some token → i ∈ held ∨ Neutral token.source) :
    Balanced held' (tokens.take place) := by
  obtain ⟨level, hlevel⟩ := h
  have hzero (n : Nat) (hn : n ≤ tokens.length - place) : level (tokens.length - n) = 0 := by
    induction n with
    | zero => exact hlevel.finish
    | succ n ih =>
      have hlt : tokens.length - (n + 1) < tokens.length := by omega
      have hnext := ih (by omega)
      rw [show tokens.length - n = tokens.length - (n + 1) + 1 by omega] at hnext
      by_cases hmem : tokens.length - (n + 1) ∈ held
      · rw [hlevel.stays _ hmem hlt] at hnext
        exact hnext
      · have htoken := List.getElem?_eq_getElem hlt
        have hneutral := (hend _ _ (by omega) htoken).resolve_left hmem
        rw [hneutral.moves_iff.mp (hlevel.moves _ _ htoken hmem), hnext]
  refine ⟨level, hlevel.start, ?_, ?_, ?_⟩
  · rw [List.length_take, Nat.min_eq_left hplace]
    have := hzero (tokens.length - place) (Nat.le_refl _)
    rwa [Nat.sub_sub_self hplace] at this
  · intro i hi hlt
    rw [List.length_take] at hlt
    exact hlevel.stays i ((hheld i (by omega)).mp hi) (by omega)
  · intro i found hfound hi
    rw [List.getElem?_take] at hfound
    split at hfound
    case isTrue hlt =>
      exact hlevel.moves i found hfound fun h => hi ((hheld i hlt).mpr h)
    case isFalse => exact absurd hfound (by simp)

/-- Two neutral tokens at the end may become the beginning and the end of a group. -/
theorem wrap {before : List Token} {x y x' y' : Token}
    (h : Balanced held (before ++ [x, y])) (hx : Neutral x.source) (hy : Neutral y.source)
    (hheld : ∀ i ∈ held, i < before.length) {width : Nat} (hx' : Moves 0 width x'.source)
    (hy' : Moves width 0 y'.source) : Balanced held (before ++ [x', y']) := by
  have hbefore : Balanced held before := by
    have : Balanced held ((before ++ [x, y]).take before.length) := by
      refine h.take (by simp) (fun _ _ => Iff.rfl) fun i token hi htoken => .inr ?_
      rw [List.getElem?_append_right hi] at htoken
      have hmem := List.mem_of_getElem? htoken
      rw [List.mem_cons, List.mem_singleton] at hmem
      obtain rfl | rfl := hmem
      · exact hx
      · exact hy
    rwa [List.take_left] at this
  -- The opener is held back for as long as the list ends with it.
  have hopen : Balanced (before.length :: held) (before ++ [x']) :=
    hbefore.append (fun i hi => by simp [Nat.ne_of_lt hi]) (.inl List.mem_cons_self)
  have := hopen.close (fun hmem => absurd (hheld _ hmem) (Nat.lt_irrefl _))
    (fun i hi => by simpa using Nat.lt_succ_of_lt (hheld i hi)) (by simp) hx' hy'
  simpa using this

/-- With nothing held back, the tokens put together move nothing. -/
theorem neutral_join (h : Balanced [] tokens) : Neutral (tokens.flatMap Token.source) := by
  obtain ⟨level, hlevel⟩ := h
  have htake (n : Nat) (hn : n ≤ tokens.length) :
      Moves 0 (level n) ((tokens.take n).flatMap Token.source) := by
    induction n with
    | zero =>
      rw [hlevel.start]
      exact neutral_nil
    | succ n ih =>
      have htoken := List.getElem?_eq_getElem (show n < tokens.length by omega)
      have hmoves := hlevel.moves n _ htoken List.not_mem_nil
      rw [List.take_add_one, htoken, List.flatMap_append]
      simpa using (ih (by omega)).append hmoves
  have := htake tokens.length (Nat.le_refl _)
  rwa [List.take_length, hlevel.finish] at this

end Balanced

end PathGlob.Pattern
