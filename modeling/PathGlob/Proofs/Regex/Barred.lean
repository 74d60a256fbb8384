import Mathlib.Data.List.Chain
import Mathlib.Data.List.TakeWhile
import PathGlob.Proofs.Regex.Classes

/-!
# `PathGlob.Proofs.Regex.Barred`: what a negated class leaves out

A class that begins with a caret matches the characters that it does not collect. It collects every
character that stands in it unescaped, whatever else it lists: the character may be the end of a
span, and then it belongs to the span, or the span runs backwards and the class is refused
(`bars_of_mem`).

Only a doubled dash takes something out of the set again. So no dash may follow a dash, except at
the beginning, where dashes are members.
-/

set_option autoImplicit false

namespace PathGlob.Regex

/-! ### Lexemes within a class -/

/-- A lexeme that a class collects: a character, a dash or a shorthand class. -/
def Lexeme.IsMember : Lexeme → Prop
  | .plain c => c = '-' ∨ isClassMeta c = false
  | .literal _ | .shorthand _ _ => True
  | .edge _ | .ref _ | .bad => False

/-- The second lexeme does not double a dash. -/
def Lexeme.Apart (first second : Lexeme) : Prop := first = .plain '-' → second ≠ .plain '-'

/-- A reader that is within no escape reads the source as the lexeme. -/
def Spells (source : List Char) (lexeme : Lexeme) : Prop :=
  ∀ (reader : Reader) (more : List Char), reader.pending = .nothing →
    reader.read (source ++ more) = (reader.feed lexeme).bind fun reader => reader.read more

theorem spells_plain {c : Char} (hc : c ≠ '\\') : Spells [c] (.plain c) := by
  intro reader more hpending
  have hsame : { reader with pending := .nothing } = reader := by rw [← hpending]
  simp [Reader.read, Reader.step, hpending, Pending.next, Pending.fresh, hc, hsame]

theorem spells_escaped {c : Char} (hx : c ≠ 'x') (hdigit : ¬('1' ≤ c ∧ c ≤ '9')) :
    Spells ['\\', c] (.ofEscape c) := by
  intro reader more hpending
  have hsame : { reader with pending := .nothing } = reader := by rw [← hpending]
  have hnext : Pending.backslash.next c = ([.ofEscape c], .nothing) := by
    rw [Pending.next, if_neg hx, if_neg (by simpa using hdigit)]
  have hbegin : Pending.nothing.next '\\' = ([], .backslash) := rfl
  simp [Reader.read, Reader.step, hpending, hbegin, hnext, hsame]

/-! ### Sets so far -/

/-- The state in which more of the class is read. -/
def SetOutcome.reader? : SetOutcome → Option SetReader
  | .more reader => some reader
  | .done _ _ | .refused => none

/-- The character that is held back. -/
def SetMode.held? : SetMode → Option Char
  | .held c | .spanning c => some c
  | _ => none

/-- What has been read last is a dash behind a member, or it is a member. -/
def SetMode.IsBehind : Bool → SetMode → Prop
  | false, .ready | false, .held _ | false, .afterShorthand => True
  | true, .doubling c => c = '-'
  | true, .spanning _ | true, .afterShorthandDash => True
  | _, _ => False

namespace SetReader

/-- The state that the lexemes lead to, unless one of them is refused. -/
def run? (reader : SetReader) (lexemes : List Lexeme) : Option SetReader :=
  lexemes.foldlM (fun reader lexeme => (reader.next lexeme).reader?) reader

/-- The union so far has the character, whether or not case counts. -/
def Has (reader : SetReader) (x : Char) : Prop :=
  ∀ blind, reader.level.members.has blind x = true

/-- The union so far has the character, or the character is held back. -/
def Covers (reader : SetReader) (x : Char) : Prop :=
  reader.Has x ∨ reader.mode.held? = some x

/-- A negated class is being read, and nothing is taken out of its set. -/
structure Collects (reader : SetReader) : Prop where
  negated : reader.level.negated = true
  left : reader.level.left = none
  outer : reader.outer = []
  strayBracket : reader.strayBracket = false

/-- The same behind a member, or behind a dash that follows one. -/
structure Gathers (dashed : Bool) (reader : SetReader) : Prop extends Collects reader where
  mode : reader.mode.IsBehind dashed

variable {reader reader' : SetReader} {lexeme : Lexeme} {dashed : Bool} {x c d : Char}

theorem Has.add (h : reader.Has x) (members : CharSet) : (reader.add members).Has x := by
  intro blind
  exact Bool.or_eq_true_iff.mpr (.inl (h blind))

theorem Collects.add (h : reader.Collects) (members : CharSet) : (reader.add members).Collects :=
  ⟨h.negated, h.left, h.outer, h.strayBracket⟩

theorem Collects.withMode (h : reader.Collects) (mode : SetMode) :
    ({ reader with mode } : SetReader).Collects :=
  ⟨h.negated, h.left, h.outer, h.strayBracket⟩

/-- A span adds all that is within it. -/
theorem has_add_span (hfold : Unicode.fold x = x) (hlow : c ≤ x) (hhigh : x ≤ d) :
    (reader.add (.span c d)).Has x := by
  intro blind
  refine Bool.or_eq_true_iff.mpr (.inr ?_)
  cases blind with
  | false => simp [CharSet.has, hlow, hhigh]
  | true => simp [CharSet.has, Unicode.sameFold, hfold, hlow, hhigh]

/-- A span adds the character that was held back as its beginning. -/
theorem Covers.has_add_span (h : reader.Covers x) (hfold : Unicode.fold x = x)
    (hheld : reader.mode.held? = some c) (hle : c ≤ d) : (reader.add (.span c d)).Has x := by
  obtain hhas | hsome := h
  · exact hhas.add _
  · obtain rfl : c = x := Option.some.inj (hheld.symm.trans hsome)
    exact SetReader.has_add_span hfold (Char.le_refl c) hle

theorem Covers.has (h : reader.Covers x) (hheld : reader.mode.held? = none) : reader.Has x :=
  h.resolve_right fun hsome => absurd (hheld.symm.trans hsome) (by simp)

/-! ### One lexeme after another -/

/-- The second end of a span is not below the first one, and then the span is added. -/
theorem Collects.gathers_of_span (h : reader.Collects) (hfold : Unicode.fold x = x)
    (hheld : reader.mode.held? = some c)
    (hspan : reader.span c d = .more reader') :
    reader'.Gathers false ∧ (reader.Covers x ∨ d = x → reader'.Covers x) := by
  unfold span at hspan
  split at hspan
  case isTrue hle =>
    cases hspan
    refine ⟨⟨(h.add _).withMode _, trivial⟩, fun hhas => .inl ?_⟩
    obtain hcovers | rfl := hhas
    · exact hcovers.has_add_span hfold hheld hle
    · exact has_add_span hfold hle (Char.le_refl d)
  case isFalse => exact absurd hspan (by simp)

section
variable (hfold : Unicode.fold x = x) (hx : isClassMeta x = false) (hmember : lexeme.IsMember)
include hx hmember

/-- Where a member may begin, the next lexeme is held back or added. -/
theorem Collects.gathers_of_ready (h : reader.Collects)
    (hready : reader.ready lexeme = .more reader') :
    reader'.Gathers (lexeme = .plain '-') ∧
      (reader.Has x ∨ lexeme = .plain x → reader'.Covers x) := by
  cases lexeme with
  | plain c =>
    obtain rfl | hc := hmember
    · -- A dash may be doubled, so it is not added before the next lexeme is known.
      cases hready
      refine ⟨⟨h.withMode _, rfl⟩, fun hhas => .inl ?_⟩
      refine hhas.resolve_right fun heq => ?_
      obtain rfl : '-' = x := Lexeme.plain.inj heq
      exact absurd hx (by decide)
    · rw [ready_plain hc] at hready
      cases hready
      rw [decide_eq_false fun heq => (ne_of_isClassMeta hc).2.2.2.2 (Lexeme.plain.inj heq)]
      exact ⟨⟨h.withMode _, trivial⟩,
        Or.imp_right fun heq => congrArg some (Lexeme.plain.inj heq)⟩
  | literal c =>
    cases hready
    exact ⟨⟨h.withMode _, trivial⟩, fun hhas => .inl (hhas.resolve_right (by simp))⟩
  | shorthand kind negated =>
    cases hready
    exact ⟨⟨(h.add _).withMode _, trivial⟩, fun hhas => .inl ((hhas.resolve_right (by simp)).add _)⟩
  | edge | ref | bad => exact hmember.elim

include hfold

/-- The next lexeme ends a span, begins one, or is held back or added. -/
theorem Gathers.next (h : reader.Gathers dashed) (hapart : dashed = true → lexeme ≠ .plain '-')
    (hnext : reader.next lexeme = .more reader') :
    reader'.Gathers (lexeme = .plain '-') ∧
      (reader.Covers x ∨ lexeme = .plain x → reader'.Covers x) := by
  obtain ⟨hcollects, hbehind⟩ := h
  have hready {members : CharSet} (hhas : reader.Covers x → (reader.add members).Has x)
      (hready : (reader.add members).ready lexeme = .more reader') :
      reader'.Gathers (lexeme = .plain '-') ∧
        (reader.Covers x ∨ lexeme = .plain x → reader'.Covers x) := by
    obtain ⟨hgathers, hcovers⟩ := (hcollects.add members).gathers_of_ready hx hmember hready
    exact ⟨hgathers, fun h => hcovers (h.imp_left hhas)⟩
  -- A dash is no character that may be asked for.
  have hdashed (hdash : lexeme = .plain '-') (h : reader.Covers x ∨ lexeme = .plain x) :
      reader.Covers x := by
    refine h.resolve_right fun heq => ?_
    obtain rfl : '-' = x := Lexeme.plain.inj (hdash.symm.trans heq)
    exact absurd hx (by decide)
  cases hmode : reader.mode with
  | opened | leading =>
    rw [hmode] at hbehind
    cases dashed <;> exact hbehind.elim
  | ready =>
    simp only [SetReader.next, hmode] at hnext
    obtain ⟨hgathers, hcovers⟩ := hcollects.gathers_of_ready hx hmember hnext
    exact ⟨hgathers, fun h => hcovers (h.imp_left fun h => h.has (by rw [hmode]; rfl))⟩
  | held c =>
    simp only [SetReader.next, hmode, held] at hnext
    split at hnext
    case isTrue hdash =>
      cases hnext
      rw [decide_eq_true hdash]
      refine ⟨⟨hcollects.withMode _, trivial⟩, fun h => ?_⟩
      have hcovers := hdashed hdash h
      rw [Covers, hmode] at hcovers
      exact hcovers
    case isFalse =>
      exact hready (fun h => h.has_add_span hfold (by rw [hmode]; rfl) (Char.le_refl c)) hnext
  | doubling c =>
    rw [hmode] at hbehind
    cases dashed with
    | false => exact hbehind.elim
    | true =>
      obtain rfl : c = '-' := hbehind
      simp only [SetReader.next, hmode, SetOp.ofChar?, held, if_neg (hapart rfl)] at hnext
      exact hready (fun h => (h.has (by rw [hmode]; rfl)).add _) hnext
  | spanning c =>
    rw [hmode] at hbehind
    cases dashed with
    | false => exact hbehind.elim
    | true =>
      have hheld : reader.mode.held? = some c := by rw [hmode]; rfl
      simp only [SetReader.next, hmode] at hnext
      cases lexeme with
      | plain d =>
        have hd : isClassMeta d = false :=
          hmember.resolve_left fun heq => hapart rfl (congrArg Lexeme.plain heq)
        obtain ⟨-, hopen, hclose, -, hdash⟩ := ne_of_isClassMeta hd
        have hsame : ({ reader with
            mode := .spanning c
            strayBracket := reader.strayBracket || decide (d = '[') } : SetReader) = reader := by
          rw [decide_eq_false hopen, Bool.or_false, ← hmode]
        simp only [if_neg hclose, if_neg hdash, hsame] at hnext
        obtain ⟨hgathers, hcovers⟩ := hcollects.gathers_of_span hfold hheld hnext
        rw [decide_eq_false (hapart rfl)]
        exact ⟨hgathers, fun h => hcovers (h.imp_right Lexeme.plain.inj)⟩
      | literal d =>
        obtain ⟨hgathers, hcovers⟩ := hcollects.gathers_of_span hfold hheld hnext
        exact ⟨hgathers, fun h => hcovers (.inl (h.resolve_right (by simp)))⟩
      | shorthand | edge | ref | bad => exact absurd hnext (by simp)
  | afterShorthand =>
    simp only [SetReader.next, hmode] at hnext
    split at hnext
    case isTrue hdash =>
      cases hnext
      rw [decide_eq_true hdash]
      refine ⟨⟨hcollects.withMode _, trivial⟩, fun h => .inl ?_⟩
      exact (hdashed hdash h).has (by rw [hmode]; rfl)
    case isFalse =>
      obtain ⟨hgathers, hcovers⟩ := hcollects.gathers_of_ready hx hmember hnext
      exact ⟨hgathers, fun h => hcovers (h.imp_left fun h => h.has (by rw [hmode]; rfl))⟩
  | afterShorthandDash =>
    -- A shorthand class begins no span.
    rw [hmode] at hbehind
    have hopen : dashed = true := by
      cases dashed with
      | false => exact hbehind.elim
      | true => rfl
    have hclose : lexeme ≠ .plain ']' := by
      rintro rfl
      exact absurd hmember (by simp [Lexeme.IsMember, isClassMeta])
    simp only [SetReader.next, hmode, if_neg hclose, if_neg (hapart hopen)] at hnext
    exact absurd hnext (by simp)

end

section
variable {lexemes : List Lexeme}

theorem run?_cons_eq_some {inside : SetReader} :
    reader.run? (lexeme :: lexemes) = some inside ↔
      ∃ reader', reader.next lexeme = .more reader' ∧ reader'.run? lexemes = some inside := by
  rw [run?, List.foldlM_cons]
  cases hnext : reader.next lexeme <;> simp [SetOutcome.reader?, run?]

variable (hfold : Unicode.fold x = x) (hx : isClassMeta x = false)
  (hmember : ∀ lexeme ∈ lexemes, lexeme.IsMember)
include hfold hx hmember

/-- Along lexemes that double no dash, the set gets every character that is among them. -/
theorem Gathers.run (h : reader.Gathers dashed) (hapart : lexemes.IsChain Lexeme.Apart)
    (hfirst : dashed = true → lexemes.head? ≠ some (.plain '-'))
    (hrun : reader.run? lexemes = some reader') :
    (∃ dashed', reader'.Gathers dashed') ∧
      (reader.Covers x ∨ .plain x ∈ lexemes → reader'.Covers x) := by
  induction lexemes generalizing reader dashed with
  | nil =>
    obtain rfl : reader = reader' := Option.some.inj hrun
    exact ⟨⟨dashed, h⟩, fun hhas => hhas.resolve_right List.not_mem_nil⟩
  | cons lexeme lexemes ih =>
    obtain ⟨hmember, hmembers⟩ := List.forall_mem_cons.mp hmember
    obtain ⟨next, hnext, hrun⟩ := run?_cons_eq_some.mp hrun
    obtain ⟨hgathers, hcovers⟩ := h.next hfold hx hmember
      (fun hdashed heq => hfirst hdashed (congrArg some heq)) hnext
    obtain ⟨hhead, hapart⟩ := List.isChain_cons.mp hapart
    obtain ⟨hends, hothers⟩ := ih hmembers hgathers hapart
      (fun hdash heq => hhead _ heq (of_decide_eq_true hdash) rfl) hrun
    refine ⟨hends, fun hhas => hothers ?_⟩
    rw [List.mem_cons, ← or_assoc] at hhas
    exact hhas.imp_left fun hhas => hcovers (hhas.imp_right Eq.symm)

end

/-- The closing bracket adds what is held back, and a dash that is left over. -/
theorem Gathers.exists_close (h : reader.Gathers dashed) (hfold : Unicode.fold x = x)
    (hcovers : reader.Covers x) : ∃ members,
      reader.next (.plain ']') = .done (.compl members) false ∧
        ∀ blind, members.has blind x = true := by
  have hclose {closed : SetReader} (hcollects : closed.Collects) (hhas : closed.Has x)
      (hnext : reader.next (.plain ']') = closed.close) : ∃ members,
      reader.next (.plain ']') = .done (.compl members) false ∧
        ∀ blind, members.has blind x = true := by
    refine ⟨closed.level.members, ?_, hhas⟩
    rw [hnext, close, hcollects.outer, hcollects.strayBracket]
    simp only [SetLevel.result, SetLevel.value, hcollects.negated, hcollects.left, if_true]
  obtain ⟨hcollects, hbehind⟩ := h
  cases hmode : reader.mode with
  | opened | leading =>
    rw [hmode] at hbehind
    cases dashed <;> exact hbehind.elim
  | ready | afterShorthand =>
    have hhas := hcovers.has (by rw [hmode]; rfl)
    exact hclose hcollects hhas (by simp [SetReader.next, hmode, ready])
  | held c =>
    have hhas := hcovers.has_add_span hfold (by rw [hmode]; rfl) (Char.le_refl c)
    exact hclose (hcollects.add (.single c)) hhas (by simp [SetReader.next, hmode, held, ready])
  | doubling c =>
    rw [hmode] at hbehind
    cases dashed with
    | false => exact hbehind.elim
    | true =>
      obtain rfl : c = '-' := hbehind
      have hhas := hcovers.has (by rw [hmode]; rfl)
      exact hclose (hcollects.add (.single '-')) (hhas.add _)
        (by simp [SetReader.next, hmode, held, ready, SetOp.ofChar?])
  | spanning c =>
    have hhas := hcovers.has_add_span hfold (by rw [hmode]; rfl) (Char.le_refl c)
    exact hclose ((hcollects.add (.single c)).add (.single '-')) (hhas.add _)
      (by simp [SetReader.next, hmode])
  | afterShorthandDash =>
    have hhas := hcovers.has (by rw [hmode]; rfl)
    exact hclose (hcollects.add (.single '-')) (hhas.add _) (by simp [SetReader.next, hmode])

/-! ### The beginning of a class -/

/-- Directly behind the caret and dashes that follow it. -/
def opening (members : CharSet) (dashed : Bool) : SetReader :=
  { level := { negated := true, members }, mode := .leading dashed }

/-- Between two members of a negated class. -/
def between (members : CharSet) : SetReader :=
  { level := { negated := true, members }, mode := .ready }

/-- Dashes at the beginning are members. -/
theorem exists_run?_opening {lexemes : List Lexeme}
    (hmember : ∀ lexeme ∈ lexemes, lexeme.IsMember)
    (hother : ∃ lexeme ∈ lexemes, lexeme ≠ .plain '-') (members : CharSet) (dashed : Bool) :
    ∃ members', (opening members dashed).run? lexemes =
      (between members').run? (lexemes.dropWhile (· = .plain '-')) := by
  induction lexemes generalizing members dashed with
  | nil =>
    obtain ⟨lexeme, hmem, -⟩ := hother
    exact absurd hmem List.not_mem_nil
  | cons lexeme lexemes ih =>
    obtain ⟨hmember, hmembers⟩ := List.forall_mem_cons.mp hmember
    by_cases hdash : lexeme = .plain '-'
    · subst hdash
      have hother' : ∃ lexeme ∈ lexemes, lexeme ≠ .plain '-' := by simpa using hother
      obtain ⟨members', hrun⟩ := ih hmembers hother' (.union members (.single '-')) true
      exact ⟨members', hrun⟩
    · have hclose : lexeme ≠ .plain ']' := by
        rintro rfl
        exact absurd hmember (by simp [Lexeme.IsMember, isClassMeta])
      have hnext : (opening members dashed).next lexeme = (between members).next lexeme := by
        simp only [opening, between, next, leading, if_neg hdash, hclose, decide_false,
          Bool.false_and, Bool.false_eq_true, if_false]
        rfl
      refine ⟨members, ?_⟩
      rw [List.dropWhile_cons_of_neg (by simpa using hdash), run?, run?, List.foldlM_cons,
        List.foldlM_cons, hnext]

end SetReader

/-! ### Reading the source of a class -/

namespace SetReader

variable {reader : SetReader} {lexeme : Lexeme}

theorem ready_ne_done (hmember : lexeme.IsMember) (members : CharSet) (strayBracket : Bool) :
    reader.ready lexeme ≠ .done members strayBracket := by
  cases lexeme with
  | plain c =>
    obtain rfl | hc := hmember
    · exact fun h => SetOutcome.noConfusion h
    · rw [ready_plain hc]
      exact fun h => SetOutcome.noConfusion h
  | literal | shorthand => exact fun h => SetOutcome.noConfusion h
  | edge | ref | bad => exact hmember.elim

/-- Only a closing bracket ends a class. -/
theorem next_ne_done (hmember : lexeme.IsMember) (members : CharSet) (strayBracket : Bool) :
    reader.next lexeme ≠ .done members strayBracket := by
  have hready (reader : SetReader) : reader.ready lexeme ≠ .done members strayBracket :=
    ready_ne_done hmember members strayBracket
  have hheld (c : Char) : reader.held c lexeme ≠ .done members strayBracket := by
    unfold held
    split
    · exact fun h => SetOutcome.noConfusion h
    · exact hready _
  have hleading (dashed : Bool) : reader.leading dashed lexeme ≠ .done members strayBracket := by
    unfold leading
    split
    · exact fun h => SetOutcome.noConfusion h
    · split
      · exact fun h => SetOutcome.noConfusion h
      · exact hready _
  have hclose : lexeme ≠ .plain ']' := by
    rintro rfl
    exact absurd hmember (by simp [Lexeme.IsMember, isClassMeta])
  have hspan (reader : SetReader) (low high : Char) :
      reader.span low high ≠ .done members strayBracket := by
    unfold span
    split <;> exact fun h => SetOutcome.noConfusion h
  unfold next
  split
  case h_1 =>
    split
    · exact fun h => SetOutcome.noConfusion h
    · exact hleading false
  case h_2 dashed _ => exact hleading dashed
  case h_3 => exact hready reader
  case h_4 c _ => exact hheld c
  case h_5 c _ =>
    split
    · split
      · exact fun h => SetOutcome.noConfusion h
      · exact hheld c
    · exact hheld c
  case h_6 c _ =>
    cases lexeme with
    | plain d =>
      simp only [if_neg fun heq => hclose (congrArg Lexeme.plain heq)]
      split
      · exact fun h => SetOutcome.noConfusion h
      · exact hspan _ c d
    | literal d => exact hspan reader c d
    | shorthand | edge | ref | bad => exact fun h => SetOutcome.noConfusion h
  case h_7 =>
    split
    · exact fun h => SetOutcome.noConfusion h
    · exact hready reader
  case h_8 =>
    rw [if_neg hclose]
    split <;> exact fun h => SetOutcome.noConfusion h

end SetReader

/-- Members of a class are read one lexeme after another. -/
theorem read_spelled {α : Type} {items : List α} {source : α → List Char} {lexeme : α → Lexeme}
    (hspells : ∀ item ∈ items, Spells (source item) (lexeme item))
    (hmember : ∀ item ∈ items, (lexeme item).IsMember) (inside : SetReader) (level : Level)
    (outer : List (Level × GroupKind)) (groups : Nat) (names : List (List Char))
    (strayBrace : Bool) (more : List Char) :
    (Reader.inClass inside level outer groups names strayBrace).read
        (items.flatMap source ++ more) =
      (inside.run? (items.map lexeme)).bind fun inside =>
        (Reader.inClass inside level outer groups names strayBrace).read more := by
  induction items generalizing inside with
  | nil => rfl
  | cons item items ih =>
    obtain ⟨hspell, hspells⟩ := List.forall_mem_cons.mp hspells
    obtain ⟨hitem, hmember⟩ := List.forall_mem_cons.mp hmember
    rw [List.flatMap_cons, List.append_assoc, hspell _ _ rfl, List.map_cons, SetReader.run?,
      List.foldlM_cons]
    show ((match inside.next (lexeme item) with
      | .more inside => some (Reader.inClass inside level outer groups names strayBrace)
      | .done members strayBracket => _
      | .refused => none) : Option Reader).bind _ = _
    cases hnext : inside.next (lexeme item) with
    | more next => exact ih hspells hmember next
    | done members strayBracket => exact absurd hnext (SetReader.next_ne_done hitem _ _)
    | refused => rfl

/-- Between pieces, the source is refused, or it is read as a class without the character. -/
def Bars (x : Char) (source : List Char) : Prop :=
  (∀ repeated level outer groups names strayBrace,
    (Reader.resting repeated level outer groups names strayBrace).read source = none) ∨
  ∃ members, Reads source [.set members] ∧ ∀ blind, members.has blind x = false

/-- A negated class bars each character that stands in it unescaped. -/
theorem bars_of_mem {α : Type} {items : List α} {source : α → List Char} {lexeme : α → Lexeme}
    (hspells : ∀ item ∈ items, Spells (source item) (lexeme item))
    (hmember : ∀ item ∈ items, (lexeme item).IsMember)
    (hapart : ((items.map lexeme).dropWhile (· = .plain '-')).IsChain Lexeme.Apart) {x : Char}
    (hfold : Unicode.fold x = x) (hx : isClassMeta x = false)
    (hmem : .plain x ∈ items.map lexeme) :
    Bars x ('[' :: '^' :: items.flatMap source ++ [']']) := by
  have hmembers : ∀ member ∈ items.map lexeme, member.IsMember := List.forall_mem_map.mpr hmember
  have hdash : Lexeme.plain x ≠ .plain '-' := fun heq =>
    (ne_of_isClassMeta hx).2.2.2.2 (Lexeme.plain.inj heq)
  obtain ⟨members, hrun⟩ :=
    SetReader.exists_run?_opening hmembers ⟨_, hmem, hdash⟩ .none false
  have hread (repeated : Bool) (level : Level) (outer : List (Level × GroupKind)) (groups : Nat)
      (names : List (List Char)) (strayBrace : Bool) :
      (Reader.resting repeated level outer groups names strayBrace).read
          ('[' :: '^' :: items.flatMap source ++ [']']) =
        ((SetReader.between members).run? ((items.map lexeme).dropWhile (· = .plain '-'))).bind
          fun inside => (Reader.inClass inside level outer groups names strayBrace).read [']'] := by
    rw [← hrun, ← read_spelled hspells hmember]
    rfl
  cases hinside : (SetReader.between members).run?
      ((items.map lexeme).dropWhile (· = .plain '-')) with
  | none =>
    left
    intro repeated level outer groups names strayBrace
    rw [hread, hinside]
    rfl
  | some inside =>
    right
    have hgathers : (SetReader.between members).Gathers false := ⟨⟨rfl, rfl, rfl, rfl⟩, trivial⟩
    have hmem' : .plain x ∈ (items.map lexeme).dropWhile (· = .plain '-') := by
      rw [← List.takeWhile_append_dropWhile (p := (· = .plain '-')) (l := items.map lexeme),
        List.mem_append] at hmem
      refine hmem.resolve_left fun hdashes => hdash ?_
      have hfirst := List.mem_takeWhile_imp hdashes
      exact of_decide_eq_true hfirst
    obtain ⟨⟨dashed, hends⟩, hcovers⟩ := hgathers.run hfold hx
      (fun member hmember => hmembers member ((List.dropWhile_sublist _).mem hmember)) hapart
      (fun hdashed => absurd hdashed Bool.false_ne_true)
      hinside
    obtain ⟨collected, hclose, hhas⟩ := hends.exists_close hfold (hcovers (.inr hmem'))
    refine ⟨.compl collected, ?_, fun blind => ?_⟩
    · intro repeated branches before outer groups names strayBrace
      refine ⟨false, ?_⟩
      rw [hread, hinside, Option.bind_some, SetReader.read_of_next_close hclose]
      rfl
    · rw [CharSet.has, hhas]
      rfl

end PathGlob.Regex
