import PathGlob.Proofs.Regex.Pieces

/-!
# `PathGlob.Proofs.Regex.Classes`: classes that list their members

A class that lists single characters and spans is read as the set of exactly these characters, or
of all others if it begins with a caret (`exists_reads_class`). The reader holds a character back
until it knows whether a span begins there, so at a place between two members it has a set and
perhaps one more character (`SetReader.gathering`), and the next member adds to both
(`SetReader.Begins`).
-/

set_option autoImplicit false

namespace PathGlob.Regex

/-- A member of a class: a character without a meaning there, or a span between two of them. -/
inductive ClassItem where
  | char (c : Char) (hc : isClassMeta c = false)
  | span (low high : Char) (hlow : isClassMeta low = false) (hhigh : isClassMeta high = false)
    (hle : low ≤ high)

namespace ClassItem

/-- The member as it is written. -/
def source : ClassItem → List Char
  | .char c _ => [c]
  | .span low high _ _ _ => [low, '-', high]

/-- The character belongs to the member. -/
def Has (x : Char) : ClassItem → Prop
  | .char c _ => x = c
  | .span low high _ _ _ => low ≤ x ∧ x ≤ high

end ClassItem

/-- The class that lists the members, or all other characters. -/
def classSource (negated : Bool) (items : List ClassItem) : List Char :=
  '[' :: (if negated then ['^'] else []) ++ items.flatMap ClassItem.source ++ [']']

section
variable {x : Char} (hx : isClassMeta x = false)
include hx

theorem ne_of_isClassMeta : x ≠ '\\' ∧ x ≠ '[' ∧ x ≠ ']' ∧ x ≠ '^' ∧ x ≠ '-' := by
  simp only [isClassMeta, List.contains_eq_mem, List.mem_cons, List.not_mem_nil, or_false,
    decide_eq_false_iff_not, not_or] at hx
  exact ⟨hx.1, hx.2.1, hx.2.2.1, hx.2.2.2.1, hx.2.2.2.2.1⟩

/-- A character without a meaning in a class, where a member of the class may begin. -/
theorem SetReader.ready_plain (reader : SetReader) :
    reader.ready (.plain x) = .more { reader with mode := .held x } := by
  simp only [isClassMeta, List.contains_eq_mem, List.mem_cons, List.not_mem_nil, or_false,
    decide_eq_false_iff_not, not_or] at hx
  simp [ready, SetOp.ofChar?, hx]

end

/-! ### Reading within a class -/

/-- Within a class. -/
def Reader.inClass (inside : SetReader) (level : Level) (outer : List (Level × GroupKind))
    (groups : Nat) (names : List (List Char)) (strayBrace : Bool) : Reader :=
  { mode := .set inside, level, outer, groups, names, strayBrace }

namespace SetReader

/-- Within a class, the source leads from one state to the other. -/
def Moves (inside : SetReader) (source : List Char) (inside' : SetReader) : Prop :=
  ∀ level outer groups names strayBrace more,
    (Reader.inClass inside level outer groups names strayBrace).read (source ++ more) =
      (Reader.inClass inside' level outer groups names strayBrace).read more

theorem Moves.append {inside inside' inside'' : SetReader} {source source' : List Char}
    (h : inside.Moves source inside') (h' : inside'.Moves source' inside'') :
    inside.Moves (source ++ source') inside'' := by
  intro level outer groups names strayBrace more
  rw [List.append_assoc, h, h']

/-- An unescaped character. -/
theorem Moves.of_next {c : Char} (hc : c ≠ '\\') {inside inside' : SetReader}
    (hnext : inside.next (.plain c) = .more inside') : inside.Moves [c] inside' := by
  intro level outer groups names strayBrace more
  simp only [Reader.inClass, Reader.read, List.singleton_append, List.foldlM_cons, Reader.step,
    Pending.next, Pending.fresh, if_neg hc, List.foldlM_nil, Reader.feed, hnext,
    Option.bind_eq_bind, Option.bind_some, Option.pure_def]

/-- The unescaped bracket that closes the class. -/
theorem read_of_next_close {inside : SetReader} {members : CharSet}
    (hnext : inside.next (.plain ']') = .done members false) (branches before : List Node)
    (outer : List (Level × GroupKind)) (groups : Nat) (names : List (List Char))
    (strayBrace : Bool) :
    (Reader.inClass inside ⟨branches, before⟩ outer groups names strayBrace).read [']'] =
      some (.resting false ⟨branches, .set members :: before⟩ outer groups names strayBrace) := by
  simp [Reader.inClass, Reader.read, Reader.step, Pending.next, Pending.fresh, Reader.feed, hnext]
  rfl

end SetReader

/-! ### Between two members -/

namespace SetReader

/-- At a place between two members: the set so far, and perhaps a character that is held back. -/
def gathering (negated : Bool) (members : CharSet) (held? : Option Char) : SetReader :=
  { level := { negated, members }, mode := held?.elim .ready .held }

/-- The set with the character that is held back. -/
def settled (members : CharSet) : Option Char → CharSet
  | none => members
  | some c => .union members (.single c)

/-- A member may begin here, and the characters before it make up the set. -/
def Begins (reader : SetReader) (negated : Bool) (members : CharSet) : Prop :=
  ∀ c, isClassMeta c = false → reader.next (.plain c) = .more (gathering negated members (some c))

theorem begins_opened : ({} : SetReader).Begins false .none := by
  intro c hc
  simp only [next, leading, ready_plain hc]
  simp [ne_of_isClassMeta hc, gathering]

theorem begins_caret :
    ({ level := { negated := true }, mode := .leading false } : SetReader).Begins true .none := by
  intro c hc
  simp only [next, leading, ready_plain hc]
  simp [ne_of_isClassMeta hc, gathering]

theorem begins_gathering (negated : Bool) (members : CharSet) (held? : Option Char) :
    (gathering negated members held?).Begins negated (settled members held?) := by
  intro c hc
  cases held? with
  | none => exact ready_plain hc _
  | some d =>
    have hheld : ((gathering negated members (some d)).add (.single d)).ready (.plain c) =
        .more (gathering negated (.union members (.single d)) (some c)) := ready_plain hc _
    rw [settled, ← hheld]
    simp [next, gathering, held, ne_of_isClassMeta hc]

theorem next_gathering_close (negated : Bool) (members : CharSet) (held? : Option Char) :
    (gathering negated members held?).next (.plain ']') =
      .done (if negated then .compl (settled members held?) else settled members held?) false := by
  cases held? <;> rfl

end SetReader

/-- A member of a class adds its characters. -/
theorem ClassItem.exists_moves (item : ClassItem) {inside : SetReader} {negated : Bool}
    {members : CharSet} (hinside : inside.Begins negated members) :
    ∃ members' held?, inside.Moves item.source (.gathering negated members' held?) ∧
      ∀ x, (SetReader.settled members' held?).has false x = true ↔
        members.has false x = true ∨ item.Has x := by
  cases item with
  | char c hc =>
    refine ⟨members, some c, .of_next (ne_of_isClassMeta hc).1 (hinside c hc), fun x => ?_⟩
    rw [SetReader.settled, CharSet.has, Bool.or_eq_true, Piece.has_single_iff]
    rfl
  | span low high hlow hhigh hle =>
    let spanning : SetReader := { level := { negated, members }, mode := .spanning low }
    have hlowest : inside.Moves [low] (.gathering negated members (some low)) :=
      .of_next (ne_of_isClassMeta hlow).1 (hinside low hlow)
    have hdash : (SetReader.gathering negated members (some low)).Moves ['-'] spanning :=
      .of_next (by decide) rfl
    have hhighest : spanning.Moves [high]
        (.gathering negated (.union members (.span low high)) none) := by
      refine .of_next (ne_of_isClassMeta hhigh).1 ?_
      simp [spanning, SetReader.next, SetReader.span, hle, ne_of_isClassMeta hhigh, SetReader.add,
        SetLevel.add, SetReader.gathering]
    refine ⟨_, none, (hlowest.append hdash).append hhighest, fun x => ?_⟩
    simp [SetReader.settled, CharSet.has, ClassItem.Has]

/-- Members one after the other add the characters of all of them. -/
theorem exists_moves_items {items : List ClassItem} (hne : items ≠ []) {inside : SetReader}
    {negated : Bool} {members : CharSet} (hinside : inside.Begins negated members) :
    ∃ members' held?,
      inside.Moves (items.flatMap ClassItem.source) (.gathering negated members' held?) ∧
        ∀ x, (SetReader.settled members' held?).has false x = true ↔
          members.has false x = true ∨ ∃ item ∈ items, item.Has x := by
  induction items generalizing inside members with
  | nil => exact absurd rfl hne
  | cons item items ih =>
    obtain ⟨members₁, held?, hmoves, hhas⟩ := item.exists_moves hinside
    cases items with
    | nil => exact ⟨members₁, held?, by simpa using hmoves, fun x => by simp [hhas]⟩
    | cons next items =>
      obtain ⟨members₂, held?, hmoves', hhas'⟩ :=
        ih (List.cons_ne_nil _ _) (SetReader.begins_gathering negated members₁ held?)
      exact ⟨members₂, held?, hmoves.append hmoves', fun x => by simp [hhas', hhas, or_assoc]⟩

/-- A class is read as the set of the characters that it lists, or of all others. -/
theorem exists_reads_class (negated : Bool) {items : List ClassItem} (hne : items ≠ []) :
    ∃ members, Reads (classSource negated items) [.set members] ∧
      ∀ x, members.has false x = true ↔ if negated then ¬∃ item ∈ items, item.Has x
        else ∃ item ∈ items, item.Has x := by
  -- After the opening and the caret, if there is one, the set is empty.
  obtain ⟨inside, members, hinside, hopen, hnone⟩ : ∃ inside members,
      SetReader.Begins inside negated members ∧
        (∀ repeated branches before outer groups names strayBrace more,
          (Reader.resting repeated ⟨branches, before⟩ outer groups names strayBrace).read
              ('[' :: (if negated then ['^'] else []) ++ more) =
            (Reader.inClass inside ⟨branches, before⟩ outer groups names strayBrace).read more) ∧
          ∀ x, members.has false x = false := by
    cases negated with
    | false => exact ⟨_, _, SetReader.begins_opened, fun _ _ _ _ _ _ _ _ => rfl, fun _ => rfl⟩
    | true => exact ⟨_, _, SetReader.begins_caret, fun _ _ _ _ _ _ _ _ => rfl, fun _ => rfl⟩
  obtain ⟨members', held?, hmoves, hhas⟩ := exists_moves_items hne hinside
  let listed := SetReader.settled members' held?
  refine ⟨if negated then .compl listed else listed, ?_, fun x => ?_⟩
  case refine_1 =>
    intro repeated branches before outer groups names strayBrace
    refine ⟨false, ?_⟩
    rw [classSource, List.append_assoc, hopen, hmoves,
      SetReader.read_of_next_close (SetReader.next_gathering_close negated members' held?)]
    rfl
  case refine_2 =>
    have hlisted : listed.has false x = true ↔ ∃ item ∈ items, item.Has x := by
      simp [listed, hhas, hnone]
    cases negated with
    | false => exact hlisted
    | true => simp [CharSet.has, ← hlisted]

end PathGlob.Regex
