import PathGlob.Range.Expand
import PathGlob.Regex.Fragment

/-!
# `PathGlob.Proofs.Regex.Brackets`: sources with matching brackets

`isBracketed` reads a source from left to right, counts the parentheses that are open, and
skips escapes and classes. It is the plain reading of what well-bracketed means.

The proofs use a stricter reading, `scan`, which also refuses an unescaped opening bracket
within a class and a closing one at its beginning; every engine agrees where such a class
ends. As a fold over the characters it composes: `Moves a b source` says that the source
consumes `a` open parentheses and leaves `b`, at any depth, and a source that moves nothing is
`Neutral`. Whatever the translation of a pattern emits is put together from such pieces.
-/

set_option autoImplicit false

namespace PathGlob.Regex

/-- Read from left to right, with a backslash taken together with the character after it and a
class taken up to the next unescaped closing bracket, every class ends, no parenthesis closes
without one that is open, and none is left open. -/
def isBracketed (inClass : Bool) (depth : Nat) : List Char → Bool
  | [] => !inClass && depth = 0
  | '\\' :: _ :: rest => isBracketed inClass depth rest
  | c :: rest =>
    if inClass then isBracketed (c ≠ ']') depth rest
    else if c = '[' then isBracketed true depth rest
    else if c = '(' then isBracketed false (depth + 1) rest
    else if c = ')' then depth ≠ 0 && isBracketed false (depth - 1) rest
    else isBracketed false depth rest

/-! ### The strict reading -/

/-- How far a class has been read. -/
inductive ClassPart where
  /-- Directly behind the bracket. -/
  | opened
  /-- Directly behind the bracket and a negation. -/
  | negated
  | inside
  deriving DecidableEq, Repr

/-- Where the strict reading stands, with the number of open parentheses. -/
inductive Scan where
  | outside (depth : Nat)
  /-- Behind a backslash. -/
  | escape (depth : Nat)
  | inClass (part : ClassPart) (depth : Nat)
  /-- Behind a backslash within a class. -/
  | classEscape (depth : Nat)
  deriving DecidableEq, Repr

namespace Scan

/-- Reads one character. -/
def next : Scan → Char → Option Scan
  | .outside depth, c =>
    if c = '\\' then some (.escape depth)
    else if c = '[' then some (.inClass .opened depth)
    else if c = '(' then some (.outside (depth + 1))
    else if c = ')' then
      match depth with
      | 0 => none
      | depth + 1 => some (.outside depth)
    else some (.outside depth)
  | .escape depth, _ => some (.outside depth)
  | .inClass part depth, c =>
    if c = '\\' then some (.classEscape depth)
    else if c = '[' then none
    else if c = ']' then if part = .inside then some (.outside depth) else none
    else if c = '^' && part = .opened then some (.inClass .negated depth)
    else some (.inClass .inside depth)
  | .classEscape depth, _ => some (.inClass .inside depth)

/-- The same place with more parentheses open. -/
def deepen (k : Nat) : Scan → Scan
  | .outside depth => .outside (depth + k)
  | .escape depth => .escape (depth + k)
  | .inClass part depth => .inClass part (depth + k)
  | .classEscape depth => .classEscape (depth + k)

end Scan

/-- Reads a source. -/
def scan (s : Scan) (source : List Char) : Option Scan := source.foldlM Scan.next s

theorem scan_nil (s : Scan) : scan s [] = some s := rfl

theorem scan_cons (s : Scan) (c : Char) (source : List Char) :
    scan s (c :: source) = (s.next c).bind fun s => scan s source := List.foldlM_cons

theorem scan_append (s : Scan) (v w : List Char) :
    scan s (v ++ w) = (scan s v).bind fun s => scan s w := List.foldlM_append

theorem Scan.next_deepen {s s' : Scan} {c : Char} (h : s.next c = some s') (k : Nat) :
    (s.deepen k).next c = some (s'.deepen k) := by
  cases s with
  | outside depth =>
    simp only [next, deepen] at h ⊢
    by_cases hclose : c = ')'
    · subst hclose
      cases depth with
      | zero => exact absurd h (by simp)
      | succ depth =>
        cases h
        rw [Nat.add_right_comm]
        rfl
    · simp only [if_neg hclose] at h ⊢
      repeat' split at h
      all_goals
        cases h
        simp [Nat.add_right_comm, *]
  | escape | classEscape =>
    cases h
    rfl
  | inClass part depth =>
    simp only [next, deepen] at h ⊢
    repeat' split at h
    all_goals first | cases h; simp_all | cases h

/-- More open parentheses around it change nothing about how a source is read. -/
theorem scan_deepen {s s' : Scan} {source : List Char} (h : scan s source = some s') (k : Nat) :
    scan (s.deepen k) source = some (s'.deepen k) := by
  induction source generalizing s with
  | nil =>
    rw [scan_nil] at h ⊢
    cases h
    rfl
  | cons c source ih =>
    rw [scan_cons, Option.bind_eq_some_iff] at h
    obtain ⟨middle, hnext, hrest⟩ := h
    rw [scan_cons, Scan.next_deepen hnext, Option.bind_some, ih hrest]

theorem isBracketed_cons {c : Char} (h : c ≠ '\\') (inClass : Bool) (depth : Nat)
    (rest : List Char) :
    isBracketed inClass depth (c :: rest) =
      if inClass then isBracketed (c ≠ ']') depth rest
      else if c = '[' then isBracketed true depth rest
      else if c = '(' then isBracketed false (depth + 1) rest
      else if c = ')' then depth ≠ 0 && isBracketed false (depth - 1) rest
      else isBracketed false depth rest := by
  rw [isBracketed]
  intro _ _ hc
  exact absurd hc h

/-- The plain reading from where the strict one stands. -/
def Scan.IsBracketed (source : List Char) : Scan → Prop
  | .outside depth => isBracketed false depth source = true
  | .escape depth => isBracketed false depth ('\\' :: source) = true
  | .inClass _ depth => isBracketed true depth source = true
  | .classEscape depth => isBracketed true depth ('\\' :: source) = true

/-- What the strict reading accepts has matching brackets. -/
theorem isBracketed_of_scan {s : Scan} {source : List Char}
    (h : scan s source = some (.outside 0)) : s.IsBracketed source := by
  induction source generalizing s with
  | nil =>
    cases h
    rfl
  | cons c source ih =>
    rw [scan_cons, Option.bind_eq_some_iff] at h
    obtain ⟨s', hnext, hrest⟩ := h
    replace ih := ih hrest
    cases s with
    | escape | classEscape =>
      cases hnext
      exact ih
    | outside depth =>
      simp only [Scan.next] at hnext
      show isBracketed false depth (c :: source) = true
      by_cases hc : c = '\\'
      · rw [if_pos hc] at hnext
        cases hnext
        rw [hc]
        exact ih
      · rw [isBracketed_cons hc]
        rw [if_neg hc] at hnext
        repeat' split at hnext
        all_goals first | (cases hnext; simp_all [Scan.IsBracketed]) | cases hnext
    | inClass part depth =>
      simp only [Scan.next] at hnext
      show isBracketed true depth (c :: source) = true
      by_cases hc : c = '\\'
      · rw [if_pos hc] at hnext
        cases hnext
        rw [hc]
        exact ih
      · rw [isBracketed_cons hc]
        rw [if_neg hc] at hnext
        repeat' split at hnext
        all_goals first | (cases hnext; simp_all [Scan.IsBracketed]) | cases hnext

/-! ### What a source does to the open parentheses -/

/-- Wherever so many parentheses are open, the source leaves so many others in their place. -/
def Moves (a b : Nat) (source : List Char) : Prop :=
  ∀ d, scan (.outside (a + d)) source = some (.outside (b + d))

/-- The source closes what it opens, and nothing else. -/
abbrev Neutral (source : List Char) : Prop := Moves 0 0 source

section
variable {a b c : Nat} {v w : List Char}

/-- It is enough to read the source at the least depth. -/
theorem moves_iff : Moves a b v ↔ scan (.outside a) v = some (.outside b) := by
  constructor
  · exact fun h => h 0
  · exact fun h d => scan_deepen h d

instance : Decidable (Moves a b v) := decidable_of_iff _ moves_iff.symm

theorem Moves.append (h : Moves a b v) (h' : Moves b c w) : Moves a c (v ++ w) := by
  intro d
  rw [scan_append, h d, Option.bind_some, h' d]

theorem Moves.deepen (h : Moves a b v) (k : Nat) : Moves (a + k) (b + k) v := by
  intro d
  rw [Nat.add_assoc, Nat.add_assoc]
  exact h (k + d)

theorem neutral_nil : Neutral [] := fun _ => rfl

theorem Neutral.append (h : Neutral v) (h' : Neutral w) : Neutral (v ++ w) := Moves.append h h'

theorem Neutral.moves (h : Neutral v) (k : Nat) : Moves k k v := by
  have := Moves.deepen h k
  rwa [Nat.zero_add] at this

theorem Moves.append_neutral (h : Moves a b v) (h' : Neutral w) : Moves a b (v ++ w) :=
  h.append (h'.moves b)

theorem Neutral.append_moves (h : Neutral v) (h' : Moves a b w) : Moves a b (v ++ w) :=
  (h.moves a).append h'

/-- A source leaves a determined number of open parentheses. -/
theorem Moves.unique (h : Moves a b v) (h' : Moves a c v) : b = c := by
  rw [moves_iff] at h h'
  rw [h] at h'
  cases h'
  rfl

theorem Neutral.moves_iff (h : Neutral v) : Moves a b v ↔ a = b := by
  constructor
  · exact fun h' => (h.moves a).unique h'
  · rintro rfl
    exact h.moves a

theorem neutral_flatMap {α : Type} {items : List α} {source : α → List Char}
    (h : ∀ item ∈ items, Neutral (source item)) : Neutral (items.flatMap source) := by
  induction items with
  | nil => exact neutral_nil
  | cons item items ih =>
    rw [List.flatMap_cons]
    exact (h item List.mem_cons_self).append (ih fun a ha => h a (List.mem_cons_of_mem _ ha))

end

/-- The character opens and closes nothing, and escapes nothing. -/
def isLoose (c : Char) : Bool := !List.contains ['\\', '[', '(', ')'] c

theorem neutral_of_isLoose {c : Char} (h : isLoose c = true) : Neutral [c] := by
  simp only [isLoose, List.contains_eq_mem, List.mem_cons, List.not_mem_nil, or_false,
    Bool.not_eq_true', decide_eq_false_iff_not, not_or] at h
  intro d
  simp [scan, Scan.next, h]

theorem neutral_loose {text : List Char} (h : ∀ c ∈ text, isLoose c = true) : Neutral text := by
  have := neutral_flatMap fun c hc => neutral_of_isLoose (h c hc)
  rwa [List.flatMap_singleton'] at this

theorem neutral_backslash (c : Char) : Neutral ['\\', c] := fun _ => rfl

theorem neutral_escapeChar (c : Char) : Neutral (escapeChar c) := by
  unfold escapeChar
  split
  case isTrue => exact neutral_backslash c
  case isFalse h =>
    refine neutral_of_isLoose ?_
    simp only [isMeta, List.contains_eq_mem, List.mem_cons, List.not_mem_nil, or_false,
      decide_eq_true_eq, not_or] at h
    simp [isLoose, h]

theorem neutral_escape (text : List Char) : Neutral (escape text) :=
  neutral_flatMap fun c _ => neutral_escapeChar c

/-! ### Classes -/

/-- Read within a class, the source leads from one part of it to another. -/
def ClassMoves (p q : ClassPart) (body : List Char) : Prop :=
  ∀ d, scan (.inClass p d) body = some (.inClass q d)

section
variable {p q r : ClassPart} {body more : List Char}

theorem ClassMoves.append (h : ClassMoves p q body) (h' : ClassMoves q r more) :
    ClassMoves p r (body ++ more) := by
  intro d
  rw [scan_append, h d, Option.bind_some, h' d]

theorem classMoves_backslash (p : ClassPart) (c : Char) :
    ClassMoves p .inside ['\\', c] := fun _ => rfl

theorem classMoves_escapeClassChar (p : ClassPart) (c : Char) :
    ClassMoves p .inside (escapeClassChar c) := by
  unfold escapeClassChar
  split
  case isTrue => exact classMoves_backslash p c
  case isFalse h =>
    simp only [isClassMeta, List.contains_eq_mem, List.mem_cons, List.not_mem_nil, or_false,
      decide_eq_true_eq, not_or] at h
    intro d
    simp [scan, Scan.next, h]

/-- Classes are neutral. -/
theorem neutral_class (h : ClassMoves .opened .inside body) : Neutral ('[' :: body ++ [']']) := by
  intro d
  rw [List.cons_append, scan_cons, show (Scan.outside (0 + d)).next '[' =
    some (.inClass .opened (0 + d)) from rfl, Option.bind_some, scan_append, h]
  rfl

end

/-! ### Fragments -/

namespace Fragment

theorem moves_openGroup (capture : Bool) : Moves 0 1 (openGroup capture) := by
  cases capture <;> decide

theorem moves_close : Moves 1 0 [')'] := by decide

/-- What stands in a group is neutral with the group around it. -/
theorem neutral_openGroup (capture : Bool) {source : List Char} (h : Neutral source) :
    Neutral (openGroup capture ++ source ++ [')']) :=
  ((moves_openGroup capture).append_neutral h).append moves_close

theorem neutral_slash (windows : Bool) : Neutral (slash windows) := by
  cases windows <;> decide

theorem neutral_anyChar (windows : Bool) : Neutral (anyChar windows) := by
  cases windows <;> decide

theorem neutral_anyCharNoDot (windows : Bool) : Neutral (anyCharNoDot windows) := by
  cases windows <;> decide

theorem neutral_star (windows : Bool) : Neutral (star windows) := by
  cases windows <;> decide

theorem neutral_noDotSegment (windows : Bool) : Neutral (noDotSegment windows) := by
  cases windows <;> decide

theorem neutral_noDotsSegment (windows : Bool) : Neutral (noDotsSegment windows) := by
  cases windows <;> decide

theorem neutral_dotGuard (windows dots : Bool) : Neutral (dotGuard windows dots) := by
  cases windows <;> cases dots <;> decide

theorem neutral_globstar (windows dots capture : Bool) :
    Neutral (globstar windows dots capture) := by
  cases windows <;> cases dots <;> cases capture <;> decide

end Fragment

end PathGlob.Regex
