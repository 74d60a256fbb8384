import PathGlob.Proofs.Regex.Brackets
import PathGlob.Regex.CaptureCount

/-!
# `PathGlob.Proofs.Regex.Assembled`: sources put together from groups and classes

Where no group of a source captures, none is counted in it, whatever comes behind (`Silent`). Like
brackets that match, that is handed on from the parts of a source to the whole. `Assembled` names
the parts that both hold for, so that a source need only be taken apart once: it is `Neutral`, and
it is silent if its groups do not capture.
-/

set_option autoImplicit false

namespace PathGlob.Regex

/-! ### Sources without capturing groups -/

/-- No group is counted in the source. It leads from within a class, or from outside of one, to
within a class or outside of one. -/
def Uncounted (a b : Bool) (source : List Char) : Prop :=
  ∀ rest, countCaptures a (source ++ rest) = countCaptures b rest

/-- No group is counted in the source, which begins and ends outside of classes. -/
abbrev Silent (source : List Char) : Prop := Uncounted false false source

section
variable {a b c : Bool} {v w : List Char}

theorem uncounted_nil (a : Bool) : Uncounted a a [] := fun _ => rfl

theorem Uncounted.append (h : Uncounted a b v) (h' : Uncounted b c w) : Uncounted a c (v ++ w) := by
  intro rest
  rw [List.append_assoc, h, h']

theorem uncounted_backslash (a : Bool) (c : Char) : Uncounted a a ['\\', c] := fun _ => rfl

theorem Silent.captureCount_eq_zero (h : Silent v) : captureCount v = 0 := by
  have hend := h []
  rwa [List.append_nil] at hend

theorem silent_of_isLoose {c : Char} (h : isLoose c = true) : Silent [c] := by
  simp only [isLoose, List.contains_eq_mem, List.mem_cons, List.not_mem_nil, or_false,
    Bool.not_eq_true', decide_eq_false_iff_not, not_or] at h
  intro rest
  by_cases hclose : c = ']'
  · rw [hclose]
    rfl
  · rw [List.singleton_append, countCaptures.eq_def]
    split <;> simp_all

theorem silent_flatMap {α : Type} {items : List α} {source : α → List Char}
    (h : ∀ a ∈ items, Silent (source a)) : Silent (items.flatMap source) := by
  induction items with
  | nil => exact uncounted_nil false
  | cons item items ih =>
    rw [List.flatMap_cons]
    exact (h item List.mem_cons_self).append (ih fun a ha => h a (List.mem_cons_of_mem _ ha))

theorem silent_loose {text : List Char} (h : ∀ c ∈ text, isLoose c = true) : Silent text := by
  have := silent_flatMap fun c hc => silent_of_isLoose (h c hc)
  rwa [List.flatMap_singleton'] at this

theorem silent_escapeChar (c : Char) : Silent (escapeChar c) := by
  unfold escapeChar
  split
  case isTrue => exact uncounted_backslash false c
  case isFalse h =>
    refine silent_of_isLoose ?_
    simp only [isMeta, List.contains_eq_mem, List.mem_cons, List.not_mem_nil, or_false,
      decide_eq_true_eq, not_or] at h
    simp [isLoose, h]

theorem silent_escape (text : List Char) : Silent (escape text) :=
  silent_flatMap fun c _ => silent_escapeChar c

end

/-- A character that does not close the class. -/
theorem uncounted_of_ne_close {c : Char} (hclose : c ≠ ']') (hescape : c ≠ '\\') :
    Uncounted true true [c] := by
  intro rest
  rw [List.singleton_append, countCaptures.eq_def]
  split <;> simp_all

theorem uncounted_escapeClassChar (c : Char) : Uncounted true true (escapeClassChar c) := by
  unfold escapeClassChar
  split
  case isTrue => exact uncounted_backslash true c
  case isFalse h =>
    simp only [isClassMeta, List.contains_eq_mem, List.mem_cons, List.not_mem_nil, or_false,
      decide_eq_true_eq, not_or] at h
    exact uncounted_of_ne_close h.2.2.1 h.1

theorem silent_class {body : List Char} (h : Uncounted true true body) :
    Silent ('[' :: body ++ [']']) := by
  have hopen : Uncounted false true ['['] := fun _ => rfl
  have hclose : Uncounted true false [']'] := fun _ => rfl
  exact (hopen.append h).append hclose

theorem silent_group {source : List Char} (h : Silent source) :
    Silent (Fragment.openGroup false ++ source ++ [')']) := by
  have hopen : Silent (Fragment.openGroup false) := fun rest => by
    simp [Fragment.openGroup, countCaptures, opensCapture]
  have hclose : Silent [')'] := fun _ => rfl
  exact (hopen.append h).append hclose

/-! ### Both -/

/-- The source is put together from plain characters, escapes, classes and groups, which capture at
most if the flag is set. -/
inductive Assembled (capture : Bool) : List Char → Prop
  | nil : Assembled capture []
  | append {v w : List Char} (hv : Assembled capture v) (hw : Assembled capture w) :
    Assembled capture (v ++ w)
  | char {c : Char} (h : isLoose c = true) : Assembled capture [c]
  | backslash (c : Char) : Assembled capture ['\\', c]
  | set {body : List Char} (h : ClassMoves .opened .inside body) (h' : Uncounted true true body) :
    Assembled capture ('[' :: body ++ [']'])
  | group {inner : Bool} (hinner : inner = true → capture = true) {source : List Char}
    (h : Assembled capture source) : Assembled capture (Fragment.openGroup inner ++ source ++ [')'])

namespace Assembled

variable {capture : Bool} {source : List Char}

theorem neutral (h : Assembled capture source) : Neutral source := by
  induction h with
  | nil => exact neutral_nil
  | append _ _ hv hw => exact hv.append hw
  | char h => exact neutral_of_isLoose h
  | backslash c => exact neutral_backslash c
  | set h _ => exact neutral_class h
  | @group inner _ _ _ ih => exact Fragment.neutral_openGroup inner ih

theorem silent (h : Assembled false source) : Silent source := by
  induction h with
  | nil => exact uncounted_nil false
  | append _ _ hv hw => exact hv.append hw
  | char h => exact silent_of_isLoose h
  | backslash c => exact uncounted_backslash false c
  | set _ h => exact silent_class h
  | @group inner hinner _ _ ih =>
    obtain rfl : inner = false := Bool.eq_false_iff.mpr fun htrue => absurd (hinner htrue) (by simp)
    exact silent_group ih

theorem flatMap {α : Type} {items : List α} {source : α → List Char}
    (h : ∀ a ∈ items, Assembled capture (source a)) : Assembled capture (items.flatMap source) := by
  induction items with
  | nil => exact .nil
  | cons item items ih =>
    rw [List.flatMap_cons]
    exact (h item List.mem_cons_self).append (ih fun a ha => h a (List.mem_cons_of_mem _ ha))

theorem loose {text : List Char} (h : ∀ c ∈ text, isLoose c = true) : Assembled capture text := by
  have hflat : Assembled capture (text.flatMap fun c => [c]) := flatMap fun c hc => char (h c hc)
  rwa [List.flatMap_singleton'] at hflat

theorem escapeChar (c : Char) : Assembled capture (escapeChar c) := by
  unfold Regex.escapeChar
  split
  case isTrue => exact backslash c
  case isFalse h =>
    refine char ?_
    simp only [isMeta, List.contains_eq_mem, List.mem_cons, List.not_mem_nil, or_false,
      decide_eq_true_eq, not_or] at h
    simp [isLoose, h]

theorem escape (text : List Char) : Assembled capture (escape text) :=
  flatMap fun c _ => escapeChar c

/-- A loose character between the sources. -/
theorem intercalate {c : Char} (hc : isLoose c = true) {sources : List (List Char)}
    (h : ∀ source ∈ sources, Assembled capture source) :
    Assembled capture ([c].intercalate sources) := by
  induction sources with
  | nil => exact .nil
  | cons source sources ih =>
    have hsource := h source List.mem_cons_self
    cases sources with
    | nil => simpa using hsource
    | cons next sources =>
      have hrest := ih fun a ha => h a (List.mem_cons_of_mem _ ha)
      rw [List.intercalate_cons_cons]
      exact (hsource.append (char hc)).append hrest

end Assembled

end PathGlob.Regex
