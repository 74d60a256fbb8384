import PathGlob.Proofs.Regex.Brackets
import PathGlob.Regex.Reader

/-!
# `PathGlob.Proofs.Regex.Tracks`: what the strict reading tells about the reader

The strict reading of a source only counts open parentheses and tells classes from the rest. Run
side by side with the reader that builds the tree, it knows all the same how many groups are open
(`Scan.Tracks.read`): a group may be only half opened, a class holds no other class, and an escape
may have begun, but a parenthesis that counts for one counts for the other.

The groups around are a parameter, `base`. So as long as the strict reading does not fall below
its beginning, whatever is read stays within those groups. The converse does not hold: the reader
refuses much that the strict reading takes.
-/

set_option autoImplicit false

namespace PathGlob.Regex

/-! ### Within a class -/

/-- Something other than a negation stands behind the opening bracket. -/
def SetMode.isBegun : SetMode → Bool
  | .opened | .leading false => false
  | _ => true

/-- Unless it is refused, the class goes on, with no other class within it. -/
def SetOutcome.Stays : SetOutcome → Prop
  | .more reader => reader.outer = [] ∧ reader.mode.isBegun = true
  | .done _ _ => False
  | .refused => True

namespace SetReader

variable {reader : SetReader} {lexeme : Lexeme}

theorem stays_ready (houter : reader.outer = []) (hopen : lexeme ≠ .plain '[')
    (hclose : lexeme ≠ .plain ']') : (reader.ready lexeme).Stays := by
  cases lexeme with
  | plain c =>
    have hopen' : c ≠ '[' := fun h => hopen (h ▸ rfl)
    have hclose' : c ≠ ']' := fun h => hclose (h ▸ rfl)
    simp only [ready, if_neg hopen', if_neg hclose']
    split <;> exact ⟨houter, rfl⟩
  | literal | shorthand => exact ⟨houter, rfl⟩
  | edge | ref | bad => trivial

theorem stays_held (houter : reader.outer = []) (c : Char) (hopen : lexeme ≠ .plain '[')
    (hclose : lexeme ≠ .plain ']') : (reader.held c lexeme).Stays := by
  unfold held
  split
  · exact ⟨houter, rfl⟩
  · exact stays_ready houter hopen hclose

theorem stays_leading (houter : reader.outer = []) (dashed : Bool) (hopen : lexeme ≠ .plain '[')
    (hclose : lexeme ≠ .plain ']') : (reader.leading dashed lexeme).Stays := by
  unfold leading
  split
  · exact ⟨houter, rfl⟩
  · rw [if_neg (by simp [hclose])]
    exact stays_ready houter hopen hclose

theorem stays_span (houter : reader.outer = []) (low high : Char) :
    (reader.span low high).Stays := by
  unfold span
  split
  · exact ⟨houter, rfl⟩
  · trivial

/-- A class that has no class around it goes on up to its closing bracket. -/
theorem stays_next (houter : reader.outer = []) (hopen : lexeme ≠ .plain '[')
    (hclose : lexeme ≠ .plain ']') (hnegation : reader.mode = .opened → lexeme ≠ .plain '^') :
    (reader.next lexeme).Stays := by
  unfold next
  split
  case h_1 hmode =>
    rw [if_neg (hnegation hmode)]
    exact stays_leading houter _ hopen hclose
  case h_2 => exact stays_leading houter _ hopen hclose
  case h_3 => exact stays_ready houter hopen hclose
  case h_4 => exact stays_held houter _ hopen hclose
  case h_5 =>
    repeat' split
    · exact ⟨houter, rfl⟩
    · exact stays_held houter _ hopen hclose
    · exact stays_held houter _ hopen hclose
  case h_6 c _ =>
    split
    case h_1 d =>
      have hclose' : d ≠ ']' := fun h => hclose (h ▸ rfl)
      rw [if_neg hclose']
      split
      · exact ⟨houter, rfl⟩
      · exact @stays_span
          { reader with strayBracket := reader.strayBracket || d = '[' } houter c d
    case h_2 => exact stays_span houter _ _
    case h_3 => trivial
  case h_7 =>
    split
    · exact ⟨houter, rfl⟩
    · exact stays_ready houter hopen hclose
  case h_8 =>
    rw [if_neg hclose]
    split
    · exact ⟨houter, rfl⟩
    · trivial

/-- A closing bracket that is not the first member ends the class. -/
theorem next_close (houter : reader.outer = []) (hbegun : reader.mode.isBegun = true) :
    ∃ members strayBracket, reader.next (.plain ']') = .done members strayBracket := by
  obtain ⟨level, outer, mode, strayBracket⟩ := reader
  obtain rfl : outer = [] := houter
  cases mode with
  | opened => exact absurd hbegun (by simp [SetMode.isBegun])
  | leading dashed =>
    cases dashed with
    | false => exact absurd hbegun (by simp [SetMode.isBegun])
    | true => exact ⟨_, _, rfl⟩
  | doubling c =>
    unfold next
    dsimp only
    split
    case h_1 heq =>
      have hne : Lexeme.plain ']' ≠ .plain c := by
        rintro ⟨⟩
        exact absurd heq (by simp [SetOp.ofChar?])
      rw [if_neg hne]
      exact ⟨_, _, rfl⟩
    case h_2 => exact ⟨_, _, rfl⟩
  | ready | held | spanning | afterShorthand | afterShorthandDash => exact ⟨_, _, rfl⟩

/-- Nothing within a class refers back. -/
theorem next_eq_refused (reader : SetReader) (h : lexeme = .bad ∨ ∃ index, lexeme = .ref index) :
    reader.next lexeme = .refused := by
  obtain ⟨level, outer, mode, strayBracket⟩ := reader
  obtain rfl | ⟨index, rfl⟩ := h
  all_goals
    cases mode with
    | doubling =>
      unfold next
      dsimp only
      split <;> rfl
    | _ => rfl

end SetReader


/-! ### Between the pieces -/

/-- The number of groups whose opening is not finished. -/
def Mode.opening : Mode → Nat
  | .opened | .question | .angle | .name _ => 1
  | _ => 0

/-- The class that is being read. -/
def Mode.inside? : Mode → Option SetReader
  | .set inside => some inside
  | _ => none

theorem Mode.inside?_eq_some_iff {mode : Mode} {inside : SetReader} :
    mode.inside? = some inside ↔ mode = .set inside := by
  cases mode <;> simp [inside?]

namespace Reader

variable {base : List (Level × GroupKind)} {depth : Nat} {reader reader' : Reader}
  {lexeme : Lexeme}

/-- The given groups are around the reader, so many more are open within them, and the given
class is being read. -/
structure Within (base : List (Level × GroupKind)) (depth : Nat) (inside : Option SetReader)
    (reader : Reader) : Prop where
  suffix : base <:+ reader.outer
  depth_eq : reader.outer.length + reader.mode.opening = base.length + depth
  inside_eq : reader.mode.inside? = inside

/-- Only the current alternative has changed. -/
structure Beside (reader reader' : Reader) : Prop where
  outer_eq : reader'.outer = reader.outer
  pending_eq : reader'.pending = reader.pending
  opening_eq : reader'.mode.opening = 0
  inside_eq : reader'.mode.inside? = none

theorem beside_repeatLast {least : Nat} {most : Option Nat}
    (h : reader.repeatLast least most = some reader') : reader.Beside reader' := by
  unfold repeatLast at h
  split at h
  · exact absurd h (by simp)
  · cases h
    exact ⟨rfl, rfl, rfl, rfl⟩

theorem beside_makeReluctant (hopening : reader.mode.opening = 0)
    (hinside : reader.mode.inside? = none) : reader.Beside reader.makeReluctant := by
  unfold makeReluctant
  split
  · exact ⟨rfl, rfl, rfl, rfl⟩
  · exact ⟨rfl, rfl, hopening, hinside⟩

/-- A lexeme that belongs to no group and begins no class. -/
theorem beside_piece {repeated : Bool} (hopening : reader.mode.opening = 0)
    (hinside : reader.mode.inside? = none) (hopen : lexeme ≠ .plain '(')
    (hclose : lexeme ≠ .plain ')') (hclass : lexeme ≠ .plain '[')
    (h : reader.piece repeated lexeme = some reader') : reader.Beside reader' := by
  unfold piece at h
  split at h
  case h_1 => exact absurd rfl hopen
  case h_2 => exact absurd rfl hclose
  case h_8 => exact absurd rfl hclass
  case h_4 | h_5 => exact beside_repeatLast h
  case h_6 =>
    split at h
    · cases h
      exact beside_makeReluctant hopening hinside
    · exact beside_repeatLast h
  case h_16 =>
    split at h
    · cases h
      exact ⟨rfl, rfl, rfl, rfl⟩
    · exact absurd h (by simp)
  case h_17 => exact absurd h (by simp)
  all_goals
    cases h
    exact ⟨rfl, rfl, rfl, rfl⟩

theorem Within.beside (h : reader.Within base depth none) (hopening : reader.mode.opening = 0)
    (hbeside : reader.Beside reader') : reader'.Within base depth none := by
  refine ⟨hbeside.outer_eq ▸ h.suffix, ?_, hbeside.inside_eq⟩
  rw [hbeside.outer_eq, hbeside.opening_eq, ← hopening]
  exact h.depth_eq

/-- A group that has been opened counts where its opening has counted. -/
theorem Within.openGroup (h : reader.Within base depth none) (hopening : reader.mode.opening = 1)
    (kind : GroupKind) : (reader.openGroup kind).Within base depth none := by
  refine ⟨h.suffix.trans (List.suffix_cons _ _), ?_, rfl⟩
  rw [← h.depth_eq, hopening]
  rfl

theorem Within.openCapture (h : reader.Within base depth none)
    (hopening : reader.mode.opening = 1) : reader.openCapture.Within base depth none := by
  have hopen := h.openGroup hopening (.capture (reader.groups + 1))
  exact ⟨hopen.suffix, hopen.depth_eq, hopen.inside_eq⟩

theorem Within.strayBraceText (h : reader.Within base depth none)
    (hopening : reader.mode.opening = 0) (chars : List Char) :
    (reader.strayBraceText chars).Within base depth none :=
  h.beside hopening ⟨rfl, rfl, rfl, rfl⟩

/-- Before a bracket, the reader knows that a group captures and that a brace belongs to no
quantifier. -/
theorem Within.exists_piece (h : reader.Within base depth none) {c : Char}
    (hc : c = '(' ∨ c = ')' ∨ c = '[') (hfeed : reader.feed (.plain c) = some reader') :
    ∃ (settled : Reader) (repeated : Bool), settled.Within base depth none ∧
      settled.mode.opening = 0 ∧ settled.pending = reader.pending ∧
      settled.piece repeated (.plain c) = some reader' := by
  have hname : Unicode.isAlphanumeric c = false := by
    rcases hc with rfl | rfl | rfl <;> decide
  obtain ⟨pending, mode, level, outer, groups, names, strayBrace, strayBracket⟩ := reader
  cases mode with
  | pieces repeated => exact ⟨_, _, h, rfl, rfl, hfeed⟩
  | opened =>
    have hne : Lexeme.plain c ≠ .plain '?' := by rcases hc with rfl | rfl | rfl <;> decide
    simp only [feed, if_neg hne] at hfeed
    exact ⟨_, _, h.openCapture rfl, rfl, rfl, hfeed⟩
  | question | angle | name => rcases hc with rfl | rfl | rfl <;> simp [feed, hname] at hfeed
  | count chars =>
    refine ⟨_, false, h.strayBraceText rfl chars, rfl, rfl, ?_⟩
    rcases hc with rfl | rfl | rfl <;> exact hfeed
  | set => exact absurd h.inside_eq (by simp [Mode.inside?])

theorem Within.feed_open (h : reader.Within base depth none)
    (hfeed : reader.feed (.plain '(') = some reader') :
    reader'.Within base (depth + 1) none ∧ reader'.pending = reader.pending := by
  obtain ⟨settled, repeated, hsettled, hopening, hpending, hpiece⟩ := h.exists_piece (by simp) hfeed
  cases hpiece
  refine ⟨⟨hsettled.suffix, ?_, rfl⟩, hpending⟩
  have := hsettled.depth_eq
  rw [hopening] at this
  show settled.outer.length + 1 = base.length + (depth + 1)
  omega

theorem Within.feed_class (h : reader.Within base depth none)
    (hfeed : reader.feed (.plain '[') = some reader') :
    reader'.Within base depth (some {}) ∧ reader'.pending = reader.pending := by
  obtain ⟨settled, repeated, hsettled, hopening, hpending, hpiece⟩ := h.exists_piece (by simp) hfeed
  cases hpiece
  refine ⟨⟨hsettled.suffix, ?_, rfl⟩, hpending⟩
  rw [← hsettled.depth_eq, hopening]
  rfl

/-- Closing a group within the given ones. -/
theorem Within.feed_close (h : reader.Within base (depth + 1) none)
    (hfeed : reader.feed (.plain ')') = some reader') :
    reader'.Within base depth none ∧ reader'.pending = reader.pending := by
  obtain ⟨settled, repeated, hsettled, hopening, hpending, hpiece⟩ := h.exists_piece (by simp) hfeed
  have hdepth := hsettled.depth_eq
  rw [hopening] at hdepth
  obtain ⟨pending, mode, level, outer, groups, names, strayBrace, strayBracket⟩ := settled
  cases outer with
  | nil => exact absurd hdepth (by simp)
  | cons entry outer =>
    cases hpiece
    refine ⟨⟨?_, ?_, rfl⟩, hpending⟩
    · -- The group is not one of those around.
      refine (List.suffix_cons_iff.mp hsettled.suffix).resolve_left fun heq => ?_
      rw [heq] at hdepth
      simp at hdepth
    · rw [List.length_cons] at hdepth
      show outer.length + 0 = base.length + depth
      omega

/-- Closing the innermost of the given groups. -/
theorem Within.feed_close_base {level : Level} {kind : GroupKind}
    (h : reader.Within ((level, kind) :: base) 0 none)
    (hfeed : reader.feed (.plain ')') = some reader') :
    ∃ a, reader'.level = level.push (kind.wrap a) ∧ reader'.outer = base ∧
      reader'.mode = .pieces false ∧ reader'.pending = reader.pending := by
  obtain ⟨settled, repeated, hsettled, hopening, hpending, hpiece⟩ := h.exists_piece (by simp) hfeed
  have hdepth := hsettled.depth_eq
  rw [hopening] at hdepth
  have houter : (level, kind) :: base = settled.outer :=
    hsettled.suffix.eq_of_length hdepth.symm
  obtain ⟨pending, mode, level', outer, groups, names, strayBrace, strayBracket⟩ := settled
  obtain rfl : (level, kind) :: base = outer := houter
  cases hpiece
  exact ⟨_, rfl, rfl, rfl, hpending⟩

/-- Any other lexeme leaves the open groups as they are. -/
theorem Within.feed_other (h : reader.Within base depth none) (hopen : lexeme ≠ .plain '(')
    (hclose : lexeme ≠ .plain ')') (hclass : lexeme ≠ .plain '[')
    (hfeed : reader.feed lexeme = some reader') :
    reader'.Within base depth none ∧ reader'.pending = reader.pending := by
  have piece {settled : Reader} {repeated : Bool} (hsettled : settled.Within base depth none)
      (hopening : settled.mode.opening = 0) (hpending : settled.pending = reader.pending)
      (hpiece : settled.piece repeated lexeme = some reader') :
      reader'.Within base depth none ∧ reader'.pending = reader.pending := by
    have hbeside := beside_piece hopening hsettled.inside_eq hopen hclose hclass hpiece
    exact ⟨hsettled.beside hopening hbeside, hbeside.pending_eq.trans hpending⟩
  obtain ⟨pending, mode, level, outer, groups, names, strayBrace, strayBracket⟩ := reader
  cases mode with
  | pieces repeated => exact piece h rfl rfl hfeed
  | opened =>
    simp only [feed] at hfeed
    split at hfeed
    · cases hfeed
      exact ⟨⟨h.suffix, h.depth_eq, rfl⟩, rfl⟩
    · exact piece (h.openCapture rfl) rfl rfl hfeed
  | question | angle =>
    simp only [feed] at hfeed
    repeat' split at hfeed
    all_goals cases hfeed
    -- Either the group is open now, or its opening goes on.
    all_goals first | exact ⟨h.openGroup rfl _, rfl⟩ | exact ⟨⟨h.suffix, h.depth_eq, rfl⟩, rfl⟩
  | name chars =>
    simp only [feed] at hfeed
    repeat' split at hfeed
    all_goals cases hfeed
    · have hcapture := h.openCapture rfl
      exact ⟨⟨hcapture.suffix, hcapture.depth_eq, rfl⟩, rfl⟩
    · exact ⟨⟨h.suffix, h.depth_eq, rfl⟩, rfl⟩
  | count chars =>
    have hstray := h.strayBraceText rfl chars
    simp only [feed, count] at hfeed
    split at hfeed
    · split at hfeed
      · have hbeside := beside_repeatLast hfeed
        exact ⟨h.beside rfl hbeside, hbeside.pending_eq⟩
      · cases hfeed
        exact ⟨hstray.beside rfl ⟨rfl, rfl, rfl, rfl⟩, rfl⟩
    · split at hfeed
      · cases hfeed
        exact ⟨⟨h.suffix, h.depth_eq, rfl⟩, rfl⟩
      · exact piece hstray rfl rfl hfeed
    · exact piece hstray rfl rfl hfeed
  | set => exact absurd h.inside_eq (by simp [Mode.inside?])

section
variable {inside : SetReader}

/-- A lexeme that keeps to the class. -/
theorem Within.feed_stays (h : reader.Within base depth (some inside))
    (hstays : (inside.next lexeme).Stays) (hfeed : reader.feed lexeme = some reader') :
    (∃ inside', inside'.outer = [] ∧ inside'.mode.isBegun = true ∧
      reader'.Within base depth (some inside')) ∧ reader'.pending = reader.pending := by
  have hmode := Mode.inside?_eq_some_iff.mp h.inside_eq
  have hdepth := h.depth_eq
  simp only [feed, hmode] at hfeed hdepth
  cases hnext : inside.next lexeme with
  | more inside' =>
    rw [hnext] at hfeed hstays
    cases hfeed
    exact ⟨⟨inside', hstays.1, hstays.2, h.suffix, hdepth, rfl⟩, rfl⟩
  | done =>
    rw [hnext] at hstays
    exact hstays.elim
  | refused =>
    rw [hnext] at hfeed
    exact absurd hfeed (by simp)

/-- A lexeme that ends the class. -/
theorem Within.feed_done (h : reader.Within base depth (some inside))
    (hdone : ∃ members strayBracket, inside.next lexeme = .done members strayBracket)
    (hfeed : reader.feed lexeme = some reader') :
    reader'.Within base depth none ∧ reader'.pending = reader.pending := by
  obtain ⟨members, strayBracket, hnext⟩ := hdone
  have hmode := Mode.inside?_eq_some_iff.mp h.inside_eq
  have hdepth := h.depth_eq
  simp only [feed, hmode, hnext] at hfeed hdepth
  cases hfeed
  exact ⟨⟨h.suffix, hdepth, rfl⟩, rfl⟩

theorem Within.feed_negation (h : reader.Within base depth (some inside))
    (hopened : inside.mode = .opened) (hfeed : reader.feed (.plain '^') = some reader') :
    (∃ inside', inside'.outer = inside.outer ∧ inside'.mode = .leading false ∧
      reader'.Within base depth (some inside')) ∧ reader'.pending = reader.pending := by
  have hmode := Mode.inside?_eq_some_iff.mp h.inside_eq
  have hdepth := h.depth_eq
  simp only [feed, hmode, SetReader.next, hopened, if_pos] at hfeed hdepth
  cases hfeed
  refine ⟨⟨{ inside with level := { inside.level with negated := true }, mode := .leading false },
    rfl, rfl, h.suffix, hdepth, rfl⟩, rfl⟩

end

theorem foldlM_feed_singleton (reader : Reader) (lexeme : Lexeme) :
    [lexeme].foldlM feed reader = reader.feed lexeme := by
  simp

/-- Nothing refers back within a class, and no escape without a meaning is ever read. -/
theorem feed_eq_none (h : lexeme = .bad ∨ ∃ inside index, reader.mode = .set inside ∧
    lexeme = .ref index) : reader.feed lexeme = none := by
  obtain ⟨pending, mode, level, outer, groups, names, strayBrace, strayBracket⟩ := reader
  cases mode with
  | set inside =>
    have hnext : inside.next lexeme = .refused :=
      inside.next_eq_refused (h.imp_right fun ⟨_, index, _, hindex⟩ => ⟨index, hindex⟩)
    simp only [feed, hnext]
  | _ =>
    obtain rfl | ⟨_, _, hmode, -⟩ := h
    · rfl
    · exact absurd hmode (by simp)

end Reader

/-! ### The strict reading keeps track of the reader -/

/-- What the strict reading knows about the reader of a class. -/
def ClassPart.Fits (pending : Pending) (mode : SetMode) : ClassPart → Prop
  | .opened => pending = .nothing ∧ mode = .opened
  | .negated => pending = .nothing ∧ mode = .leading false
  | .inside => pending ≠ .backslash ∧ (pending = .nothing → mode.isBegun = true)

/-- The place of the strict reading tells where the reader stands, if the given groups have been
open from the beginning. -/
def Scan.Tracks (base : List (Level × GroupKind)) (reader : Reader) : Scan → Prop
  | .outside depth => reader.pending ≠ .backslash ∧ reader.Within base depth none
  | .escape depth => reader.pending = .backslash ∧ reader.Within base depth none
  | .inClass part depth => ∃ inside : SetReader, inside.outer = [] ∧
      part.Fits reader.pending inside.mode ∧ reader.Within base depth (some inside)
  | .classEscape depth => reader.pending = .backslash ∧ ∃ inside : SetReader,
      inside.outer = [] ∧ reader.Within base depth (some inside)

namespace Reader

variable {base : List (Level × GroupKind)} {depth : Nat} {reader reader' : Reader}

/-- Outside of classes, an unescaped character. -/
theorem Within.tracks_feed (h : reader.Within base depth none) (hpending : reader.pending = .nothing)
    {c : Char} (hc : c ≠ '\\') {s : Scan} (hnext : (Scan.outside depth).next c = some s)
    (hfeed : reader.feed (.plain c) = some reader') : s.Tracks base reader' := by
  simp only [Scan.next, if_neg hc] at hnext
  by_cases hclass : c = '['
  · subst hclass
    cases hnext
    obtain ⟨hwithin, hpending'⟩ := h.feed_class hfeed
    exact ⟨_, rfl, ⟨hpending'.trans hpending, rfl⟩, hwithin⟩
  rw [if_neg hclass] at hnext
  by_cases hopen : c = '('
  · subst hopen
    cases hnext
    obtain ⟨hwithin, hpending'⟩ := h.feed_open hfeed
    exact ⟨by simp [hpending', hpending], hwithin⟩
  rw [if_neg hopen] at hnext
  by_cases hclose : c = ')'
  · subst hclose
    cases depth with
    | zero => exact absurd hnext (by simp)
    | succ depth =>
      cases hnext
      obtain ⟨hwithin, hpending'⟩ := h.feed_close hfeed
      exact ⟨by simp [hpending', hpending], hwithin⟩
  rw [if_neg hclose] at hnext
  cases hnext
  obtain ⟨hwithin, hpending'⟩ := h.feed_other (by simp [hopen]) (by simp [hclose])
    (by simp [hclass]) hfeed
  exact ⟨by simp [hpending', hpending], hwithin⟩

/-- Within a class, an unescaped character. -/
theorem Within.tracks_feed_inside {inside : SetReader} (h : reader.Within base depth (some inside))
    (houter : inside.outer = []) {part : ClassPart}
    (hfits : part.Fits reader.pending inside.mode) (hpending : reader.pending = .nothing)
    {c : Char} (hc : c ≠ '\\') {s : Scan} (hnext : (Scan.inClass part depth).next c = some s)
    (hfeed : reader.feed (.plain c) = some reader') : s.Tracks base reader' := by
  simp only [Scan.next, if_neg hc] at hnext
  by_cases hopen : c = '['
  · exact absurd hnext (by simp [hopen])
  rw [if_neg hopen] at hnext
  by_cases hclose : c = ']'
  · subst hclose
    rw [if_pos rfl] at hnext
    split at hnext
    case isFalse => exact absurd hnext (by simp)
    case isTrue hpart =>
      subst hpart
      cases hnext
      obtain ⟨hwithin, hpending'⟩ := h.feed_done
        (SetReader.next_close houter (hfits.2 hpending)) hfeed
      exact ⟨by simp [hpending', hpending], hwithin⟩
  rw [if_neg hclose] at hnext
  by_cases hnegation : c = '^' ∧ inside.mode = .opened
  · obtain ⟨rfl, hopened⟩ := hnegation
    have hpart : part = .opened := by
      cases part with
      | opened => rfl
      | negated => exact absurd (hopened.symm.trans hfits.2) (by simp)
      | inside => exact absurd (hfits.2 hpending) (by simp [hopened, SetMode.isBegun])
    subst hpart
    cases hnext
    obtain ⟨⟨inside', houter', hmode, hwithin⟩, hpending'⟩ := h.feed_negation hopened hfeed
    exact ⟨inside', houter'.trans houter, ⟨hpending'.trans hpending, hmode⟩, hwithin⟩
  · have hpart : (c = '^' && part = .opened) = false := by
      cases part with
      | opened =>
        have hc' : c ≠ '^' := fun hc' => hnegation ⟨hc', hfits.2⟩
        simp [hc']
      | negated | inside => simp
    rw [hpart] at hnext
    cases hnext
    have hstays : (inside.next (.plain c)).Stays :=
      SetReader.stays_next houter (by simp [hopen]) (by simp [hclose]) fun hopened heq =>
        hnegation ⟨by simpa using heq, hopened⟩
    obtain ⟨⟨inside', houter', hbegun, hwithin⟩, hpending'⟩ := h.feed_stays hstays hfeed
    exact ⟨inside', houter', ⟨by simp [hpending', hpending], fun _ => hbegun⟩, hwithin⟩

/-- Outside of classes, a character that continues no escape. -/
theorem Within.tracks_fresh (h : reader.Within base depth none) {c : Char}
    (hpending : reader.pending = (Pending.fresh c).2) {s : Scan}
    (hnext : (Scan.outside depth).next c = some s)
    (hfeed : (Pending.fresh c).1.foldlM feed reader = some reader') : s.Tracks base reader' := by
  unfold Pending.fresh at hpending hfeed
  split at hpending
  case isTrue hc =>
    rw [if_pos hc] at hfeed
    cases hfeed
    subst hc
    cases hnext
    exact ⟨hpending, h⟩
  case isFalse hc =>
    rw [if_neg hc, foldlM_feed_singleton] at hfeed
    exact h.tracks_feed hpending hc hnext hfeed

/-- Within a class, a character that continues no escape. -/
theorem Within.tracks_fresh_inside {inside : SetReader}
    (h : reader.Within base depth (some inside)) (houter : inside.outer = []) {part : ClassPart}
    (hfits : part.Fits .nothing inside.mode) {c : Char}
    (hpending : reader.pending = (Pending.fresh c).2) {s : Scan}
    (hnext : (Scan.inClass part depth).next c = some s)
    (hfeed : (Pending.fresh c).1.foldlM feed reader = some reader') : s.Tracks base reader' := by
  unfold Pending.fresh at hpending hfeed
  split at hpending
  case isTrue hc =>
    rw [if_pos hc] at hfeed
    cases hfeed
    subst hc
    cases hnext
    exact ⟨hpending, inside, houter, h⟩
  case isFalse hc =>
    rw [if_neg hc, foldlM_feed_singleton] at hfeed
    exact h.tracks_feed_inside houter (hpending.symm ▸ hfits) hpending hc hnext hfeed

end Reader

/-! ### Escapes -/

/-- The strict reading heeds the character, outside of classes or within one. -/
def Scan.heeds (c : Char) : Bool := List.contains ['\\', '[', ']', '(', ')'] c

theorem Scan.heeds_eq_false {test : Char → Bool} {c : Char} (hc : test c = true)
    (htest : test '\\' = false ∧ test '[' = false ∧ test ']' = false ∧ test '(' = false ∧
      test ')' = false) : heeds c = false := by
  have hne {d : Char} (hd : test d = false) : c ≠ d := by
    rintro rfl
    exact absurd hc (by simp [hd])
  obtain ⟨hbackslash, hopen, hclose, hgroup, hend⟩ := htest
  simp [heeds, hne hbackslash, hne hopen, hne hclose, hne hgroup, hne hend]

theorem Scan.heeds_of_hexValue? {c : Char} {value : Nat} (h : hexValue? c = some value) :
    heeds c = false :=
  @heeds_eq_false (fun c => (hexValue? c).isSome) c (by simp [h]) (by decide)

theorem Lexeme.ofEscape_ne_plain (c d : Char) : ofEscape c ≠ .plain d := by
  unfold ofEscape ofPunctuation
  repeat' split
  all_goals simp

theorem Scan.next_of_not_heeds {c : Char} (hc : heeds c = false) (depth : Nat) :
    (Scan.outside depth).next c = some (.outside depth) ∧
      (Scan.inClass .inside depth).next c = some (.inClass .inside depth) := by
  simp only [heeds, List.contains_eq_mem, List.mem_cons, List.not_mem_nil, or_false,
    decide_eq_false_iff_not, not_or] at hc
  simp [Scan.next, hc]

namespace Reader

variable {base : List (Level × GroupKind)} {depth : Nat} {reader reader' : Reader}

theorem Within.withPending {inside : Option SetReader} (h : reader.Within base depth inside)
    (pending : Pending) : ({ reader with pending } : Reader).Within base depth inside :=
  ⟨h.suffix, h.depth_eq, h.inside_eq⟩

/-- Unless it stands behind a backslash, a character continues no escape, ends a back-reference,
or is a digit that goes on with an escape or completes it. -/
theorem step_cases (hpending : reader.pending ≠ .backslash) {c : Char}
    (h : reader.step c = some reader') :
    (reader.pending = .nothing ∧ (Pending.fresh c).1.foldlM feed
      { reader with pending := (Pending.fresh c).2 } = some reader') ∨
    (∃ index middle, ({ reader with pending := (Pending.fresh c).2 } : Reader).feed
      (.ref index) = some middle ∧ (Pending.fresh c).1.foldlM feed middle = some reader') ∨
    (reader.pending ≠ .nothing ∧ Scan.heeds c = false ∧
      ((∃ later, later ≠ .nothing ∧ later ≠ .backslash ∧
        reader' = { reader with pending := later }) ∨
      ∃ d, ({ reader with pending := .nothing } : Reader).feed (.literal d) =
        some reader')) := by
  cases hcase : reader.pending with
  | nothing =>
    simp only [step, hcase, Pending.next] at h
    exact .inl ⟨rfl, h⟩
  | backslash => exact absurd hcase hpending
  | hex =>
    simp only [step, hcase, Pending.next] at h
    split at h
    case h_1 high hhigh =>
      cases h
      exact .inr (.inr ⟨by simp, Scan.heeds_of_hexValue? hhigh, .inl ⟨_, by simp, by simp, rfl⟩⟩)
    case h_2 =>
      rw [foldlM_feed_singleton, feed_eq_none (.inl rfl)] at h
      exact absurd h (by simp)
  | hexDigit high =>
    simp only [step, hcase, Pending.next] at h
    split at h
    case h_1 low hlow =>
      rw [foldlM_feed_singleton] at h
      exact .inr (.inr ⟨by simp, Scan.heeds_of_hexValue? hlow, .inr ⟨_, h⟩⟩)
    case h_2 =>
      rw [foldlM_feed_singleton, feed_eq_none (.inl rfl)] at h
      exact absurd h (by simp)
  | ref index =>
    simp only [step, hcase, Pending.next] at h
    split at h
    case isTrue hdigit =>
      cases h
      exact .inr (.inr ⟨by simp, Scan.heeds_eq_false hdigit (by decide),
        .inl ⟨_, by simp, by simp, rfl⟩⟩)
    case isFalse =>
      rw [List.foldlM_cons, Option.bind_eq_bind, Option.bind_eq_some_iff] at h
      obtain ⟨middle, hfeed, hrest⟩ := h
      exact .inr (.inl ⟨index, middle, hfeed, hrest⟩)

/-- The character behind a backslash completes an escape or begins a longer one. -/
theorem step_backslash (hpending : reader.pending = .backslash) {c : Char}
    (h : reader.step c = some reader') :
    (∃ later, later ≠ .nothing ∧ later ≠ .backslash ∧ reader' = { reader with pending := later }) ∨
    ({ reader with pending := .nothing } : Reader).feed (.ofEscape c) = some reader' := by
  simp only [step, hpending, Pending.next] at h
  repeat' split at h
  · cases h
    exact .inl ⟨_, by simp, by simp, rfl⟩
  · cases h
    exact .inl ⟨_, by simp, by simp, rfl⟩
  · rw [foldlM_feed_singleton] at h
    exact .inr h

/-- Outside of classes, the strict reading goes where the reader goes. -/
theorem Within.tracks_step (h : reader.Within base depth none)
    (hpending : reader.pending ≠ .backslash) {c : Char} {s : Scan}
    (hnext : (Scan.outside depth).next c = some s) (hstep : reader.step c = some reader') :
    s.Tracks base reader' := by
  obtain ⟨-, hfresh⟩ | ⟨index, middle, hfeed, hfresh⟩ | ⟨-, hc, hescape⟩ :=
    step_cases hpending hstep
  · exact (h.withPending _).tracks_fresh rfl hnext hfresh
  · obtain ⟨hwithin, hpending'⟩ := (h.withPending _).feed_other (by simp) (by simp) (by simp) hfeed
    exact hwithin.tracks_fresh hpending' hnext hfresh
  · rw [(Scan.next_of_not_heeds hc depth).1] at hnext
    cases hnext
    obtain ⟨later, -, hlater, rfl⟩ | ⟨d, hfeed⟩ := hescape
    · exact ⟨hlater, h.withPending _⟩
    · obtain ⟨hwithin, hpending'⟩ :=
        (h.withPending _).feed_other (by simp) (by simp) (by simp) hfeed
      exact ⟨by simp [hpending'], hwithin⟩

/-- Within a class, the strict reading goes where the reader goes. -/
theorem Within.tracks_step_inside {inside : SetReader} (h : reader.Within base depth (some inside))
    (houter : inside.outer = []) {part : ClassPart}
    (hfits : part.Fits reader.pending inside.mode) {c : Char} {s : Scan}
    (hnext : (Scan.inClass part depth).next c = some s) (hstep : reader.step c = some reader') :
    s.Tracks base reader' := by
  have hpending : reader.pending ≠ .backslash := by
    cases part with
    | opened | negated => simp [hfits.1]
    | inside => exact hfits.1
  obtain ⟨hnothing, hfresh⟩ | ⟨index, middle, hfeed, -⟩ | ⟨hsome, hc, hescape⟩ :=
    step_cases hpending hstep
  · rw [hnothing] at hfits
    exact (h.withPending _).tracks_fresh_inside houter hfits rfl hnext hfresh
  · have hmode := Mode.inside?_eq_some_iff.mp h.inside_eq
    have hnone : ({ reader with pending := (Pending.fresh c).2 } : Reader).feed (.ref index) =
        none := feed_eq_none (.inr ⟨inside, index, hmode, rfl⟩)
    exact absurd (hfeed.symm.trans hnone) (by simp)
  · obtain rfl : part = .inside := by
      cases part with
      | opened | negated => exact absurd hfits.1 hsome
      | inside => rfl
    rw [(Scan.next_of_not_heeds hc depth).2] at hnext
    cases hnext
    obtain ⟨later, hsome', hlater, rfl⟩ | ⟨d, hfeed⟩ := hescape
    · exact ⟨inside, houter, ⟨hlater, fun hnothing => absurd hnothing hsome'⟩, h.withPending _⟩
    · have hstays : (inside.next (.literal d)).Stays :=
        SetReader.stays_next houter (by simp) (by simp) (by simp)
      obtain ⟨⟨inside', houter', hbegun, hwithin⟩, hpending'⟩ :=
        (h.withPending _).feed_stays hstays hfeed
      exact ⟨inside', houter', ⟨by simp [hpending'], fun _ => hbegun⟩, hwithin⟩

end Reader

namespace Scan

variable {base : List (Level × GroupKind)} {s s' : Scan} {reader reader' : Reader}

/-- Where both readings go on, the strict one keeps track. -/
theorem Tracks.step (h : s.Tracks base reader) {c : Char} (hnext : s.next c = some s')
    (hstep : reader.step c = some reader') : s'.Tracks base reader' := by
  cases s with
  | outside depth => exact h.2.tracks_step h.1 hnext hstep
  | inClass part depth =>
    obtain ⟨inside, houter, hfits, hwithin⟩ := h
    exact hwithin.tracks_step_inside houter hfits hnext hstep
  | escape depth =>
    obtain ⟨hpending, hwithin⟩ := h
    cases hnext
    obtain ⟨later, -, hlater, rfl⟩ | hfeed := Reader.step_backslash hpending hstep
    · exact ⟨hlater, hwithin.withPending _⟩
    · obtain ⟨hwithin', hpending'⟩ := (hwithin.withPending _).feed_other
        (Lexeme.ofEscape_ne_plain c _) (Lexeme.ofEscape_ne_plain c _)
        (Lexeme.ofEscape_ne_plain c _) hfeed
      exact ⟨by simp [hpending'], hwithin'⟩
  | classEscape depth =>
    obtain ⟨hpending, inside, houter, hwithin⟩ := h
    cases hnext
    obtain ⟨later, hsome, hlater, rfl⟩ | hfeed := Reader.step_backslash hpending hstep
    · exact ⟨inside, houter, ⟨hlater, fun hnothing => absurd hnothing hsome⟩, hwithin.withPending _⟩
    · have hstays := SetReader.stays_next houter (Lexeme.ofEscape_ne_plain c _)
        (Lexeme.ofEscape_ne_plain c _) fun _ => Lexeme.ofEscape_ne_plain c _
      obtain ⟨⟨inside', houter', hbegun, hwithin'⟩, hpending'⟩ :=
        (hwithin.withPending _).feed_stays hstays hfeed
      exact ⟨inside', houter', ⟨by simp [hpending'], fun _ => hbegun⟩, hwithin'⟩

/-- The strict reading keeps track of the reader over a whole source. -/
theorem Tracks.read {source : List Char} (h : s.Tracks base reader)
    (hscan : scan s source = some s') (hread : reader.read source = some reader') :
    s'.Tracks base reader' := by
  induction source generalizing s reader with
  | nil =>
    cases hscan
    cases hread
    exact h
  | cons c source ih =>
    rw [scan_cons, Option.bind_eq_some_iff] at hscan
    obtain ⟨middle, hnext, hscan⟩ := hscan
    rw [Reader.read, List.foldlM_cons, Option.bind_eq_bind, Option.bind_eq_some_iff] at hread
    obtain ⟨reader₁, hstep, hread⟩ := hread
    exact ih (h.step hnext hstep) hscan hread

end Scan

end PathGlob.Regex
