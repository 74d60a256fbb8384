import PathGlob.Proofs.Regex.Anchors
import PathGlob.Regex.CaptureCount

/-!
# `PathGlob.Proofs.Regex.Captures`: capturing groups counted without a tree

`captureCount` looks at the characters behind an opening parenthesis, and at nothing else. The
reader learns from them one by one whether the group captures, so a group may count already that
the reader has not opened yet (`Mode.owes`). What has been opened, what is owed and what is still to
be counted stays the same with every character (`Scan.Tracks.total_step`), as long as the strict
reading keeps track of the reader. So the reader opens as many capturing groups as are counted in a
source that closes what it opens (`Reader.groups_read`).
-/

set_option autoImplicit false

namespace PathGlob.Regex

/-! ### Groups that are half opened -/

/-- The group whose opening goes on with the given text captures, and it is not opened yet. -/
def Mode.owes : Mode → List Char → Bool
  | .opened, ahead => opensCapture ahead
  | .question, ahead => opensCapture ('?' :: ahead)
  | .angle, ahead => opensCapture ('?' :: '<' :: ahead)
  | .name _, _ => true
  | _, _ => false

namespace Mode

theorem owes_of_opening {mode : Mode} (h : mode.opening = 0) (ahead : List Char) :
    mode.owes ahead = false := by
  cases mode with
  | opened | question | angle | name => exact absurd h Nat.one_ne_zero
  | pieces | count | set => rfl

/-- With an escape ahead, it does not matter which. -/
theorem owes_backslash (mode : Mode) (a b : List Char) :
    mode.owes ('\\' :: a) = mode.owes ('\\' :: b) := by
  cases mode <;> rfl

end Mode

/-- The text that begins with the lexeme. -/
def Lexeme.before : Lexeme → List Char → List Char
  | .plain c, rest => c :: rest
  | _, rest => '\\' :: rest

/-- With the lexeme, a capturing group begins. -/
def Lexeme.opens : Lexeme → List Char → Bool
  | .plain c, rest => c = '(' && opensCapture rest
  | _, _ => false

theorem Lexeme.opensCapture_before (lexeme : Lexeme) (h : lexeme ≠ .plain '?') (rest : List Char) :
    opensCapture (lexeme.before rest) = true := by
  cases lexeme with
  | plain c =>
    have hc : c ≠ '?' := fun hc => h (hc ▸ rfl)
    rw [before, opensCapture.eq_def]
    split <;> first | rfl | simp_all
  | _ => rfl

theorem Lexeme.opens_of_ne {lexeme : Lexeme} (h : lexeme ≠ .plain '(') (rest : List Char) :
    lexeme.opens rest = false := by
  cases lexeme with
  | plain c =>
    have hc : c ≠ '(' := fun hc => h (hc ▸ rfl)
    simp [opens, hc]
  | _ => rfl

namespace Reader

variable {reader reader' : Reader} {lexeme : Lexeme}

/-- The number of capturing groups opened, with the one that is owed before the given text. -/
def total (reader : Reader) (ahead : List Char) : Nat :=
  reader.groups + (reader.mode.owes ahead).toNat

theorem total_of_opening (h : reader.mode.opening = 0) (ahead : List Char) :
    reader.total ahead = reader.groups := by
  rw [total, Mode.owes_of_opening h]
  rfl

/-- No group has been opened, and none is half open. -/
structure Keeps (reader reader' : Reader) : Prop where
  pending_eq : reader'.pending = reader.pending
  groups_eq : reader'.groups = reader.groups
  opening_eq : reader'.mode.opening = 0

theorem Keeps.total_eq (h : reader.Keeps reader') (ahead : List Char) :
    reader'.total ahead = reader.groups := by
  rw [total_of_opening h.opening_eq, h.groups_eq]

theorem keeps_repeatLast {least : Nat} {most : Option Nat}
    (h : reader.repeatLast least most = some reader') : reader.Keeps reader' := by
  unfold repeatLast at h
  split at h <;> cases h
  exact ⟨rfl, rfl, rfl⟩

theorem keeps_makeReluctant (hopening : reader.mode.opening = 0) :
    reader.Keeps reader.makeReluctant := by
  unfold makeReluctant
  split
  · exact ⟨rfl, rfl, rfl⟩
  · exact ⟨rfl, rfl, hopening⟩

theorem keeps_piece {repeated : Bool} (hopening : reader.mode.opening = 0)
    (hopen : lexeme ≠ .plain '(') (h : reader.piece repeated lexeme = some reader') :
    reader.Keeps reader' := by
  unfold piece at h
  split at h
  case h_1 => exact absurd rfl hopen
  case h_2 =>
    unfold closeGroup at h
    split at h <;> cases h
    exact ⟨rfl, rfl, rfl⟩
  case h_4 | h_5 => exact keeps_repeatLast h
  case h_6 =>
    split at h
    · cases h
      exact keeps_makeReluctant hopening
    · exact keeps_repeatLast h
  case h_16 =>
    split at h <;> cases h
    exact ⟨rfl, rfl, rfl⟩
  case h_17 => cases h
  all_goals
    cases h
    exact ⟨rfl, rfl, rfl⟩

/-- Between pieces, nothing is owed but the group that the lexeme begins. -/
theorem total_piece {repeated : Bool} (hopening : reader.mode.opening = 0)
    (h : reader.piece repeated lexeme = some reader') (rest : List Char) :
    reader'.pending = reader.pending ∧
      reader'.total rest = reader.groups + (lexeme.opens rest).toNat := by
  by_cases hopen : lexeme = .plain '('
  · subst hopen
    cases h
    exact ⟨rfl, rfl⟩
  · have hkeeps := keeps_piece hopening hopen h
    rw [hkeeps.total_eq, Lexeme.opens_of_ne hopen]
    exact ⟨hkeeps.pending_eq, rfl⟩

/-- Behind `(?<` a lookbehind begins, or the name of a group that captures. -/
theorem total_feed_angle (hmode : reader.mode = .angle)
    (h : reader.feed lexeme = some reader') (rest : List Char) :
    reader'.pending = reader.pending ∧
      reader'.total rest = reader.total (lexeme.before rest) + (lexeme.opens rest).toNat := by
  obtain ⟨pending, mode, level, outer, groups, names, strayBrace, strayBracket⟩ := reader
  obtain rfl : mode = .angle := hmode
  simp only [feed] at h
  split at h
  case isTrue hlexeme =>
    subst hlexeme
    cases h
    exact ⟨rfl, rfl⟩
  case isFalse hequals =>
    split at h
    case isTrue hlexeme =>
      subst hlexeme
      cases h
      exact ⟨rfl, rfl⟩
    case isFalse hexclamation =>
      split at h
      case h_2 => cases h
      case h_1 c =>
        split at h
        case isFalse => cases h
        case isTrue hname =>
          cases h
          have hc : c ≠ '(' := by
            rintro rfl
            exact absurd hname (by decide)
          have hlook : c ≠ '=' ∧ c ≠ '!' := by simpa using And.intro hequals hexclamation
          rw [Lexeme.opens_of_ne (by simpa using hc)]
          exact ⟨rfl, by simp [total, Mode.owes, Lexeme.before, opensCapture, hlook]⟩

/-- Within the name of a group. -/
theorem total_feed_name {chars : List Char} (hmode : reader.mode = .name chars)
    (h : reader.feed lexeme = some reader') (rest : List Char) :
    reader'.pending = reader.pending ∧
      reader'.total rest = reader.total (lexeme.before rest) + (lexeme.opens rest).toNat := by
  obtain ⟨pending, mode, level, outer, groups, names, strayBrace, strayBracket⟩ := reader
  obtain rfl : mode = .name chars := hmode
  simp only [feed] at h
  split at h
  case h_2 => cases h
  case h_1 c =>
    have hname (hc : c = '>' ∨ (Unicode.isAlphanumeric c || c = '_') = true) :
        Lexeme.opens (.plain c) rest = false := by
      refine Lexeme.opens_of_ne ?_ rest
      rintro ⟨⟩
      exact absurd hc (by decide)
    repeat' split at h
    case isTrue hc =>
      cases h
      rw [hname (.inl hc)]
      exact ⟨rfl, rfl⟩
    case isTrue hc =>
      cases h
      rw [hname (.inr hc)]
      exact ⟨rfl, rfl⟩
    case isFalse => cases h

/-- Within what may be the count of a repetition. -/
theorem total_feed_count {chars : List Char} (hmode : reader.mode = .count chars)
    (h : reader.feed lexeme = some reader') (rest : List Char) :
    reader'.pending = reader.pending ∧
      reader'.total rest = reader.total (lexeme.before rest) + (lexeme.opens rest).toNat := by
  obtain ⟨pending, mode, level, outer, groups, names, strayBrace, strayBracket⟩ := reader
  obtain rfl : mode = .count chars := hmode
  simp only [feed, count] at h
  split at h
  case h_1 =>
    split at h
    · have hkeeps := keeps_repeatLast h
      exact ⟨hkeeps.pending_eq, hkeeps.total_eq rest⟩
    · cases h
      exact ⟨rfl, rfl⟩
  case h_2 c _ =>
    split at h
    case isTrue hc =>
      cases h
      have hopen : Lexeme.plain c ≠ .plain '(' := by
        rintro ⟨⟩
        exact absurd hc (by decide)
      rw [Lexeme.opens_of_ne hopen]
      exact ⟨rfl, rfl⟩
    case isFalse => exact total_piece rfl h rest
  case h_3 => exact total_piece rfl h rest

/-- Outside of classes, the groups that are opened or owed change by those that begin. -/
theorem total_feed (hinside : reader.mode.inside? = none)
    (h : reader.feed lexeme = some reader') (rest : List Char) :
    reader'.pending = reader.pending ∧
      reader'.total rest = reader.total (lexeme.before rest) + (lexeme.opens rest).toNat := by
  obtain ⟨pending, mode, level, outer, groups, names, strayBrace, strayBracket⟩ := reader
  cases mode with
  | pieces repeated => exact total_piece rfl h rest
  | opened =>
    simp only [feed] at h
    split at h
    case isTrue hquestion =>
      subst hquestion
      cases h
      exact ⟨rfl, rfl⟩
    case isFalse hquestion =>
      obtain ⟨hpending, htotal⟩ := total_piece rfl h rest
      rw [htotal, total, Mode.owes, lexeme.opensCapture_before hquestion]
      exact ⟨hpending, rfl⟩
  | question =>
    simp only [feed] at h
    repeat' split at h
    all_goals cases h
    -- Either the group is open now and captures nothing, or its opening goes on.
    all_goals
      rename_i hlexeme
      subst hlexeme
      exact ⟨rfl, rfl⟩
  | angle => exact total_feed_angle rfl h rest
  | name chars => exact total_feed_name rfl h rest
  | count chars => exact total_feed_count rfl h rest
  | set => exact absurd hinside (by simp [Mode.inside?])

/-- Within a class, no group begins. -/
theorem keeps_feed {inside : SetReader} (hinside : reader.mode.inside? = some inside)
    (h : reader.feed lexeme = some reader') : reader.Keeps reader' := by
  rw [Mode.inside?_eq_some_iff] at hinside
  simp only [feed, hinside] at h
  split at h <;> cases h <;> exact ⟨rfl, rfl, rfl⟩

/-- An escape is no opening parenthesis, and it does not matter what stands behind it. -/
theorem total_feed_escape (hinside : reader.mode.inside? = none)
    (hescape : ∀ c, lexeme ≠ .plain c) (h : reader.feed lexeme = some reader')
    (rest ahead : List Char) :
    reader'.pending = reader.pending ∧ reader'.total rest = reader.total ('\\' :: ahead) := by
  obtain ⟨hpending, htotal⟩ := total_feed hinside h rest
  have hbefore : lexeme.before rest = '\\' :: rest := by
    cases lexeme with
    | plain c => exact absurd rfl (hescape c)
    | _ => rfl
  rw [Lexeme.opens_of_ne (hescape '('), hbefore] at htotal
  refine ⟨hpending, ?_⟩
  rw [htotal, total, total, Mode.owes_backslash reader.mode rest ahead]
  rfl

/-- The text ahead, with the backslash of an escape that is half read. -/
def ahead (reader : Reader) (source : List Char) : List Char :=
  if reader.pending = .nothing then source else '\\' :: source

end Reader

/-! ### Counting along with the strict reading -/

theorem countCaptures_cons {c : Char} (hc : c ≠ '\\') (inClass : Bool) (rest : List Char) :
    countCaptures inClass (c :: rest) =
      (!inClass && (Lexeme.plain c).opens rest).toNat +
        countCaptures (if c = '[' then true else if c = ']' then false else inClass) rest := by
  rw [countCaptures.eq_def]
  split
  case h_1 heq => cases heq
  case h_2 heq => cases heq; exact absurd rfl hc
  case h_3 heq => cases heq; simp [Lexeme.opens]
  case h_4 heq => cases heq; simp [Lexeme.opens]
  case h_5 heq =>
    cases heq
    cases inClass with
    | true => simp [Lexeme.opens]
    | false => cases hopens : opensCapture rest <;> simp [Lexeme.opens, hopens]
  case h_6 hopen hclose hgroup heq =>
    cases heq
    have hne (d : Char) (h : d = c → False) : c ≠ d := fun hd => h hd.symm
    simp_all [Lexeme.opens]

theorem countCaptures_of_not_heeds {c : Char} (hc : Scan.heeds c = false) (inClass : Bool)
    (rest : List Char) : countCaptures inClass (c :: rest) = countCaptures inClass rest := by
  simp only [Scan.heeds, List.contains_eq_mem, List.mem_cons, List.not_mem_nil, or_false,
    decide_eq_false_iff_not, not_or] at hc
  rw [countCaptures_cons hc.1]
  simp [Lexeme.opens, hc]

namespace Scan

/-- The number of groups that are still to be counted. -/
def count (source : List Char) : Scan → Nat
  | .outside _ => countCaptures false source
  | .escape _ => countCaptures false ('\\' :: source)
  | .inClass _ _ => countCaptures true source
  | .classEscape _ => countCaptures true ('\\' :: source)

variable {s : Scan} {c : Char} {depth : Nat}

theorem count_of_outside (hc : c ≠ '\\') (h : (outside depth).next c = some s)
    (rest : List Char) :
    s.count rest =
      countCaptures (if c = '[' then true else if c = ']' then false else false) rest := by
  simp only [next, if_neg hc] at h
  repeat' split at h
  all_goals cases h
  all_goals simp_all [count]

theorem count_of_inClass {part : ClassPart} (hc : c ≠ '\\')
    (h : (inClass part depth).next c = some s) (rest : List Char) :
    s.count rest =
      countCaptures (if c = '[' then true else if c = ']' then false else true) rest := by
  simp only [next, if_neg hc] at h
  repeat' split at h
  all_goals cases h
  all_goals simp_all [count]

end Scan

namespace Reader

variable {base : List (Level × GroupKind)} {depth : Nat} {reader reader' : Reader}

theorem ahead_of_pending (h : reader.pending ≠ .nothing) (source : List Char) :
    reader.ahead source = '\\' :: source := if_neg h

theorem total_withPending (reader : Reader) (pending : Pending) (ahead : List Char) :
    ({ reader with pending } : Reader).total ahead = reader.total ahead := rfl

/-- Outside of classes, a character that continues no escape. -/
theorem total_fresh (hinside : reader.mode.inside? = none) {c : Char}
    (hpending : reader.pending = (Pending.fresh c).2) {s : Scan}
    (hnext : (Scan.outside depth).next c = some s)
    (hfeed : (Pending.fresh c).1.foldlM feed reader = some reader') (rest : List Char) :
    reader'.total (reader'.ahead rest) + s.count rest =
      reader.total (c :: rest) + countCaptures false (c :: rest) := by
  unfold Pending.fresh at hpending hfeed
  by_cases hc : c = '\\'
  · subst hc
    cases hnext
    cases hfeed
    rw [ahead_of_pending (by simp [hpending])]
    rfl
  · rw [if_neg hc] at hpending hfeed
    rw [foldlM_feed_singleton] at hfeed
    obtain ⟨hpending', htotal⟩ := total_feed hinside hfeed rest
    rw [ahead, if_pos (hpending'.trans hpending), htotal, countCaptures_cons hc, Nat.add_assoc]
    rw [Scan.count_of_outside hc hnext]
    rfl

/-- Within a class, a character that continues no escape. -/
theorem total_fresh_inside {inside : SetReader} (hinside : reader.mode.inside? = some inside)
    {c : Char} {part : ClassPart} {s : Scan} (hnext : (Scan.inClass part depth).next c = some s)
    (hfeed : (Pending.fresh c).1.foldlM feed reader = some reader') (rest : List Char) :
    (∀ ahead, reader'.total ahead = reader.groups) ∧
      s.count rest = countCaptures true (c :: rest) := by
  unfold Pending.fresh at hfeed
  by_cases hc : c = '\\'
  · subst hc
    cases hnext
    cases hfeed
    have hopening : reader.mode.opening = 0 := by
      rw [Mode.inside?_eq_some_iff.mp hinside]
      rfl
    exact ⟨total_of_opening hopening, rfl⟩
  · rw [if_neg hc, foldlM_feed_singleton] at hfeed
    refine ⟨(keeps_feed hinside hfeed).total_eq, ?_⟩
    rw [Scan.count_of_inClass hc hnext, countCaptures_cons hc]
    simp

theorem total_backslash (reader : Reader) (a b : List Char) :
    reader.total ('\\' :: a) = reader.total ('\\' :: b) := by
  rw [total, total, Mode.owes_backslash reader.mode a b]

theorem step_of_nothing (hpending : reader.pending = .nothing) (c : Char) :
    reader.step c =
      (Pending.fresh c).1.foldlM feed { reader with pending := (Pending.fresh c).2 } := by
  simp only [step, hpending, Pending.next]

/-- Outside of classes, every character opens, owes and leaves to count the same in total. -/
theorem Within.total_step (h : reader.Within base depth none)
    (hpending : reader.pending ≠ .backslash) {c : Char} {s : Scan} (hnext : (Scan.outside depth).next c = some s)
    (hstep : reader.step c = some reader') (rest : List Char) :
    reader'.total (reader'.ahead rest) + s.count rest =
      reader.total (reader.ahead (c :: rest)) + (Scan.outside depth).count (c :: rest) := by
  by_cases hnothing : reader.pending = .nothing
  · rw [step_of_nothing hnothing] at hstep
    rw [total_fresh (by exact h.inside_eq) rfl hnext hstep, ahead, if_pos hnothing]
    rfl
  rw [ahead_of_pending hnothing]
  obtain ⟨hnothing', -⟩ | ⟨index, middle, hfeed, hfresh⟩ | ⟨-, hc, hescape⟩ :=
    step_cases hpending hstep
  · exact absurd hnothing' hnothing
  · -- A back-reference ends, and the character begins something else.
    have hwithin :=
      (h.withPending (Pending.fresh c).2).feed_other (by simp) (by simp) (by simp) hfeed
    obtain ⟨hpending', htotal⟩ :=
      total_feed_escape (by exact h.inside_eq) (by simp) hfeed (c :: rest) (c :: rest)
    rw [total_fresh hwithin.1.inside_eq hpending' hnext hfresh, htotal]
    rfl
  · rw [(Scan.next_of_not_heeds hc depth).1] at hnext
    cases hnext
    have hcount : (Scan.outside depth).count (c :: rest) = (Scan.outside depth).count rest :=
      countCaptures_of_not_heeds hc false rest
    rw [hcount]
    obtain ⟨later, hlater, -, rfl⟩ | ⟨d, hfeed⟩ := hescape
    · rw [ahead_of_pending (by exact hlater), total_withPending, total_backslash reader rest]
    · obtain ⟨hpending', htotal⟩ :=
        total_feed_escape (by exact h.inside_eq) (by simp) hfeed rest (c :: rest)
      rw [ahead, if_pos hpending', htotal]
      rfl

/-- Within a class, nothing is opened or owed. -/
theorem Within.total_step_inside {inside : SetReader} (h : reader.Within base depth (some inside))
    {part : ClassPart} (hpending : reader.pending ≠ .backslash) {c : Char} {s : Scan}
    (hnext : (Scan.inClass part depth).next c = some s)
    (hstep : reader.step c = some reader') (rest : List Char) :
    reader'.total (reader'.ahead rest) + s.count rest =
      reader.total (reader.ahead (c :: rest)) + (Scan.inClass part depth).count (c :: rest) := by
  have hopening : reader.mode.opening = 0 := by
    rw [Mode.inside?_eq_some_iff.mp h.inside_eq]
    rfl
  rw [total_of_opening hopening]
  obtain ⟨hnothing, hfresh⟩ | ⟨index, middle, hfeed, -⟩ | ⟨hsome, hc, hescape⟩ :=
    step_cases hpending hstep
  · obtain ⟨htotal, hcount⟩ := total_fresh_inside (by exact h.inside_eq) hnext hfresh rest
    rw [htotal, hcount]
    rfl
  · have hmode := Mode.inside?_eq_some_iff.mp h.inside_eq
    have hnone : ({ reader with pending := (Pending.fresh c).2 } : Reader).feed (.ref index) =
        none := feed_eq_none (.inr ⟨inside, index, hmode, rfl⟩)
    exact absurd (hfeed.symm.trans hnone) (by simp)
  · have hcount : s.count rest = (Scan.inClass part depth).count (c :: rest) := by
      have hne {d : Char} (hd : Scan.heeds d = true) : c ≠ d := by
        rintro rfl
        exact absurd hc (by simp [hd])
      rw [Scan.count_of_inClass (hne (by decide)) hnext, if_neg (hne (by decide)),
        if_neg (hne (by decide)), ← countCaptures_of_not_heeds hc]
      rfl
    rw [hcount]
    obtain ⟨later, -, -, rfl⟩ | ⟨d, hfeed⟩ := hescape
    · rw [total_withPending, total_of_opening hopening]
    · rw [(keeps_feed (by exact h.inside_eq) hfeed).total_eq]

end Reader

theorem ClassPart.Fits.pending_ne {pending : Pending} {mode : SetMode} {part : ClassPart}
    (h : part.Fits pending mode) : pending ≠ .backslash := by
  cases part with
  | opened | negated => simp [h.1]
  | inside => exact h.1

namespace Scan

variable {base : List (Level × GroupKind)} {s s' : Scan} {reader reader' : Reader}

/-- What is opened, owed and left to count stays the same with every character. -/
theorem Tracks.total_step (h : s.Tracks base reader) {c : Char} (hnext : s.next c = some s')
    (hstep : reader.step c = some reader') (rest : List Char) :
    reader'.total (reader'.ahead rest) + s'.count rest =
      reader.total (reader.ahead (c :: rest)) + s.count (c :: rest) := by
  cases s with
  | outside depth => exact h.2.total_step h.1 hnext hstep rest
  | inClass part depth =>
    obtain ⟨inside, -, hfits, hwithin⟩ := h
    exact hwithin.total_step_inside hfits.pending_ne hnext hstep rest
  | escape depth =>
    obtain ⟨hpending, hwithin⟩ := h
    cases hnext
    have hcount : (escape depth).count (c :: rest) = (outside depth).count rest := rfl
    have hahead : reader.ahead (c :: rest) = '\\' :: c :: rest :=
      Reader.ahead_of_pending (by simp [hpending]) _
    rw [hcount, hahead]
    obtain ⟨later, hlater, -, rfl⟩ | hfeed := Reader.step_backslash hpending hstep
    · rw [Reader.ahead_of_pending (by exact hlater), Reader.total_withPending,
        Reader.total_backslash reader rest]
    · obtain ⟨hpending', htotal⟩ := Reader.total_feed_escape (by exact hwithin.inside_eq)
        (Lexeme.ofEscape_ne_plain c) hfeed rest (c :: rest)
      rw [Reader.ahead, if_pos hpending', htotal]
      rfl
  | classEscape depth =>
    obtain ⟨hpending, inside, -, hwithin⟩ := h
    cases hnext
    have hcount : (classEscape depth).count (c :: rest) = (inClass .inside depth).count rest := rfl
    have hopening : reader.mode.opening = 0 := by
      rw [Mode.inside?_eq_some_iff.mp hwithin.inside_eq]
      rfl
    rw [hcount, Reader.total_of_opening hopening]
    obtain ⟨later, -, -, rfl⟩ | hfeed := Reader.step_backslash hpending hstep
    · rw [Reader.total_withPending, Reader.total_of_opening hopening]
    · rw [(Reader.keeps_feed (by exact hwithin.inside_eq) hfeed).total_eq]

/-- Over a whole source, what has been counted at its end is what there was to count. -/
theorem Tracks.total_read {source : List Char} (h : s.Tracks base reader)
    (hscan : scan s source = some s') (hread : reader.read source = some reader') :
    reader'.total (reader'.ahead []) + s'.count [] =
      reader.total (reader.ahead source) + s.count source := by
  induction source generalizing s reader with
  | nil =>
    cases hscan
    cases hread
    rfl
  | cons c source ih =>
    rw [scan_cons, Option.bind_eq_some_iff] at hscan
    obtain ⟨middle, hnext, hscan⟩ := hscan
    rw [Reader.read, List.foldlM_cons, Option.bind_eq_bind, Option.bind_eq_some_iff] at hread
    obtain ⟨reader₁, hstep, hread⟩ := hread
    rw [ih (h.step hnext hstep) hscan hread, h.total_step hnext hstep]

end Scan

/-- Between places where no group is half opened, the reader opens as many capturing groups as the
source has by count. -/
theorem Reader.groups_read {base : List (Level × GroupKind)} {m n : Nat} {source : List Char}
    {reader reader' : Reader} (h : (Scan.outside m).Tracks base reader)
    (hscan : scan (.outside m) source = some (.outside n))
    (hread : reader.read source = some reader') (hopening : reader.mode.opening = 0)
    (hopening' : reader'.mode.opening = 0) :
    reader'.groups = reader.groups + captureCount source := by
  have htotal := h.total_read hscan hread
  rwa [total_of_opening hopening, total_of_opening hopening'] at htotal

/-! ### Between anchors -/

namespace Reader

variable {reader reader' : Reader}

theorem Within.opening_eq_zero {base : List (Level × GroupKind)} {inside : Option SetReader}
    (h : reader.Within base 0 inside) : reader.mode.opening = 0 := by
  have hlength := h.suffix.length_le
  have hdepth := h.depth_eq
  omega

/-- The end of a source opens no group. -/
theorem groups_atEnd (h : (Scan.outside 0).Tracks [] reader) (hend : reader.atEnd = some reader') :
    reader'.groups = reader.groups := by
  obtain ⟨hpending, hwithin⟩ := h
  obtain ⟨last, hlast, hend⟩ := Option.bind_eq_some_iff.mp hend
  have hgroups : last.groups = reader.groups := by
    cases hcase : reader.pending with
    | nothing =>
      rw [hcase] at hlast
      cases hlast
      rfl
    | backslash => exact absurd hcase hpending
    | hex | hexDigit =>
      rw [hcase] at hlast
      have hbad := (foldlM_feed_singleton _ .bad).symm.trans hlast
      rw [feed_eq_none (.inl rfl)] at hbad
      exact absurd hbad (by simp)
    | ref index =>
      rw [hcase, Pending.atEnd, foldlM_feed_singleton] at hlast
      have hother := (hwithin.withPending .nothing).feed_other (by simp) (by simp) (by simp) hlast
      have htotal := (total_feed_escape (by exact hwithin.inside_eq) (by simp) hlast [] []).2
      rwa [total_of_opening hother.1.opening_eq_zero, total_withPending,
        total_of_opening hwithin.opening_eq_zero] at htotal
  rw [← hgroups]
  split at hend
  · split at hend <;> cases hend
    rfl
  · split at hend <;> cases hend
    rfl
  · cases hend

/-- A neutral source keeps its number of groups between texts that open and close others without
capturing. -/
theorem groups_framed {before output after : List Char} {opened : Reader} {k : Nat}
    (hneutral : Neutral output) (hbefore : Moves 0 k before) (hafter : Moves k 0 after)
    (hcount : captureCount after = 0) (hopen : ({} : Reader).read before = some opened)
    (hrests : opened.Rests opened.level opened.outer) (hgroups : opened.groups = 0)
    (hread : ({} : Reader).read (before ++ output ++ after) = some reader)
    (hend : reader.atEnd = some reader') : reader'.groups = captureCount output := by
  rw [read_append, read_append, hopen, Option.bind_some, Option.bind_eq_some_iff] at hread
  obtain ⟨inner, houtput, hread⟩ := hread
  have hbegin : (Scan.outside 0).Tracks [] {} := ⟨by simp, List.suffix_refl _, rfl, rfl⟩
  have htracks : (Scan.outside k).Tracks [] opened := hbegin.read (moves_iff.mp hbefore) hopen
  have hmoves := moves_iff.mp (hneutral.moves k)
  -- Within the groups that are open around it, the source leaves none half open.
  have hinner : inner.mode.opening = 0 :=
    (hrests.tracks.read (hneutral 0) houtput).2.opening_eq_zero
  have hopened : opened.mode.opening = 0 := by
    rw [hrests.mode_eq]
    rfl
  have htracks' := htracks.read hmoves houtput
  have hdone := htracks'.read (moves_iff.mp hafter) hread
  rw [groups_atEnd hdone hend,
    groups_read htracks' (moves_iff.mp hafter) hread hinner hdone.2.opening_eq_zero, hcount,
    groups_read htracks hmoves houtput hopened hinner, hgroups, Nat.zero_add, Nat.add_zero]

end Reader

end PathGlob.Regex

namespace PathGlob

open Regex

/-- What stands before the translation in a source. -/
def sourceBefore (negated contains : Bool) : List Char :=
  (if negated then ['^', '(', '?', '!'] else []) ++ (if contains then [] else ['^']) ++
    ['(', '?', ':']

/-- What stands after the translation in a source. -/
def sourceAfter (negated contains : Bool) : List Char :=
  [')'] ++ (if contains then [] else ['$']) ++ (if negated then [')', '.', '*', '$'] else [])

theorem sourceOf_eq (translation : Pattern.Translation) (options : Options) :
    sourceOf translation options =
      let negated := translation.negated && !options.noNegate
      let body := sourceBefore negated options.contains ++ translation.output ++
        sourceAfter negated options.contains
      if options.noCase then ['(', '?', 'i', ')'] ++ body else body := by
  unfold sourceOf sourceBefore sourceAfter
  cases options.contains <;> cases translation.negated && !options.noNegate <;> simp

/-- A translation that closes what it opens keeps its number of groups in the whole source. -/
theorem groups_of_ofSource? {translation : Pattern.Translation} {options : Options}
    (hneutral : Neutral translation.output) {program : Program}
    (h : Program.ofSource? (sourceOf translation options) = some program) :
    program.groups = translation.captureGroups := by
  obtain ⟨source, hsource, haccepted⟩ := Option.bind_eq_some_iff.mp h
  split at haccepted
  case isFalse => exact absurd haccepted (by simp)
  cases haccepted
  show source.groups = _
  rw [sourceOf_eq] at hsource
  dsimp only at hsource
  generalize (translation.negated && !options.noNegate) = negated, options.contains = contains
    at hsource
  have hplain : Text.after? ['(', '?', 'i', ')'] (sourceBefore negated contains ++
      translation.output ++ sourceAfter negated contains) = none := by
    cases negated <;> cases contains <;> rfl
  obtain ⟨-, reader, reader', hread, hend, -, hgroups⟩ := Source.exists_read hplain hsource
  rw [hgroups]
  -- Each group that is opened before the translation is closed after it.
  obtain ⟨k, opened, hbefore, hafter, hcount, hopen, hrests, hopened⟩ : ∃ k opened,
      Moves 0 k (sourceBefore negated contains) ∧ Moves k 0 (sourceAfter negated contains) ∧
      captureCount (sourceAfter negated contains) = 0 ∧
      ({} : Reader).read (sourceBefore negated contains) = some opened ∧
      opened.Rests opened.level opened.outer ∧ opened.groups = 0 := by
    refine ⟨1 + negated.toNat, ?_⟩
    cases negated <;> cases contains <;>
      exact ⟨_, by decide, by decide, by decide, rfl, ⟨rfl, rfl, rfl, rfl⟩, rfl⟩
  exact Reader.groups_framed hneutral hbefore hafter hcount hopen hrests hopened hread hend

end PathGlob
