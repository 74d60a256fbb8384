import PathGlob.Proofs.Scan.Closing

/-!
# `PathGlob.Proofs.Scan.Run`: what the scanner does on its way

A step reads some characters (`Scanner.Reads`) and does one of five things besides
(`Scanner.Change`): nothing, dropping a leading `./`, noting a separator, negating, or reporting a
construct (`Scanner.steps_step`). It leaves no character out: what it has read stands before the
text that is left.

`Scanner.finish` is the pass from a state to its end. It takes one step after the other for as long
as constructs count, and whatever each step keeps holds at the end (`Scanner.finish_induction`).
-/

set_option autoImplicit false

namespace PathGlob.Scan

/-! ### One step -/

/-- The constructs that the scanner reports. -/
inductive Construct where
  | group
  | stars
  | globstar
  | question
  | bracket
  | brace
  deriving DecidableEq

/-- The text begins with the construct. -/
def Construct.Begins : Construct → List Char → Prop
  | .group, text => ∃ c rest, c ∈ ['!', '@', '*', '+', '?'] ∧ text = c :: '(' :: rest
  | .stars, text => text.head? = some '*'
  | .globstar, text => ∃ rest, text = '*' :: '*' :: rest
  | .question, text => text.head? = some '?'
  | .bracket, text => text.head? = some '['
  | .brace, text => text.head? = some '{'

/-- A character that may separate segments. -/
def IsSeparator (windows : Bool) (c : Char) : Prop := c = '/' ∨ c = '\\' ∧ windows = true

theorem IsSeparator.of_separates {windows : Bool} {c : Char} {next : Option Char}
    (h : separates windows c next = true) : IsSeparator windows c := by
  simp only [separates, escapes, Bool.or_eq_true, Bool.and_eq_true, decide_eq_true_iff] at h
  refine h.imp_right fun ⟨hc, hescapes⟩ => ⟨hc, ?_⟩
  cases windows with
  | false => simp at hescapes
  | true => rfl

namespace Scanner

/-- The second state stands behind the first one, with some characters between them. -/
structure Moves (s s' : Scanner) (taken : List Char) : Prop where
  rest : s.rest = taken ++ s'.rest
  index : s'.index = s.index + taken.length
  previous : s'.previous = taken.getLast?.or s.previous

theorem Moves.rest_eq {s ahead : Scanner} {c : Char} {rest : List Char}
    (h : s.Moves ahead [c]) (hrest : s.rest = c :: rest) : ahead.rest = rest :=
  (List.cons.inj (h.rest.symm.trans hrest)).2

/-- Over one character. -/
theorem Moves.index_eq_succ {s s' : Scanner} {taken : List Char} {c : Char} (h : s.Moves s' taken)
    (hrest : s.rest = c :: s'.rest) : s'.index = s.index + 1 := by
  have hlength := congrArg List.length (h.rest.symm.trans hrest)
  rw [List.length_append, List.length_cons] at hlength
  have := h.index
  omega

@[simp] theorem rest_past (s : Scanner) (chars rest : List Char) :
    (s.past chars rest).rest = rest := rfl

@[simp] theorem rest_mark (s : Scanner) (place : Nat) : (s.mark place).rest = s.rest := rfl

theorem extglob_eq (s : Scanner) (c : Char) (place : Nat) :
    s.extglob c place =
      ((({ s with
          negatedExtglob := s.negatedExtglob || (c = '!' && place = s.start)
          isExtglob := true }).mark place).noteEscapes (closeNested '(' ')' 0 s.rest)).pastClosed
        (closeNested '(' ')' 0 s.rest) := rfl

/-- Two stars are a segment of their own, where the first one is behind and the text ahead. -/
def standsAlone (windows atStart : Bool) : List Char → Bool
  | '*' :: [] => atStart
  | '*' :: c :: rest => atStart && separates windows c rest.head?
  | _ => false

theorem star_eq (s : Scanner) (options : Options) (place : Nat) (previous : Option Char) :
    s.star options place previous =
      ({ s with
          isGlobstar := s.isGlobstar || (standsAlone options.windows (place = s.start ||
            previous.any fun c => separates options.windows c (some '*')) s.rest &&
              s.counts options) }.mark place).past (s.rest.takeWhile (· = '*'))
        (s.rest.dropWhile (· = '*')) := rfl

theorem bracket_eq (s : Scanner) (options : Options) (place : Nat) :
    s.bracket options place =
      if (closeClass s.rest).isNone then s.noteEscapes (closeClass s.rest)
      else ({ s.noteEscapes (closeClass s.rest) with
          isBracket := s.isBracket || s.counts options }.mark
        place).pastClosed (closeClass s.rest) := rfl

theorem brace_eq (s : Scanner) (options : Options) (place : Nat) :
    s.brace options place =
      (if hasAlternatives ((closeNested '{' '}' 1 s.rest).inside s.rest) then
        { s.noteEscapes (closeNested '{' '}' 1 s.rest) with
          isBrace := s.isBrace || s.counts options }.mark
        place
      else s.noteEscapes (closeNested '{' '}' 1 s.rest)).pastClosed (closeNested '{' '}' 1 s.rest) :=
  rfl

/-- The first state moved to where the second one stands, whatever escapes are met on the way. -/
def movedTo (s s' : Scanner) : Scanner :=
  { s with rest := s'.rest, index := s'.index, previous := s'.previous, hasEscapes := s'.hasEscapes }

/-- Moving on changes no place that is kept. -/
theorem places_of_movedTo {s s' : Scanner} (eq : s' = s.movedTo s') :
    s'.start = s.start ∧ s'.lastSeparator = s.lastSeparator ∧ s'.first = s.first :=
  ⟨by rw [eq]; rfl, by rw [eq]; rfl, by rw [eq]; rfl⟩

/-- A construct is reported where the scanner stands. -/
def report (s : Scanner) : Construct → Scanner
  | .group => { s.mark s.index with
      isExtglob := true
      negatedExtglob := s.negatedExtglob || (s.rest.head? = some '!' && s.index = s.start) }
  | .stars => s.mark s.index
  | .globstar => { s.mark s.index with isGlobstar := true }
  | .question => s.mark s.index
  | .bracket => { s.mark s.index with isBracket := true }
  | .brace => { s.mark s.index with isBrace := true }

section
variable (s : Scanner) (kind : Construct)

theorem start_report : (s.report kind).start = s.start := by cases kind <;> rfl

theorem lastSeparator_report : (s.report kind).lastSeparator = s.lastSeparator := by
  cases kind <;> rfl

theorem first_report : (s.report kind).first = s.first.or (some s.index) := by cases kind <;> rfl

end

/-- The scanner has read the first of two texts and stands before the second one. -/
structure Behind (input done : List Char) (s : Scanner) : Prop where
  input : input = done ++ s.rest
  index : s.index = done.length
  previous : s.previous = done.getLast?

theorem Behind.moves {input done taken : List Char} {s s' : Scanner} (h : Behind input done s)
    (hmoves : s.Moves s' taken) : Behind input (done ++ taken) s' where
  input := by rw [h.input, hmoves.rest, List.append_assoc]
  index := by rw [hmoves.index, h.index, List.length_append]
  previous := by rw [hmoves.previous, h.previous, List.getLast?_append]

/-- What a step does besides moving on. -/
inductive Change (windows : Bool) (s s' : Scanner) : Prop
  | none (eq : s' = s.movedTo s')
  /-- A leading `./` is dropped. -/
  | drop (first : s.first = Option.none) (index : s'.index = s.start + 2)
    (eq : s' = { s with start := s.start + 2 }.movedTo s')
  /-- A separator before the first construct. -/
  | separator (first : s.first = Option.none)
    (rest : ∃ c, IsSeparator windows c ∧ s.rest = c :: s'.rest)
    (eq : s' = { s with lastSeparator := s'.index }.movedTo s')
  /-- An exclamation mark that negates. -/
  | negation (first : s.first = Option.none) (index : s'.index = s.start + 1)
    (eq : s' = { s with start := s.start + 1, negated := true }.movedTo s')
  | construct (kind : Construct) (begins : kind.Begins s.rest)
    (eq : s' = (s.report kind).movedTo s')

/-- The characters that a step reads: none of its backslashes is torn from the character that it
escapes, and they are noted. A backslash that escapes nothing may stand alone. -/
structure Reads (windows : Bool) (s s' : Scanner) (taken : List Char) : Prop
    extends s.Moves s' taken where
  ne_nil : taken ≠ []
  paired : Paired false taken ∨
    taken = ['\\'] ∧ ∀ d, s'.rest.head? = some d → escapes windows (some d) = false
  noted : Paired false taken → '\\' ∈ taken → s'.hasEscapes = true
  kept : s.hasEscapes = true → s'.hasEscapes = true

/-- A step reads on and changes at most one thing. -/
structure Steps (windows : Bool) (s s' : Scanner) : Prop where
  reads : ∃ taken, s.Reads windows s' taken
  change : s.Change windows s'

variable {windows : Bool} {options : Options} {s s' : Scanner}

theorem Moves.past {taken chars more : List Char} (h : s.Moves s' taken)
    (hrest : s'.rest = chars ++ more) : s.Moves (s'.past chars more) (taken ++ chars) where
  rest := by
    rw [h.rest, hrest, List.append_assoc]
    rfl
  index := by
    rw [List.length_append, ← Nat.add_assoc, ← h.index]
    rfl
  previous := by
    rw [List.getLast?_append, Option.or_assoc, ← h.previous]
    rfl

/-- A character that is no backslash. -/
theorem reads_one {c : Char} (hc : c ≠ '\\') (hmoves : s.Moves s' [c])
    (hkept : s.hasEscapes = true → s'.hasEscapes = true) : s.Reads windows s' [c] where
  toMoves := hmoves
  ne_nil := List.cons_ne_nil c []
  paired := .inl (.cons hc .nil)
  noted := fun _ hmem => absurd (List.mem_singleton.mp hmem).symm hc
  kept := hkept

section
variable {c : Char} {rest : List Char} (hrest : s.rest = c :: rest)
include hrest

theorem moves_ahead : s.Moves (s.past [c] rest) [c] := ⟨hrest, rfl, rfl⟩

theorem steps_ahead (hc : c ≠ '\\') : s.Steps windows (s.past [c] rest) :=
  ⟨⟨[c], reads_one hc (moves_ahead hrest) id⟩, .none rfl⟩

/-- A delimiter and what is closed behind it. Backslashes there are noted before. -/
theorem reads_closed {ahead : Scanner} {closed : Closed} (hc : c ≠ '\\')
    (hclosed : closed.Cuts rest) (hmoves : s.Moves ahead [c])
    (hnoted : ahead.hasEscapes = (s.hasEscapes || (closed.inside rest).contains '\\')) :
    ∃ taken, s.Reads windows (ahead.pastClosed closed) taken := by
  have hkept : s.hasEscapes = true → ahead.hasEscapes = true := fun h => by rw [hnoted, h]; rfl
  rcases closed with _ | ⟨inside, more⟩
  · exact ⟨[c], reads_one hc hmoves hkept⟩
  · obtain ⟨rfl, hpaired⟩ := hclosed _ rfl
    refine ⟨[c] ++ inside, hmoves.past (hmoves.rest_eq hrest), by simp, .inl (.cons hc hpaired), ?_,
      hkept⟩
    intro _ hmem
    have hinside : '\\' ∈ inside := (List.mem_cons.mp hmem).resolve_left hc.symm
    exact hnoted.trans (by simp [Closed.inside, hinside])

theorem steps_separator (hseparates : separates windows c rest.head? = true) :
    s.Steps windows ((s.past [c] rest).separator s.index s.previous) := by
  have hc : IsSeparator windows c := .of_separates hseparates
  -- A backslash that separates escapes nothing.
  have hreads {s' : Scanner} (hmoves : s.Moves s' [c]) (heq : s'.hasEscapes = s.hasEscapes) :
      ∃ taken, s.Reads windows s' taken := by
    refine ⟨[c], ?_⟩
    by_cases hbackslash : c = '\\'
    · subst hbackslash
      have hfree : escapes windows rest.head? = false := by simpa [separates] using hseparates
      refine ⟨hmoves, by simp, .inr ⟨rfl, fun d hd => ?_⟩,
        fun hpaired => absurd hpaired not_paired_backslash, fun h => heq.trans h⟩
      rwa [← hd, hmoves.rest_eq hrest]
    · exact reads_one hbackslash hmoves fun h => heq.trans h
  have hmoves := moves_ahead hrest
  unfold separator
  split
  case isTrue => exact ⟨hreads hmoves rfl, .none rfl⟩
  case isFalse hfirst =>
    have hfirst : s.first = none := Option.not_isSome_iff_eq_none.mp hfirst
    split
    case isTrue hdot =>
      simp only [Bool.and_eq_true, decide_eq_true_iff] at hdot
      have hindex : s.index + 1 = s.start + 2 := congrArg Nat.succ hdot.1
      exact ⟨hreads ⟨hrest, rfl, rfl⟩ rfl, .drop hfirst hindex rfl⟩
    case isFalse => exact ⟨hreads ⟨hrest, rfl, rfl⟩ rfl, .separator hfirst ⟨c, hc, hrest⟩ rfl⟩

theorem steps_extglob (hc : c ∈ ['!', '@', '*', '+', '?']) (hnext : rest.head? = some '(') :
    s.Steps windows ((s.past [c] rest).extglob c s.index) := by
  have hbackslash : c ≠ '\\' := by
    rintro rfl
    revert hc
    decide
  obtain ⟨more, rfl⟩ := List.head?_eq_some_iff.mp hnext
  have hcuts := cuts_closeNested '(' ')' 0 ('(' :: more)
  rw [extglob_eq, rest_past]
  refine ⟨reads_closed hrest hbackslash hcuts (by exact ⟨hrest, rfl, rfl⟩) rfl,
    .construct .group ⟨c, more, hc, hrest⟩ ?_⟩
  unfold pastClosed
  split <;> simp [report, movedTo, mark, noteEscapes, past, hrest]

theorem steps_star (hcounts : s.counts options = true) (hc : c = '*') :
    s.Steps windows ((s.past [c] rest).star options s.index s.previous) := by
  subst hc
  have hstars : '\\' ∉ '*' :: rest.takeWhile (· = '*') := by
    rintro (_ | ⟨_, hmem⟩)
    simpa using List.all_eq_true.mp List.all_takeWhile _ hmem
  -- Two stars are told from one only if the second one is there.
  have hchange : ∀ alone : Bool, (alone = true → Construct.globstar.Begins s.rest) →
      s.Change windows (({ s.past ['*'] rest with isGlobstar := s.isGlobstar || alone }.mark
        s.index).past (rest.takeWhile (· = '*')) (rest.dropWhile (· = '*'))) := by
    intro alone halone
    cases alone with
    | false => exact .construct .stars (by rw [Construct.Begins, hrest]; rfl) (by
        simp [report, movedTo, mark, past])
    | true => exact .construct .globstar (halone rfl) (by simp [report, movedTo, mark, past])
  have hcounts : (s.past ['*'] rest).counts options = true := hcounts
  rw [star_eq, rest_past, hcounts, Bool.and_true]
  refine ⟨⟨['*'] ++ rest.takeWhile (· = '*'), ?_, by simp, .inl (paired_of_not_mem hstars),
    fun _ hmem => absurd hmem hstars, id⟩, hchange _ fun halone => ?_⟩
  · exact Moves.past ⟨hrest, rfl, rfl⟩ List.takeWhile_append_dropWhile.symm
  · unfold standsAlone at halone
    split at halone
    case h_1 h => exact ⟨_, hrest⟩
    case h_2 h => exact ⟨_, hrest⟩
    case h_3 => cases halone

theorem steps_bracket (hcounts : s.counts options = true) (hc : c = '[') :
    s.Steps windows ((s.past [c] rest).bracket options s.index) := by
  subst hc
  have hcounts : (s.past ['['] rest).counts options = true := hcounts
  have hbackslash : '[' ≠ '\\' := by decide
  rw [bracket_eq, rest_past, hcounts, Bool.or_true]
  split
  case isTrue =>
    refine ⟨⟨['['], reads_one hbackslash ⟨hrest, rfl, rfl⟩ fun h => ?_⟩, .none rfl⟩
    exact (Bool.or_eq_true _ _).mpr (.inl h)
  case isFalse =>
    refine ⟨reads_closed hrest hbackslash (cuts_closeClass rest) (by exact ⟨hrest, rfl, rfl⟩) rfl,
      .construct .bracket (by rw [Construct.Begins, hrest]; rfl) ?_⟩
    unfold pastClosed
    split <;> rfl

theorem steps_brace (hcounts : s.counts options = true) (hc : c = '{') :
    s.Steps windows ((s.past [c] rest).brace options s.index) := by
  subst hc
  have hcounts : (s.past ['{'] rest).counts options = true := hcounts
  have hcuts := cuts_closeNested '{' '}' 1 rest
  rw [brace_eq, rest_past, hcounts, Bool.or_true]
  split
  case isTrue =>
    refine ⟨reads_closed hrest (by decide) hcuts (by exact ⟨hrest, rfl, rfl⟩) rfl,
      .construct .brace (by rw [Construct.Begins, hrest]; rfl) ?_⟩
    unfold pastClosed
    split <;> rfl
  case isFalse =>
    refine ⟨reads_closed hrest (by decide) hcuts (by exact ⟨hrest, rfl, rfl⟩) rfl, .none ?_⟩
    unfold pastClosed
    split <;> rfl

/-- What a step can do. -/
theorem steps_step (hcounts : s.counts options = true) :
    s.Steps options.windows (s.step options c rest) := by
  unfold step
  dsimp only
  split
  case isTrue hescapes =>
    simp only [Bool.and_eq_true, decide_eq_true_iff] at hescapes
    obtain ⟨rfl, -⟩ := hescapes
    cases rest with
    | nil =>
      exact ⟨⟨['\\'], ⟨hrest, rfl, rfl⟩, by simp, .inr ⟨rfl, nofun⟩, fun _ _ => rfl, fun _ => rfl⟩,
        .none rfl⟩
    | cons d more =>
      exact ⟨⟨['\\', d], ⟨hrest, rfl, rfl⟩, by simp, .inl (.pair rfl .nil), fun _ _ => rfl,
        fun _ => rfl⟩, .none rfl⟩
  case isFalse hescapes =>
  split
  case isTrue hseparates => exact steps_separator hrest hseparates
  case isFalse hseparates =>
  have hc : c ≠ '\\' := by
    rintro rfl
    simp_all [separates]
  split
  case isTrue hgroup =>
    simp only [Bool.and_eq_true, decide_eq_true_iff] at hgroup
    exact steps_extglob hrest (List.contains_iff_mem.mp hgroup.1.2) hgroup.2
  case isFalse =>
  split
  case isTrue hstar => exact steps_star hrest hcounts hstar
  case isFalse =>
  split
  case isTrue hquestion =>
    refine ⟨⟨[c], reads_one hc ⟨hrest, rfl, rfl⟩ id⟩, .construct .question ?_ rfl⟩
    rw [Construct.Begins, hrest, hquestion]
    rfl
  case isFalse =>
  split
  case isTrue hbracket =>
    simp only [Bool.and_eq_true, decide_eq_true_iff] at hbracket
    exact steps_bracket hrest hcounts hbracket.1
  case isFalse =>
  split
  case isTrue hbrace =>
    simp only [Bool.and_eq_true, decide_eq_true_iff] at hbrace
    exact steps_brace hrest hcounts hbrace.1
  case isFalse =>
  split
  case isTrue hnegates =>
    simp only [Bool.and_eq_true, decide_eq_true_iff, Option.isNone_iff_eq_none] at hnegates
    exact ⟨⟨[c], reads_one hc ⟨hrest, rfl, rfl⟩ id⟩,
      .negation hnegates.2 (congrArg Nat.succ hnegates.1.2) rfl⟩
  case isFalse => exact steps_ahead hrest hc

end

/-! ### The whole pass -/

/-- The pass from a state to its end. -/
def finish (options : Options) (s : Scanner) : Scanner := run options s.rest.length s

/-- The pass over a text. -/
def pass (options : Options) (input : List Char) : Scanner := finish options { rest := input }

/-- What a scan reports of the state that the pass ends in. -/
def result (s : Scanner) (input : List Char) (options : Options) : Result :=
  let whole := input.drop s.start
  let split := if s.first.isSome then s.lastSeparator - s.start else whole.length
  let clean (text : List Char) := if options.unescape && s.hasEscapes then unescape text else text
  { input
    lead := input.take s.start
    base := clean (trimBase options.windows (whole.take split) whole)
    glob := clean (whole.drop split)
    start := Text.byteSize (match s.first with
      | some place => input.take place
      | none => input)
    isGlob := s.first.isSome
    isBrace := s.isBrace
    isBracket := s.isBracket
    isExtglob := s.isExtglob
    isGlobstar := s.isGlobstar
    negated := s.negated
    negatedExtglob := s.negatedExtglob
    parts := if options.parts then some (Scan.parts options.windows whole) else none }

theorem scan_eq_result (input : List Char) (options : Options) :
    scan input options = (pass options input).result input options := rfl

/-- A step leaves less to read. -/
theorem Steps.length_rest_lt (h : s.Steps windows s') : s'.rest.length < s.rest.length := by
  obtain ⟨⟨taken, htaken⟩, -⟩ := h
  have := List.length_pos_iff.mpr htaken.ne_nil
  rw [htaken.rest, List.length_append]
  omega

/-- A bound that is large enough changes nothing. -/
theorem run_of_le (options : Options) {n m : Nat} {s : Scanner} (hn : s.rest.length ≤ n)
    (hm : s.rest.length ≤ m) : run options n s = run options m s := by
  induction n generalizing m s with
  | zero =>
    have hnil : s.rest = [] := List.length_eq_zero_iff.mp (Nat.le_zero.mp hn)
    cases m with
    | zero => rfl
    | succ m => simp [run, hnil]
  | succ n ih =>
    cases hrest : s.rest with
    | nil => cases m <;> simp [run, hrest]
    | cons c rest =>
      cases m with
      | zero => simp [hrest] at hm
      | succ m =>
        simp only [run, hrest]
        split
        case isTrue hcounts =>
          have hlt := (steps_step hrest hcounts).length_rest_lt
          exact ih (by omega) (by omega)
        case isFalse => rfl

theorem finish_of_counts {c : Char} {rest : List Char} (hrest : s.rest = c :: rest)
    (hcounts : s.counts options = true) :
    finish options s = finish options (s.step options c rest) := by
  have hlt := (steps_step hrest hcounts).length_rest_lt
  have hrun : finish options s = run options rest.length (s.step options c rest) := by
    simp [finish, hrest, run, hcounts]
  rw [hrest, List.length_cons] at hlt
  rw [hrun, finish, run_of_le options (by omega) (Nat.le_refl _)]

theorem finish_of_not_counts (hcounts : s.counts options = false) : finish options s = s := by
  rw [finish]
  cases hrest : s.rest with
  | nil => rfl
  | cons c rest => simp [run, hrest, hcounts]

theorem finish_of_nil (hrest : s.rest = []) : finish options s = s := by
  simp [finish, hrest, run]

/-- What every step keeps holds at the end. -/
theorem finish_induction {motive : Scanner → Prop}
    (step : ∀ s c rest, s.rest = c :: rest → s.counts options = true →
      s.Steps options.windows (s.step options c rest) → motive s →
        motive (s.step options c rest))
    (h : motive s) : motive (finish options s) := by
  induction hn : s.rest.length using Nat.strongRecOn generalizing s with
  | ind n ih =>
    cases hrest : s.rest with
    | nil => rwa [finish_of_nil hrest]
    | cons c rest =>
      cases hcounts : s.counts options with
      | false => rwa [finish_of_not_counts hcounts]
      | true =>
        have hsteps := steps_step hrest hcounts
        rw [finish_of_counts hrest hcounts]
        exact ih _ (hn ▸ hsteps.length_rest_lt) (step s c rest hrest hcounts hsteps h) rfl

/-- The pass ends where nothing is left or nothing counts. -/
theorem rest_or_not_counts_finish (options : Options) (s : Scanner) :
    (finish options s).rest = [] ∨ (finish options s).counts options = false := by
  induction hn : s.rest.length using Nat.strongRecOn generalizing s with
  | ind n ih =>
    cases hrest : s.rest with
    | nil => exact .inl (by rwa [finish_of_nil hrest])
    | cons c rest =>
      cases hcounts : s.counts options with
      | false => exact .inr (by rwa [finish_of_not_counts hcounts])
      | true =>
        rw [finish_of_counts hrest hcounts]
        exact ih _ (hn ▸ (steps_step hrest hcounts).length_rest_lt) _ rfl

/-! ### Places -/

/-- The places that the scanner keeps lie within what it has read, in their order: a leading part,
a path up to a separator, and the first construct. -/
structure Ordered (windows : Bool) (input : List Char) (s : Scanner) : Prop where
  behind : ∃ done, Behind input done s
  start_le : s.start ≤ s.index
  lastSeparator_le : s.lastSeparator ≤ s.index
  separator : 0 < s.lastSeparator →
    ∃ c, IsSeparator windows c ∧ input[s.lastSeparator - 1]? = some c
  first : ∀ place, s.first = some place → s.start ≤ place ∧ s.lastSeparator ≤ place ∧
    place < s.index ∧ ∃ kind : Construct, kind.Begins (input.drop place)

theorem ordered_initial (windows : Bool) (input : List Char) :
    Ordered windows input { rest := input } where
  behind := ⟨[], rfl, rfl, rfl⟩
  start_le := Nat.le_refl 0
  lastSeparator_le := Nat.le_refl 0
  separator := fun h => absurd h (Nat.lt_irrefl 0)
  first := fun _ h => nomatch h

variable {input : List Char}

theorem Ordered.rest_eq (h : Ordered windows input s) : s.rest = input.drop s.index := by
  obtain ⟨done, hdone⟩ := h.behind
  rw [hdone.index, hdone.input, List.drop_left]

theorem Ordered.steps (h : Ordered windows input s) (hsteps : s.Steps windows s') :
    Ordered windows input s' := by
  obtain ⟨⟨taken, hreads⟩, hchange⟩ := hsteps
  have hmoves := hreads.toMoves
  have hlt : s.index < s'.index := by
    have := List.length_pos_iff.mpr hreads.ne_nil
    have := hmoves.index
    omega
  have hbehind : ∃ done, Behind input done s' := by
    obtain ⟨done, hdone⟩ := h.behind
    exact ⟨done ++ taken, hdone.moves hmoves⟩
  have hstart := h.start_le
  have hseparator := h.lastSeparator_le
  -- Where no construct is reported, the one before, if there is one, stays where it is.
  have hkeep (hfirst : s'.first = s.first) (hbegin : s'.start = s.start)
      (hlast : s'.lastSeparator = s.lastSeparator) : ∀ place, s'.first = some place →
        s'.start ≤ place ∧ s'.lastSeparator ≤ place ∧ place < s'.index ∧
          ∃ kind : Construct, kind.Begins (input.drop place) := by
    intro place hplace
    obtain ⟨hge, hge', hindex, hkind⟩ := h.first place (hfirst ▸ hplace)
    exact ⟨hbegin ▸ hge, hlast ▸ hge', by omega, hkind⟩
  -- A change of a leading part or of a path comes before all constructs.
  have hnone (hfirst : s'.first = none) : ∀ place, s'.first = some place →
        s'.start ≤ place ∧ s'.lastSeparator ≤ place ∧ place < s'.index ∧
          ∃ kind : Construct, kind.Begins (input.drop place) :=
    fun place hplace => nomatch hfirst.symm.trans hplace
  cases hchange with
  | none eq =>
    obtain ⟨hbegin, hlast, hfirst⟩ := places_of_movedTo eq
    exact ⟨hbehind, by omega, by omega, fun hpos => hlast ▸ h.separator (hlast ▸ hpos),
      hkeep hfirst hbegin hlast⟩
  | drop first index eq =>
    obtain ⟨hbegin, hlast, hfirst⟩ := places_of_movedTo eq
    dsimp only at hbegin hlast
    exact ⟨hbehind, by omega, by omega, fun hpos => hlast ▸ h.separator (hlast ▸ hpos),
      hnone (hfirst.trans first)⟩
  | separator first rest eq =>
    obtain ⟨hbegin, hlast, hfirst⟩ := places_of_movedTo eq
    dsimp only at hbegin hlast
    obtain ⟨c, hc, hrest⟩ := rest
    -- The separator is the one character that the step reads.
    have hindex := hmoves.index_eq_succ hrest
    refine ⟨hbehind, by omega, by omega, fun _ => ⟨c, hc, ?_⟩, hnone (hfirst.trans first)⟩
    have hhead : (input.drop s.index).head? = some c := by rw [← h.rest_eq, hrest]; rfl
    rw [hlast, hindex, Nat.add_sub_cancel, ← hhead, List.head?_drop]
  | negation first index eq =>
    obtain ⟨hbegin, hlast, hfirst⟩ := places_of_movedTo eq
    dsimp only at hbegin hlast
    exact ⟨hbehind, by omega, by omega, fun hpos => hlast ▸ h.separator (hlast ▸ hpos),
      hnone (hfirst.trans first)⟩
  | construct kind begins eq =>
    obtain ⟨hbegin, hlast, hfirst⟩ := places_of_movedTo eq
    rw [start_report] at hbegin
    rw [lastSeparator_report] at hlast
    rw [first_report] at hfirst
    refine ⟨hbehind, by omega, by omega, fun hpos => hlast ▸ h.separator (hlast ▸ hpos), ?_⟩
    cases hbefore : s.first with
    | some place => exact hkeep (by rw [hfirst, hbefore]; rfl) hbegin hlast
    | none =>
      intro place hplace
      obtain rfl : s.index = place := by simpa [hfirst, hbefore] using hplace
      exact ⟨by omega, by omega, by omega, kind, h.rest_eq ▸ begins⟩

theorem ordered_finish (h : Ordered options.windows input s) :
    Ordered options.windows input (finish options s) :=
  finish_induction (motive := Ordered options.windows input)
    (fun _ _ _ _ _ hsteps h => h.steps hsteps) h

theorem ordered_pass (options : Options) (input : List Char) :
    Ordered options.windows input (pass options input) :=
  ordered_finish (ordered_initial options.windows input)

end Scanner

end PathGlob.Scan
