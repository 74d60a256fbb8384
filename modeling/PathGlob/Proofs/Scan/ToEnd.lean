import PathGlob.Proofs.Scan.Run

/-!
# `PathGlob.Proofs.Scan.ToEnd`: scanning to the end

A scan that is asked to goes on behind the first construct. Up to there it takes the same steps
(`Scanner.step_scanToEnd`). From there on no place changes any more, and flags are only ever set
(`Scanner.completedBy_of_steps`). So it finds everything that a scan that stops finds, and completes
its flags (`scan_toEnd_completes`).
-/

set_option autoImplicit false

namespace PathGlob

namespace Scan

/-! ### Flags -/

/-- The flag that reports a construct, if there is one. -/
def Result.flag (result : Result) : Construct → Bool
  | .group => result.isExtglob
  | .stars => false
  | .globstar => result.isGlobstar
  | .question => false
  | .bracket => result.isBracket
  | .brace => result.isBrace

namespace Scanner

/-- The flag that reports a construct, if there is one. -/
def flag (s : Scanner) : Construct → Bool
  | .group => s.isExtglob
  | .stars => false
  | .globstar => s.isGlobstar
  | .question => false
  | .bracket => s.isBracket
  | .brace => s.isBrace

variable {options : Options} {s s' : Scanner} {input : List Char}

theorem flag_movedTo (s s' : Scanner) (kind : Construct) :
    (s.movedTo s').flag kind = s.flag kind := by
  cases kind <;> rfl

/-- Reporting a construct sets its own flag and no other one. -/
theorem flag_report (s : Scanner) (kind other : Construct) (h : (s.report kind).flag other = true) :
    s.flag other = true ∨ other = kind := by
  cases kind <;> cases other <;> first | exact .inl h | exact .inr rfl

theorem flag_report_of_flag (s : Scanner) (kind other : Construct) (h : s.flag other = true) :
    (s.report kind).flag other = true := by
  cases kind <;> cases other <;> first | exact h | rfl

theorem flag_result (s : Scanner) (input : List Char) (options : Options) (kind : Construct) :
    (s.result input options).flag kind = s.flag kind := by
  cases kind <;> rfl

/-! ### Behind the first construct -/

/-- The second state knows the same places, and has all flags that the first one has. -/
structure CompletedBy (s s' : Scanner) : Prop where
  start : s'.start = s.start
  lastSeparator : s'.lastSeparator = s.lastSeparator
  first : s'.first = s.first
  negated : s'.negated = s.negated
  negatedExtglob : s'.negatedExtglob = s.negatedExtglob
  flag : ∀ kind, s.flag kind = true → s'.flag kind = true

theorem CompletedBy.refl (s : Scanner) : s.CompletedBy s := ⟨rfl, rfl, rfl, rfl, rfl, fun _ h => h⟩

theorem CompletedBy.trans {s'' : Scanner} (h : s.CompletedBy s') (h' : s'.CompletedBy s'') :
    s.CompletedBy s'' where
  start := h'.start.trans h.start
  lastSeparator := h'.lastSeparator.trans h.lastSeparator
  first := h'.first.trans h.first
  negated := h'.negated.trans h.negated
  negatedExtglob := h'.negatedExtglob.trans h.negatedExtglob
  flag := fun kind hkind => h'.flag kind (h.flag kind hkind)

/-- What moving on leaves is what was there before. -/
theorem CompletedBy.movedTo {t : Scanner} (h : s.CompletedBy t) (s' : Scanner) :
    s.CompletedBy (t.movedTo s') where
  start := h.start
  lastSeparator := h.lastSeparator
  first := h.first
  negated := h.negated
  negatedExtglob := h.negatedExtglob
  flag := fun kind hkind => (flag_movedTo t s' kind).trans (h.flag kind hkind)

/-- A further construct is reported, but it is not the first one. -/
theorem completedBy_report (h : s.Ordered options.windows input) {place : Nat}
    (hfirst : s.first = some place) (kind : Construct) : s.CompletedBy (s.report kind) where
  start := start_report s kind
  lastSeparator := lastSeparator_report s kind
  first := by rw [first_report, hfirst]; rfl
  negated := by cases kind <;> rfl
  negatedExtglob := by
    -- A group behind the first construct is not at the start.
    obtain ⟨hstart, -, hplace, -⟩ := h.first place hfirst
    have hne : s.index ≠ s.start := by omega
    cases kind <;> simp [report, mark, hne]
  flag := fun other => flag_report_of_flag s kind other

theorem completedBy_of_steps (h : s.Ordered options.windows input) {place : Nat}
    (hfirst : s.first = some place) (hsteps : s.Steps options.windows s') : s.CompletedBy s' := by
  have hbefore : s.first ≠ none := by rw [hfirst]; nofun
  cases hsteps.2 with
  | none eq => rw [eq]; exact (CompletedBy.refl s).movedTo s'
  | drop first | separator first | negation first => exact absurd first hbefore
  | construct kind _ eq => rw [eq]; exact (completedBy_report h hfirst kind).movedTo s'

theorem completedBy_finish (h : s.Ordered options.windows input) {place : Nat}
    (hfirst : s.first = some place) : s.CompletedBy (finish options s) := by
  have hfinish : (finish options s).Ordered options.windows input ∧ s.CompletedBy (finish options s) :=
    finish_induction (motive := fun t => t.Ordered options.windows input ∧ s.CompletedBy t)
      (fun t c rest _ _ hsteps ht => ⟨ht.1.steps hsteps,
        ht.2.trans (completedBy_of_steps ht.1 (ht.2.first.trans hfirst) hsteps)⟩) ⟨h, .refl s⟩
  exact hfinish.2

/-! ### Up to the first construct -/

/-- Before the first construct everything counts. -/
theorem step_scanToEnd (options : Options) (toEnd : Bool) (hfirst : s.first = none) (c : Char)
    (rest : List Char) :
    s.step { options with scanToEnd := toEnd } c rest = s.step options c rest := by
  have hcounts (options : Options) : counts (s.past [c] rest) options = true := by
    simp [counts, past, hfirst]
  unfold step
  simp only [star_eq, bracket_eq, brace_eq, hcounts]

/-- A pass that goes on to the end knows the places that one that stops knows, and has its flags. -/
theorem completedBy_finish_toEnd (h : s.Ordered options.windows input) :
    (finish { options with scanToEnd := false } s).CompletedBy
      (finish { options with scanToEnd := true } s) := by
  induction hn : s.rest.length using Nat.strongRecOn generalizing s with
  | ind n ih =>
    cases hfirst : s.first with
    | some place =>
      rw [finish_of_not_counts (by simp [counts, hfirst])]
      exact completedBy_finish h hfirst
    | none =>
      cases hrest : s.rest with
      | nil => rw [finish_of_nil hrest, finish_of_nil hrest]; exact .refl s
      | cons c rest =>
        have hcounts (options : Options) : s.counts options = true := by simp [counts, hfirst]
        have hsteps := steps_step hrest (hcounts options)
        rw [finish_of_counts hrest (hcounts _), finish_of_counts hrest (hcounts _),
          step_scanToEnd options false hfirst,
          step_scanToEnd options true hfirst]
        exact ih _ (hn ▸ hsteps.length_rest_lt) (h.steps hsteps) rfl

/-! ### The construct that a scan stops at -/

/-- All flags that are set report the first construct. -/
structure Names (input : List Char) (s : Scanner) : Prop where
  none : s.first = none → ∀ kind, s.flag kind = false
  first : ∀ place, s.first = some place →
    ∃ kind : Construct, kind.Begins (input.drop place) ∧ ∀ other, s.flag other = true → other = kind

/-- The first construct that is reported sets the first flag. -/
theorem Names.steps (h : s.Names input) (hordered : s.Ordered options.windows input)
    (hfirst : s.first = Option.none) (hsteps : s.Steps options.windows s') : s'.Names input := by
  have hunset := h.none hfirst
  -- Whatever else a step changes, it sets no flag.
  have hquiet {t : Scanner} (eq : s' = t.movedTo s') (hplace : t.first = Option.none)
      (hflags : ∀ kind, t.flag kind = s.flag kind) : s'.Names input := by
    have hfirst' : s'.first = Option.none := by rw [eq]; exact hplace
    refine ⟨fun _ kind => ?_, fun place hplace' => nomatch hfirst'.symm.trans hplace'⟩
    rw [eq, flag_movedTo, hflags, hunset]
  cases hsteps.2 with
  | none eq => exact hquiet eq hfirst fun _ => rfl
  | drop _ _ eq | separator _ _ eq | negation _ _ eq =>
    exact hquiet eq hfirst fun kind => by cases kind <;> rfl
  | construct kind begins eq =>
    have hfirst' : s'.first = some s.index := by
      rw [eq]
      exact (first_report s kind).trans (by rw [hfirst]; rfl)
    refine ⟨fun hnone => (nomatch hnone.symm.trans hfirst'), fun place hplace => ?_⟩
    obtain rfl : s.index = place := Option.some.inj (hfirst'.symm.trans hplace)
    refine ⟨kind, hordered.rest_eq ▸ begins, fun other hother => ?_⟩
    rw [eq, flag_movedTo] at hother
    exact (flag_report s kind other hother).resolve_left (by simp [hunset])

theorem names_finish (h : s.Names input) (hordered : s.Ordered options.windows input)
    (hstops : options.scanToEnd = false) : (finish options s).Names input := by
  have hfinish : (finish options s).Names input ∧ (finish options s).Ordered options.windows input :=
    finish_induction (motive := fun t => t.Names input ∧ t.Ordered options.windows input)
      (fun t c rest _ hcounts hsteps ht => by
        have hfirst : t.first = Option.none := by simpa [counts, hstops] using hcounts
        exact ⟨ht.1.steps ht.2 hfirst hsteps, ht.2.steps hsteps⟩) ⟨h, hordered⟩
  exact hfinish.1

theorem names_initial (input : List Char) : Names input { rest := input } :=
  ⟨fun _ kind => by cases kind <;> rfl, nofun⟩

end Scanner

/-! ### Two scans -/

/-- The second result divides the pattern at the same places, and reports all constructs that the
first one reports. -/
structure Result.CompletedBy (result result' : Result) : Prop where
  lead : result'.lead = result.lead
  base : result'.base = result.base
  glob : result'.glob = result.glob
  start : result'.start = result.start
  isGlob : result'.isGlob = result.isGlob
  negated : result'.negated = result.negated
  negatedExtglob : result'.negatedExtglob = result.negatedExtglob
  parts : result'.parts = result.parts
  flag : ∀ kind, result.flag kind = true → result'.flag kind = true

/-- At most one construct is reported, and it is the one that the glob starts with. -/
structure Result.NamesStart (result : Result) : Prop where
  eq_of_flag : ∀ kind kind', result.flag kind = true → result.flag kind' = true → kind = kind'
  begins_of_flag : ∀ kind, result.flag kind = true → ∃ before after,
    result.input = before ++ after ∧ result.start = Text.byteSize before ∧ kind.Begins after

theorem completedBy_scan_toEnd (input : List Char) (options : Options)
    (h : options.unescape = false) :
    (scan input { options with scanToEnd := false }).CompletedBy
      (scan input { options with scanToEnd := true }) := by
  have hcompleted : (Scanner.pass { options with scanToEnd := false } input).CompletedBy
      (Scanner.pass { options with scanToEnd := true } input) :=
    Scanner.completedBy_finish_toEnd (Scanner.ordered_initial options.windows input)
  rw [Scanner.scan_eq_result, Scanner.scan_eq_result]
  generalize Scanner.pass { options with scanToEnd := false } input = s at hcompleted
  generalize Scanner.pass { options with scanToEnd := true } input = s' at hcompleted
  have hflag (kind : Construct) (hkind : (s.result input { options with scanToEnd := false }).flag
      kind = true) : (s'.result input { options with scanToEnd := true }).flag kind = true := by
    rw [Scanner.flag_result] at hkind ⊢
    exact hcompleted.flag kind hkind
  refine ⟨?_, ?_, ?_, ?_, ?_, hcompleted.negated, hcompleted.negatedExtglob, ?_, hflag⟩ <;>
    simp only [Scanner.result, h, Bool.false_and, Bool.false_eq_true, if_false, hcompleted.start,
      hcompleted.lastSeparator, hcompleted.first]

theorem namesStart_scan (input : List Char) (options : Options) (h : options.scanToEnd = false) :
    (scan input options).NamesStart := by
  have hnames : (Scanner.pass options input).Names input :=
    Scanner.names_finish (Scanner.names_initial input)
      (Scanner.ordered_initial options.windows input) h
  rw [Scanner.scan_eq_result]
  generalize Scanner.pass options input = s at hnames
  have hfirst (kind : Construct) (hkind : s.flag kind = true) :
      ∃ place, s.first = some place ∧ kind.Begins (input.drop place) ∧
        ∀ other, s.flag other = true → other = kind := by
    cases hfirst : s.first with
    | none => exact absurd hkind (by simp [hnames.none hfirst])
    | some place =>
      obtain ⟨named, hbegins, honly⟩ := hnames.first place hfirst
      obtain rfl := honly kind hkind
      exact ⟨place, rfl, hbegins, honly⟩
  refine ⟨fun kind kind' hkind hkind' => ?_, fun kind hkind => ?_⟩
  · rw [Scanner.flag_result] at hkind hkind'
    obtain ⟨_, _, _, honly⟩ := hfirst kind' hkind'
    exact honly kind hkind
  · rw [Scanner.flag_result] at hkind
    obtain ⟨place, hplace, hbegins, -⟩ := hfirst kind hkind
    refine ⟨input.take place, input.drop place, (List.take_append_drop place input).symm, ?_, hbegins⟩
    simp only [Scanner.result, hplace]

end Scan

open Scan

/-- A scan that goes on to the end divides a pattern as one that stops does and completes its flags.
The one that stops reports at most one construct, and that is the first one. -/
theorem scan_toEnd_completes (input : List Char) (options : Options)
    (h : options.unescape = false) :
    (scan input { options with scanToEnd := false }).CompletedBy
        (scan input { options with scanToEnd := true }) ∧
      (scan input { options with scanToEnd := false }).NamesStart :=
  ⟨completedBy_scan_toEnd input options h, namesStart_scan input _ rfl⟩

/-- A brace group that both scans report, and a class behind it. -/
theorem scan_toEnd_completes_class :
    ({} : Options).unescape = false ∧
    ∃ result result',
      scan ['a', '/', '{', 'b', ',', 'c', '}', '/', '[', 'd', ']'] {} = result ∧
      scan ['a', '/', '{', 'b', ',', 'c', '}', '/', '[', 'd', ']'] { scanToEnd := true } = result' ∧
      result.CompletedBy result' ∧ result.NamesStart ∧
      result.isBrace = true ∧ result.isBracket = false ∧
      result'.isBrace = true ∧ result'.isBracket = true := by
  obtain ⟨hcompleted, hnames⟩ :=
    scan_toEnd_completes ['a', '/', '{', 'b', ',', 'c', '}', '/', '[', 'd', ']'] {} rfl
  exact ⟨rfl, _, _, rfl, rfl, hcompleted, hnames, by decide, by decide,
    hcompleted.flag .brace (by decide), by decide⟩

end PathGlob
