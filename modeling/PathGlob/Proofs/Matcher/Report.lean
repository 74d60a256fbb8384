import Mathlib.Data.List.Forall2
import PathGlob.Proofs.Matcher.Shortcut

/-!
# `PathGlob.Proofs.Matcher.Report`: matchers with and without shortcuts

Two matchers are made from the same patterns and options, one with shortcuts and one
without. Every pattern of the first has a counterpart in the second that refuses what the
shortcut overlooks and accepts the same texts otherwise (`Candidate.Counterpart`). From
this follows what the second matcher decides and when both report the same.

The pattern that decides is the first one that accepts. If its shortcut overlooks a line
feed, the other matcher goes on where this one stops, and whoever is told of the decision
notices.
-/

set_option autoImplicit false

namespace PathGlob

/-! ### Agreement -/

/-- Both fail with the same error, or both succeed with related results. -/
def Agree {α β : Type} (R : α → β → Prop) : Except Error α → Except Error β → Prop
  | .error e, .error e' => e = e'
  | .ok a, .ok b => R a b
  | _, _ => False

section
variable {α β γ δ : Type} {R : α → β → Prop} {S : γ → δ → Prop}

theorem Agree.mono {R' : α → β → Prop} {x : Except Error α} {y : Except Error β} (h : Agree R x y)
    (himp : ∀ a b, R a b → R' a b) : Agree R' x y := by
  cases x <;> cases y <;> first | exact himp _ _ h | exact h

theorem Agree.bind {x : Except Error α} {y : Except Error β} (h : Agree R x y)
    {f : α → Except Error γ} {g : β → Except Error δ} (hfg : ∀ a b, R a b → Agree S (f a) (g b)) :
    Agree S (x >>= f) (y >>= g) := by
  cases x <;> cases y <;> first | exact hfg _ _ h | exact h | exact h.elim

theorem Agree.mapM {ι : Type} {f : ι → Except Error α} {g : ι → Except Error β}
    (h : ∀ i, Agree R (f i) (g i)) (is : List ι) :
    Agree (List.Forall₂ R) (is.mapM f) (is.mapM g) := by
  induction is with
  | nil => exact List.Forall₂.nil
  | cons i is ih =>
    rw [List.mapM_cons, List.mapM_cons]
    exact (h i).bind fun a b hab => ih.bind fun as bs habs => List.Forall₂.cons hab habs

end

/-- Shortcuts in the translation change nothing about the texts that a pattern accepts. -/
theorem compilePattern_agree (pattern : List Char) (options : Options) :
    Agree (fun fast slow => ∀ text, fast.isMatch text = slow.isMatch text)
      (compilePattern pattern { options with fastPaths := true })
      (compilePattern pattern { options with fastPaths := false }) := by
  unfold compilePattern
  obtain ⟨e, hfast, hslow⟩ | ⟨fast, slow, hfast, hslow, h⟩ := parse_cases pattern options
  · rw [hfast, hslow]
    rfl
  · rw [hfast, hslow]
    show Agree _ (compile fast _) (compile slow _)
    -- The source is made from the output and the negation, and these are the same.
    have hsource : sourceOf fast { options with fastPaths := true } =
        sourceOf slow { options with fastPaths := false } := by
      simp only [Pattern.Translation.essence, Pattern.Translation.mk.injEq] at h
      simp only [sourceOf, h.2.1, h.2.2.2.1]
    unfold compile
    dsimp only
    rw [hsource]
    split
    · rfl
    · exact fun text => rfl

namespace Candidate

/-- The text has a line feed that the shortcut for the pattern overlooks, if it has one. -/
def overlooks (options : Options) (candidate : Candidate) (text : List Char) : Bool :=
  (Shortcut.ofGlob? options candidate.glob).any fun shortcut =>
    shortcut.overlooks candidate.glob text

/-- Both are made from one pattern, the first with shortcuts and the second without. -/
structure Counterpart (options : Options) (fast slow : Candidate) : Prop where
  glob : slow.glob = fast.glob
  hasSeparator : slow.hasSeparator = fast.hasSeparator
  separator : fast.hasSeparator =
    (fast.glob.contains '/' || (options.windows && fast.glob.contains '\\'))
  accepts : ∀ text, slow.accepts { options with fastPaths := false } text =
    (fast.accepts { options with fastPaths := true } text &&
      !fast.overlooks { options with fastPaths := true } text)

theorem ofGlob_agree (options : Options) (glob : List Char) : Agree (Counterpart options)
    (ofGlob { options with fastPaths := true } glob)
    (ofGlob { options with fastPaths := false } glob) := by
  have hslow : Shortcut.ofGlob? { options with fastPaths := false } glob = none := rfl
  unfold ofGlob
  rw [hslow]
  dsimp only [Options.effectiveMaxLength]
  split
  case isTrue => rfl
  case isFalse hsize =>
    split
    case isTrue => rfl
    case isFalse hne =>
      cases hfast : Shortcut.ofGlob? { options with fastPaths := true } glob with
      -- Without a shortcut the pattern is compiled either way.
      | none =>
        refine (compilePattern_agree glob options).bind fun fast slow hmatch => ?_
        refine ⟨rfl, rfl, rfl, fun text => ?_⟩
        simp [accepts, overlooks, hfast, hmatch text]
      -- With one, only the slow matcher compiles, and its program cannot fail.
      | some shortcut =>
        have hne : glob ≠ [] := by simpa using hne
        obtain ⟨compiled, hcompile, hmatch⟩ := Shortcut.recognizes_of_ofGlob?
          { options with fastPaths := false } hfast hne (Nat.le_of_not_lt hsize)
        dsimp only
        rw [hcompile]
        refine ⟨rfl, rfl, rfl, fun text => ?_⟩
        rw [Bool.eq_iff_iff]
        simp only [accepts, overlooks, hfast, Option.any_some]
        rw [hmatch text]
        cases shortcut <;> rfl

end Candidate

/-! ### Decisions -/

namespace Matcher

/-- The text that a pattern is compared with. -/
def comparedText (options : Options) (output : List Char) (candidate : Candidate) : List Char :=
  if options.baseName && !candidate.hasSeparator then lastSegment output else output

/-- The pattern matches the text, and its shortcut overlooks nothing. -/
def confirms (options : Options) (output : List Char) (candidate : Candidate) : Bool :=
  compares options output candidate &&
    !candidate.overlooks options (comparedText options output candidate)

/-- The verdict on a text if patterns are compared with it in the given way. -/
def verdictBy (compare : Options → List Char → Candidate → Bool) (matcher : Matcher)
    (input : List Char) : Bool :=
  !input.isEmpty &&
    matcher.patterns.any (compare matcher.options (matcher.options.formatted input)) &&
    !matcher.vetoes.any
      (compare matcher.options.forIgnore (matcher.options.forIgnore.formatted input))

/-- The pattern that decides on a text: the first one that matches it. -/
def decisive? (matcher : Matcher) (input : List Char) : Option Candidate :=
  if input.isEmpty then none
  else matcher.patterns.find? (compares matcher.options (matcher.options.formatted input))

/-- The pattern that decides on a text is matched by a shortcut that overlooks a line feed. -/
def isHasty (matcher : Matcher) (input : List Char) : Bool :=
  (matcher.decisive? input).any fun candidate => candidate.overlooks matcher.options
    (comparedText matcher.options (matcher.options.formatted input) candidate)

/-- What is told last once a pattern has matched. -/
def decision (matcher : Matcher) (input : List Char) : EventKind :=
  if matcher.isIgnored input then .ignored else .matched

/-- What is told once the pattern has matched. -/
def decisionOn (matcher : Matcher) (input output : List Char) (candidate : Candidate) : Event :=
  ⟨matcher.decision input, candidate.glob, input, output, !matcher.isIgnored input⟩

/-- Some observer is told that a pattern has matched. -/
def isTold (matcher : Matcher) (input : List Char) : Bool :=
  matcher.options.observers.results ||
    if matcher.isIgnored input then matcher.options.observers.ignored
    else matcher.options.observers.matched

section
variable {matcher : Matcher} {input output : List Char} {candidate : Candidate}
  {candidates : List Candidate}

theorem judge_cons_of_not (h : compares matcher.options output candidate = false) :
    matcher.judge input output (candidate :: candidates) =
      ((matcher.judge input output candidates).1,
        ⟨.result, candidate.glob, input, output, false⟩ ::
          (matcher.judge input output candidates).2) := by
  rw [judge]
  simp [h]

theorem judge_cons_of_compares (h : compares matcher.options output candidate = true) :
    matcher.judge input output (candidate :: candidates) =
      (!matcher.isIgnored input,
        [⟨.result, candidate.glob, input, output, true⟩,
          matcher.decisionOn input output candidate]) := by
  rw [judge, decisionOn, decision]
  cases hignored : matcher.isIgnored input <;> simp [h]

theorem judge_fst (matcher : Matcher) (input output : List Char) (candidates : List Candidate) :
    (matcher.judge input output candidates).1 =
      (candidates.any (compares matcher.options output) && !matcher.isIgnored input) := by
  induction candidates with
  | nil => rfl
  | cons candidate candidates ih =>
    cases h : compares matcher.options output candidate with
    | false => rw [judge_cons_of_not h, List.any_cons, h, Bool.false_or, ih]
    | true => rw [judge_cons_of_compares h, List.any_cons, h, Bool.true_or, Bool.true_and]

/-- Where nobody is told of results, all that can be noticed is the decision on the first
pattern that matches. -/
theorem filter_judge_of_not_results (matcher : Matcher) (input output : List Char)
    (candidates : List Candidate) (hresults : matcher.options.observers.results = false) :
    (matcher.judge input output candidates).2.filter matcher.options.observers.sees =
      ((candidates.find? (compares matcher.options output)).toList.map
        (matcher.decisionOn input output)).filter matcher.options.observers.sees := by
  induction candidates with
  | nil => rfl
  | cons candidate candidates ih =>
    have hunseen (isMatch : Bool) : ¬ matcher.options.observers.sees
        ⟨.result, candidate.glob, input, output, isMatch⟩ = true := by
      simp [Observers.sees, hresults]
    cases h : compares matcher.options output candidate with
    | false =>
      rw [judge_cons_of_not h, List.filter_cons_of_neg (hunseen false), ih,
        List.find?_cons_of_neg (by simp [h])]
    | true =>
      rw [judge_cons_of_compares h, List.filter_cons_of_neg (hunseen true),
        List.find?_cons_of_pos h]
      rfl

theorem isMatch_eq_verdictBy (matcher : Matcher) (input : List Char) :
    matcher.isMatch input = matcher.verdictBy compares input := by
  unfold isMatch report verdictBy
  cases hempty : input.isEmpty with
  | true => rfl
  | false => simp [judge_fst, isIgnored]

end

/-! ### Two matchers -/

/-- Both are made from the same patterns and options, the first with shortcuts and the second
without. -/
structure Counterpart (options : Options) (fast slow : Matcher) : Prop where
  fastOptions : fast.options = { options with fastPaths := true }
  slowOptions : slow.options = { options with fastPaths := false }
  patterns : List.Forall₂ (Candidate.Counterpart options) fast.patterns slow.patterns
  vetoes : List.Forall₂ (Candidate.Counterpart options.forIgnore) fast.vetoes slow.vetoes

theorem ofGlobs_agree (globs : List (List Char)) (options : Options) : Agree (Counterpart options)
    (ofGlobs globs { options with fastPaths := true })
    (ofGlobs globs { options with fastPaths := false }) := by
  unfold ofGlobs
  split
  · rfl
  · refine (Agree.mapM (Candidate.ofGlob_agree options) globs).bind fun fast slow hpatterns => ?_
    refine (Agree.mapM (Candidate.ofGlob_agree options.forIgnore) options.ignore).bind
      fun fast' slow' hvetoes => ?_
    exact ⟨rfl, rfl, hpatterns, hvetoes⟩

section
variable {options : Options} {output : List Char}

theorem compares_eq_confirms {fast slow : Candidate} (h : fast.Counterpart options slow) :
    compares { options with fastPaths := false } output slow =
      confirms { options with fastPaths := true } output fast := by
  have htext : comparedText { options with fastPaths := false } output slow =
      comparedText { options with fastPaths := true } output fast := by
    rw [comparedText, comparedText, h.hasSeparator]
  exact (congrArg _ htext).trans (h.accepts _)

theorem any_compares_eq (output : List Char) {fast slow : List Candidate}
    (h : List.Forall₂ (Candidate.Counterpart options) fast slow) :
    slow.any (compares { options with fastPaths := false } output) =
      fast.any (confirms { options with fastPaths := true } output) := by
  induction h with
  | nil => rfl
  | cons h _ ih => rw [List.any_cons, List.any_cons, compares_eq_confirms h, ih]

theorem map_glob_eq {fast slow : List Candidate}
    (h : List.Forall₂ (Candidate.Counterpart options) fast slow) :
    slow.map Candidate.glob = fast.map Candidate.glob := by
  induction h with
  | nil => rfl
  | cons h _ ih => rw [List.map_cons, List.map_cons, h.glob, ih]

end

section
variable {options : Options} {fast slow : Matcher} (h : Counterpart options fast slow)
include h

/-- Without shortcuts, the verdict is the one on patterns that overlook nothing. -/
theorem Counterpart.isMatch_eq (input : List Char) :
    slow.isMatch input = fast.verdictBy confirms input := by
  rw [isMatch_eq_verdictBy, verdictBy, verdictBy, h.slowOptions, h.fastOptions]
  have hpatterns := any_compares_eq (options.formatted input) h.patterns
  have hvetoes := any_compares_eq (options.forIgnore.formatted input) h.vetoes
  exact congrArg₂ (fun a b => !input.isEmpty && a && !b) hpatterns hvetoes

/-- A pattern whose shortcut overlooks a line feed matches no text without it, wherever it
stands. -/
theorem Counterpart.glob_ne {output : List Char} {candidates candidates' : List Candidate}
    (hcandidates : List.Forall₂ (Candidate.Counterpart options) candidates candidates')
    {candidate candidate' : Candidate} (hcandidate : candidate.Counterpart options candidate')
    (hoverlooks : candidate.overlooks fast.options
      (comparedText fast.options output candidate) = true)
    {other : Candidate} (hmem : other ∈ candidates')
    (hother : compares slow.options output other = true) : other.glob ≠ candidate.glob := by
  induction hcandidates with
  | nil => exact absurd hmem List.not_mem_nil
  | @cons twin other' _ _ htwin _ ih =>
    rcases List.mem_cons.mp hmem with rfl | hmem
    · -- The same glob is compared with the same text, and there it overlooks a line feed too.
      intro hglob
      rw [h.slowOptions, compares_eq_confirms htwin, ← h.fastOptions, confirms, Bool.and_eq_true,
        Bool.not_eq_true'] at hother
      have hglob : twin.glob = candidate.glob := htwin.glob.symm.trans hglob
      have hseparator : twin.hasSeparator = candidate.hasSeparator := by
        rw [htwin.separator, hcandidate.separator, hglob]
      rw [Candidate.overlooks, comparedText, hglob, hseparator] at hother
      exact absurd (hoverlooks.symm.trans hother.2) (by decide)
    · exact ih hmem

/-- Past a pattern whose shortcut overlooks a line feed, observers are told the same only if
they are told nothing of the match. -/
theorem Counterpart.filter_judge_of_overlooks {input output : List Char}
    {candidates candidates' : List Candidate}
    (hcandidates : List.Forall₂ (Candidate.Counterpart options) candidates candidates')
    {candidate candidate' : Candidate} (hcandidate : candidate.Counterpart options candidate')
    (hoverlooks : candidate.overlooks fast.options
      (comparedText fast.options output candidate) = true)
    (hverdict : (slow.judge input output candidates').1 = !fast.isIgnored input) :
    (⟨.result, candidate'.glob, input, output, false⟩ ::
        (slow.judge input output candidates').2).filter options.observers.sees =
      [⟨.result, candidate.glob, input, output, true⟩,
        fast.decisionOn input output candidate].filter options.observers.sees ↔
        fast.isTold input = false := by
  have htold : fast.isTold input = (options.observers.results ||
      options.observers.sees (fast.decisionOn input output candidate)) := by
    simp only [decisionOn, isTold, decision, h.fastOptions]
    cases fast.isIgnored input <;> rfl
  cases hresults : options.observers.results with
  | true =>
    -- The one tells of a refusal first, the other of a match.
    simp [Observers.sees, hresults, htold]
  | false =>
    have hobservers : slow.options.observers = options.observers := by rw [h.slowOptions]
    have hslow := filter_judge_of_not_results slow input output candidates'
      (by rw [hobservers, hresults])
    have hunseen (glob : List Char) (isMatch : Bool) : ¬ options.observers.sees
        ⟨.result, glob, input, output, isMatch⟩ = true := by
      simp [Observers.sees, hresults]
    rw [hobservers] at hslow
    rw [List.filter_cons_of_neg (hunseen _ _), List.filter_cons_of_neg (hunseen _ _), hslow, htold,
      hresults, Bool.false_or]
    cases hfind : candidates'.find? (compares slow.options output) with
    | none =>
      -- The other tells nothing, so the decision on the match must not be seen.
      cases hlast : options.observers.sees (fast.decisionOn input output candidate) <;>
        simp [hlast]
    | some other =>
      -- The other tells of a match too, but with another pattern.
      have hmem := List.mem_of_find?_eq_some hfind
      have hcompares := List.find?_some hfind
      have hglob := h.glob_ne hcandidates hcandidate hoverlooks hmem hcompares
      have hignored : slow.isIgnored input = fast.isIgnored input := by
        have hany : candidates'.any (compares slow.options output) = true :=
          List.any_eq_true.mpr ⟨other, hmem, hcompares⟩
        rw [judge_fst, hany, Bool.true_and] at hverdict
        simpa using hverdict
      have hne : slow.decisionOn input output other ≠ fast.decisionOn input output candidate :=
        fun heq => hglob (congrArg Event.glob heq)
      have hsees : options.observers.sees (slow.decisionOn input output other) =
          options.observers.sees (fast.decisionOn input output candidate) := by
        simp only [Observers.sees, decisionOn, decision, hignored]
      cases hlast : options.observers.sees (fast.decisionOn input output candidate) <;>
        simp [hsees, hlast, hne]

/-- Both are told the same about a list of patterns if they come to the same verdict and nobody
is told of a decision on a pattern that overlooks a line feed. -/
theorem Counterpart.filter_judge_eq_iff {input output : List Char}
    {candidates candidates' : List Candidate}
    (hcandidates : List.Forall₂ (Candidate.Counterpart options) candidates candidates')
    (hverdict : (slow.judge input output candidates').1 = (fast.judge input output candidates).1) :
    (slow.judge input output candidates').2.filter options.observers.sees =
        (fast.judge input output candidates).2.filter options.observers.sees ↔
      ∀ candidate, candidates.find? (compares fast.options output) = some candidate →
        candidate.overlooks fast.options (comparedText fast.options output candidate) = true →
          fast.isTold input = false := by
  induction hcandidates with
  | nil => simp [judge]
  | @cons candidate candidate' candidates candidates' hcandidate hcandidates ih =>
    have hslow : compares slow.options output candidate' =
        confirms fast.options output candidate := by
      rw [h.slowOptions, h.fastOptions]
      exact compares_eq_confirms hcandidate
    cases hcompares : compares fast.options output candidate with
    | false =>
      -- Both refuse and go on.
      have hslow : compares slow.options output candidate' = false := by
        rw [hslow, confirms, hcompares, Bool.false_and]
      rw [judge_cons_of_not hslow, judge_cons_of_not hcompares] at hverdict ⊢
      rw [List.find?_cons_of_neg (by simp [hcompares]), ← ih hverdict, List.filter_cons,
        List.filter_cons, hcandidate.glob]
      split <;> simp
    | true =>
      rw [List.find?_cons_of_pos hcompares]
      cases hoverlooks : candidate.overlooks fast.options
        (comparedText fast.options output candidate) with
      | false =>
        -- Both accept, and both tell of the same decision.
        have hslow : compares slow.options output candidate' = true := by
          rw [hslow, confirms, hcompares, hoverlooks]
          rfl
        rw [judge_cons_of_compares hslow, judge_cons_of_compares hcompares] at hverdict ⊢
        have hignored : slow.isIgnored input = fast.isIgnored input := by simpa using hverdict
        rw [decisionOn, decisionOn, decision, decision, hignored, hcandidate.glob]
        simp [hoverlooks]
      | true =>
        -- The first accepts hastily, and the second goes on.
        have hslow : compares slow.options output candidate' = false := by
          rw [hslow, confirms, hcompares, hoverlooks]
          rfl
        rw [judge_cons_of_not hslow, judge_cons_of_compares hcompares] at hverdict ⊢
        simpa [hoverlooks] using
          h.filter_judge_of_overlooks hcandidates hcandidate hoverlooks hverdict

/-- Both report the same exactly if they come to the same verdict and nobody is told of a
hasty decision. -/
theorem Counterpart.report_eq_iff (input : List Char) : slow.report input = fast.report input ↔
    slow.isMatch input = fast.isMatch input ∧
      (fast.isHasty input = true → fast.isTold input = false) := by
  unfold isHasty decisive?
  cases hempty : input.isEmpty with
  | true =>
    have hglobs := map_glob_eq h.patterns
    have hevents : (slow.patterns.take 1).map (fun candidate =>
        (⟨.result, candidate.glob, input, input, false⟩ : Event)) =
          (fast.patterns.take 1).map (fun candidate =>
            (⟨.result, candidate.glob, input, input, false⟩ : Event)) := by
      have := congrArg (fun globs => (globs.take 1).map fun glob =>
        (⟨.result, glob, input, input, false⟩ : Event)) hglobs
      simp only [← List.map_take, List.map_map] at this
      exact this
    have hobservers : slow.options.observers = fast.options.observers := by
      rw [h.slowOptions, h.fastOptions]
    simp [isMatch, report, hempty, hevents, hobservers]
  | false =>
    have hformatted : slow.options.formatted input = fast.options.formatted input := by
      rw [h.slowOptions, h.fastOptions]
      rfl
    have hreport (matcher : Matcher) : matcher.report input =
        ((matcher.judge input (matcher.options.formatted input) matcher.patterns).1,
          (matcher.judge input (matcher.options.formatted input) matcher.patterns).2.filter
            matcher.options.observers.sees) := by
      rw [report, hempty]
      rfl
    have hsees : slow.options.observers.sees = options.observers.sees ∧
        fast.options.observers.sees = options.observers.sees := by
      rw [h.slowOptions, h.fastOptions]
      exact ⟨rfl, rfl⟩
    simp only [isMatch, hreport, hformatted, hsees, Prod.mk.injEq, Option.any_eq_true,
      forall_exists_index, and_imp, Bool.false_eq_true, if_false]
    exact and_congr_right fun hverdict => h.filter_judge_eq_iff h.patterns hverdict

end

/-- A globstar as a shortcut matches a text with a line feed, and its program does not. -/
example :
    (PathGlob.isMatch ['a', '\n', 'b'] [['*', '*']] {}).toOption = some true ∧
      (PathGlob.isMatch ['a', '\n', 'b'] [['*', '*']] { fastPaths := false }).toOption =
        some false := by
  decide +kernel

end Matcher

end PathGlob
