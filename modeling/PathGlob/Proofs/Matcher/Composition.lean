import PathGlob.Proofs.Matcher.Report

/-!
# `PathGlob.Proofs.Matcher.Composition`: a matcher as a combination of single patterns

Every pattern of a matcher, and every pattern that it ignores, makes a matcher of its own, one
that ignores nothing and tells nobody (`Matcher.IsSolo`). Neither the ignore list nor the
observers have a part in translating a pattern, so the matchers of single patterns say all
there is to know about the composed one: its verdict, and everything that observers are told
in order (`Matcher.trace`).

`Matcher.report_eq_composition` is the main statement. The verdict depends only on which
patterns there are, so neither their order nor repetitions matter, nor who observes.
-/

set_option autoImplicit false

namespace PathGlob

/-! ### Options that have no part in a translation -/

section
variable (options : Options) (ignore : List (List Char)) (observers : Observers)

/-- The same options, but for what is ignored and observed. -/
def Options.withPolicy : Options := { options with ignore, observers }

namespace Pattern

variable (ctx : Context) (tail : List Char → Except Error (List Char))

/-- The same, but for what is ignored and observed. -/
def Context.withPolicy : Context := { ctx with options := ctx.options.withPolicy ignore observers }

theorem shortcutsAgree_withPolicy :
    ShortcutsAgree (options.withPolicy ignore observers) options :=
  ⟨rfl, rfl, rfl, rfl, rfl, rfl⟩

theorem step_withPolicy (t : Tokenizer) (c : Char) :
    Tokenizer.step (ctx.withPolicy ignore observers) tail t c = Tokenizer.step ctx tail t c := rfl

theorem run_withPolicy (n : Nat) (t : Tokenizer) :
    Tokenizer.run (ctx.withPolicy ignore observers) tail n t = Tokenizer.run ctx tail n t := by
  induction n generalizing t with
  | zero => rfl
  | succ n ih =>
    unfold Tokenizer.run
    simp only [step_withPolicy, ih]

theorem tokenize_withPolicy :
    (ctx.withPolicy ignore observers).tokenize tail = ctx.tokenize tail :=
  congrArg (· >>= _) (run_withPolicy ignore observers ctx tail _ _)

theorem translate_withPolicy (pattern : List Char) :
    translate (options.withPolicy ignore observers) tail pattern =
      translate options tail pattern := by
  have htokenize := tokenize_withPolicy ignore observers (Context.ofPattern options pattern) tail
  unfold translate
  dsimp only
  have hshortcuts := shortcutsAgree_withPolicy options ignore observers
  rw [shape?_congr hshortcuts, flat?_congr hshortcuts]
  simp only [← htokenize]
  rfl

theorem parseWithin_withPolicy (depth : Nat) (pattern : List Char) :
    parseWithin depth (options.withPolicy ignore observers) pattern =
      parseWithin depth options pattern := by
  induction depth generalizing options pattern with
  | zero =>
    unfold parseWithin
    simp only [translate_withPolicy]
    rfl
  | succ depth ih =>
    -- Extensions after negated groups are translated with the same options, but for shortcuts.
    have htail (tail : List Char) :
        parseWithin depth { options.withPolicy ignore observers with fastPaths := false } tail =
          parseWithin depth { options with fastPaths := false } tail :=
      ih { options with fastPaths := false } tail
    unfold parseWithin
    simp only [translate_withPolicy, htail]
    rfl

end Pattern

theorem compilePattern_withPolicy (pattern : List Char) :
    compilePattern pattern (options.withPolicy ignore observers) =
      compilePattern pattern options := by
  have hparse := Pattern.parseWithin_withPolicy options ignore observers pattern.length pattern
  unfold compilePattern parse
  rw [hparse]
  rfl

/-- A pattern is made ready to match in the same way whatever is ignored and observed. -/
theorem Candidate.ofGlob_withPolicy (glob : List Char) :
    ofGlob (options.withPolicy ignore observers) glob = ofGlob options glob := by
  unfold ofGlob
  rw [compilePattern_withPolicy]
  rfl

end

/-! ### Candidates -/

/-- Making something of every element succeeds exactly if it does for each of them. -/
theorem mapM_eq_ok_iff {α β ε : Type} {f : α → Except ε β} {as : List α} {bs : List β} :
    as.mapM f = .ok bs ↔ List.Forall₂ (fun a b => f a = .ok b) as bs := by
  induction as generalizing bs with
  | nil =>
    rw [List.mapM_nil, List.forall₂_nil_left_iff]
    exact ⟨fun h => (Except.ok.inj h).symm, fun h => congrArg _ h.symm⟩
  | cons a as ih =>
    rw [List.mapM_cons]
    constructor
    · intro h
      cases ha : f a with
      | error => rw [ha] at h; cases h
      | ok b =>
        cases has : as.mapM f with
        | error => rw [ha, has] at h; cases h
        | ok others =>
          rw [ha, has] at h
          cases h
          exact .cons ha (ih.mp has)
    · rintro (_ | ⟨ha, has⟩)
      rw [ha, ih.mpr has]
      rfl

section
variable {α β ε : Type} {f : α → Except ε β} {as : List α}

theorem exists_mapM_eq_ok_iff : (∃ bs, List.Forall₂ (fun a b => f a = .ok b) as bs) ↔
    ∀ a ∈ as, ∃ b, f a = .ok b := by
  induction as with
  | nil => simp
  | cons a as ih =>
    rw [List.forall_mem_cons, ← ih]
    constructor
    · rintro ⟨_, _ | ⟨ha, has⟩⟩
      exact ⟨⟨_, ha⟩, _, has⟩
    · rintro ⟨⟨b, ha⟩, bs, has⟩
      exact ⟨b :: bs, .cons ha has⟩

/-- Whether something passes a test depends only on what there is to make it of. -/
theorem any_of_forall₂ {bs : List β} (h : List.Forall₂ (fun a b => f a = .ok b) as bs)
    (test : β → Bool) :
    bs.any test = true ↔ ∃ a ∈ as, ∃ b, f a = .ok b ∧ test b = true := by
  induction h with
  | nil => simp
  | @cons a b as bs ha _ ih =>
    rw [List.any_cons, Bool.or_eq_true, ih, List.exists_mem_cons_iff]
    refine or_congr_left ⟨fun hb => ⟨b, ha, hb⟩, ?_⟩
    rintro ⟨b', ha', hb'⟩
    obtain rfl : b = b' := Except.ok.inj (ha.symm.trans ha')
    exact hb'

end

theorem Candidate.glob_of_ofGlob {options : Options} {glob : List Char} {candidate : Candidate}
    (h : ofGlob options glob = .ok candidate) : candidate.glob = glob := by
  unfold ofGlob at h
  dsimp only at h
  split at h
  case isTrue => cases h
  case isFalse =>
    split at h
    case isTrue => cases h
    case isFalse =>
      split at h
      case h_1 =>
        cases h
        rfl
      case h_2 =>
        cases hcompile : compilePattern glob options with
        | error =>
          rw [hcompile] at h
          cases h
        | ok compiled =>
          rw [hcompile] at h
          cases h
          rfl

namespace Matcher

/-! ### Single patterns -/

/-- What a matcher is made of. -/
theorem ofGlobs_eq_ok_iff {globs : List (List Char)} {options : Options} {matcher : Matcher} :
    ofGlobs globs options = .ok matcher ↔ globs ≠ [] ∧ matcher.options = options ∧
      List.Forall₂ (fun glob candidate => Candidate.ofGlob options glob = .ok candidate) globs
        matcher.patterns ∧
      List.Forall₂ (fun glob candidate => Candidate.ofGlob options.forIgnore glob = .ok candidate)
        options.ignore matcher.vetoes := by
  obtain ⟨options', patterns, vetoes⟩ := matcher
  rw [← mapM_eq_ok_iff, ← mapM_eq_ok_iff]
  unfold ofGlobs
  cases globs with
  | nil => exact ⟨fun h => (by cases h), fun h => absurd rfl h.1⟩
  | cons glob globs =>
    cases hpatterns : (glob :: globs).mapM (Candidate.ofGlob options) with
    | error => exact ⟨fun h => (by cases h), fun h => (by simp at h)⟩
    | ok patterns' =>
      cases hvetoes : options.ignore.mapM (Candidate.ofGlob options.forIgnore) with
      | error => exact ⟨fun h => (by cases h), fun h => (by simp at h)⟩
      | ok vetoes' =>
        constructor
        · intro h
          cases h
          exact ⟨List.cons_ne_nil _ _, rfl, rfl, rfl⟩
        · rintro ⟨-, rfl, h, h'⟩
          cases h
          cases h'
          rfl

/-- The matcher of one pattern alone, which ignores nothing and tells nobody. -/
def IsSolo (options : Options) (glob : List Char) (solo : Matcher) : Prop :=
  ofGlobs [glob] options.forIgnore = .ok solo

theorem isSolo_iff {options : Options} {glob : List Char} {solo : Matcher} :
    IsSolo options glob solo ↔ ∃ candidate, Candidate.ofGlob options glob = .ok candidate ∧
      solo = ⟨options.forIgnore, [candidate], []⟩ := by
  obtain ⟨options', patterns, vetoes⟩ := solo
  have hsame (glob : List Char) : Candidate.ofGlob options.forIgnore glob =
      Candidate.ofGlob options glob := Candidate.ofGlob_withPolicy options [] {} glob
  have hnone : options.forIgnore.ignore = [] := rfl
  simp only [IsSolo, ofGlobs_eq_ok_iff, hsame, hnone, List.forall₂_nil_left_iff, ne_eq,
    List.cons_ne_nil, not_false_eq_true, true_and, List.forall₂_cons_left_iff]
  constructor
  · rintro ⟨rfl, ⟨candidate, _, hcandidate, rfl, rfl⟩, rfl⟩
    exact ⟨candidate, hcandidate, rfl⟩
  · rintro ⟨candidate, hcandidate, h⟩
    cases h
    exact ⟨rfl, ⟨candidate, [], hcandidate, rfl, rfl⟩, rfl⟩

/-- The matcher of a single pattern compares texts with it as any other matcher does. -/
theorem isMatch_solo (options : Options) (candidate : Candidate) {input : List Char}
    (hinput : input ≠ []) :
    (⟨options.forIgnore, [candidate], []⟩ : Matcher).isMatch input =
      compares options (options.formatted input) candidate := by
  have hcompares : compares options.forIgnore (options.forIgnore.formatted input) candidate =
      compares options (options.formatted input) candidate := rfl
  rw [isMatch_eq_verdictBy, verdictBy]
  simp [hinput, hcompares]

/-! ### The composed matcher -/

/-- What there is to tell about a text, in order: a result for every pattern up to the first one
that matches, and then whether the text is ignored. The first argument lists the patterns, each
with the matcher of it alone. The empty text is compared with nothing. -/
def trace (options : Options) (solos : List (List Char × Matcher)) (isVetoed : Bool)
    (input : List Char) : List Event :=
  if input.isEmpty then (solos.take 1).map fun (glob, _) => ⟨.result, glob, input, input, false⟩
  else
    let event (kind : EventKind) (isMatch : Bool) (glob : List Char) : Event :=
      ⟨kind, glob, input, options.formatted input, isMatch⟩
    let misses := solos.takeWhile fun (_, solo) => !solo.isMatch input
    let hit := solos.find? fun (_, solo) => solo.isMatch input
    misses.map (fun (glob, _) => event .result false glob) ++
      hit.toList.flatMap fun (glob, _) => [event .result true glob,
        if isVetoed then event .ignored false glob else event .matched true glob]

section
variable {options : Options} {input : List Char}

/-- Single patterns and the candidates made of them decide alike. -/
theorem any_solos_eq {globs : List (List Char)} {candidates : List Candidate} {solos : List Matcher}
    (hcandidates : List.Forall₂ (fun glob candidate => Candidate.ofGlob options glob = .ok candidate)
      globs candidates)
    (hsolos : List.Forall₂ (IsSolo options) globs solos) (hinput : input ≠ []) :
    solos.any (·.isMatch input) =
      candidates.any (compares options (options.formatted input)) := by
  induction hcandidates generalizing solos with
  | nil =>
    cases hsolos
    rfl
  | cons hcandidate _ ih =>
    obtain _ | ⟨hsolo, hsolos⟩ := hsolos
    obtain ⟨candidate, hcandidate', rfl⟩ := isSolo_iff.mp hsolo
    cases hcandidate.symm.trans hcandidate'
    rw [List.any_cons, List.any_cons, isMatch_solo options _ hinput, ih hsolos]

/-- The events on the way to a verdict are the trace of the single patterns. -/
theorem judge_snd_eq_trace {matcher : Matcher} {isVetoed : Bool}
    (hvetoed : matcher.isIgnored input = isVetoed) (hoptions : matcher.options = options)
    (hinput : input ≠ []) {globs : List (List Char)} {candidates : List Candidate}
    {solos : List Matcher}
    (hcandidates : List.Forall₂ (fun glob candidate => Candidate.ofGlob options glob = .ok candidate)
      globs candidates)
    (hsolos : List.Forall₂ (IsSolo options) globs solos) :
    (matcher.judge input (options.formatted input) candidates).2 =
      trace options (globs.zip solos) isVetoed input := by
  have hempty : input.isEmpty = false := by simpa using hinput
  simp only [trace, hempty, Bool.false_eq_true, if_false]
  induction hcandidates generalizing solos with
  | nil =>
    cases hsolos
    rfl
  | @cons glob candidate globs candidates hcandidate _ ih =>
    obtain _ | ⟨hsolo, hsolos⟩ := hsolos
    obtain ⟨candidate, hcandidate', rfl⟩ := isSolo_iff.mp hsolo
    cases hcandidate.symm.trans hcandidate'
    have hmatch := isMatch_solo options candidate hinput
    have hglob := Candidate.glob_of_ofGlob hcandidate
    cases hcompares : compares options (options.formatted input) candidate with
    | false =>
      -- A miss is told, and the others are asked.
      rw [judge_cons_of_not (hoptions ▸ hcompares), ih hsolos]
      simp [hmatch, hcompares, hglob]
    | true =>
      -- The first hit settles everything.
      rw [judge_cons_of_compares (hoptions ▸ hcompares), decisionOn, decision, hvetoed]
      cases isVetoed <;> simp [hmatch, hcompares, hglob]

/-- The verdict and the trace of a matcher are those of its single patterns. -/
theorem report_eq_of_solos {globs : List (List Char)} {matcher : Matcher}
    (h : ofGlobs globs options = .ok matcher) {solos vetoes : List Matcher}
    (hsolos : List.Forall₂ (IsSolo options) globs solos)
    (hvetoes : List.Forall₂ (IsSolo options) options.ignore vetoes) (input : List Char) :
    matcher.report input =
      (!input.isEmpty && solos.any (·.isMatch input) && !vetoes.any (·.isMatch input),
        (trace options (globs.zip solos) (vetoes.any (·.isMatch input)) input).filter
          options.observers.sees) := by
  obtain ⟨-, hoptions, hpatterns, hignored⟩ := ofGlobs_eq_ok_iff.mp h
  by_cases hinput : input = []
  · -- The empty text is compared with no pattern, but told of the first one.
    subst hinput
    have hglobs : (matcher.patterns.take 1).map Candidate.glob =
        ((globs.zip solos).take 1).map Prod.fst := by
      generalize matcher.patterns = patterns at hpatterns
      cases hpatterns with
      | nil => rfl
      | cons hcandidate =>
        obtain _ | ⟨hsolo, hsolos⟩ := hsolos
        simp [Candidate.glob_of_ofGlob hcandidate]
    have hevents := congrArg (List.map fun glob => (⟨.result, glob, [], [], false⟩ : Event)) hglobs
    rw [List.map_map, List.map_map] at hevents
    rw [report, hoptions]
    exact congrArg (fun events => (false, events.filter options.observers.sees)) hevents
  · have hvetoed : matcher.isIgnored input = vetoes.any (·.isMatch input) := by
      have hignored' : List.Forall₂
          (fun glob candidate => Candidate.ofGlob options glob = .ok candidate) options.ignore
            matcher.vetoes :=
        hignored.imp fun glob candidate hcandidate =>
          (Candidate.ofGlob_withPolicy options [] {} glob).symm.trans hcandidate
      rw [isIgnored, hoptions, any_solos_eq hignored' hvetoes hinput]
      rfl
    have hempty : input.isEmpty = false := by simpa using hinput
    have htrace := judge_snd_eq_trace hvetoed hoptions hinput hpatterns hsolos
    have hverdict := judge_fst matcher input (options.formatted input) matcher.patterns
    rw [hvetoed, hoptions, ← any_solos_eq hpatterns hsolos hinput] at hverdict
    simp only [report, hempty, hoptions, Bool.false_eq_true, if_false, htrace, hverdict,
      Bool.not_false, Bool.true_and]

/-- Patterns that make a matcher also make one each alone. -/
theorem exists_solos {globs : List (List Char)}
    (h : ∀ glob ∈ globs, ∃ candidate, Candidate.ofGlob options glob = .ok candidate) :
    ∃ solos, List.Forall₂ (IsSolo options) globs solos := by
  refine exists_mapM_eq_ok_iff.mpr fun glob hglob => ?_
  obtain ⟨candidate, hcandidate⟩ := h glob hglob
  exact ⟨_, isSolo_iff.mpr ⟨candidate, hcandidate, rfl⟩⟩

/-- Nobody is told anything by the matcher of a single pattern. -/
theorem IsSolo.report_snd {glob : List Char} {solo : Matcher} (h : IsSolo options glob solo)
    (input : List Char) : (solo.report input).2 = [] := by
  obtain ⟨candidate, -, rfl⟩ := isSolo_iff.mp h
  have hunseen (event : Event) : ¬ options.forIgnore.observers.sees event = true := by
    obtain ⟨kind, glob, input, output, isMatch⟩ := event
    cases kind <;> exact Bool.false_ne_true
  exact List.filter_eq_nil_iff.mpr fun event _ => hunseen event

/-- Matchers with the same patterns, in whatever order and number, and with the same ignored
patterns are made or refused alike, and they come to the same verdicts, whoever observes. -/
theorem exists_isMatch_eq {globs globs' ignore' : List (List Char)} {matcher : Matcher}
    (h : ofGlobs globs options = .ok matcher) (observers' : Observers)
    (hglobs : ∀ glob, glob ∈ globs' ↔ glob ∈ globs)
    (hignore : ∀ glob, glob ∈ ignore' ↔ glob ∈ options.ignore) :
    ∃ matcher', ofGlobs globs' { options with ignore := ignore', observers := observers' } =
      .ok matcher' ∧ ∀ input, matcher'.isMatch input = matcher.isMatch input := by
  let options' := options.withPolicy ignore' observers'
  have hsame : Candidate.ofGlob options' = Candidate.ofGlob options :=
    funext (Candidate.ofGlob_withPolicy options ignore' observers')
  obtain ⟨hne, hoptions, hpatterns, hvetoes⟩ := ofGlobs_eq_ok_iff.mp h
  have hne' : globs' ≠ [] := by
    obtain ⟨glob, hglob⟩ := List.exists_mem_of_ne_nil globs hne
    exact List.ne_nil_of_mem ((hglobs glob).mpr hglob)
  obtain ⟨patterns', hpatterns'⟩ := exists_mapM_eq_ok_iff.mpr fun glob hglob =>
    exists_mapM_eq_ok_iff.mp ⟨_, hpatterns⟩ glob ((hglobs glob).mp hglob)
  obtain ⟨vetoes', hvetoes'⟩ := exists_mapM_eq_ok_iff.mpr fun glob hglob =>
    exists_mapM_eq_ok_iff.mp ⟨_, hvetoes⟩ glob ((hignore glob).mp hglob)
  have hmade : ofGlobs globs' options' = .ok ⟨options', patterns', vetoes'⟩ :=
    ofGlobs_eq_ok_iff.mpr ⟨hne', rfl, by rw [hsame]; exact hpatterns', hvetoes'⟩
  refine ⟨⟨options', patterns', vetoes'⟩, hmade, fun input => ?_⟩
  -- Both verdicts ask whether there is a pattern of some kind.
  have hany {test : Candidate → Bool} : patterns'.any test = matcher.patterns.any test := by
    rw [Bool.eq_iff_iff, any_of_forall₂ hpatterns', any_of_forall₂ hpatterns]
    simp only [hglobs]
  have hveto {test : Candidate → Bool} : vetoes'.any test = matcher.vetoes.any test := by
    rw [Bool.eq_iff_iff, any_of_forall₂ hvetoes', any_of_forall₂ hvetoes]
    simp only [hignore]
  rw [isMatch_eq_verdictBy, isMatch_eq_verdictBy, verdictBy, verdictBy, hany, hveto, hoptions]
  rfl

end

end Matcher

end PathGlob
