import PathGlob.Proofs.Pattern.Strict

/-!
# `PathGlob.Proofs.Pattern.Unbalanced`: which patterns strict brackets refuse

The states that the tokenizer passes through without strict brackets (`Tokenizer.Passes`) tell
what becomes of a pattern with them. A delimiter is missing if at one of these states the next
character needs another one that is not there, or if something is open at the last of them
(`Tokenizer.fault?`). A closing brace never needs an opening one.

A pattern is refused exactly if it is unbalanced in this sense, or if an extension that is
translated on its own is (`parse_unbalanced_iff`). The second may happen to a pattern in which
every delimiter has its counterpart, as the extension behind `(!(*)` in `(!(*).a)` is `.a)`. The
error is then about the extension and not about the pattern.
-/

set_option autoImplicit false

namespace PathGlob

namespace Pattern

namespace Tokenizer

/-- The tokenizer passes through the second state on its way from the first one. -/
inductive Passes (ctx : Context) (tail : List Char → Except Error (List Char)) :
    Tokenizer → Tokenizer → Prop where
  | refl (t : Tokenizer) : Passes ctx tail t t
  | step {t next t' : Tokenizer} {c : Char} {rest : List Char} (hrest : t.rest = c :: rest)
      (hstep : step ctx tail (t.reading rest) c = .ok next) (h : Passes ctx tail next t') :
      Passes ctx tail t t'

/-- The delimiter that is missing at a state between two characters, and the place where it is
missed. -/
def fault? (ctx : Context) (t : Tokenizer) : Option (Delimiter × Nat) :=
  match t.rest with
  | [] => t.unclosed?.map fun c => (.closing c, ctx.body.length)
  | c :: rest => (t.reading rest).missing? ctx c

/-- The extension that the next character has translated. -/
def nextExtension? (t : Tokenizer) : Option (List Char) :=
  match t.rest with
  | [] => none
  | c :: rest => (t.reading rest).extension? c

section
variable {ctx : Context} {tail tail' : List Char → Except Error (List Char)}
  {t t' next : Tokenizer} {c : Char} {rest : List Char} {e : Error}

theorem fault?_of_rest_nil (hrest : t.rest = []) :
    t.fault? ctx = t.unclosed?.map fun c => (.closing c, ctx.body.length) := by
  rw [fault?, hrest]

theorem fault?_of_rest_eq (hrest : t.rest = c :: rest) :
    t.fault? ctx = (t.reading rest).missing? ctx c := by
  rw [fault?, hrest]

theorem nextExtension?_of_rest_eq (hrest : t.rest = c :: rest) :
    t.nextExtension? = (t.reading rest).extension? c := by
  rw [nextExtension?, hrest]

/-- An extension that is translated is all that is left behind a character. -/
theorem of_nextExtension? {text : List Char} (h : t.nextExtension? = some text) :
    isExtension text = true ∧ ∃ c, t.rest = c :: text := by
  cases hrest : t.rest with
  | nil => simp [nextExtension?, hrest] at h
  | cons c rest =>
    rw [nextExtension?_of_rest_eq hrest] at h
    obtain ⟨rfl, hextension⟩ := of_extension? h
    exact ⟨hextension, c, rfl⟩

/-! ### Steps and runs -/

/-- What the tokenizer arrives at from a state, with the end of the text. -/
def complete (ctx : Context) (tail : List Char → Except Error (List Char)) (t : Tokenizer) :
    Except Error Tokenizer :=
  run ctx tail t.rest.length t >>= finish ctx

theorem complete_of_rest_nil (hrest : t.rest = []) : complete ctx tail t = t.finish ctx := by
  rw [complete, run_of_rest_nil ctx tail hrest]
  rfl

theorem complete_of_step (hrest : t.rest = c :: rest)
    (hstep : step ctx tail (t.reading rest) c = .ok next) :
    complete ctx tail t = complete ctx tail next := by
  have hnext : next.rest.length ≤ rest.length := (follows_step hstep).length_rest_le
  rw [complete, complete, hrest, List.length_cons, run_of_rest_eq ctx tail hrest, hstep]
  exact congrArg (· >>= finish ctx) (run_eq_run hnext (Nat.le_refl _))

theorem complete_of_step_error (hrest : t.rest = c :: rest)
    (hstep : step ctx tail (t.reading rest) c = .error e) :
    complete ctx tail t = .error e := by
  rw [complete, hrest, List.length_cons, run_of_rest_eq ctx tail hrest, hstep]
  rfl

/-- A step goes through if no delimiter is missing and the extension, if there is one, is
translated. -/
theorem exists_step_of_missing? (hmissing : t.missing? ctx c = none)
    (htail : ∀ text, t.extension? c = some text → ∃ source, tail text = .ok source) :
    ∃ next, step ctx tail t c = .ok next := by
  rw [← step_lenient hmissing]
  exact exists_step_eq_ok rfl htail

/-- With strict brackets, a step that goes through is the same step without. -/
theorem of_step_eq_ok (hstrict : ctx.options.strictBrackets = true) (htail : Refines tail tail')
    (hstep : step ctx tail t c = .ok next) : t.missing? ctx c = none ∧
      (∀ text, t.extension? c = some text → ∃ source, tail text = .ok source) ∧
        step ctx.lenient tail' t c = .ok next := by
  have hmissing : t.missing? ctx c = none := by
    cases hmissing : t.missing? ctx c with
    | none => rfl
    | some missing => cases (step_of_missing? hstrict hmissing).symm.trans hstep
  have hextension (text : List Char) (h : t.extension? c = some text) :
      ∃ source, tail text = .ok source := by
    cases htext : tail text with
    | error e => cases (step_of_extension? h htext).symm.trans hstep
    | ok source => exact ⟨source, rfl⟩
  have hcongr : step ctx tail t c = step ctx tail' t c := step_congr_tail fun text h => by
    obtain ⟨source, hsource⟩ := hextension text h
    rw [hsource, htail text source hsource]
  exact ⟨hmissing, hextension, (step_lenient hmissing).trans (hcongr.symm.trans hstep)⟩

section
variable (hstrict : ctx.options.strictBrackets = true) (htail : Refines tail tail')
include hstrict htail

/-- If the tokenizer ends in an error, it passes, without strict brackets, through a state where a
delimiter is missing or an extension is not translated, and that is the error. -/
theorem exists_passes_of_complete_eq_error (h : complete ctx tail t = .error e) :
    ∃ t', Passes ctx.lenient tail' t t' ∧
      ((∃ missing place, t'.fault? ctx = some (missing, place) ∧
          e = ctx.unbalanced missing place) ∨
        ∃ text, t'.nextExtension? = some text ∧ tail text = .error e) := by
  induction hn : t.rest.length using Nat.strongRecOn generalizing t with
  | ind n ih =>
    cases hrest : t.rest with
    | nil =>
      rw [complete_of_rest_nil hrest] at h
      have hfault : t.fault? ctx = _ := fault?_of_rest_nil hrest
      cases hopen : t.unclosed? with
      | none =>
        obtain ⟨t', hfinish⟩ : ∃ t', t.finish ctx.lenient = .ok t' := exists_finish_eq_ok rfl
        cases hfinish.symm.trans ((finish_lenient hopen).trans h)
      | some delimiter =>
        rw [hopen] at hfault
        exact ⟨t, .refl t, .inl ⟨_, _, hfault, by
          exact Except.error.inj (h.symm.trans (finish_of_unclosed? hstrict hopen))⟩⟩
    | cons c rest =>
      cases hmissing : (t.reading rest).missing? ctx c with
      | some missing =>
        obtain ⟨missing, place⟩ := missing
        have herror : complete ctx tail t = _ :=
          complete_of_step_error hrest (step_of_missing? hstrict hmissing)
        exact ⟨t, .refl t, .inl ⟨missing, place, (fault?_of_rest_eq hrest).trans hmissing,
          Except.error.inj (h.symm.trans herror)⟩⟩
      | none =>
        by_cases hfails : ∃ text e', (t.reading rest).extension? c = some text ∧
            tail text = .error e'
        case pos =>
          obtain ⟨text, e', htext, he'⟩ := hfails
          have herror : complete ctx tail t = _ :=
            complete_of_step_error hrest (step_of_extension? htext he')
          obtain rfl : e = e' := Except.error.inj (h.symm.trans herror)
          exact ⟨t, .refl t, .inr ⟨text, (nextExtension?_of_rest_eq hrest).trans htext, he'⟩⟩
        case neg =>
          have hextension (text : List Char) (htext : (t.reading rest).extension? c = some text) :
              ∃ source, tail text = .ok source := by
            cases hsource : tail text with
            | error e' => exact absurd ⟨text, e', htext, hsource⟩ hfails
            | ok source => exact ⟨source, rfl⟩
          obtain ⟨next, hstep⟩ := exists_step_of_missing? hmissing hextension
          rw [complete_of_step hrest hstep] at h
          have hlt : next.rest.length < n := by
            have : next.rest.length ≤ rest.length := (follows_step hstep).length_rest_le
            rw [← hn, hrest, List.length_cons]
            exact Nat.lt_succ_of_le this
          obtain ⟨t', hpasses, hfault⟩ := ih _ hlt h rfl
          exact ⟨t', .step hrest (of_step_eq_ok hstrict htail hstep).2.2 hpasses, hfault⟩

/-- If the tokenizer arrives at the end, no delimiter is missing on its way, and all extensions are
translated. -/
theorem fault?_of_passes {r : Tokenizer} (h : complete ctx tail t = .ok r)
    (hpasses : Passes ctx.lenient tail' t t') :
    t'.fault? ctx = none ∧
      ∀ text, t'.nextExtension? = some text → ∃ source, tail text = .ok source := by
  have hfirst {t : Tokenizer} {c : Char} {rest : List Char} (hrest : t.rest = c :: rest)
      (h : complete ctx tail t = .ok r) :
      ∃ next, step ctx tail (t.reading rest) c = .ok next := by
    cases hstep : step ctx tail (t.reading rest) c with
    | error e => cases (complete_of_step_error hrest hstep).symm.trans h
    | ok next => exact ⟨next, rfl⟩
  induction hpasses with
  | refl t =>
    cases hrest : t.rest with
    | nil =>
      rw [complete_of_rest_nil hrest] at h
      rw [fault?_of_rest_nil hrest, nextExtension?, hrest]
      refine ⟨?_, fun text htext => absurd htext (by simp)⟩
      cases hopen : t.unclosed? with
      | none => rfl
      | some delimiter => cases (finish_of_unclosed? hstrict hopen).symm.trans h
    | cons c rest =>
      obtain ⟨next, hstep⟩ := hfirst hrest h
      obtain ⟨hmissing, hextension, -⟩ := of_step_eq_ok hstrict htail hstep
      rw [fault?_of_rest_eq hrest, nextExtension?_of_rest_eq hrest]
      exact ⟨hmissing, hextension⟩
  | step hrest hstep hpasses ih =>
    obtain ⟨next, hnext⟩ := hfirst hrest h
    obtain rfl := Except.ok.inj ((of_step_eq_ok hstrict htail hnext).2.2.symm.trans hstep)
    exact ih ((complete_of_step hrest hnext).symm.trans h)

end

/-! ### The states on the way -/

theorem Passes.eq_or {t' : Tokenizer} (h : Passes ctx tail t t') (hrest : t.rest = c :: rest)
    (hstep : Tokenizer.step ctx tail (t.reading rest) c = .ok next) :
    t' = t ∨ Passes ctx tail next t' := by
  cases h with
  | refl => exact .inl rfl
  | step hrest' hstep' h =>
    cases hrest.symm.trans hrest'
    cases hstep.symm.trans hstep'
    exact .inr h

theorem Passes.eq_of_rest_nil {t' : Tokenizer} (h : Passes ctx tail t t') (hrest : t.rest = []) :
    t' = t := by
  cases h with
  | refl => rfl
  | step hrest' hstep h => cases hrest.symm.trans hrest'

theorem Passes.rest_isSuffix (h : Passes ctx tail t t') : t'.rest <:+ t.rest := by
  induction h with
  | refl t => exact List.suffix_refl _
  | step hrest hstep h ih =>
    obtain ⟨k, hnext, -⟩ := follows_step hstep
    rw [hnext] at ih
    exact ih.trans ((List.drop_suffix k _).trans (hrest ▸ List.suffix_cons _ _))

/-- If no extensions can turn up, it makes no difference how they would be translated. -/
theorem Passes.congr_tail (hplain : ∀ text, text <:+ t.rest.tail → isExtension text = false)
    (h : Passes ctx tail t t') : Passes ctx tail' t t' ∧ t'.nextExtension? = none := by
  have hnone {t : Tokenizer} {c : Char} {rest : List Char} (hrest : t.rest = c :: rest)
      (hplain : ∀ text, text <:+ t.rest.tail → isExtension text = false) :
      (t.reading rest).extension? c = none := by
    cases htext : (t.reading rest).extension? c with
    | none => rfl
    | some text =>
      obtain ⟨rfl, hextension⟩ := of_extension? htext
      rw [hrest] at hplain
      cases hextension.symm.trans (hplain _ (List.suffix_refl _))
  induction h with
  | refl t =>
    refine ⟨.refl t, ?_⟩
    cases hrest : t.rest with
    | nil => rw [nextExtension?, hrest]
    | cons c rest => rw [nextExtension?_of_rest_eq hrest, hnone hrest hplain]
  | step hrest hstep h ih =>
    obtain ⟨k, hnext, -⟩ := follows_step hstep
    obtain ⟨hpasses, hextension⟩ := ih fun text htext => by
      refine hplain text (htext.trans ?_)
      rw [hnext, hrest]
      exact (List.tail_suffix _).trans (List.drop_suffix k _)
    have hcongr : Tokenizer.step ctx tail _ _ = Tokenizer.step ctx tail' _ _ :=
      step_congr_tail fun text htext => absurd (htext.symm.trans (hnone hrest hplain)) (by simp)
    exact ⟨.step hrest (hcongr.symm.trans hstep) hpasses, hextension⟩

end

end Tokenizer

/-! ### Patterns -/

section
variable (options : Options) (pattern : List Char)

/-- Without strict brackets, the tokenizer passes through the state when it reads the pattern. -/
def Passes (t : Tokenizer) : Prop :=
  Tokenizer.Passes (Context.ofPattern options.lenient pattern)
    (extensionSource options.lenient pattern.length)
    { rest := (Context.ofPattern options.lenient pattern).body } t

/-- A delimiter is missing from the pattern, which is noticed at a place that so many bytes stand
before. -/
def IsMissing (missing : Delimiter) (offset : Nat) : Prop :=
  ∃ t place, Passes options pattern t ∧
    t.fault? (Context.ofPattern options pattern) = some (missing, place) ∧
      (Context.ofPattern options pattern).unbalanced missing place =
        .unbalanced pattern missing offset

/-- Some delimiter is missing from the pattern. -/
def IsUnbalanced : Prop := ∃ missing offset, IsMissing options pattern missing offset

/-- The text is an extension that the tokenizer translates on its own when it reads the pattern. -/
def HasExtension (extension : List Char) : Prop :=
  ∃ t, Passes options pattern t ∧ t.nextExtension? = some extension

end

section
variable {options : Options} {pattern text : List Char} {missing : Delimiter} {offset : Nat}
  {e : Error}

theorem IsMissing.exists_before (h : IsMissing options pattern missing offset) :
    ∃ before, before <+: pattern ∧ offset = Text.byteSize before := by
  obtain ⟨t, place, -, -, herror⟩ := h
  cases herror
  exact exists_prefix_of_place options pattern place

theorem HasExtension.isExtension (h : HasExtension options pattern text) :
    isExtension text = true := by
  obtain ⟨t, -, htext⟩ := h
  exact (Tokenizer.of_nextExtension? htext).1

theorem HasExtension.isSuffix (h : HasExtension options pattern text) :
    text <:+ (Context.ofPattern options.lenient pattern).body := by
  obtain ⟨t, hpasses, htext⟩ := h
  obtain ⟨-, c, hrest⟩ := Tokenizer.of_nextExtension? htext
  exact (List.suffix_cons c text).trans (hrest ▸ hpasses.rest_isSuffix)

theorem HasExtension.byteSize_le (h : HasExtension options pattern text) :
    Text.byteSize text ≤ Text.byteSize pattern :=
  Nat.le_trans (byteSize_le_of_suffix h.isSuffix) (byteSize_body_le options.lenient pattern)

theorem map_eq_error_iff {α β : Type} {result : Except Error α} {f : α → β} :
    result.map f = .error e ↔ result = .error e := by
  cases result <;> simp [Except.map]

/-- What the tokenizer arrives at is an error exactly if the translation is. -/
theorem complete_eq_error_iff (hsize : Text.byteSize pattern ≤ options.effectiveMaxLength)
    (depth : Nat) :
    Tokenizer.complete (Context.ofPattern options pattern) (extensionSource options depth)
        { rest := (Context.ofPattern options pattern).body } = .error e ↔
      pattern ≠ [] ∧ parseWithin depth options pattern = .error e := by
  let ctx := Context.ofPattern options pattern
  let translation (t : Tokenizer) : Translation := {
    input := ctx.pattern, output := t.output, dotSlash := ctx.dotSlash, negated := t.negated
    negatedExtglob := t.negatedExtglob, globstar := t.globstar, fastPath := false
    tokens := t.tokens }
  have htokenize (tail : List Char → Except Error (List Char)) :
      ctx.tokenize tail = (Tokenizer.complete ctx tail { rest := ctx.body }).map translation := by
    unfold Context.tokenize Tokenizer.complete
    cases Tokenizer.run ctx tail ctx.body.length { rest := ctx.body } with
    | error => rfl
    | ok t =>
      show (t.finish ctx >>= _) = (t.finish ctx).map translation
      cases t.finish ctx <;> rfl
  have htranslate (tail : List Char → Except Error (List Char)) :
      Tokenizer.complete ctx tail { rest := ctx.body } = .error e ↔
        translate options tail pattern = .error e := by
    rw [← map_eq_error_iff (f := Translation.essence), translate_essence, map_eq_error_iff,
      show (Context.ofPattern options pattern).tokenize tail = _ from htokenize tail,
      map_eq_error_iff]
  rw [parseWithin_eq, if_neg (Nat.not_lt.mpr hsize)]
  cases pattern with
  | nil =>
    have hbody : ctx.body = [] := by
      cases hwindows : options.windows <;> simp [ctx, Context.ofPattern, simplify, hwindows,
        Separator.normalize, Separator.normalizeFrom, dropDotSlash]
    obtain ⟨t, hfinish⟩ : ∃ t, ({ rest := ctx.body } : Tokenizer).finish ctx.lenient = .ok t :=
      Tokenizer.exists_finish_eq_ok rfl
    have hcomplete : Tokenizer.complete ctx (extensionSource options depth) { rest := ctx.body } =
        .ok t :=
      (Tokenizer.complete_of_rest_nil hbody).trans
        ((Tokenizer.finish_lenient rfl).symm.trans hfinish)
    exact ⟨fun h => absurd (hcomplete.symm.trans h) (by simp), fun h => absurd rfl h.1⟩
  | cons c pattern => simpa using htranslate _

/-- An extension is not translated if the tokenizer ends in an error. -/
theorem complete_eq_extensionSource_error_iff
    (hsize : Text.byteSize text ≤ options.effectiveMaxLength) (hextension : isExtension text = true)
    (depth : Nat) :
    Tokenizer.complete (Context.ofPattern options text) (extensionSource options depth)
        { rest := (Context.ofPattern options text).body } = .error e ↔
      extensionSource options (depth + 1) text = .error e := by
  have hne : text ≠ [] := by
    rintro rfl
    cases hextension
  rw [complete_eq_error_iff hsize, extensionSource, map_eq_error_iff,
    ← map_eq_error_iff (f := Translation.essence), ← parseWithin_essence depth options false text,
    map_eq_error_iff]
  exact and_iff_right hne

/-- It makes no difference how the extensions of an extension would be translated. -/
theorem passes_of_isExtension (hextension : isExtension text = true)
    {tail tail' : List Char → Except Error (List Char)} {t : Tokenizer}
    (h : Tokenizer.Passes (Context.ofPattern options text).lenient tail
      { rest := (Context.ofPattern options text).body } t) :
    Tokenizer.Passes (Context.ofPattern options text).lenient tail'
        { rest := (Context.ofPattern options text).body } t ∧ t.nextExtension? = none := by
  refine h.congr_tail fun rest hrest => not_isExtension_of_suffix hextension ?_
  rwa [body_of_isExtension options hextension] at hrest

/-- An extension is not translated exactly if a delimiter is missing from it, and that is the
error. -/
theorem isMissing_of_extensionSource (hstrict : options.strictBrackets = true)
    (hsize : Text.byteSize text ≤ options.effectiveMaxLength) (hextension : isExtension text = true)
    {depth : Nat} (h : extensionSource options (depth + 1) text = .error e) :
    ∃ missing offset, IsMissing options text missing offset ∧
      e = .unbalanced text missing offset := by
  obtain ⟨t, hpasses, hfault | ⟨rest, hrest, -⟩⟩ :=
    Tokenizer.exists_passes_of_complete_eq_error hstrict
      (refines_extensionSource_lenient hstrict depth)
      ((complete_eq_extensionSource_error_iff hsize hextension depth).mpr h)
  case inl =>
    obtain ⟨missing, place, hfault, rfl⟩ := hfault
    exact ⟨missing, _, ⟨t, place, (passes_of_isExtension hextension hpasses).1, hfault, rfl⟩, rfl⟩
  case inr =>
    obtain ⟨-, hnone⟩ : Tokenizer.Passes _ (extensionSource options depth) _ t ∧ _ :=
      passes_of_isExtension hextension hpasses
    cases hnone.symm.trans hrest

theorem not_isUnbalanced_of_extensionSource (hstrict : options.strictBrackets = true)
    (hsize : Text.byteSize text ≤ options.effectiveMaxLength) (hextension : isExtension text = true)
    {depth : Nat} {source : List Char} (h : extensionSource options (depth + 1) text = .ok source) :
    ¬IsUnbalanced options text := by
  rintro ⟨missing, offset, t, place, hpasses, hfault, -⟩
  cases hcomplete : Tokenizer.complete (Context.ofPattern options text)
      (extensionSource options depth) { rest := (Context.ofPattern options text).body } with
  | error e =>
    have := (complete_eq_extensionSource_error_iff hsize hextension depth).mp hcomplete
    cases h.symm.trans this
  | ok r =>
    have hnone := (Tokenizer.fault?_of_passes hstrict
      (refines_extensionSource_lenient hstrict depth) hcomplete
      (passes_of_isExtension hextension hpasses).1).1
    cases hnone.symm.trans hfault

/-- If the tokenizer ends in an error, a delimiter is missing from the pattern or from one of its
extensions. -/
theorem exists_isMissing_of_complete (hstrict : options.strictBrackets = true)
    (hsize : Text.byteSize pattern ≤ options.effectiveMaxLength)
    (h : Tokenizer.complete (Context.ofPattern options pattern)
      (extensionSource options pattern.length)
      { rest := (Context.ofPattern options pattern).body } = .error e) :
    ∃ expression missing offset, e = .unbalanced expression missing offset ∧
      (expression = pattern ∨ HasExtension options pattern expression) ∧
        IsMissing options expression missing offset := by
  obtain ⟨hne, -⟩ := (complete_eq_error_iff hsize _).mp h
  obtain ⟨depth, hdepth⟩ : ∃ depth, pattern.length = depth + 1 :=
    Nat.exists_eq_succ_of_ne_zero (mt List.length_eq_zero_iff.mp hne)
  obtain ⟨t, hpasses, hfault | ⟨text, htext, herror⟩⟩ :=
    Tokenizer.exists_passes_of_complete_eq_error hstrict
      (refines_extensionSource_lenient hstrict pattern.length) h
  case inl =>
    obtain ⟨missing, place, hfault, rfl⟩ := hfault
    exact ⟨pattern, missing, _, rfl, .inl rfl, t, place, hpasses, hfault, rfl⟩
  case inr =>
    have hextension : HasExtension options pattern text := ⟨t, hpasses, htext⟩
    rw [hdepth] at herror
    obtain ⟨missing, offset, hmissing, rfl⟩ := isMissing_of_extensionSource hstrict
      (Nat.le_trans hextension.byteSize_le hsize) hextension.isExtension herror
    exact ⟨text, missing, offset, rfl, .inr hextension, hmissing⟩

end

end Pattern

open Pattern

/-- With strict brackets, a pattern of admissible length is refused exactly if a delimiter is
missing from it, or from an extension that is translated on its own. The error names which of the
two it is, and an offset at the end of one of its beginnings. -/
theorem parse_unbalanced_iff {options : Options} {pattern : List Char}
    (hstrict : options.strictBrackets = true)
    (hsize : Text.byteSize pattern ≤ options.effectiveMaxLength) :
    ((∃ expression missing offset,
        parse pattern options = .error (.unbalanced expression missing offset)) ↔
      IsUnbalanced options pattern ∨
        ∃ extension, HasExtension options pattern extension ∧ IsUnbalanced options extension) ∧
    ∀ expression missing offset,
      parse pattern options = .error (.unbalanced expression missing offset) →
        (expression = pattern ∨ HasExtension options pattern expression) ∧
          IsMissing options expression missing offset ∧
            ∃ before, before <+: expression ∧ offset = Text.byteSize before := by
  have hcomplete {expression : List Char} {missing : Delimiter} {offset : Nat}
      (h : parse pattern options = .error (.unbalanced expression missing offset)) :
      Tokenizer.complete (Context.ofPattern options pattern)
        (extensionSource options pattern.length)
        { rest := (Context.ofPattern options pattern).body } =
          .error (.unbalanced expression missing offset) := by
    refine (complete_eq_error_iff hsize _).mpr ⟨?_, h⟩
    rintro rfl
    rw [parse, parseWithin_eq, if_neg (Nat.not_lt.mpr hsize)] at h
    cases h
  have herror {expression : List Char} {missing : Delimiter} {offset : Nat}
      (h : parse pattern options = .error (.unbalanced expression missing offset)) :
      (expression = pattern ∨ HasExtension options pattern expression) ∧
        IsMissing options expression missing offset := by
    obtain ⟨_, _, _, heq, hexpression, hmissing⟩ :=
      exists_isMissing_of_complete hstrict hsize (hcomplete h)
    cases heq
    exact ⟨hexpression, hmissing⟩
  refine ⟨⟨?_, ?_⟩, fun expression missing offset h =>
    ⟨(herror h).1, (herror h).2, (herror h).2.exists_before⟩⟩
  case refine_1 =>
    rintro ⟨expression, missing, offset, h⟩
    obtain ⟨rfl | hextension, hmissing⟩ := herror h
    case inl => exact .inl ⟨missing, offset, hmissing⟩
    case inr => exact .inr ⟨expression, hextension, missing, offset, hmissing⟩
  case refine_2 =>
    intro hunbalanced
    cases hrun : Tokenizer.complete (Context.ofPattern options pattern)
        (extensionSource options pattern.length)
        { rest := (Context.ofPattern options pattern).body } with
    | error e =>
      obtain ⟨expression, missing, offset, rfl, -⟩ :=
        exists_isMissing_of_complete hstrict hsize hrun
      exact ⟨expression, missing, offset, ((complete_eq_error_iff hsize _).mp hrun).2⟩
    | ok r =>
      have hfine {t : Tokenizer} (hpasses : Passes options pattern t) :=
        Tokenizer.fault?_of_passes hstrict
          (refines_extensionSource_lenient hstrict pattern.length) hrun hpasses
      obtain ⟨missing, offset, t, place, hpasses, hfault, -⟩ | ⟨text, hextension, hunbalanced⟩ :=
        hunbalanced
      case inl => cases (hfine hpasses).1.symm.trans hfault
      case inr =>
        have hplain := hextension.isExtension
        have htext := Nat.le_trans hextension.byteSize_le hsize
        obtain ⟨t, hpasses, hnext⟩ := hextension
        obtain ⟨source, hsource⟩ := (hfine hpasses).2 text hnext
        cases hdepth : pattern.length with
        | zero =>
          rw [hdepth] at hsource
          cases hsource
        | succ depth =>
          rw [hdepth] at hsource
          exact absurd hunbalanced
            (not_isUnbalanced_of_extensionSource hstrict htext hplain hsource)

/-- Results can be compared. -/
instance decidableEqResult {α : Type} [DecidableEq α] : DecidableEq (Except Error α)
  | .error e, .error e' => decidable_of_iff (e = e') (by simp)
  | .ok a, .ok b => decidable_of_iff (a = b) (by simp)
  | .error _, .ok _ => isFalse (by simp)
  | .ok _, .error _ => isFalse (by simp)

theorem parse_unbalanced_iff_extension :
    HasExtension { strictBrackets := true } ['(', '!', '(', '*', ')', '.', 'a', ')']
        ['.', 'a', ')'] ∧
      IsMissing { strictBrackets := true } ['.', 'a', ')'] (.opening '(') 2 := by
  have hparse : parse ['(', '!', '(', '*', ')', '.', 'a', ')'] { strictBrackets := true } =
      .error (.unbalanced ['.', 'a', ')'] (.opening '(') 2) := by
    decide +kernel
  obtain ⟨hexpression, hmissing, -⟩ :=
    (parse_unbalanced_iff (show ({ strictBrackets := true } : Options).strictBrackets = true from rfl)
      (by decide)).2 _ _ _ hparse
  exact ⟨hexpression.resolve_left (by decide), hmissing⟩

/-- A closing brace needs no opening one, as opposed to the other delimiters. -/
example : (parse ['a', '}'] { strictBrackets := true }).toOption.map Translation.output =
      some ['a', '\\', '}'] ∧
    parse ['a', ')'] { strictBrackets := true } =
      .error (.unbalanced ['a', ')'] (.opening '(') 1) := by
  decide +kernel

end PathGlob
