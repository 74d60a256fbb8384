import PathGlob.Proofs.Pattern.Shift
import PathGlob.Proofs.Pattern.Shortcut

/-!
# `PathGlob.Proofs.Pattern.Lead`: patterns behind exclamation marks

A run of exclamation marks before a pattern negates it if their number is odd, and it does nothing
else: the translation is that of the pattern, with another sign (`exists_parse_bangs`). If the
pattern begins with `./`, that is removed in either case, once before the tokenizer runs and once
by the tokenizer itself.

The two ways of removing `./` agree only as long as no further exclamation marks follow: without
the run before it they negate, behind it they are text. So such patterns are left aside.

The longer text may have its extensions nest deeper. But that makes no difference once a pattern
can be translated (`refines_extensionSource`).
-/

set_option autoImplicit false

namespace PathGlob

namespace Pattern

/-! ### How deep extensions nest -/

section
variable {ctx : Context} {tail tail' : List Char → Except Error (List Char)}

theorem tokenize_of_refines (htail : Tokenizer.Refines tail tail') {translation : Translation}
    (h : ctx.tokenize tail = .ok translation) : ctx.tokenize tail' = .ok translation := by
  obtain ⟨t, hrun, h⟩ := bind_eq_ok h
  have := Tokenizer.run_shifted ctx 0 id htail (fun _ _ => .inr (.inl ⟨rfl, rfl⟩)) hrun
  rw [Tokenizer.shifted_zero, Tokenizer.shifted_zero] at this
  show Tokenizer.run ctx tail' _ _ >>= _ = _
  rw [show Tokenizer.run ctx tail' _ _ = _ from this]
  exact h

theorem translate_of_refines (htail : Tokenizer.Refines tail tail') {options : Options}
    {pattern : List Char} {translation : Translation}
    (h : translate options tail pattern = .ok translation) :
    translate options tail' pattern = .ok translation := by
  unfold translate at h ⊢
  dsimp only at h ⊢
  split at h
  case h_1 => exact h
  case h_2 =>
    split at h
    case h_1 => exact h
    case h_2 => exact tokenize_of_refines htail h

/-- How the extension after a negated group is translated. -/
def extensionSource (options : Options) : Nat → List Char → Except Error (List Char)
  | 0, _ => .error .empty
  | depth + 1, text =>
    (parseWithin depth { options with fastPaths := false } text).map Translation.output

theorem parseWithin_eq (depth : Nat) (options : Options) (pattern : List Char) :
    parseWithin depth options pattern =
      if options.effectiveMaxLength < Text.byteSize pattern then
        .error (.tooLong (Text.byteSize pattern) options.effectiveMaxLength)
      else if pattern.isEmpty then .error .empty
      else translate options (extensionSource options depth) pattern := by
  cases depth <;> rfl

theorem parseWithin_eq_ok_iff {depth : Nat} {options : Options} {pattern : List Char}
    {translation : Translation} : parseWithin depth options pattern = .ok translation ↔
      Text.byteSize pattern ≤ options.effectiveMaxLength ∧ pattern ≠ [] ∧
        translate options (extensionSource options depth) pattern = .ok translation := by
  rw [parseWithin_eq]
  split
  case isTrue hsize => exact ⟨nofun, fun h => absurd hsize (Nat.not_lt.mpr h.1)⟩
  case isFalse hsize =>
    split
    case isTrue hempty => exact ⟨nofun, fun h => absurd (List.isEmpty_iff.mp hempty) h.2.1⟩
    case isFalse hempty =>
      exact ⟨fun h => ⟨Nat.le_of_not_lt hsize, fun hnil => hempty (List.isEmpty_iff.mpr hnil), h⟩,
        fun h => h.2.2⟩

/-- What can be translated can be translated if extensions nest deeper. -/
theorem refines_extensionSource_succ (options : Options) (depth : Nat) :
    Tokenizer.Refines (extensionSource options depth) (extensionSource options (depth + 1)) := by
  induction depth generalizing options with
  | zero => exact fun text source h => absurd h (by simp [extensionSource])
  | succ depth ih =>
    intro text source h
    rw [extensionSource] at h ⊢
    cases hinner : parseWithin depth { options with fastPaths := false } text with
    | error => exact absurd (hinner ▸ h) (by simp [Except.map])
    | ok inner =>
      obtain ⟨hsize, hne, htranslate⟩ := parseWithin_eq_ok_iff.mp hinner
      rw [← h, hinner,
        parseWithin_eq_ok_iff.mpr ⟨hsize, hne, translate_of_refines (ih _) htranslate⟩]

theorem refines_extensionSource (options : Options) {depth depth' : Nat} (h : depth ≤ depth') :
    Tokenizer.Refines (extensionSource options depth) (extensionSource options depth') := by
  induction h with
  | refl => exact fun _ _ => id
  | step _ ih => exact fun text source h => refines_extensionSource_succ options _ _ _ (ih _ _ h)

end

/-! ### Behind exclamation marks -/

/-- The text that is read, and before it the `./` that was removed. -/
def Context.whole (ctx : Context) : List Char :=
  if ctx.dotSlash then '.' :: '/' :: ctx.body else ctx.body

/-- A pattern behind a run of exclamation marks. -/
def banged (n : Nat) (pattern : List Char) : List Char := List.replicate n '!' ++ pattern

theorem banged_succ (n : Nat) (pattern : List Char) :
    banged (n + 1) pattern = '!' :: banged n pattern := rfl

theorem length_banged (n : Nat) (pattern : List Char) :
    (banged n pattern).length = n + pattern.length := by
  simp [banged]

theorem normalize_banged (n : Nat) (pattern : List Char) :
    Separator.normalize (banged n pattern) = banged n (Separator.normalize pattern) := by
  induction n with
  | zero => rfl
  | succ n ih => exact congrArg ('!' :: ·) ih

theorem refersBack_banged (n : Nat) (pattern : List Char) :
    refersBack (banged n pattern) = refersBack pattern := by
  induction n with
  | zero => rfl
  | succ n ih => rw [banged_succ, refersBack, ih]; rfl

/-- Unless the pattern goes on with the run, or makes a group of its end, all of it counts. -/
theorem Tokenizer.negations_banged (n : Nat) {pattern : List Char}
    (hbang : pattern.head? ≠ some '!') (hparen : pattern.head? ≠ some '(') :
    negations (banged n pattern) = n := by
  induction n with
  | zero =>
    show negations pattern = 0
    unfold negations
    split
    case h_1 rest => exact absurd rfl hbang
    case h_2 => rfl
  | succ n ih =>
    have hhead : (banged n pattern).head? ≠ some '(' := by
      cases n with
      | zero => exact hparen
      | succ n => simp [banged_succ]
    rw [banged_succ, negations, if_pos (by simp [hhead]), ih, Nat.add_comm]

section
variable (options : Options) {pattern : List Char}

theorem whole_ofPattern (pattern : List Char) : (Context.ofPattern options pattern).whole =
    if options.windows then Separator.normalize (simplify pattern) else simplify pattern := by
  have hdrop (text : List Char) : (if (dropDotSlash text).1 then
      '.' :: '/' :: (dropDotSlash text).2 else (dropDotSlash text).2) = text := by
    unfold dropDotSlash
    split <;> rfl
  exact hdrop _

/-- The exclamation marks before a pattern are all that the text gets before it. -/
theorem ofPattern_banged (hsimple : simplify pattern = pattern) (n : Nat) :
    Context.ofPattern options (banged (n + 1) pattern) =
        (Context.ofPattern options pattern).over
          (Context.ofPattern options (banged (n + 1) pattern)) ∧
      (Context.ofPattern options (banged (n + 1) pattern)).dotSlash = false ∧
      (Context.ofPattern options (banged (n + 1) pattern)).body =
        banged (n + 1) (Context.ofPattern options pattern).whole := by
  have hbang : simplify (banged (n + 1) pattern) = banged (n + 1) pattern := by
    simp [simplify, banged_succ]
  have hnormal : (if options.windows then Separator.normalize (banged (n + 1) pattern)
      else banged (n + 1) pattern) = banged (n + 1) (Context.ofPattern options pattern).whole := by
    rw [whole_ofPattern, hsimple, apply_ite (banged (n + 1)), normalize_banged]
  have hdrop (text : List Char) : dropDotSlash ('!' :: text) = (false, '!' :: text) := rfl
  have hrefers : refersBack (banged (n + 1) (Context.ofPattern options pattern).whole) =
      refersBack (Context.ofPattern options pattern).body := by
    rw [refersBack_banged, Context.whole]
    split <;> simp [refersBack]
  obtain ⟨hdotSlash, hbody⟩ :
      (Context.ofPattern options (banged (n + 1) pattern)).dotSlash = false ∧
        (Context.ofPattern options (banged (n + 1) pattern)).body =
          banged (n + 1) (Context.ofPattern options pattern).whole := by
    simp only [Context.ofPattern, hbang] at hnormal ⊢
    rw [hnormal, banged_succ, hdrop]
    exact ⟨rfl, rfl⟩
  refine ⟨?_, hdotSlash, hbody⟩
  have hreference : (Context.ofPattern options (banged (n + 1) pattern)).hasReference =
      (Context.ofPattern options pattern).hasReference := by
    show refersBack (Context.ofPattern options (banged (n + 1) pattern)).body = _
    rw [hbody, hrefers]
    rfl
  show Context.mk _ _ _ _ _ (Context.ofPattern options (banged (n + 1) pattern)).hasReference = _
  rw [hreference]
  rfl

theorem head?_whole_ne {c : Char} (hc : c = '!' ∨ c = '(') (hsimple : simplify pattern = pattern)
    (hhead : pattern.head? ≠ some c) :
    (Context.ofPattern options pattern).whole.head? ≠ some c := by
  rw [whole_ofPattern, hsimple]
  split
  case isFalse => exact hhead
  case isTrue =>
    cases pattern with
    | nil => exact hhead
    | cons d pattern =>
      rw [Separator.normalize, Separator.normalizeFrom]
      split
      case isTrue => exact hhead
      case isFalse =>
        split <;> obtain rfl | rfl := hc <;> simp_all

end

namespace Tokenizer

variable {ctx : Context} {tail : List Char → Except Error (List Char)}

theorem run_of_step {t t' : Tokenizer} {c : Char} {more : List Char} (hrest : t.rest = c :: more)
    (hstep : step ctx tail (t.reading more) c = .ok t') (n : Nat) :
    run ctx tail (n + 1) t = run ctx tail n t' := by
  rw [run_of_rest_eq ctx tail hrest, hstep]
  rfl

/-- The run is read in one step. -/
theorem step_banged (other : Context) (tail : List Char → Except Error (List Char))
    (hnegate : ctx.options.noNegate = false) (hbang : ctx.whole.head? ≠ some '!')
    (hparen : ctx.whole.head? ≠ some '(') (n : Nat) :
    step (ctx.over other) tail { rest := banged n ctx.whole, position := 1 } '!' =
      .ok (({ rest := ctx.whole } : Tokenizer).shifted (n + 1) fun _ => (n + 1) % 2 = 1) := by
  have hopen : ({ rest := banged n ctx.whole, position := 1 } : Tokenizer).ahead 0 ≠ some '(' := by
    rw [ahead, ← List.head?_eq_getElem?]
    cases n with
    | zero => exact hparen
    | succ n => simp [banged_succ]
  have hdrop : (banged n ctx.whole).drop n = ctx.whole := by simp [banged]
  have hnegate' : (ctx.over other).options.noNegate = false := hnegate
  show Except.ok (bang (ctx.over other) _) = _
  simp [bang, hopen, hnegate', negations_banged n hbang hparen, place, skip, hdrop, shifted,
    Nat.add_comm]

/-- What is read before the pattern proper leaves no trace but the places and the sign. -/
theorem run_banged (other : Context) (tail : List Char → Except Error (List Char))
    (hnegate : ctx.options.noNegate = false) (hbang : ctx.whole.head? ≠ some '!')
    (hparen : ctx.whole.head? ≠ some '(') (n : Nat) :
    ∃ k, run (ctx.over other) tail (banged (n + 1) ctx.whole).length
        { rest := banged (n + 1) ctx.whole } =
      run (ctx.over other) tail ctx.body.length
        (({ rest := ctx.body } : Tokenizer).shifted k fun _ => (n + 1) % 2 = 1) := by
  let sign : Bool → Bool := fun _ => (n + 1) % 2 = 1
  have hrun : run (ctx.over other) tail (banged (n + 1) ctx.whole).length
      { rest := banged (n + 1) ctx.whole } =
        run (ctx.over other) tail ctx.whole.length
          (({ rest := ctx.whole } : Tokenizer).shifted (n + 1) sign) := by
    have hstep := run_of_step (t := { rest := banged (n + 1) ctx.whole }) rfl
      (step_banged other tail hnegate hbang hparen n) (banged n ctx.whole).length
    exact hstep.trans (run_eq_run (by simp [length_banged, shifted]) (Nat.le_refl _))
  rw [hrun]
  unfold Context.whole
  split
  case isFalse => exact ⟨n + 1, rfl⟩
  case isTrue =>
    -- The dot and the slash are read, and the pattern proper begins behind them.
    let whole : Tokenizer := { rest := '.' :: '/' :: ctx.body }
    let dotted : Tokenizer := (whole.reading ('/' :: ctx.body)).dot ctx
    have hdot : step ctx tail (whole.reading ('/' :: ctx.body)) '.' = .ok dotted := rfl
    have hslash : step ctx tail (dotted.reading ctx.body) '/' =
      .ok { rest := ctx.body, position := 2, start := 2 } := rfl
    have hdot' : step (ctx.over other) tail ((whole.reading ('/' :: ctx.body)).shifted (n + 1) sign)
        '.' = .ok (dotted.shifted (n + 1) sign) :=
      step_shifted (fun _ _ => id) (Nat.le_refl 1) (by simp) hdot
    have hslash' : step (ctx.over other) tail ((dotted.reading ctx.body).shifted (n + 1) sign) '/' =
        .ok _ :=
      step_shifted (fun _ _ => id) (Nat.le_add_left 1 1) (by simp) hslash
    have hfirst := run_of_step (t := whole.shifted (n + 1) sign) rfl hdot' ('/' :: ctx.body).length
    have hsecond := run_of_step (t := dotted.shifted (n + 1) sign) rfl hslash' ctx.body.length
    exact ⟨n + 3, hfirst.trans hsecond⟩

/-- A sign that is set once a character has been read stays. -/
theorem negated_of_run {n : Nat} {t t' : Tokenizer} (hposition : 1 ≤ t.position)
    (hnegated : t.negated = true) (hrun : run ctx tail n t = .ok t') : t'.negated = true := by
  have h := run_shifted ctx 0 (fun _ => true) (fun _ _ => id)
    (fun rest _ => .inl (Nat.succ_le_succ hposition)) hrun
  have hsame : t.shifted 0 (fun _ => true) = t := by
    simp only [shifted, Nat.zero_add]
    rw [← hnegated]
  rw [hsame] at h
  have := Except.ok.inj (hrun.symm.trans h)
  rw [this]
  rfl

theorem negated_of_finish {t t' : Tokenizer} (hfinish : t.finish ctx = .ok t') :
    t'.negated = t.negated := by
  have h := finish_shifted ctx 0 (fun _ => t.negated) hfinish
  have hsame : t.shifted 0 (fun _ => t.negated) = t := by simp [shifted]
  rw [hsame] at h
  rw [Except.ok.inj (hfinish.symm.trans h)]
  rfl

end Tokenizer

/-- The tokenizer arrives at the essence of a translation, and the other way round. -/
theorem translate_eq_ok_iff {options : Options} {tail : List Char → Except Error (List Char)}
    {pattern : List Char} {essence : Translation} :
    (∃ translation, translate options tail pattern = .ok translation ∧
        translation.essence = essence) ↔
      ∃ translation, (Context.ofPattern options pattern).tokenize tail = .ok translation ∧
        translation.essence = essence := by
  have hmap (result : Except Error Translation) :
      (∃ translation, result = .ok translation ∧ translation.essence = essence) ↔
        result.map Translation.essence = .ok essence := by
    cases result <;> simp [Except.map]
  rw [hmap, hmap, translate_essence]

/-- If an exclamation mark does not negate the text that is read, it opens a group. -/
theorem Context.tokenize_keepsSign (n : Nat) (sign : Bool → Bool) {ctx : Context}
    {tail : List Char → Except Error (List Char)} {translation : Translation}
    (htokenize : ctx.tokenize tail = .ok translation) (hnegate : ctx.options.noNegate = false)
    (hnegated : translation.negated = false)
    (hbody : Tokenizer.negations ctx.body = 0) (rest : List Char)
    (hrest : ctx.body = '!' :: rest) :
    ({ rest, position := 1 } : Tokenizer).KeepsSign ctx n sign := by
  rw [hrest, Tokenizer.negations] at hbody
  obtain ⟨hopen, hraw⟩ : rest.head? = some '(' ∧ rest[1]? ≠ some '?' := by
    split at hbody
    case isTrue => omega
    case isFalse h => simpa using h
  have hahead : ({ rest, position := 1 } : Tokenizer).ahead 0 = some '(' := by
    rw [Tokenizer.ahead, ← List.head?_eq_getElem?]
    exact hopen
  refine .inr (.inr ⟨?_, hahead, hraw⟩)
  cases hextglob : ctx.options.noExtglob with
  | false => rfl
  | true =>
    -- Without groups it does negate, and the sign stays.
    obtain ⟨t, hrun, h⟩ := bind_eq_ok htokenize
    obtain ⟨t', hfinish, h⟩ := bind_eq_ok h
    cases h
    rw [hrest] at hrun
    obtain ⟨first, hfirst, hrun⟩ := bind_eq_ok hrun
    have hstep : Except.ok (Tokenizer.bang ctx { rest, position := 1 }) = .ok first := hfirst
    have hbang : (Tokenizer.bang ctx { rest, position := 1 }).negated = true ∧
        1 ≤ (Tokenizer.bang ctx { rest, position := 1 }).position := by
      have hmore : Tokenizer.negations rest % 2 = 0 := by
        rw [List.head?_eq_some_iff] at hopen
        obtain ⟨rest, rfl⟩ := hopen
        rfl
      simp [Tokenizer.bang, hextglob, hnegate, Tokenizer.place, Tokenizer.skip]
      omega
    cases hstep
    have hsign := Tokenizer.negated_of_run hbang.2 hbang.1 hrun
    rw [← Tokenizer.negated_of_finish hfinish] at hsign
    exact absurd (hnegated.symm.trans hsign) (by simp)

section
variable {options : Options} {pattern : List Char} {translation : Translation}
variable (hnegate : options.noNegate = false) (hnegated : translation.negated = false)
  (hsimple : simplify pattern = pattern) (hbang : pattern.head? ≠ some '!')
  (hparen : pattern.head? ≠ some '(')
  (hbody : Tokenizer.negations (Context.ofPattern options pattern).body = 0)
include hnegate hnegated hsimple hbang hparen hbody

/-- Behind exclamation marks, the tokenizer does with a pattern what it does without. -/
theorem tokenize_banged {tail tail' : List Char → Except Error (List Char)}
    (htail : Tokenizer.Refines tail tail')
    (htokenize : (Context.ofPattern options pattern).tokenize tail = .ok translation) (n : Nat) :
    (Context.ofPattern options (banged (n + 1) pattern)).tokenize tail' =
      .ok { translation with
        input := banged (n + 1) pattern, dotSlash := false, negated := (n + 1) % 2 = 1 } := by
  have hkeeps (k : Nat) (sign : Bool → Bool) :=
    Context.tokenize_keepsSign k sign htokenize hnegate hnegated hbody
  obtain ⟨hover, hdotSlash, hwhole⟩ := ofPattern_banged options hsimple n
  have hinput : (Context.ofPattern options (banged (n + 1) pattern)).pattern =
    banged (n + 1) pattern := rfl
  generalize Context.ofPattern options (banged (n + 1) pattern) = other at *
  obtain ⟨t, hrun, h⟩ := bind_eq_ok htokenize
  obtain ⟨t', hfinish, h⟩ := bind_eq_ok h
  cases h
  obtain ⟨k, hlead⟩ := Tokenizer.run_banged other tail' hnegate
    (head?_whole_ne options (.inl rfl) hsimple hbang)
    (head?_whole_ne options (.inr rfl) hsimple hparen) n
  have hshifted := Tokenizer.run_shifted other k (fun _ => (n + 1) % 2 = 1) htail (hkeeps k _) hrun
  have hfinished := Tokenizer.finish_shifted other k (fun _ => (n + 1) % 2 = 1) hfinish
  unfold Context.tokenize
  rw [← hover] at hlead hshifted hfinished
  rw [hwhole, hlead, hshifted]
  show Tokenizer.finish _ _ >>= _ = _
  rw [hfinished, hinput, hdotSlash]
  rfl

/-- Behind exclamation marks, a pattern that is not negated has the same translation but for
the sign. -/
theorem exists_parse_bangs (hparse : parse pattern options = .ok translation) (n : Nat)
    (hsize : Text.byteSize (banged (n + 1) pattern) ≤ options.effectiveMaxLength) :
    ∃ translation', parse (banged (n + 1) pattern) options = .ok translation' ∧
      translation'.essence = { translation.essence with
        input := banged (n + 1) pattern, dotSlash := false, negated := (n + 1) % 2 = 1 } := by
  obtain ⟨-, -, htranslate⟩ := parseWithin_eq_ok_iff.mp hparse
  obtain ⟨slow, htokenize, hessence⟩ := translate_eq_ok_iff.mp ⟨translation, htranslate, rfl⟩
  have hslow : slow.negated = false :=
    (show slow.essence.negated = _ from congrArg _ hessence).trans hnegated
  have hdepth : pattern.length ≤ (banged (n + 1) pattern).length := by
    rw [length_banged]
    exact Nat.le_add_left _ _
  obtain ⟨translation', htranslate', hessence'⟩ := translate_eq_ok_iff.mpr ⟨_, tokenize_banged hnegate
    hslow hsimple hbang hparen hbody (refines_extensionSource options hdepth) htokenize n, rfl⟩
  refine ⟨translation', parseWithin_eq_ok_iff.mpr ⟨hsize, by simp [banged_succ], htranslate'⟩, ?_⟩
  rw [hessence', ← hessence]
  rfl

/-- One exclamation mark negates. -/
theorem exists_parse_bang (hparse : parse pattern options = .ok translation)
    (hsize : Text.byteSize ('!' :: pattern) ≤ options.effectiveMaxLength) :
    ∃ translation', parse ('!' :: pattern) options = .ok translation' ∧
      translation'.essence = { translation.essence with
        input := '!' :: pattern, dotSlash := false, negated := true } :=
  exists_parse_bangs hnegate hnegated hsimple hbang hparen hbody hparse 0 hsize

end

end Pattern

open Pattern

/-- A run of exclamation marks before a pattern that is not negated changes nothing but the sign,
and that by its parity only: what the pattern matches is translated into the same source. Left
aside are patterns that begin with `./` and go on with exclamation marks that negate. -/
theorem parse_behind_exclamations {options : Options} {pattern : List Char}
    {translation : Translation} (hnegate : options.noNegate = false)
    (hsimple : simplify pattern = pattern) (hbang : pattern.head? ≠ some '!')
    (hparen : pattern.head? ≠ some '(') (hparse : parse pattern options = .ok translation)
    (hnegated : translation.negated = false)
    (hbody : Tokenizer.negations (Context.ofPattern options pattern).body = 0) {n : Nat}
    (hn : 1 ≤ n)
    (hsize : Text.byteSize (List.replicate n '!' ++ pattern) ≤ options.effectiveMaxLength) :
    ∃ negation, parse (List.replicate n '!' ++ pattern) options = .ok negation ∧
      (negation.negated = true ↔ n % 2 = 1) ∧ negation.output = translation.output ∧
        negation.globstar = translation.globstar ∧
          negation.negatedExtglob = translation.negatedExtglob := by
  obtain ⟨n, rfl⟩ := Nat.exists_eq_add_of_le' hn
  obtain ⟨negation, hnegation, hessence⟩ :=
    exists_parse_bangs hnegate hnegated hsimple hbang hparen hbody hparse n hsize
  simp only [Translation.essence, Translation.mk.injEq] at hessence
  obtain ⟨-, houtput, -, hsign, hnegatedExtglob, hglobstar, -⟩ := hessence
  exact ⟨negation, hnegation, by rw [hsign, decide_eq_true_iff], houtput, hglobstar,
    hnegatedExtglob⟩

/-- Alone the pattern is translated by a shortcut, behind exclamation marks it is not. -/
theorem parse_behind_exclamations_globstar : ∃ translation negation,
    parse ['*', '*', '/', '*'] {} = .ok translation ∧
      parse ['!', '!', '!', '*', '*', '/', '*'] {} = .ok negation ∧ negation.negated = true ∧
        negation.output = translation.output ∧ negation.globstar = translation.globstar := by
  have hok : (parse ['*', '*', '/', '*'] {}).toOption.any (fun translation =>
      !translation.negated) = true := by
    decide +kernel
  cases hparse : parse ['*', '*', '/', '*'] {} with
  | error =>
    rw [hparse] at hok
    exact absurd hok (by simp [Except.toOption])
  | ok translation =>
    rw [hparse] at hok
    have hsign : translation.negated = false := by simpa [Except.toOption] using hok
    obtain ⟨negation, hnegation, hnegated, houtput, hglobstar, -⟩ :=
      parse_behind_exclamations rfl (by decide) (by decide) (by decide) hparse hsign (by decide)
        (show 1 ≤ 3 by decide) (by decide)
    exact ⟨translation, negation, rfl, hnegation, hnegated.mpr rfl, houtput, hglobstar⟩

/-- Behind `./` exclamation marks negate, but not if there is one before it as well. -/
example : (parse ['.', '/', '!', '!', 'a'] {}).toOption.map Translation.output = some ['a'] ∧
    (parse ['!', '.', '/', '!', '!', 'a'] {}).toOption.map Translation.output =
      some ['!', '!', 'a'] := by
  decide +kernel

end PathGlob
