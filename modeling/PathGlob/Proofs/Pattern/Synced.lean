import PathGlob.Proofs.Pattern.Operators

/-!
# `PathGlob.Proofs.Pattern.Synced`: the source is edited along with the tokens

The tokenizer edits the source by itself: it adds to it, cuts bytes off its end, replaces it as a
whole. At every state that it passes through, either the source is what the tokens have for theirs,
or it has been asked to put the source together anew (`Tokenizer.Passes.synced`). What it arrives at
is therefore the source of the tokens (`parse_output_eq_sources`).
-/

set_option autoImplicit false

namespace PathGlob

namespace Pattern

/-- A translation that takes no shortcut is the one of the tokenizer. -/
theorem translate_of_not_fastPath {options : Options} {tail : List Char → Except Error (List Char)}
    {pattern : List Char} {translation : Translation}
    (h : translate options tail pattern = .ok translation) (hslow : translation.fastPath = false) :
    (Context.ofPattern options pattern).tokenize tail = .ok translation := by
  unfold translate at h
  dsimp only at h
  split at h
  case h_1 =>
    cases h
    cases hslow
  case h_2 =>
    split at h
    case h_1 =>
      cases h
      cases hslow
    case h_2 => exact h

/-- Between two characters the source is that of the tokens, unless it is put together anew. -/
theorem Tokenizer.Passes.synced {options : Options} {pattern : List Char}
    {tail : List Char → Except Error (List Char)} {t : Tokenizer}
    (h : Tokenizer.Passes (Context.ofPattern options pattern) tail
      { rest := (Context.ofPattern options pattern).body } t) : t.Synced :=
  (h.sound (starSource_ne_nil options) (sound_begin _ _)).joined.synced

end Pattern

open Pattern

/-- A translation without a shortcut has the source of its tokens, and so has every state on the way
to it, unless its source is put together anew. -/
theorem parse_output_eq_sources (pattern : List Char) (options : Options) :
    (∀ translation, parse pattern options = .ok translation → translation.fastPath = false →
      translation.output = translation.tokens.flatMap Token.source) ∧
    ∀ tail t, Tokenizer.Passes (Context.ofPattern options pattern) tail
        { rest := (Context.ofPattern options pattern).body } t →
      t.rebuild = false → t.output = t.tokens.flatMap Token.source := by
  refine ⟨fun translation hparse hslow => ?_, fun tail t hpasses hrebuild => ?_⟩
  case refine_1 =>
    obtain ⟨-, -, htranslate⟩ := parseWithin_eq_ok_iff.mp hparse
    exact Context.output_tokenize (starSource_ne_nil options)
      (translate_of_not_fastPath htranslate hslow)
  case refine_2 => exact hpasses.synced hrebuild

/-- A globstar that takes the slash before it into its source, behind a group that is only text. -/
theorem parse_output_eq_sources_globstar :
    ∃ translation, parse ['{', 'a', '}', '/', '*', '*'] {} = .ok translation ∧
      translation.fastPath = false ∧
      translation.output = translation.tokens.flatMap Token.source ∧
      ∃ t, Tokenizer.Passes (Context.ofPattern {} ['{', 'a', '}', '/', '*', '*'])
          (fun _ => .error .empty)
          { rest := (Context.ofPattern {} ['{', 'a', '}', '/', '*', '*']).body } t ∧
        t.rest = ['a', '}', '/', '*', '*'] ∧ t.rebuild = false ∧
        t.output = t.tokens.flatMap Token.source := by
  obtain ⟨hend, hway⟩ := parse_output_eq_sources ['{', 'a', '}', '/', '*', '*'] {}
  have hslow : (parse ['{', 'a', '}', '/', '*', '*'] {}).toOption.map Translation.fastPath =
      some false := by decide +kernel
  cases hparse : parse ['{', 'a', '}', '/', '*', '*'] {} with
  | error e =>
    rw [hparse] at hslow
    cases hslow
  | ok translation =>
    rw [hparse] at hslow
    have hslow : translation.fastPath = false := Option.some.inj hslow
    let ctx := Context.ofPattern {} ['{', 'a', '}', '/', '*', '*']
    let t := (({ rest := ctx.body } : Tokenizer).reading ['a', '}', '/', '*', '*']).openBrace ctx
    have hpasses : Tokenizer.Passes ctx (fun _ => .error .empty) { rest := ctx.body } t :=
      .step rfl rfl (.refl t)
    exact ⟨translation, rfl, hslow, hend translation hparse hslow, t, hpasses, rfl, rfl,
      hway _ t hpasses rfl⟩

end PathGlob
