import PathGlob.Proofs.Pattern.Operators

/-!
# `PathGlob.Proofs.Pattern.Nesting`: translations within translations

To close a negated group the tokenizer may have the extension behind it translated, which is a
pattern of its own (`Calls`). An extension is what is left of the text, so it is shorter than the
pattern. It has one dot, at its beginning, and what could be called for while it is translated
would have to begin with another one. So translations go two deep and no deeper, however deep the
groups are nested (`CallDepth.le_two`), and bounding their depth makes no difference once they may
go that deep (`parseWithin_succ_eq_parse`).

A translation itself is one run over the text (`ReadsThrough`). Each step begins further behind in
the text than the one before it, and the run ends because the text does and not because the number
of steps is bounded.
-/

set_option autoImplicit false

namespace PathGlob

namespace Pattern

/-! ### Calls -/

namespace Tokenizer

/-- The next step calls for a translation of the text: it fails as that does, and otherwise makes
something of what it yields. -/
def Asks (ctx : Context) (t : Tokenizer) (text : List Char) : Prop :=
  ∃ c rest, t.rest = c :: rest ∧ ∃ next : List Char → Except Error Tokenizer,
    ∀ tail, step ctx tail (t.reading rest) c = tail text >>= next

section
variable {ctx : Context} {tail tail' : List Char → Except Error (List Char)} {t t' : Tokenizer}
  {c : Char} {rest text : List Char}

theorem step_eq_bind (h : t.extension? c = some text) : step ctx tail t c =
    tail text >>= fun source => step ctx (fun _ => .ok source) t c := by
  cases htail : tail text with
  | error e => exact step_of_extension? h htail
  | ok source =>
    refine step_congr_tail fun text' h' => ?_
    obtain rfl := Option.some.inj (h.symm.trans h')
    exact htail

theorem asks_iff : t.Asks ctx text ↔ t.nextExtension? = some text := by
  constructor
  · rintro ⟨c, rest, hrest, next, hnext⟩
    rw [nextExtension?_of_rest_eq hrest]
    by_contra hother
    -- Two translations that differ in the text alone would be all the same to the step.
    let tail (error : Error) (text' : List Char) : Except Error (List Char) :=
      .error (if text' = text then error else .empty)
    have hcongr : step ctx (tail .empty) (t.reading rest) c =
        step ctx (tail (.tooLong 0 0)) (t.reading rest) c :=
      step_congr_tail fun text' h => by
        have hne : text' ≠ text := fun heq => hother (heq ▸ h)
        simp only [tail, if_neg hne]
    rw [hnext, hnext] at hcongr
    simp [tail, bind, Except.bind] at hcongr
  · intro h
    obtain ⟨-, c, hrest⟩ := of_nextExtension? h
    rw [nextExtension?_of_rest_eq hrest] at h
    exact ⟨c, text, hrest, _, fun tail => step_eq_bind h⟩

/-- How extensions are translated makes no difference but for those that are called for. -/
theorem run_congr_tail (n : Nat) (h : ∀ t' text, Passes ctx tail t t' → t'.Asks ctx text →
    tail text = tail' text) : run ctx tail n t = run ctx tail' n t := by
  induction n generalizing t with
  | zero => rfl
  | succ n ih =>
    cases hrest : t.rest with
    | nil => rw [run_of_rest_nil ctx tail hrest, run_of_rest_nil ctx tail' hrest]
    | cons c rest =>
      have hstep : step ctx tail (t.reading rest) c = step ctx tail' (t.reading rest) c :=
        step_congr_tail fun text htext =>
          h t text (.refl t) (asks_iff.mpr ((nextExtension?_of_rest_eq hrest).trans htext))
      rw [run_of_rest_eq ctx tail hrest, run_of_rest_eq ctx tail' hrest, ← hstep]
      cases hnext : step ctx tail (t.reading rest) c with
      | error e => rfl
      | ok next => exact ih fun t' text hpasses => h t' text (.step hrest hnext hpasses)

end

end Tokenizer

/-- While the pattern is translated, a translation of the text is called for, whatever the calls
before have yielded. -/
def Calls (options : Options) (pattern text : List Char) : Prop :=
  ∃ tail t, Tokenizer.Passes (Context.ofPattern options pattern) tail
      { rest := (Context.ofPattern options pattern).body } t ∧
    t.Asks (Context.ofPattern options pattern) text

/-- The text is less than the pattern. While it is translated on its own, nothing is called for, and
it makes no difference how a text that is called for would be translated. -/
structure Innermost (options : Options) (pattern text : List Char) : Prop where
  ne_nil : text ≠ []
  length_lt : text.length < pattern.length
  byteSize_lt : Text.byteSize text < Text.byteSize pattern
  not_calls : ∀ inner, ¬ Calls { options with fastPaths := false } text inner
  translate_eq : ∀ tail tail', translate { options with fastPaths := false } tail text =
    translate { options with fastPaths := false } tail' text

/-- Translations can be so many deep, counting that of the pattern. The others are called for, each
one by the translation around it. -/
inductive CallDepth : Options → List Char → Nat → Prop where
  | own (options : Options) (pattern : List Char) : CallDepth options pattern 1
  | nested {options : Options} {pattern text : List Char} {depth : Nat}
      (hcalls : Calls options pattern text)
      (hinner : CallDepth { options with fastPaths := false } text depth) :
      CallDepth options pattern (depth + 1)

section
variable {options : Options} {pattern text inner : List Char}
  {tail tail' : List Char → Except Error (List Char)}

theorem length_body_le (options : Options) (pattern : List Char) :
    (Context.ofPattern options pattern).body.length ≤ pattern.length := by
  have hbody : (Context.ofPattern options pattern).body.length ≤
      (Context.ofPattern options pattern).whole.length := by
    unfold Context.whole
    split
    case isTrue => exact Nat.le_add_right _ 2
    case isFalse => exact Nat.le_refl _
  have hwhole : (Context.ofPattern options pattern).whole.length = (simplify pattern).length := by
    rw [whole_ofPattern]
    split
    case isTrue => exact length_normalizeFrom false _
    case isFalse => rfl
  exact Nat.le_trans hbody (hwhole ▸ (simplify_isPrefix pattern).length_le)

theorem Calls.isExtension (h : Calls options pattern text) : isExtension text = true := by
  obtain ⟨tail, t, -, hasks⟩ := h
  exact (Tokenizer.of_nextExtension? (Tokenizer.asks_iff.mp hasks)).1

/-- Before a text that is called for, there is at least the parenthesis that closes the group. -/
theorem Calls.exists_isSuffix (h : Calls options pattern text) :
    ∃ c, c :: text <:+ (Context.ofPattern options pattern).body := by
  obtain ⟨tail, t, hpasses, hasks⟩ := h
  obtain ⟨-, c, hrest⟩ := Tokenizer.of_nextExtension? (Tokenizer.asks_iff.mp hasks)
  exact ⟨c, hrest ▸ hpasses.rest_isSuffix⟩

/-- While an extension is translated, nothing else is called for. -/
theorem not_calls_of_isExtension (hextension : Pattern.isExtension text = true) :
    ¬ Calls options text inner := by
  intro h
  obtain ⟨c, hsuffix⟩ := h.exists_isSuffix
  rw [body_of_isExtension options hextension] at hsuffix
  have htail : inner <:+ text.tail := by
    obtain ⟨before, rfl⟩ := hsuffix
    cases before with
    | nil => exact List.suffix_refl _
    | cons d before => exact ⟨before ++ [c], by simp⟩
  cases h.isExtension.symm.trans (not_isExtension_of_suffix hextension htail)

theorem CallDepth.le_two {depth : Nat} (h : CallDepth options pattern depth) : depth ≤ 2 := by
  cases h with
  | own => exact Nat.le_succ 1
  | nested hcalls hinner =>
    cases hinner with
    | own => exact Nat.le_refl 2
    | nested hcalls' => exact absurd hcalls' (not_calls_of_isExtension hcalls.isExtension)

/-! ### Bounds on the depth -/

/-- A translation depends on those that are called for, and on no others. -/
theorem translate_congr_tail (h : ∀ text, Calls options pattern text → tail text = tail' text) :
    translate options tail pattern = translate options tail' pattern := by
  let ctx := Context.ofPattern options pattern
  have hrun : Tokenizer.run ctx tail ctx.body.length { rest := ctx.body } =
      Tokenizer.run ctx tail' ctx.body.length { rest := ctx.body } :=
    Tokenizer.run_congr_tail _ fun t text hpasses hasks => h text ⟨tail, t, hpasses, hasks⟩
  have htokenize : ctx.tokenize tail = ctx.tokenize tail' := by
    unfold Context.tokenize
    rw [hrun]
  unfold translate
  dsimp only
  rw [htokenize]

/-- The translation of an extension does not depend on how others would be translated. -/
theorem translate_of_isExtension (hextension : Pattern.isExtension text = true) :
    translate options tail text = translate options tail' text :=
  translate_congr_tail fun _ hcalls => absurd hcalls (not_calls_of_isExtension hextension)

theorem Calls.innermost (h : Calls options pattern text) : Innermost options pattern text := by
  obtain ⟨c, hsuffix⟩ := h.exists_isSuffix
  have hbytes := Nat.le_trans (byteSize_le_of_suffix hsuffix) (byteSize_body_le options pattern)
  rw [Text.byteSize] at hbytes
  exact {
    ne_nil := by
      rintro rfl
      cases h.isExtension
    length_lt := Nat.lt_of_lt_of_le hsuffix.length_le (length_body_le options pattern)
    byteSize_lt := Nat.lt_of_lt_of_le (Nat.lt_add_of_pos_left c.utf8Size_pos) hbytes
    not_calls := fun inner => not_calls_of_isExtension h.isExtension
    translate_eq := fun tail tail' => translate_of_isExtension h.isExtension }

/-- Once one translation may call for another one, allowing more makes no difference. -/
theorem parseWithin_succ_eq_parse (options : Options) (pattern : List Char) (depth : Nat) :
    parseWithin (depth + 1) options pattern = parse pattern options := by
  have htail (k : Nat) : translate options (extensionSource options (depth + 1)) pattern =
      translate options (extensionSource options (k + 1)) pattern :=
    translate_congr_tail fun text hcalls => by
      rw [extensionSource, extensionSource, parseWithin_eq, parseWithin_eq,
        translate_of_isExtension hcalls.isExtension]
  rw [parse, parseWithin_eq, parseWithin_eq]
  cases pattern with
  | nil => rfl
  | cons c pattern => rw [List.length_cons, htail pattern.length]

end

/-! ### Reading on -/

namespace Tokenizer

section
variable {ctx : Context} {tail : List Char → Except Error (List Char)} {t t' next : Tokenizer}
  {c : Char} {rest : List Char}

theorem follows_reading (hrest : t.rest = c :: rest) : t.Follows (t.reading rest) :=
  ⟨1, by rw [hrest]; rfl, rfl⟩

theorem Passes.follows (h : Passes ctx tail t t') : t.Follows t' := by
  induction h with
  | refl t => exact .refl t
  | step hrest hstep _ ih => exact ((follows_reading hrest).trans (follows_step hstep)).trans ih

/-- What is left is the text behind the characters that are counted as read. -/
theorem Passes.rest_eq_drop {text : List Char} (h : Passes ctx tail { rest := text } t) :
    t.rest = text.drop t.position := by
  obtain ⟨k, hrest, hposition⟩ := h.follows
  rw [hrest, hposition, Nat.zero_add]

theorem passes_of_run {n : Nat} (h : run ctx tail n t = .ok t') : Passes ctx tail t t' := by
  induction n generalizing t with
  | zero =>
    cases h
    exact .refl t'
  | succ n ih =>
    cases hrest : t.rest with
    | nil =>
      rw [run_of_rest_nil ctx tail hrest] at h
      cases h
      exact .refl t'
    | cons c rest =>
      rw [run_of_rest_eq ctx tail hrest] at h
      obtain ⟨next, hstep, hrun⟩ := bind_eq_ok h
      exact .step hrest hstep (ih hrun)

end

end Tokenizer

/-- A run reads the text: wherever it gets, the next step leads further on in the text. It ends
where nothing is left, and never because of the bound on the number of its steps. -/
structure ReadsThrough (ctx : Context) (tail : List Char → Except Error (List Char)) : Prop where
  position_lt : ∀ t next c rest, Tokenizer.Passes ctx tail { rest := ctx.body } t →
    t.rest = c :: rest → Tokenizer.step ctx tail (t.reading rest) c = .ok next →
      t.position < ctx.body.length ∧ t.position < next.position ∧
        next.rest = ctx.body.drop next.position
  run_eq : ∀ steps, ctx.body.length ≤ steps →
    Tokenizer.run ctx tail steps { rest := ctx.body } =
      Tokenizer.run ctx tail ctx.body.length { rest := ctx.body }
  of_run_eq : ∀ t, Tokenizer.run ctx tail ctx.body.length { rest := ctx.body } = .ok t →
    Tokenizer.Passes ctx tail { rest := ctx.body } t ∧ t.rest = []

theorem readsThrough (ctx : Context) (tail : List Char → Except Error (List Char)) :
    ReadsThrough ctx tail where
  position_lt := by
    intro t next c rest hpasses hrest hstep
    have hnext : Tokenizer.Passes ctx tail { rest := ctx.body } next :=
      hpasses.trans (.step hrest hstep (.refl next))
    have hposition : t.position + 1 ≤ next.position := (Tokenizer.follows_step hstep).le_position
    have hne : ctx.body.drop t.position ≠ [] := by
      rw [← hpasses.rest_eq_drop, hrest]
      exact List.cons_ne_nil c rest
    exact ⟨List.length_lt_of_drop_ne_nil hne, hposition, hnext.rest_eq_drop⟩
  run_eq := fun _ hsteps => Tokenizer.run_eq_run hsteps (Nat.le_refl _)
  of_run_eq := fun _ hrun =>
    ⟨Tokenizer.passes_of_run hrun,
      Tokenizer.rest_run (t := { rest := ctx.body }) (Nat.le_refl _) hrun⟩

/-! ### Segments that are skipped -/

/-- Each round that skips a segment takes three characters off the text, so the number of rounds is
no bound if there are as many as characters. -/
theorem redundantGlobstars_eq_redundantGlobstars {n m : Nat} {rest : List Char}
    (hn : rest.length ≤ n) (hm : rest.length ≤ m) :
    redundantGlobstars rest n = redundantGlobstars rest m := by
  induction n generalizing rest m with
  | zero =>
    obtain rfl := List.length_eq_zero_iff.mp (Nat.le_zero.mp hn)
    cases m <;> rfl
  | succ n ih =>
    cases m with
    | zero =>
      obtain rfl := List.length_eq_zero_iff.mp (Nat.le_zero.mp hm)
      rfl
    | succ m =>
      unfold redundantGlobstars
      split
      case h_1 => rfl
      case h_2 more =>
        simp only [List.length_cons] at hn hm
        rw [ih (m := m) (by simp only [List.length_cons]; omega)
          (by simp only [List.length_cons]; omega)]
      case h_3 => rfl

theorem redundantGlobstars_le_length (rest : List Char) (n : Nat) :
    redundantGlobstars rest n ≤ rest.length := by
  induction n generalizing rest with
  | zero =>
    rw [redundantGlobstars]
    exact Nat.zero_le _
  | succ n ih =>
    unfold redundantGlobstars
    split
    case h_1 => exact Nat.le_refl 3
    case h_2 more =>
      have hmore := ih ('/' :: more)
      simp only [List.length_cons] at hmore ⊢
      omega
    case h_3 => exact Nat.zero_le _

end Pattern

open Pattern

/-- Whatever a translation calls for is shorter than the pattern and not empty, and calls for
nothing itself. So translations go at most two deep, and need not be allowed to go deeper. Each of
them reads on at every step until nothing is left, and so does the loop that skips segments. -/
theorem parse_nests_once (options : Options) (pattern : List Char) :
    (∀ text, Calls options pattern text → Innermost options pattern text) ∧
    (∀ tail tail', (∀ text, Calls options pattern text → tail text = tail' text) →
      translate options tail pattern = translate options tail' pattern) ∧
    (∀ depth, CallDepth options pattern depth → depth ≤ 2) ∧
    (∀ depth, parseWithin (depth + 1) options pattern = parse pattern options) ∧
    (∀ tail, ReadsThrough (Context.ofPattern options pattern) tail) ∧
    ∀ rest rounds, rest.length ≤ rounds →
      redundantGlobstars rest rounds = redundantGlobstars rest rest.length ∧
        redundantGlobstars rest rounds ≤ rest.length := by
  refine ⟨fun text => Calls.innermost, fun tail tail' => translate_congr_tail,
    fun depth => CallDepth.le_two, parseWithin_succ_eq_parse options pattern, readsThrough _, ?_⟩
  intro rest rounds hrounds
  exact ⟨redundantGlobstars_eq_redundantGlobstars hrounds (Nat.le_refl _),
    redundantGlobstars_le_length rest rounds⟩

/-- The extension behind a negated group is called for, and calls for nothing. -/
theorem parse_nests_once_extension :
    Calls {} ['!', '(', '*', ')', '.', 'a'] ['.', 'a'] ∧
      Innermost {} ['!', '(', '*', ')', '.', 'a'] ['.', 'a'] ∧
      CallDepth {} ['!', '(', '*', ')', '.', 'a'] 2 ∧
      parseWithin 1 {} ['!', '(', '*', ')', '.', 'a'] =
        parse ['!', '(', '*', ')', '.', 'a'] {} := by
  obtain ⟨hinnermost, -, -, hdepth, -⟩ := parse_nests_once {} ['!', '(', '*', ')', '.', 'a']
  have hcalls : Calls {} ['!', '(', '*', ')', '.', 'a'] ['.', 'a'] :=
    ⟨fun _ => .error .empty, _, .step rfl rfl (.step rfl rfl (.refl _)),
      Tokenizer.asks_iff.mpr rfl⟩
  exact ⟨hcalls, hinnermost _ hcalls, .nested hcalls (.own _ _), hdepth 0⟩

end PathGlob
