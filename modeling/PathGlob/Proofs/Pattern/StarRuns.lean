import PathGlob.Proofs.Pattern.Thins

/-!
# `PathGlob.Proofs.Pattern.StarRuns`: runs of stars where there is no globstar

Without globstars, a star behind a star changes nothing (`Tokenizer.Alongside.step_starAfterStar`).
So a pattern can be read side by side with the one that has a single star for every run of stars
(`collapseStars`), and the two get the same tokens but for the guards of stars
(`Context.tokenize_collapseStars`).

Places in the text are compared with the place where the pattern proper begins, and the shorter
text is behind from the first run on. By then the beginning is over in either (`Apart`).
-/

set_option autoImplicit false

namespace PathGlob

/-! ### The text -/

/-- A text with one star for every run of stars, given whether a star stands before it. -/
def collapseStarsFrom (afterStar : Bool) : List Char → List Char
  | [] => []
  | c :: rest =>
    if c = '*' && afterStar then collapseStarsFrom true rest
    else c :: collapseStarsFrom (c = '*') rest

/-- A text with one star for every run of stars. -/
def collapseStars (text : List Char) : List Char := collapseStarsFrom false text

example : collapseStars ['a', '*', '*', '/', '*', '*', '*', '.', '*'] =
    ['a', '*', '/', '*', '.', '*'] := rfl

theorem collapseStarsFrom_sublist (afterStar : Bool) (text : List Char) :
    (collapseStarsFrom afterStar text).Sublist text := by
  induction text generalizing afterStar with
  | nil => exact .slnil
  | cons c rest ih =>
    rw [collapseStarsFrom]
    split
    · exact (ih true).cons c
    · exact (ih _).cons_cons c

theorem head?_collapseStarsFrom_false (text : List Char) :
    (collapseStarsFrom false text).head? = text.head? := by
  cases text with
  | nil => rfl
  | cons c rest => simp [collapseStarsFrom]

theorem head?_collapseStarsFrom_true (text : List Char) :
    (collapseStarsFrom true text).head? ≠ some '*' := by
  induction text with
  | nil => simp [collapseStarsFrom]
  | cons c rest ih =>
    rw [collapseStarsFrom]
    split
    case isTrue => exact ih
    case isFalse hne => simpa using hne

theorem byteSize_collapseStarsFrom_le (afterStar : Bool) (text : List Char) :
    Text.byteSize (collapseStarsFrom afterStar text) ≤ Text.byteSize text := by
  induction text generalizing afterStar with
  | nil => exact Nat.le_refl _
  | cons c rest ih =>
    rw [collapseStarsFrom, Text.byteSize]
    split
    · exact Nat.le_trans (ih true) (Nat.le_add_left ..)
    · exact Nat.add_le_add_left (ih _) _

theorem byteSize_collapseStars_le (text : List Char) :
    Text.byteSize (collapseStars text) ≤ Text.byteSize text :=
  byteSize_collapseStarsFrom_le false text

theorem collapseStars_ne_nil {text : List Char} (h : text ≠ []) : collapseStars text ≠ [] := by
  intro hnil
  have hhead := head?_collapseStarsFrom_false text
  rw [collapseStars] at hnil
  rw [hnil] at hhead
  exact h (List.head?_eq_none_iff.mp hhead.symm)

/-- No two stars are left side by side. -/
theorem collapseStars_ne_stars (text rest : List Char) :
    collapseStars text ≠ '*' :: '*' :: rest := by
  intro heq
  cases text with
  | nil => exact absurd heq (by simp [collapseStars, collapseStarsFrom])
  | cons c text =>
    obtain ⟨rfl, hrest⟩ : c = '*' ∧ collapseStarsFrom (c = '*') text = '*' :: rest := by
      simpa [collapseStars, collapseStarsFrom] using heq
    exact head?_collapseStarsFrom_true text (by simpa using congrArg List.head? hrest)

/-- What is read as a whole has no stars. -/
theorem takeWhile_collapseStarsFrom (test : Char → Bool) (htest : test '*' = false)
    (text : List Char) : (collapseStarsFrom false text).takeWhile test = text.takeWhile test ∧
      (collapseStarsFrom false text).drop (text.takeWhile test).length =
        collapseStarsFrom false (text.drop (text.takeWhile test).length) := by
  induction text with
  | nil => exact ⟨rfl, rfl⟩
  | cons c rest ih =>
    by_cases hc : test c = true
    · have hstar : (c = '*') = False := by
        rw [eq_iff_iff, iff_false]
        rintro rfl
        exact absurd hc (by simp [htest])
      simp [collapseStarsFrom, hc, hstar, ih]
    · simp [collapseStarsFrom, hc]

/-- The characters that open or close a group, a class or a quotation, or escape. -/
def isDelimiter (c : Char) : Bool := ['\\', '"', '(', ')', '[', ']'].contains c

namespace Pattern

open Regex

namespace Tokenizer

/-! ### Reading side by side -/

section
variable {ctx : Context} {t t' : Tokenizer}

/-- No more has been read than before, and the pattern begins where it began. -/
structure Stays (t s : Tokenizer) : Prop where
  rest : s.rest = t.rest
  position : s.position = t.position
  start : s.start = t.start

theorem Stays.push {s : Tokenizer} {token : Token} (hrest : s.rest = t.rest)
    (hposition : s.position = t.position) (hstart : s.start = t.start) :
    t.Stays (s.push ctx token) :=
  ⟨(push_rest ctx s token).trans hrest, (push_position ctx s token).trans hposition,
    (push_start ctx s token).trans hstart⟩

section
variable (ctx : Context) (t : Tokenizer)

theorem stays_dot : t.Stays (t.dot ctx) := by
  unfold dot
  split
  case isTrue => exact ⟨rfl, rfl, rfl⟩
  case isFalse => exact .push (by rfl) (by rfl) (by rfl)

theorem stays_comma : t.Stays (t.comma ctx) := by
  unfold comma
  split
  case h_1 => exact .push (by rfl) (by rfl) (by rfl)
  case h_2 => exact .push (by rfl) (by rfl) (by rfl)

theorem stays_qmark (hparen : t.rest.head? ≠ some '(') : t.Stays (t.qmark ctx) := by
  unfold qmark
  simp only [opensExtglob_eq ctx hparen, Bool.and_false, Bool.false_eq_true, if_false]
  split
  case isTrue => exact .push (by rfl) (by rfl) (by rfl)
  case isFalse => exact .push (by rfl) (by rfl) (by rfl)

theorem stays_closeBrace : t.Stays (t.closeBrace ctx) := by
  unfold closeBrace
  split
  case h_2 => exact .push (by rfl) (by rfl) (by rfl)
  case h_1 frame frames _ =>
    dsimp only
    generalize (if frame.dots && !frame.comma then _ else none : Option (List Char)) = range
    cases range with
    | some source => exact .push (by rfl) (by rfl) (by rfl)
    | none =>
      dsimp only
      split
      case isTrue => exact .push (by rfl) (by rfl) (by rfl)
      case isFalse => exact .push (by rfl) (by rfl) (by rfl)

end

/-- The beginning of the pattern is over in both states, unless both have read the same. -/
def Apart (t t' : Tokenizer) : Prop :=
  t'.position = t.position ∨ (t.start < t.position ∧ t.start < t'.position ∧
    (t.last.kind = .dot → t.start + 1 < t.position ∧ t.start + 1 < t'.position))

/-- Both read as many characters more. -/
theorem Apart.advance (h : Apart t t') {s s' : Tokenizer} {k : Nat} (hstart : s.start = t.start)
    (hposition : s.position = t.position + (k + 1))
    (hposition' : s'.position = t'.position + (k + 1)) : Apart s s' := by
  obtain heq | ⟨hlt, hlt', -⟩ := h
  · exact .inl (by omega)
  · exact .inr ⟨by omega, by omega, fun _ => ⟨by omega, by omega⟩⟩

/-- What the tokenizer asks of its place in the text. -/
theorem Apart.place_iff (h : Apart t t') (hstart : t'.start = t.start) :
    (t'.position = t'.start ↔ t.position = t.start) ∧
      (t.last.kind = .dot → (t'.position = t'.start + 1 ↔ t.position = t.start + 1)) := by
  obtain heq | ⟨hlt, hlt', hdot⟩ := h
  · exact ⟨by omega, fun _ => by omega⟩
  · exact ⟨by omega, fun hkind => by have := hdot hkind; omega⟩

/-- The second state reads the text with one star for every run. The flag tells if a star has
just been read. -/
structure Alongside (ctx : Context) (afterStar : Bool) (t t' : Tokenizer) : Prop where
  parallels : Parallels ctx t t'
  apart : Apart t t'
  rest : t'.rest = collapseStarsFrom afterStar t.rest
  star : afterStar = true → t.last.kind = .star

/-- What a star does. -/
theorem star_eq_of_ignores (hctx : ctx.IgnoresGlobstars) (hlast : t.last.IsOrdinary)
    (hgroup : t.optionalGroup = none) (hparen : t.rest.head? ≠ some '(') : t.star ctx =
      if t.last.kind = .star then t
      else (if t.place = t.start ∨ t.last.kind = .slash ∨ t.last.kind = .dot then
          t.guardLast (ctx.starGuard t.last.kind ++
            if t.rest.head? = some '*' then [] else Fragment.oneChar)
        else t).push ctx (.ofSource .star ['*'] ctx.star) := by
  have hguard : t.starGuard? ctx =
      if t.place = t.start ∨ t.last.kind = .slash ∨ t.last.kind = .dot then
        some (ctx.starGuard t.last.kind ++
          if t.rest.head? = some '*' then [] else Fragment.oneChar)
      else none := by
    unfold starGuard?
    simp only [hgroup, ahead_zero, Bool.or_eq_true, decide_eq_true_eq, or_assoc]
    split
    case isTrue => split <;> simp [Context.starGuard]
    case isFalse => simp
  unfold star secondStar
  simp only [hguard, hlast.not_globstar, hlast.isStarRun, ahead_zero, hparen, hctx.noGlobstar,
    hctx.bash, decide_false, Bool.or_self, Bool.and_false, Bool.false_and, Bool.false_eq_true,
    if_false, if_true]
  split
  case isTrue => rfl
  case isFalse =>
    by_cases hplace : t.place = t.start ∨ t.last.kind = .slash ∨ t.last.kind = .dot
    · simp only [if_pos hplace]
    · simp only [if_neg hplace]

/-- A star that stands behind no star. No further one follows it in the second text. -/
theorem Parallels.readStar (other : Context) (hctx : ctx.IgnoresGlobstars) (h : Parallels ctx t t')
    (hparen : t.rest.head? ≠ some '(') (hparen' : t'.rest.head? ≠ some '(')
    (hstar' : t'.rest.head? ≠ some '*') (hkind : t.last.kind ≠ .star) (hne : t.tokens ≠ [])
    (hplace : t'.place = t'.start ↔ t.place = t.start)
    (hbegin : t.place = t.start → t.last.kind = .bos) :
    Parallels ctx (t.star ctx) (t'.star (ctx.over other)) ∧ (t.star ctx).last.kind = .star := by
  obtain ⟨hlast, hlast'⟩ := h.isOrdinary_last
  have hctx' : (ctx.over other).IgnoresGlobstars := ⟨hctx.1, hctx.2, hctx.3, hctx.4⟩
  rw [star_eq_of_ignores hctx hlast h.optionalGroup hparen,
    star_eq_of_ignores hctx' hlast' h.optionalGroup' hparen', if_neg hkind, h.kind_last,
    if_neg hkind, if_neg hstar']
  have hiff : (t'.place = t'.start ∨ t.last.kind = .slash ∨ t.last.kind = .dot) ↔
      (t.place = t.start ∨ t.last.kind = .slash ∨ t.last.kind = .dot) := or_congr hplace Iff.rfl
  by_cases hneeds : t.place = t.start ∨ t.last.kind = .slash ∨ t.last.kind = .dot
  · rw [if_pos hneeds, if_pos (hiff.mpr hneeds)]
    have hlast : t.last.kind.needsGuard = true := by
      obtain hstart | hslash | hdot := hneeds
      · rw [hbegin hstart]
        rfl
      · rw [hslash]
        rfl
      · rw [hdot]
        rfl
    refine ⟨h.guard other hne hlast ?_, kind_last_push ?_ ctx _⟩
    · split <;> simp
    · intro hnil
      have hlength := congrArg List.length hnil
      simp [guardLast, Tokenizer.modifyLast, modify, emit] at hlength
      exact hne hlength
  · rw [if_neg hneeds, if_neg (mt hiff.mp hneeds)]
    exact ⟨h.push other (Token.isCommon_ofSource (by simp) (by simp) rfl _ _) (by simp),
      kind_last_push hne ctx _⟩

theorem stays_star (hctx : ctx.IgnoresGlobstars) (hlast : t.last.IsOrdinary)
    (hgroup : t.optionalGroup = none) (hparen : t.rest.head? ≠ some '(') :
    t.Stays (t.star ctx) := by
  rw [star_eq_of_ignores hctx hlast hgroup hparen]
  split
  case isTrue => exact ⟨rfl, rfl, rfl⟩
  case isFalse => split <;> exact .push (by rfl) (by rfl) (by rfl)

theorem Parallels.plainText (other : Context) (h : Parallels ctx t t') (c : Char)
    (hrun : t'.rest.takeWhile (fun d => !isSpecial d) = t.rest.takeWhile fun d => !isSpecial d) :
    Parallels ctx (t.plainText ctx c) (t'.plainText (ctx.over other) c) := by
  unfold Tokenizer.plainText
  rw [hrun]
  exact (h.skip _ _).pushText other _ _

theorem negations_eq {rest : List Char} (hparen : '(' ∉ rest) :
    negations rest = (rest.takeWhile (· = '!')).length := by
  induction rest with
  | nil => rfl
  | cons c rest ih =>
    obtain ⟨hc, hrest⟩ := not_or.mp (mt List.mem_cons.mpr hparen)
    by_cases hbang : c = '!'
    · subst hbang
      have hhead : rest.head? ≠ some '(' := fun hhead => hrest (List.mem_of_mem_head? hhead)
      rw [negations, if_pos (by simp [hhead]), ih hrest, List.takeWhile_cons_of_pos (by simp),
        List.length_cons, Nat.add_comm]
    · rw [List.takeWhile_cons_of_neg (by simpa using hbang), negations]
      · rfl
      · exact fun rest heq => hbang (List.cons.inj heq).1

end

section
variable {ctx : Context} (tail tail' : List Char → Except Error (List Char)) {t t' : Tokenizer}
  {c : Char} {rest : List Char} {afterStar : Bool}

theorem step_star (h : Parallels ctx t t') :
    Tokenizer.step ctx tail t '*' = .ok (t.star ctx) := by
  simp [Tokenizer.step, h.inClass, h.quoted]

/-- A star behind a star is read by the first one only. -/
theorem Alongside.step_starAfterStar (hctx : ctx.IgnoresGlobstars)
    (h : Alongside ctx true t t') (hbegun : t.Begun) (hrest : t.rest = '*' :: rest)
    (hplain : ∀ c ∈ t.rest, isDelimiter c = false) :
    ∃ s, Tokenizer.step ctx tail (t.taking rest) '*' = .ok s ∧ Alongside ctx true s t' := by
  have htaken : Parallels ctx (t.taking rest) t' := { h.parallels with }
  have hstar := h.star rfl
  have hparen : (t.taking rest).rest.head? ≠ some '(' := fun hhead =>
    absurd (hplain '(' (hrest ▸ List.mem_cons_of_mem _ (List.mem_of_mem_head? hhead))) (by decide)
  have hsame : (t.taking rest).star ctx = t.taking rest := by
    rw [star_eq_of_ignores hctx htaken.isOrdinary_last.1 htaken.optionalGroup hparen]
    exact if_pos hstar
  refine ⟨_, step_star tail htaken, ?_⟩
  rw [hsame]
  have hlt : t.start ≠ t.position := by
    intro heq
    have hlast := hstar
    rw [last, hbegun.first heq.symm] at hlast
    exact absurd hlast (by simp)
  have hle := hbegun.start
  refine ⟨htaken, .inr ⟨?_, ?_, ?_⟩, ?_, fun _ => hstar⟩
  · show t.start < t.position + 1
    omega
  · show t.start < t'.position
    obtain heq | ⟨-, hlt', -⟩ := h.apart
    · omega
    · exact hlt'
  · exact fun hdot => absurd (hstar.symm.trans hdot) (by simp)
  · rw [h.rest, hrest]
    rfl

theorem Parallels.taking (h : Parallels ctx t t') (rest rest' : List Char) :
    Parallels ctx (t.taking rest) (t'.taking rest') := { h with }

theorem slash_taking (ctx : Context) (t : Tokenizer) (rest : List Char) :
    (t.taking rest).slash ctx =
      if t.last.kind = .dot ∧ t.position = t.start + 1 then
        { t.taking rest with start := t.position + 1, output := [], tokens := t.tokens.dropLast }
      else (t.taking rest).push ctx (.ofSource .slash ['/'] (Fragment.slash ctx.windows)) := by
  unfold Tokenizer.slash
  simp only [Bool.and_eq_true, decide_eq_true_eq]
  rfl

/-- Without groups, an exclamation mark negates the pattern or stands for itself. -/
theorem bang_taking (ctx : Context) (t : Tokenizer) {rest : List Char} (hparen : '(' ∉ rest) :
    (t.taking rest).bang ctx =
      if ctx.options.noNegate = false ∧ t.position = 0 then
        { (t.taking rest).skip (rest.takeWhile (· = '!')).length with
          start := (rest.takeWhile (· = '!')).length + 1
          negated := ((rest.takeWhile (· = '!')).length + 1) % 2 = 1 }
      else (t.taking rest).plainText ctx '!' := by
  have hhead : (t.taking rest).ahead 0 ≠ some '(' := fun hhead =>
    hparen (List.mem_of_mem_head? (ahead_zero (t.taking rest) ▸ hhead))
  have hnegations : negations (t.taking rest).rest = (rest.takeWhile (· = '!')).length :=
    negations_eq hparen
  unfold Tokenizer.bang
  simp only [hhead, decide_false, Bool.and_false, Bool.false_and, Bool.false_eq_true, if_false,
    hnegations, Bool.and_eq_true, Bool.not_eq_true',
    decide_eq_true_eq]
  rfl

section
variable (h : Alongside ctx afterStar t t') (other : Context) (rest : List Char)
include h

/-- Both have read one character. -/
theorem Alongside.of_stays {b : Bool} {s s' : Tokenizer} (hp : Parallels ctx s s')
    (hs : (t.taking rest).Stays s) (hs' : (t'.taking (collapseStarsFrom b rest)).Stays s')
    (hstar : b = true → s.last.kind = .star) : Alongside ctx b s s' := by
  refine ⟨hp, h.apart.advance hs.start hs.position hs'.position, ?_, hstar⟩
  rw [hs'.rest, hs.rest]
  rfl

theorem Alongside.push {token : Token} (htoken : token.IsCommon) (hbos : token.kind ≠ .bos) :
    Alongside ctx false ((t.taking rest).push ctx token)
      ((t'.taking (collapseStarsFrom false rest)).push (ctx.over other) token) :=
  h.of_stays rest ((h.parallels.taking _ _).push other htoken hbos)
    (.push (by rfl) (by rfl) (by rfl)) (.push (by rfl) (by rfl) (by rfl)) (by simp)

/-- A run of plain characters has no stars. -/
theorem Alongside.plainText (c : Char) :
    Alongside ctx false ((t.taking rest).plainText ctx c)
      ((t'.taking (collapseStarsFrom false rest)).plainText (ctx.over other) c) := by
  obtain ⟨htake, hdrop⟩ := takeWhile_collapseStarsFrom (fun d => !isSpecial d) rfl rest
  have hp := (h.parallels.taking rest (collapseStarsFrom false rest)).plainText other c htake
  refine ⟨hp, ?_, ?_, by simp⟩
  · refine h.apart.advance (k := (rest.takeWhile fun d => !isSpecial d).length) ?_ ?_ ?_
    · exact push_start ..
    · exact (push_position ..).trans (by simp [Tokenizer.skip, taking]; omega)
    · refine (push_position ..).trans ?_
      simp [Tokenizer.skip, taking, htake]
      omega
  · rw [Tokenizer.plainText, Tokenizer.plainText, pushText, pushText, push_rest, push_rest]
    show List.drop _ (collapseStarsFrom false rest) = collapseStarsFrom false (List.drop _ rest)
    rw [show (t'.taking (collapseStarsFrom false rest)).rest = collapseStarsFrom false rest from
      rfl, htake]
    exact hdrop

/-- A leading `./` is dropped by both. -/
theorem Alongside.slash (hwindows : ctx.options.windows = false) :
    Alongside ctx false ((t.taking rest).slash ctx)
      ((t'.taking (collapseStarsFrom false rest)).slash (ctx.over other)) := by
  have hstart := h.parallels.start
  have hplace : (t'.last.kind = .dot ∧ t'.position = t'.start + 1) ↔
      (t.last.kind = .dot ∧ t.position = t.start + 1) := by
    rw [h.parallels.kind_last]
    exact and_congr_right (h.apart.place_iff hstart).2
  rw [slash_taking, slash_taking]
  by_cases hdot : t.last.kind = .dot ∧ t.position = t.start + 1
  · rw [if_pos hdot, if_pos (hplace.mpr hdot)]
    have hposition : t'.position = t.position := by
      have := (hplace.mpr hdot).2
      omega
    have hne : t.tokens ≠ [] := by
      intro hnil
      simp [last, hnil] at hdot
    obtain ⟨before, htokens⟩ := exists_tokens_eq hne
    obtain ⟨before', htokens', hbefore, -, -⟩ :=
      h.parallels.tokens.exists_last htokens (by simp [hdot.1])
    refine ⟨{ h.parallels.taking rest (collapseStarsFrom false rest) with
      tokens := ?_, start := congrArg (· + 1) hposition }, .inl (congrArg (· + 1) hposition), rfl,
        by simp⟩
    show Thins ctx true t.tokens.dropLast t'.tokens.dropLast
    rw [htokens, htokens', List.dropLast_concat, List.dropLast_concat]
    exact hbefore
  · rw [if_neg hdot, if_neg (mt hplace.mp hdot)]
    refine h.push other rest ⟨⟨by simp, by simp, rfl⟩, fun source hsource => ?_⟩ (by simp)
    obtain rfl : ['/'] = source := by simpa [TokenKind.leadSource?] using hsource
    simp [Token.source, Token.ofSource, Context.windows, hwindows, Fragment.slash]

/-- A leading run of exclamation marks is read by both at once. -/
theorem Alongside.bang (hparen : '(' ∉ rest) :
    Alongside ctx false ((t.taking rest).bang ctx)
      ((t'.taking (collapseStarsFrom false rest)).bang (ctx.over other)) := by
  have hparen' : '(' ∉ collapseStarsFrom false rest := fun hmem =>
    hparen ((collapseStarsFrom_sublist _ _).mem hmem)
  have hplace : t'.position = 0 ↔ t.position = 0 := by
    obtain heq | ⟨hlt, hlt', -⟩ := h.apart <;> omega
  obtain ⟨htake, hdrop⟩ := takeWhile_collapseStarsFrom (fun d => d = '!') rfl rest
  rw [bang_taking ctx t hparen, bang_taking (ctx.over other) t' hparen', htake]
  by_cases hleads : ctx.options.noNegate = false ∧ t.position = 0
  · have hposition : t'.position = t.position := (hplace.mpr hleads.2).trans hleads.2.symm
    have hleads' : (ctx.over other).options.noNegate = false ∧ t'.position = 0 :=
      ⟨hleads.1, hplace.mpr hleads.2⟩
    rw [if_pos hleads, if_pos hleads']
    refine ⟨{ h.parallels.taking rest (collapseStarsFrom false rest) with
      start := rfl, negated := rfl }, .inl ?_, hdrop, by simp⟩
    show t'.position + 1 + _ = t.position + 1 + _
    rw [hposition]
  · have hleads' : ¬((ctx.over other).options.noNegate = false ∧ t'.position = 0) :=
      fun hboth => hleads ⟨hboth.1, hplace.mp hboth.2⟩
    rw [if_neg hleads, if_neg hleads']
    exact h.plainText other rest '!'

/-- A star behind something else, or behind a character without effect, is read by both. -/
theorem Alongside.readStar (hctx : ctx.IgnoresGlobstars) (hbegun : t.Begun) (hne : t.tokens ≠ [])
    (hparen : '(' ∉ rest) :
    Alongside ctx true ((t.taking rest).star ctx)
      ((t'.taking (collapseStarsFrom true rest)).star (ctx.over other)) := by
  have htaken := h.parallels.taking rest (collapseStarsFrom true rest)
  have hctx' : (ctx.over other).IgnoresGlobstars := ⟨hctx.1, hctx.2, hctx.3, hctx.4⟩
  have hhead : (t.taking rest).rest.head? ≠ some '(' := fun hhead =>
    hparen (List.mem_of_mem_head? hhead)
  have hhead' : (t'.taking (collapseStarsFrom true rest)).rest.head? ≠ some '(' := fun hhead =>
    hparen ((collapseStarsFrom_sublist _ _).mem (List.mem_of_mem_head? hhead))
  by_cases hstar : t.last.kind = .star
  · -- Neither star does anything.
    have hsame : (t.taking rest).star ctx = t.taking rest := by
      rw [star_eq_of_ignores hctx htaken.isOrdinary_last.1 htaken.optionalGroup hhead]
      exact if_pos hstar
    have hsame' : (t'.taking (collapseStarsFrom true rest)).star (ctx.over other) =
        t'.taking (collapseStarsFrom true rest) := by
      rw [star_eq_of_ignores hctx' htaken.isOrdinary_last.2 htaken.optionalGroup' hhead']
      exact if_pos (htaken.kind_last.trans hstar)
    rw [hsame, hsame']
    exact h.of_stays rest htaken ⟨rfl, rfl, rfl⟩ ⟨rfl, rfl, rfl⟩ fun _ => hstar
  · have hplace : (t'.taking (collapseStarsFrom true rest)).place =
        (t'.taking (collapseStarsFrom true rest)).start ↔
          (t.taking rest).place = (t.taking rest).start :=
      (h.apart.place_iff h.parallels.start).1
    have hbegin : (t.taking rest).place = (t.taking rest).start →
        (t.taking rest).last.kind = .bos := by
      intro hplace
      show t.last.kind = .bos
      rw [last, hbegun.first hplace]
      rfl
    obtain ⟨hp, hlast⟩ := htaken.readStar other hctx hhead hhead'
      (head?_collapseStarsFrom_true rest) hstar hne hplace hbegin
    exact h.of_stays rest hp (stays_star hctx htaken.isOrdinary_last.1 htaken.optionalGroup hhead)
      (stays_star hctx' htaken.isOrdinary_last.2 htaken.optionalGroup' hhead') fun _ => hlast

end

/-- Any other character is read by both. -/
theorem Alongside.step (other : Context) (hctx : ctx.IgnoresGlobstars)
    (h : Alongside ctx afterStar t t') (hready : t.Ready ctx t.frames) (hbegun : t.Begun)
    (hrest : t.rest = c :: rest) (hplain : ∀ c ∈ t.rest, isDelimiter c = false) :
    ∃ s s', Tokenizer.step ctx tail (t.taking rest) c = .ok s ∧
      Tokenizer.step (ctx.over other) tail' (t'.taking (collapseStarsFrom (c = '*') rest)) c =
        .ok s' ∧ Alongside ctx (c = '*') s s' := by
  have hparen : '(' ∉ rest := fun hmem =>
    absurd (hplain '(' (hrest ▸ List.mem_cons_of_mem _ hmem)) (by decide)
  have hhead : (t.taking rest).rest.head? ≠ some '(' := fun hhead =>
    hparen (List.mem_of_mem_head? hhead)
  have hhead' : (t'.taking (collapseStarsFrom false rest)).rest.head? ≠ some '(' := fun hhead =>
    hparen ((collapseStarsFrom_sublist _ _).mem (List.mem_of_mem_head? hhead))
  have htaken := h.parallels.taking rest (collapseStarsFrom false rest)
  have hclass : (t.taking rest).inClass = false := h.parallels.inClass
  have hclass' (rest' : List Char) : (t'.taking rest').inClass = false := h.parallels.inClass'
  have hquoted : (t.taking rest).quoted = false := h.parallels.quoted
  have hquoted' (rest' : List Char) : (t'.taking rest').quoted = false := h.parallels.quoted'
  have htext (value source : List Char) : (Token.text value source).IsCommon :=
    Token.isCommon_ofSource (by simp) (by simp) rfl _ _
  have hplus : (Token.ofSource .plus ['+'] Fragment.plus).IsCommon :=
    Token.isCommon_ofSource (by simp) (by simp) rfl _ _
  by_cases hspecial : c ∈ ['\x00', '{', '}', '|', ',', '/', '.', '?', '!', '+', '@', '*']
  · simp only [List.mem_cons, List.not_mem_nil, or_false] at hspecial
    obtain rfl | rfl | rfl | rfl | rfl | rfl | rfl | rfl | rfl | rfl | rfl | rfl := hspecial
    · exact ⟨_, _, rfl, rfl, h.of_stays rest htaken ⟨rfl, rfl, rfl⟩ ⟨rfl, rfl, rfl⟩ (by simp)⟩
    · cases hbrace : ctx.options.noBrace with
      | true =>
        exact ⟨_, _, by simp [Tokenizer.step, hclass, hquoted, hbrace],
          by simp [Tokenizer.step, hclass', hquoted', Context.over, hbrace],
          h.plainText other rest '{'⟩
      | false =>
        exact ⟨_, _, by simp [Tokenizer.step, hclass, hquoted, hbrace],
          by simp [Tokenizer.step, hclass', hquoted', Context.over, hbrace],
          h.of_stays rest (htaken.openBrace other) (.push (by rfl) (by rfl) (by rfl))
            (.push (by rfl) (by rfl) (by rfl)) (by simp)⟩
    · refine ⟨_, _, by simp [Tokenizer.step, hclass, hquoted],
        by simp [Tokenizer.step, hclass', hquoted'],
        h.of_stays rest (htaken.closeBrace other fun brace hbrace => ?_) (stays_closeBrace ..)
          (stays_closeBrace ..) (by simp)⟩
      obtain ⟨⟨token, htoken, hkind, -⟩, -, -⟩ := hready.layout.fits _ hbrace
      exact Option.map_eq_some_iff.mpr ⟨token, htoken, hkind⟩
    · exact ⟨_, _, by simp [Tokenizer.step, hclass, hquoted, htaken.inParen.1, pushText],
        by simp [Tokenizer.step, hclass', hquoted', htaken.inParen.2, pushText],
        h.push other rest (htext ['|'] ['\\', '|']) (by simp [Token.text])⟩
    · exact ⟨_, _, by simp [Tokenizer.step, hclass, hquoted],
        by simp [Tokenizer.step, hclass', hquoted'],
        h.of_stays rest (htaken.comma other) (stays_comma ..) (stays_comma ..) (by simp)⟩
    · exact ⟨_, _, by simp [Tokenizer.step, hclass, hquoted],
        by simp [Tokenizer.step, hclass', hquoted'], h.slash other rest hctx.windows⟩
    · exact ⟨_, _, by simp [Tokenizer.step, hclass, hquoted],
        by simp [Tokenizer.step, hclass', hquoted'],
        h.of_stays rest (htaken.dot other) (stays_dot ..) (stays_dot ..) (by simp)⟩
    · exact ⟨_, _, by simp [Tokenizer.step, hclass, hquoted],
        by simp [Tokenizer.step, hclass', hquoted'],
        h.of_stays rest (htaken.qmark other hhead hhead') (stays_qmark _ _ hhead)
          (stays_qmark _ _ hhead') (by simp)⟩
    · exact ⟨_, _, by simp [Tokenizer.step, hclass, hquoted],
        by simp [Tokenizer.step, hclass', hquoted'], h.bang other rest hparen⟩
    · exact ⟨_, _, by simp [Tokenizer.step, hclass, hquoted, operator, opensExtglob_eq ctx hhead],
        by simp [Tokenizer.step, hclass', hquoted', operator, opensExtglob_eq _ hhead'],
        h.push other rest hplus (by simp)⟩
    · exact ⟨_, _, by simp [Tokenizer.step, hclass, hquoted, operator, opensExtglob_eq ctx hhead],
        by simp [Tokenizer.step, hclass', hquoted', operator, opensExtglob_eq _ hhead'],
        h.push other rest (htext ['@'] ['@']) (by simp [Token.text])⟩
    · exact ⟨_, _, by simp [Tokenizer.step, hclass, hquoted],
        by simp [Tokenizer.step, hclass', hquoted'],
        h.readStar other rest hctx hbegun hready.settled.ne_nil hparen⟩
  · have hdelimiter := hplain c (hrest ▸ List.mem_cons_self)
    simp only [isDelimiter, List.contains_eq_mem, decide_eq_false_iff_not, List.mem_cons,
      List.not_mem_nil, or_false, not_or] at hspecial hdelimiter
    refine ⟨(t.taking rest).plainText ctx c,
      (t'.taking (collapseStarsFrom false rest)).plainText (ctx.over other) c,
      by simp [Tokenizer.step, hclass, hquoted, hspecial, hdelimiter],
      by simp [Tokenizer.step, hclass', hquoted', hspecial, hdelimiter], ?_⟩
    simpa [hspecial] using h.plainText other rest c

/-- Outside of brackets, whatever is left can be read. -/
theorem Situation.ready_of_rest (h : t.Situation ctx) (hclass : t.inClass = false)
    (hrest : t.rest = c :: rest) : t.Ready ctx t.frames := by
  cases h with
  | ready h => exact h
  | bracketing before bracket h => exact absurd (h.inClass.symm.trans hclass) (by simp)
  | ended hnil | cut hnil => exact absurd (hrest.symm.trans hnil) (by simp)

/-- The one run is read alongside the other. -/
theorem Alongside.run (other : Context) (hctx : ctx.IgnoresGlobstars) (hstandard : ctx.IsStandard)
    (htail : ∀ text output, tail text = .ok output → Neutral output) {n n' : Nat}
    (h : Alongside ctx afterStar t t') (hsituation : t.Situation ctx) (hbegun : t.Begun)
    (hplain : ∀ c ∈ t.rest, isDelimiter c = false) (hn : t.rest.length ≤ n)
    (hn' : t'.rest.length ≤ n') :
    ∃ s s', Tokenizer.run ctx tail n t = .ok s ∧
      Tokenizer.run (ctx.over other) tail' n' t' = .ok s' ∧ Parallels ctx s s' ∧
        s.Situation ctx := by
  induction n generalizing t t' n' afterStar with
  | zero =>
    have hnil : t.rest = [] := List.length_eq_zero_iff.mp (Nat.le_zero.mp hn)
    have hnil' : t'.rest = [] := by rw [h.rest, hnil]; rfl
    exact ⟨t, t', rfl, run_of_rest_nil _ _ hnil' n', h.parallels, hsituation⟩
  | succ n ih =>
    cases hrest : t.rest with
    | nil =>
      have hnil' : t'.rest = [] := by rw [h.rest, hrest]; rfl
      exact ⟨t, t', run_of_rest_nil _ _ hrest _, run_of_rest_nil _ _ hnil' n', h.parallels,
        hsituation⟩
    | cons c rest =>
      have hready := hsituation.ready_of_rest h.parallels.inClass hrest
      have hlength : rest.length ≤ n := by simpa [hrest] using hn
      -- What holds behind a step of the first run, whichever it is.
      have hgo {s : Tokenizer} (hstep : Tokenizer.step ctx tail (t.taking rest) c = .ok s) :
          Tokenizer.run ctx tail (n + 1) t = Tokenizer.run ctx tail n s ∧ s.Situation ctx ∧
            s.Begun ∧ (∀ c ∈ s.rest, isDelimiter c = false) ∧ s.rest.length ≤ n := by
        obtain ⟨hs, hsBegun⟩ := hsituation.step hstandard htail hbegun hrest hstep
        have hfollows := follows_step hstep
        refine ⟨?_, hs, hsBegun, fun d hd => ?_, Nat.le_trans hfollows.length_rest_le hlength⟩
        · rw [run_of_rest_eq ctx tail hrest]
          exact congrArg (Except.bind · _) hstep
        · obtain ⟨k, hk, -⟩ := hfollows
          rw [hk] at hd
          exact hplain d (hrest ▸ List.mem_cons_of_mem _ (List.mem_of_mem_drop hd))
      have hcollapse := h.rest
      rw [hrest, collapseStarsFrom] at hcollapse
      by_cases hskip : (c = '*' && afterStar) = true
      · obtain ⟨rfl, rfl⟩ : c = '*' ∧ afterStar = true := by simpa using hskip
        obtain ⟨s, hstep, hnext⟩ := h.step_starAfterStar tail hctx hbegun hrest hplain
        obtain ⟨hrun, hs, hsBegun, hsPlain, hsLength⟩ := hgo hstep
        rw [hrun]
        exact ih hnext hs hsBegun hsPlain hsLength hn'
      · rw [if_neg hskip] at hcollapse
        obtain ⟨s, s', hstep, hstep', hnext⟩ :=
          h.step tail tail' other hctx hready hbegun hrest hplain
        obtain ⟨hrun, hs, hsBegun, hsPlain, hsLength⟩ := hgo hstep
        have hlength' := (follows_step hstep').length_rest_le
        rw [hcollapse] at hn'
        cases n' with
        | zero => exact absurd hn' (by simp)
        | succ n' =>
          have hrun' : Tokenizer.run (ctx.over other) tail' (n' + 1) t' =
              Tokenizer.run (ctx.over other) tail' n' s' := by
            rw [run_of_rest_eq _ _ hcollapse]
            exact congrArg (Except.bind · _) hstep'
          rw [hrun, hrun']
          exact ih hnext hs hsBegun hsPlain hsLength
            (Nat.le_trans hlength' (Nat.le_of_succ_le_succ hn'))

end

end Tokenizer

/-- The tokens of a pattern and those of the same pattern with one star for every run. -/
theorem Context.tokenize_collapseStars (ctx other : Context)
    (tail tail' : List Char → Except Error (List Char))
    (hctx : ctx.IgnoresGlobstars) (hstandard : ctx.IsStandard)
    (htail : ∀ text output, tail text = .ok output → Neutral output)
    (hplain : ∀ c ∈ ctx.body, isDelimiter c = false)
    (hbody : other.body = collapseStars ctx.body) :
    ∃ translation translation', ctx.tokenize tail = .ok translation ∧
      (ctx.over other).tokenize tail' = .ok translation' ∧
        translation'.negated = translation.negated ∧
          Thins ctx true translation.tokens translation'.tokens := by
  have hbegin : Tokenizer.Alongside ctx false { rest := ctx.body } { rest := other.body } :=
    ⟨⟨.common ⟨⟨by simp, by simp, rfl⟩, by simp [TokenKind.leadSource?, Token.source, Token.bos,
        Token.ofSource]⟩ (fun _ => rfl) .nil, .nil, rfl, rfl, rfl, rfl, rfl, rfl, rfl, rfl⟩,
      .inl rfl, hbody, by simp⟩
  obtain ⟨t, t', hrun, hrun', hparallels, hsituation⟩ := hbegin.run tail tail' other hctx
    hstandard htail (Tokenizer.situation_begin ctx _) (Tokenizer.begun_begin _) hplain
    (Nat.le_refl _) (Nat.le_refl _)
  obtain ⟨s, s', hs, hs', htokens, hnegated⟩ := hparallels.finish other hctx hsituation
  refine ⟨_, _, tokenize_eq ?_, tokenize_eq ?_, hnegated, htokens⟩
  · exact (congrArg (Except.bind · _) hrun).trans hs
  · exact (congrArg (Except.bind · _) hrun').trans hs'

end Pattern

end PathGlob
