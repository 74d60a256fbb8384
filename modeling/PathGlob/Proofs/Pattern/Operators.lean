import Mathlib.Data.Bool.Count
import PathGlob.Proofs.Pattern.HidesDots
import PathGlob.Proofs.Pattern.Outlined

/-!
# `PathGlob.Proofs.Pattern.Operators`: where an operator opens a group

An operator with a parenthesis behind it opens an extended group, but each of the five is read by
code of its own. Where `@` opens a group, so do `+` and `!`. A question mark opens one unless the
token before it reads like a parenthesis, and a star unless the token before it is a globstar or a
run of stars (`exists_opensAt_iff`).

Up to the operator the tokenizer does the same whatever the operator is, unless a step looks as far
as that (`Tokenizer.Passes.exists_alike`). There are two such cases. In `@(?(` the question mark
turns the parenthesis before it into one that no operator has opened, and in `!(?!(` the exclamation
mark does so. Neither of them changes the result.
-/

set_option autoImplicit false

namespace PathGlob.Pattern

open Regex

namespace Tokenizer

/-! ### The step at the operator -/

/-- The step opens an extended group of the kind. -/
def OpensGroup (kind : ExtglobKind) (t next : Tokenizer) : Prop :=
  ∃ frame frames, next.frames = .extglob frame :: frames ∧ frame.kind = kind ∧
    frames.length = t.frames.length

/-- The operator may open a group here: a question mark does not behind the text of a parenthesis,
and a star does not behind a globstar or a run of stars. -/
structure Allows (t : Tokenizer) (kind : ExtglobKind) : Prop where
  question : kind = .zeroOrOne → t.last.value ≠ ['(']
  star : kind = .zeroOrMore → t.last.kind ≠ .globstar ∧ t.last.isStarRun = false

section
variable {ctx : Context} {tail : List Char → Except Error (List Char)} {t next : Tokenizer}
  {kind : ExtglobKind} {after : List Char}

theorem length_frames (t : Tokenizer) :
    t.frames.length = t.outline.parens + t.outline.braces := by
  simp [outline, List.count_false_add_count_true]

theorem opensGroup_openExtglob (ctx : Context) (t : Tokenizer) (kind : ExtglobKind) (c : Char) :
    t.OpensGroup kind (t.openExtglob ctx kind c) := by
  refine ⟨_, _, rfl, rfl, ?_⟩
  rw [length_frames_push, skip, length_frames_push]

/-- Nothing is opened if as many groups are open as before. -/
theorem not_opensGroup (hlength : next.frames.length = t.frames.length) :
    ¬t.OpensGroup kind next := by
  rintro ⟨frame, frames, hframes, -, hlength'⟩
  rw [hframes, List.length_cons] at hlength
  omega

theorem PassesOver.not_opensGroup (h : t.PassesOver next) : ¬t.OpensGroup kind next := by
  obtain ⟨-, -, -, houtline⟩ := h
  exact Tokenizer.not_opensGroup (by rw [length_frames, length_frames, houtline])

section
variable (hrest : t.rest = '(' :: after) (hne : after ≠ []) (hquestion : after.head? ≠ some '?')
include hrest hquestion

theorem ahead_of_paren : t.ahead 0 = some '(' ∧ t.ahead 1 ≠ some '?' := by
  rw [List.head?_eq_getElem?] at hquestion
  rw [ahead, ahead, hrest]
  exact ⟨rfl, hquestion⟩

include hne

/-- Outside of brackets and quotes, an operator opens a group wherever it may. -/
theorem step_mark_of_allows (hclass : t.inClass = false) (hquoted : t.quoted = false)
    (hextglob : ctx.options.noExtglob = false) (hallows : t.Allows kind) :
    step ctx tail t kind.mark = .ok (t.openExtglob ctx kind kind.mark) := by
  obtain ⟨hfirst, hsecond⟩ := ahead_of_paren hrest hquestion
  have hopens : t.opensExtglob ctx = true := by simp [opensExtglob, hextglob, hfirst, hsecond]
  cases kind with
  | negate =>
    simp [step, ExtglobKind.mark, hclass, hquoted, bang, hextglob, hfirst, hsecond]
  | zeroOrOne =>
    simp [step, ExtglobKind.mark, hclass, hquoted, qmark, hallows.question rfl, hopens]
  | oneOrMore | exactlyOne =>
    simp [step, ExtglobKind.mark, hclass, hquoted, operator, hopens]
  | zeroOrMore =>
    have hother : (t.ahead 1).any (· ≠ '?') = true := by
      rw [ahead, hrest, List.getElem?_cons_succ, ← List.head?_eq_getElem?]
      cases after with
      | nil => exact absurd rfl hne
      | cons d more => simpa using hquestion
    obtain ⟨hglobstar, hrun⟩ := hallows.star rfl
    simp only [step, ExtglobKind.mark, hclass, hquoted, star, hglobstar, hrun, hextglob, hfirst,
      hother]
    rfl

end

theorem frames_step_inBracket (hne : t.tokens ≠ []) (ctx : Context) (c : Char) :
    (t.inBracket ctx c).frames = t.frames := by
  obtain ⟨value, n, -, hturns⟩ := exists_inBracket ctx c t.last.value t.rest
  exact (hturns t hne rfl rfl).frames

theorem noExtglob_of_opensExtglob (h : t.opensExtglob ctx = true) :
    ctx.options.noExtglob = false := by
  simp only [opensExtglob, Bool.and_eq_true, Bool.not_eq_true'] at h
  exact h.1.1

theorem Alike.allows_iff {t' : Tokenizer} (h : t.Alike t') : t'.Allows kind ↔ t.Allows kind := by
  have hsame {t t' : Tokenizer} (h : t.Alike t') (hallows : t.Allows kind) : t'.Allows kind :=
    ⟨fun hkind => h.value_last ▸ hallows.question hkind,
      fun hkind => h.kind_last ▸ h.isStarRun_last ▸ hallows.star hkind⟩
  exact ⟨hsame h.symm, hsame h⟩

/-- An operator opens a group nowhere else. -/
theorem allows_of_opensGroup (hne : t.tokens ≠ []) (hslash : t.rest.head? ≠ some '/')
    (hstep : step ctx tail t kind.mark = .ok next) (hopens : t.OpensGroup kind next) :
    t.inClass = false ∧ t.quoted = false ∧ ctx.options.noExtglob = false ∧ t.Allows kind := by
  have hnul : kind.mark ≠ '\x00' := kind.mark_ne rfl
  have hbackslash : kind.mark ≠ '\\' := kind.mark_ne rfl
  cases hclass : t.inClass with
  | true =>
    have hbody : t.outline.mode.inBody kind.mark = true := by
      simp [inBody_outline hclass, kind.mark_ne (c := ']') rfl]
    cases (step_of_inBody hclass hbody hnul hbackslash).symm.trans hstep
    exact absurd hopens (not_opensGroup (congrArg _ (frames_step_inBracket hne ctx _)))
  | false =>
    cases hquoted : t.quoted with
    | true =>
      have htext : step ctx tail t kind.mark =
          .ok (t.pushText ctx [kind.mark] (escapeChar kind.mark)) := by
        unfold step
        rw [if_neg hnul, if_neg hbackslash, if_neg (by simp [hclass]),
          if_pos (by simp [hquoted, kind.mark_ne (c := '"') rfl])]
      cases htext.symm.trans hstep
      exact absurd hopens (not_opensGroup (length_frames_push ..))
    | false =>
      refine ⟨rfl, rfl, ?_⟩
      unfold step at hstep
      rw [if_neg hnul, if_neg hbackslash, hclass, hquoted] at hstep
      simp only [Bool.false_and, Bool.false_eq_true, if_false] at hstep
      cases kind with
      | negate =>
        cases hstep
        refine ⟨?_, nofun, nofun⟩
        unfold bang at hopens
        dsimp only at hopens
        split at hopens
        case isTrue hgroup =>
          simp only [Bool.and_eq_true, Bool.not_eq_true'] at hgroup
          exact hgroup.1.1
        case isFalse =>
          split at hopens
          case isTrue => exact absurd hopens (not_opensGroup rfl)
          case isFalse => exact absurd hopens (passesOver_plainText hclass ctx _).not_opensGroup
      | zeroOrOne =>
        cases hstep
        unfold qmark at hopens
        dsimp only at hopens
        split at hopens
        case isTrue hgroup =>
          rw [Bool.and_eq_true, Bool.not_eq_true', decide_eq_false_iff_not] at hgroup
          exact ⟨noExtglob_of_opensExtglob hgroup.2, fun _ => hgroup.1, nofun⟩
        case isFalse =>
          split at hopens <;> exact absurd hopens (not_opensGroup (length_frames_push ..))
      | oneOrMore | exactlyOne =>
        cases hstep
        refine ⟨?_, nofun, nofun⟩
        unfold operator at hopens
        split at hopens
        case isTrue hgroup => exact noExtglob_of_opensExtglob hgroup
        case isFalse => exact absurd hopens (not_opensGroup (length_frames_push ..))
      | zeroOrMore =>
        cases hstep
        unfold star at hopens
        split at hopens
        case isTrue => exact absurd hopens (not_opensGroup rfl)
        case isFalse hstars =>
          rw [Bool.or_eq_true, not_or, decide_eq_true_eq, Bool.not_eq_true] at hstars
          split at hopens
          case isTrue hgroup =>
            simp only [Bool.and_eq_true, Bool.not_eq_true'] at hgroup
            exact ⟨hgroup.1.1, nofun, fun _ => hstars⟩
          case isFalse =>
            split at hopens
            case isTrue =>
              exact absurd hopens (passesOver_secondStar hclass hslash ctx).not_opensGroup
            case isFalse =>
              dsimp only at hopens
              refine absurd hopens (not_opensGroup ((length_frames_push ..).trans ?_))
              split <;> rfl

end

/-! ### Runs -/

section
variable {ctx : Context} {tail : List Char → Except Error (List Char)} {t s s' : Tokenizer}

theorem Passes.trans (h : Passes ctx tail t s) (h' : Passes ctx tail s s') :
    Passes ctx tail t s' := by
  induction h with
  | refl => exact h'
  | step hrest hstep _ ih => exact .step hrest hstep (ih h')

/-- Every step reads at least one character. -/
theorem Passes.eq_of_length_le (h : Passes ctx tail t s) (hlength : t.rest.length ≤ s.rest.length) :
    s = t := by
  cases h with
  | refl => rfl
  | @step _ next _ c rest hrest hstep h =>
    have hle : s.rest.length ≤ next.rest.length := h.rest_isSuffix.length_le
    have hle' : next.rest.length ≤ rest.length := (follows_step hstep).length_rest_le
    rw [hrest, List.length_cons] at hlength
    omega

/-- One of two states on the way comes after the other one. -/
theorem Passes.of_length_le (h : Passes ctx tail t s) (h' : Passes ctx tail t s')
    (hlength : s'.rest.length ≤ s.rest.length) : Passes ctx tail s s' := by
  induction h with
  | refl => exact h'
  | step hrest hstep h ih =>
    cases h' with
    | refl =>
      rw [(Passes.step hrest hstep h).eq_of_length_le hlength]
      exact .refl _
    | step hrest' hstep' h' =>
      cases hrest.symm.trans hrest'
      cases hstep.symm.trans hstep'
      exact ih h' hlength

/-- There is one way only. -/
theorem Passes.eq_of_length (h : Passes ctx tail t s) (h' : Passes ctx tail t s')
    (hlength : s.rest.length = s'.rest.length) : s' = s :=
  (h.of_length_le h' (Nat.le_of_eq hlength.symm)).eq_of_length_le (Nat.le_of_eq hlength)

theorem Passes.sound (hstar : ctx.star ≠ []) (h : Passes ctx tail t s) (hsound : t.Sound ctx) :
    s.Sound ctx := by
  induction h with
  | refl => exact hsound
  | step hrest hstep _ ih => exact ih (hsound.step hstar hrest hstep)

end

/-! #### Where a step looks as far as the operator -/

/-- What a question mark or an exclamation mark behind it makes a group of that would be none
otherwise, or the other way round. -/
def LooksAhead (kind : ExtglobKind) (text : List Char) : Prop :=
  (kind = .zeroOrOne ∧ MarksParen text) ∨ (kind = .negate ∧ text = ['!', '(', '?'])

section
variable {ctx : Context} {tail : List Char → Except Error (List Char)} {t s next : Tokenizer}
  {kind : ExtglobKind} {c : Char} {before after text rest : List Char}

theorem normal_of_mode (h : t.outline.mode = {}) : t.inClass = false ∧ t.quoted = false := by
  have hbody := congrArg Mode.body? h
  have hquoted : t.quoted = false := congrArg Mode.quoted h
  refine ⟨?_, hquoted⟩
  cases hclass : t.inClass with
  | false => rfl
  | true => simp [outline, hclass] at hbody

theorem isNeutral_of_isMark (h : isMark c = true) : isNeutral c = true := by
  obtain rfl | rfl | rfl | rfl | rfl : c = '@' ∨ c = '!' ∨ c = '?' ∨ c = '+' ∨ c = '*' := by
    simpa [isMark] using h
  all_goals rfl

theorem LooksAhead.head_ne (h : LooksAhead kind (c :: text)) : c ≠ ']' ∧ c ≠ '"' := by
  obtain ⟨-, marks, hmarks, htext⟩ | ⟨-, htext⟩ := h
  · cases marks with
    | nil =>
      obtain ⟨rfl, -⟩ := List.cons.inj htext
      decide
    | cons mark marks =>
      obtain ⟨rfl, -⟩ := List.cons.inj htext
      have hmark := hmarks c List.mem_cons_self
      constructor <;> rintro rfl <;> cases hmark
  · obtain ⟨rfl, -⟩ := List.cons.inj htext
    decide

/-- Behind operators and a parenthesis, the text of the last token is that of a parenthesis. -/
theorem Passes.value_last_of_marksParen (h : Passes ctx tail t s) (hclass : t.inClass = false)
    (hquoted : t.quoted = false) (hrest : t.rest = text ++ kind.mark :: '(' :: after)
    (hend : s.rest = kind.mark :: '(' :: after) (htext : MarksParen text) :
    s.last.value = ['('] := by
  obtain ⟨marks, hmarks, rfl⟩ := htext
  induction h generalizing marks with
  | refl =>
    have hlength := congrArg List.length (hrest.symm.trans hend)
    simp only [List.length_append, List.length_cons, List.length_nil] at hlength
    omega
  | @step t next s c rest hcons hstep h ih =>
    rw [List.append_assoc, hcons] at hrest
    have hclass' : (t.reading rest).inClass = false := hclass
    have hquoted' : (t.reading rest).quoted = false := hquoted
    -- The state behind the parenthesis is the one in question.
    have hlast (hnext : next.rest = kind.mark :: '(' :: after) (hvalue : next.last.value = ['(']) :
        s.last.value = ['('] := by
      rwa [h.eq_of_length_le (by rw [hnext, hend])]
    cases marks with
    | nil =>
      obtain ⟨rfl, rfl⟩ := List.cons.inj hrest
      obtain rfl := Except.ok.inj ((step_openParen hclass' hquoted').symm.trans hstep)
      exact hlast (push_rest ..) (value_last_push (by simp [Token.ofSource]))
    | cons mark marks =>
      obtain ⟨rfl, hmore⟩ : c = mark ∧ rest = marks ++ '(' :: kind.mark :: '(' :: after :=
        List.cons.inj hrest
      obtain ⟨hmark, hmarks⟩ := List.forall_mem_cons.mp hmarks
      have hother {d : Char} (hd : isMark d = false) : d ∉ marks := fun hmem => by
        cases (hmarks d hmem).symm.trans hd
      have hslash : rest.head? ≠ some '/' := by
        rw [hmore]
        cases marks with
        | nil => simp
        | cons d marks =>
          have hne : d ≠ '/' := fun heq => hother (d := '/') rfl (heq ▸ List.mem_cons_self)
          simpa using hne
      obtain ⟨k, hnext, hpassed, houtline⟩ | ⟨-, hopens⟩ :=
        step_neutral hclass' hquoted' (isNeutral_of_isMark hmark) hslash hstep
      · obtain ⟨hclass'', hquoted''⟩ := normal_of_mode
          ((congrArg Outline.mode houtline).trans (mode_outline hclass' hquoted'))
        -- It does not pass over the parenthesis.
        have hk : k ≤ marks.length := by
          by_contra hlt
          have hmem : '(' ∈ rest.take k := by
            refine List.mem_of_getElem? (i := marks.length) ?_
            rw [List.getElem?_take_of_lt (by omega), hmore]
            simp
          cases hpassed '(' hmem
        refine ih hclass'' hquoted'' hend (marks.drop k)
          (fun d hd => hmarks d (List.mem_of_mem_drop hd)) ?_
        rw [hnext, List.append_assoc]
        exact (congrArg (List.drop k) hmore).trans (List.drop_append_of_le_length hk)
      · have hparen : rest = '(' :: next.rest := hopens.rest
        cases marks with
        | nil => exact hlast (List.cons.inj (hparen.symm.trans hmore)).2 hopens.value
        | cons d marks =>
          obtain ⟨rfl, -⟩ := List.cons.inj (hparen.symm.trans hmore)
          exact absurd List.mem_cons_self (hother (d := '(') rfl)

theorem normal_push (hclass : t.inClass = false) (hquoted : t.quoted = false)
    (ctx : Context) (token : Token) :
    (t.push ctx token).inClass = false ∧ (t.push ctx token).quoted = false :=
  ⟨(push_inClass ..).trans hclass, (push_quoted ..).trans hquoted⟩

/-- Before what could begin a construct of the source language, an exclamation mark opens no
group. -/
theorem exists_passes_of_raw (hclass : t.inClass = false) (hquoted : t.quoted = false)
    (hrest : t.rest = '!' :: '(' :: '?' :: '!' :: '(' :: after) :
    ∃ s, Passes ctx tail t s ∧ s.rest = '!' :: '(' :: after ∧ s.inClass = false ∧
      s.quoted = false := by
  let r := t.reading ('(' :: '?' :: '!' :: '(' :: after)
  have hbang : step ctx tail r '!' = .ok (r.bang ctx) := by
    simp [step, r, reading, hclass, hquoted]
  obtain ⟨hrest₁, hclass₁, hquoted₁⟩ : (r.bang ctx).rest = '(' :: '?' :: '!' :: '(' :: after ∧
      (r.bang ctx).inClass = false ∧ (r.bang ctx).quoted = false := by
    have hraw : (!ctx.options.noExtglob && decide (r.ahead 0 = some '(') &&
        !(r.ahead 1 = some '?' && (r.ahead 2 = some '!' || r.ahead 2 = some '=' ||
          r.ahead 2 = some '<' || r.ahead 2 = some ':'))) = false := by
      simp [ahead, r, reading]
    unfold bang
    dsimp only
    rw [hraw, if_neg Bool.false_ne_true]
    split
    case isTrue => exact ⟨rfl, hclass, hquoted⟩
    case isFalse =>
      have hplain : r.plainText ctx '!' = (r.skip 0).push ctx (.text ['!'] ['!']) := by
        simp [plainText, r, reading, pushText, isSpecial]
      have hskip : (r.skip 0).inClass = false ∧ (r.skip 0).quoted = false := ⟨hclass, hquoted⟩
      rw [hplain]
      exact ⟨push_rest .., normal_push hskip.1 hskip.2 ctx _⟩
  let r₁ := (r.bang ctx).reading ('?' :: '!' :: '(' :: after)
  let r₂ := (r₁.openParen ctx).reading ('!' :: '(' :: after)
  have hclass₂ : r₂.inClass = false := (push_inClass ..).trans hclass₁
  have hquoted₂ : r₂.quoted = false := (push_quoted ..).trans hquoted₁
  have hparen : step ctx tail r₁ '(' = .ok (r₁.openParen ctx) := step_openParen hclass₁ hquoted₁
  have hqmark : step ctx tail r₂ '?' = .ok (r₂.qmark ctx) := by
    simp [step, hclass₂, hquoted₂]
  have hnot : r₂.opensExtglob ctx = false := by simp [opensExtglob, ahead, r₂, reading]
  obtain ⟨token, hpush⟩ : ∃ token, r₂.qmark ctx = r₂.push ctx token := by
    unfold qmark
    rw [hnot]
    dsimp only
    rw [Bool.and_false, if_neg Bool.false_ne_true]
    split <;> exact ⟨_, rfl⟩
  refine ⟨r₂.qmark ctx, ?_, ?_, ?_⟩
  · refine .step hrest hbang (.step hrest₁ hparen (.step ?_ hqmark (.refl _)))
    exact push_rest ..
  · rw [hpush]
    exact push_rest ..
  · rw [hpush]
    exact normal_push hclass₂ hquoted₂ ctx token

end

/-! #### Up to the operator -/

section
variable {ctx ctx' : Context} {tail tail' : List Char → Except Error (List Char)}
  {t t' s next : Tokenizer} {kind : ExtglobKind} {c : Char} {before after rest : List Char}

theorem normal_of_readsText (h : t.readsText c = false) (hbracket : c ≠ ']') (hquote : c ≠ '"') :
    t.inClass = false ∧ t.quoted = false := by
  simpa [readsText, hbracket, hquote] using h

theorem closes_of_extension? {text : List Char} (h : t.extension? c = some text) :
    c = ')' ∧ t.readsText c = false := by
  unfold extension? at h
  split at h
  case isTrue => cases h
  case isFalse htext =>
    split at h
    case h_1 => exact ⟨rfl, Bool.eq_false_iff.mpr htext⟩
    case h_2 => cases h

/-- An extension begins outside of brackets and quotes. If the operator stands outside of them too,
the text between the two leads out of any that it leads into. -/
theorem mode_follow_of_extension? (hstar : ctx.star ≠ [])
    (hstrict : ctx.options.strictBrackets = true) (hsound : t.Sound ctx)
    (hrest : t.rest = c :: (before ++ '@' :: '(' :: after))
    (hextension : (t.reading (before ++ '@' :: '(' :: after)).extension? c =
      some (before ++ '@' :: '(' :: after))
    (hstep : step ctx tail (t.reading (before ++ '@' :: '(' :: after)) c = .ok next)
    (h : Passes ctx tail next s) (hend : s.rest = '@' :: '(' :: after) (hclass : s.inClass = false)
    (hquoted : s.quoted = false) : Mode.follow ctx {} before ('@' :: '(' :: after) = {} := by
  let r := t.reading (before ++ '@' :: '(' :: after)
  have hsound' : next.Sound ctx := hsound.step hstar hrest hstep
  obtain ⟨rfl, htext⟩ : c = ')' ∧ r.readsText c = false := closes_of_extension? hextension
  obtain ⟨hclass', hquoted'⟩ : r.inClass = false ∧ r.quoted = false :=
    normal_of_readsText htext (by decide) (by decide)
  rw [step_closeParen htext] at hstep
  obtain ⟨-, houtline, hnext⟩ := outline_closeParen hclass' hstrict hstep
  have hmode : next.outline.mode = {} :=
    (congrArg Outline.mode houtline).trans (mode_outline hclass' hquoted')
  obtain ⟨read, hread, hfollow⟩ := h.follow hstar hstrict hsound'
    (hnext ▸ plain_of_isExtension (of_extension? hextension).2)
  obtain rfl : before = read := by
    rw [hnext, hend] at hread
    exact List.append_cancel_right hread
  have hsame := Outline.mode_follow hfollow
  rw [hmode, hend, mode_outline hclass hquoted] at hsame
  exact hsame.symm

/-- A backslash takes an operator behind it along. -/
theorem rest_escape (hrest : t.rest = '@' :: rest) : (t.escape ctx).rest = rest := by
  have hskip : (t.skip 1).rest = rest := by rw [skip, hrest]; rfl
  unfold escape
  rw [hrest]
  dsimp only
  rw [if_neg (by simp)]
  split
  case isTrue => exact hskip
  case isFalse => split <;> exact (push_rest ..).trans hskip

/-- Up to the operator, or up to where the next step looks as far as that, the tokenizer does the
same whatever the operator is. -/
theorem Passes.exists_alike (hstar : ctx.star ≠ []) (hoptions : ctx'.options = ctx.options)
    (hafter : after.head? ≠ some '?')
    (htail : ∀ before, isExtension (before ++ '@' :: '(' :: after) = true →
      (ctx.options.strictBrackets = true → Mode.follow ctx {} before ('@' :: '(' :: after) = {}) →
        ∀ source, tail (before ++ '@' :: '(' :: after) = .ok source →
          ∃ source', tail' (before ++ kind.mark :: '(' :: after) = .ok source')
    (h : Passes ctx tail t s) (hend : s.rest = '@' :: '(' :: after) (hclass : s.inClass = false)
    (hquoted : s.quoted = false) (hsound : t.Sound ctx) (halike : t.Alike t')
    (hrest : t.rest = before ++ '@' :: '(' :: after)
    (hrest' : t'.rest = before ++ kind.mark :: '(' :: after) :
    ∃ text r r', Passes ctx tail r s ∧ Passes ctx' tail' t' r' ∧ r.Alike r' ∧
      r.rest = text ++ '@' :: '(' :: after ∧ r'.rest = text ++ kind.mark :: '(' :: after ∧
        (text = [] ∨ (r.inClass = false ∧ r.quoted = false ∧ LooksAhead kind text)) := by
  induction h generalizing t' before with
  | refl t =>
    obtain rfl : before = [] := List.append_left_eq_self.mp (hrest.symm.trans hend)
    exact ⟨[], t, t', .refl t, .refl t', halike, hrest, hrest', .inl rfl⟩
  | @step t next s c rest hcons hstep h ih =>
    have hlength : s.rest.length ≤ next.rest.length := h.rest_isSuffix.length_le
    have hlength' : next.rest.length ≤ rest.length := (follows_step hstep).length_rest_le
    cases before with
    | nil =>
      rw [hend] at hlength
      rw [hcons] at hrest
      have := congrArg List.length hrest
      simp only [List.nil_append, List.length_cons] at this hlength
      omega
    | cons d before =>
      obtain ⟨rfl, rfl⟩ : c = d ∧ rest = before ++ '@' :: '(' :: after :=
        List.cons.inj (hcons.symm.trans hrest)
      let rest' := before ++ kind.mark :: '(' :: after
      let r := t.reading (before ++ '@' :: '(' :: after)
      let r' := t'.reading rest'
      have hreading : r.Alike r' := { halike with position := congrArg (· + 1) halike.position }
      by_cases hahead : r.readsText c = false ∧ LooksAhead kind (c :: before)
      case pos =>
        obtain ⟨htext, hahead⟩ := hahead
        obtain ⟨hbracket, hquote⟩ := hahead.head_ne
        obtain ⟨hclass', hquoted'⟩ : r.inClass = false ∧ r.quoted = false :=
          normal_of_readsText htext hbracket hquote
        exact ⟨c :: before, t, t', .step hcons hstep h, .refl t', halike, hcons, hrest',
          .inr ⟨hclass', hquoted', hahead⟩⟩
      case neg =>
        obtain ⟨next', hstep', hnext⟩ : ∃ next', Tokenizer.step ctx' tail' r' c = .ok next' ∧
            next.Alike next' := by
          refine hreading.step rfl rfl hoptions hafter ?_ (fun htext hmark hkind hparen => ?_)
            (fun htext hbang hkind hraw => ?_) (fun hextension => ?_) hstep
          · rintro rfl rfl
            have hescape : Tokenizer.step ctx tail r '\\' = .ok (r.escape ctx) := rfl
            obtain rfl := Except.ok.inj (hescape.symm.trans hstep)
            rw [rest_escape (t := r) rfl, hend] at hlength
            simp at hlength
          · exact hahead ⟨htext, .inl ⟨hkind, hparen.cons hmark⟩⟩
          · exact hahead ⟨htext, .inr ⟨hkind, by rw [hbang, hraw]⟩⟩
          · exact htail before (of_extension? hextension).2 fun hstrict =>
              mode_follow_of_extension? hstar hstrict hsound hcons hextension hstep h hend hclass
                hquoted
        -- Both steps read the same number of characters.
        obtain ⟨k, hrest₁, hposition₁⟩ : r.Follows next := follows_step hstep
        obtain ⟨k', hrest₁', hposition₁'⟩ : r'.Follows next' := follows_step hstep'
        obtain rfl : k = k' := by
          have hposition := hnext.position
          have := hreading.position
          omega
        have hk : k ≤ before.length := by
          rw [hrest₁, hend] at hlength
          simp [r, reading] at hlength
          omega
        have hdrop (rest : List Char) : (before ++ rest).drop k = before.drop k ++ rest :=
          List.drop_append_of_le_length hk
        obtain ⟨text, s₁, s₁', hpasses, hpasses', hends⟩ := ih hend hclass hquoted
          (hsound.step hstar hcons hstep) hnext (hrest₁.trans (hdrop _)) (hrest₁'.trans (hdrop _))
        exact ⟨text, s₁, s₁', hpasses, .step hrest' hstep' hpasses', hends⟩

end

end Tokenizer

/-! ### Patterns -/

/-- Every operator is one of the characters that a backslash escapes. -/
theorem isGlobMeta_mark (kind : ExtglobKind) : Separator.isGlobMeta kind.mark = true := by
  cases kind <;> rfl

theorem length_normalizeFrom (escaped : Bool) (text : List Char) :
    (Separator.normalizeFrom escaped text).length = text.length := by
  induction text generalizing escaped with
  | nil => cases escaped <;> rfl
  | cons c text ih =>
    cases escaped with
    | true => exact congrArg (· + 1) (ih false)
    | false =>
      rw [Separator.normalizeFrom]
      split
      case isTrue => exact congrArg (· + 1) (ih false)
      case isFalse => split <;> exact congrArg (· + 1) (ih _)

theorem head?_normalizeFrom {text : List Char} (h : text.head? ≠ some '?') :
    (Separator.normalizeFrom false text).head? ≠ some '?' := by
  cases text with
  | nil => exact h
  | cons c text =>
    rw [Separator.normalizeFrom]
    split
    case isTrue => exact h
    case isFalse => split <;> simp_all

/-- Where a backslash separates, the operator makes no difference. -/
theorem exists_normalizeFrom_remarked (escaped : Bool) (before after : List Char) :
    ∃ before', ∀ kind : ExtglobKind,
      Separator.normalizeFrom escaped (before ++ kind.mark :: '(' :: after) =
        before' ++ kind.mark :: '(' :: Separator.normalizeFrom false after := by
  induction before generalizing escaped with
  | nil =>
    refine ⟨[], fun kind => ?_⟩
    have hmark : kind.mark ≠ '\\' := kind.mark_ne rfl
    cases escaped <;> simp [Separator.normalizeFrom, hmark]
  | cons c before ih =>
    cases escaped with
    | true =>
      obtain ⟨before', hbefore⟩ := ih false
      exact ⟨c :: before', fun kind => congrArg (c :: ·) (hbefore kind)⟩
    | false =>
      -- Whether a backslash escapes what is behind it does not depend on the operator.
      let escapes : Bool := ((before ++ ['@']).head?.any Separator.isGlobMeta)
      have hahead (kind : ExtglobKind) :
          (before ++ kind.mark :: '(' :: after).head?.any Separator.isGlobMeta = escapes := by
        have hat : Separator.isGlobMeta '@' = true := rfl
        cases before <;> simp [escapes, isGlobMeta_mark, hat]
      by_cases hc : c = '\\'
      case neg =>
        obtain ⟨before', hbefore⟩ := ih false
        refine ⟨c :: before', fun kind => ?_⟩
        rw [List.cons_append, Separator.normalizeFrom, if_pos hc, hbefore]
        rfl
      case pos =>
        obtain ⟨before', hbefore⟩ := ih escapes
        refine ⟨(if escapes then c else '/') :: before', fun kind => ?_⟩
        rw [List.cons_append, Separator.normalizeFrom, if_neg (not_not.mpr hc), hahead]
        cases hescapes : escapes <;> rw [hescapes] at hbefore <;> simp [hbefore]

/-- The text that is read is the same but for the operator, whatever the operator is. -/
theorem exists_body_remarked (options : Options) (before after : List Char) :
    ∃ before' after', after'.length = after.length ∧
      (after.head? ≠ some '?' → after'.head? ≠ some '?') ∧
        ∀ kind : ExtglobKind,
          (Context.ofPattern options (before ++ kind.mark :: '(' :: after)).body =
            before' ++ kind.mark :: '(' :: after' := by
  have hsimple (kind : ExtglobKind) : simplify (before ++ kind.mark :: '(' :: after) =
      before ++ kind.mark :: '(' :: after := by
    have hparen {text : List Char} (htext : '(' ∉ text) :
        before ++ kind.mark :: '(' :: after ≠ text := fun heq => htext (heq ▸ by simp)
    unfold simplify
    rw [if_neg (hparen (by simp)), if_neg (hparen (by simp)), if_neg (hparen (by simp))]
  have hdrop (before after : List Char) : ∃ before', ∀ kind : ExtglobKind,
      (dropDotSlash (before ++ kind.mark :: '(' :: after)).2 =
        before' ++ kind.mark :: '(' :: after := by
    by_cases hdot : ∃ more, before = '.' :: '/' :: more
    case pos =>
      obtain ⟨more, rfl⟩ := hdot
      exact ⟨more, fun kind => rfl⟩
    case neg =>
      refine ⟨before, fun kind => ?_⟩
      have hdot' : kind.mark ≠ '.' := kind.mark_ne rfl
      have hslash : kind.mark ≠ '/' := kind.mark_ne rfl
      unfold dropDotSlash
      split
      case h_2 => rfl
      case h_1 more heq =>
        match before, hdot, heq with
        | [], _, heq => exact absurd (List.cons.inj heq).1 hdot'
        | [_], _, heq => exact absurd (List.cons.inj (List.cons.inj heq).2).1 hslash
        | c :: d :: before, hdot, heq =>
          simp only [List.cons_append, List.cons.injEq] at heq
          exact absurd ⟨before, by rw [heq.1, heq.2.1]⟩ hdot
  cases hwindows : options.windows with
  | false =>
    obtain ⟨before', hbefore⟩ := hdrop before after
    refine ⟨before', after, rfl, id, fun kind => ?_⟩
    simp [Context.ofPattern, hsimple, hwindows, hbefore]
  | true =>
    obtain ⟨normal, hnormal⟩ := exists_normalizeFrom_remarked false before after
    obtain ⟨before', hbefore⟩ := hdrop normal (Separator.normalizeFrom false after)
    refine ⟨before', _, length_normalizeFrom false after, head?_normalizeFrom, fun kind => ?_⟩
    simp [Context.ofPattern, hsimple, hwindows, Separator.normalize, hnormal, hbefore]

/-- The tokenizer gets to the operator that the pattern has behind the text before it, in the given
state, and opens an extended group there. -/
structure OpensAt (options : Options) (before rest : List Char) (kind : ExtglobKind)
    (t : Tokenizer) : Prop where
  size : Text.byteSize (before ++ kind.mark :: '(' :: rest) ≤ options.effectiveMaxLength
  passes : Tokenizer.Passes (Context.ofPattern options (before ++ kind.mark :: '(' :: rest))
    (extensionSource options (before ++ kind.mark :: '(' :: rest).length)
    { rest := (Context.ofPattern options (before ++ kind.mark :: '(' :: rest)).body } t
  opens : ∃ more next, t.rest = kind.mark :: more ∧ more.length = rest.length + 1 ∧
    Tokenizer.step (Context.ofPattern options (before ++ kind.mark :: '(' :: rest))
      (extensionSource options (before ++ kind.mark :: '(' :: rest).length) (t.reading more)
      kind.mark = .ok next ∧
        (t.reading more).OpensGroup kind next

section
variable {options : Options} {before rest : List Char} {kind : ExtglobKind} {t t' : Tokenizer}

theorem sound_of_passes {pattern : List Char} {tail : List Char → Except Error (List Char)}
    (h : Tokenizer.Passes (Context.ofPattern options pattern) tail
      { rest := (Context.ofPattern options pattern).body } t) :
    t.Sound (Context.ofPattern options pattern) :=
  h.sound (starSource_ne_nil options) (Tokenizer.sound_begin _ _)

/-- What is left at the operator. -/
theorem OpensAt.rest_eq (h : OpensAt options before rest kind t) {before' after : List Char}
    (hbody : (Context.ofPattern options (before ++ kind.mark :: '(' :: rest)).body =
      before' ++ kind.mark :: '(' :: after) (hlength : after.length = rest.length) :
    t.rest = kind.mark :: '(' :: after := by
  obtain ⟨more, next, hrest, hmore, -⟩ := h.opens
  have hsuffix : t.rest <:+ before' ++ kind.mark :: '(' :: after := hbody ▸ h.passes.rest_isSuffix
  have hsame : t.rest.length = (kind.mark :: '(' :: after).length := by
    rw [hrest, List.length_cons, List.length_cons, List.length_cons, hmore, hlength]
  exact (List.suffix_of_suffix_length_le hsuffix (List.suffix_append _ _)
    (Nat.le_of_eq hsame)).eq_of_length hsame

theorem OpensAt.allows (h : OpensAt options before rest kind t) {after : List Char}
    (hrest : t.rest = kind.mark :: '(' :: after) :
    t.inClass = false ∧ t.quoted = false ∧ options.noExtglob = false ∧ t.Allows kind := by
  obtain ⟨more, next, hmore, -, hstep, hopens⟩ := h.opens
  obtain rfl : more = '(' :: after := (List.cons.inj (hmore.symm.trans hrest)).2
  have hne : (t.reading ('(' :: after)).tokens ≠ [] := (sound_of_passes h.passes).joined.ne_nil
  obtain ⟨hclass, hquoted, hextglob, hallows⟩ :=
    Tokenizer.allows_of_opensGroup hne (by simp [Tokenizer.reading]) hstep hopens
  exact ⟨hclass, hquoted, hextglob, hallows.question, hallows.star⟩

/-- The tokenizer does the same with another operator, up to where a step looks as far as that. -/
theorem OpensAt.exists_alike (h : OpensAt options before rest .exactlyOne t)
    {before' after : List Char} (hlength : after.length = rest.length)
    (hhead : after.head? ≠ some '?')
    (hbody : ∀ kind : ExtglobKind,
      (Context.ofPattern options (before ++ kind.mark :: '(' :: rest)).body =
        before' ++ kind.mark :: '(' :: after) (kind : ExtglobKind) :
    ∃ text r r',
      Tokenizer.Passes (Context.ofPattern options (before ++ '@' :: '(' :: rest))
        (extensionSource options (before ++ '@' :: '(' :: rest).length) r t ∧
      Tokenizer.Passes (Context.ofPattern options (before ++ kind.mark :: '(' :: rest))
        (extensionSource options (before ++ kind.mark :: '(' :: rest).length)
        { rest := (Context.ofPattern options (before ++ kind.mark :: '(' :: rest)).body } r' ∧
      r.Alike r' ∧ r.rest = text ++ '@' :: '(' :: after ∧
        r'.rest = text ++ kind.mark :: '(' :: after ∧
          (text = [] ∨
            (r.inClass = false ∧ r.quoted = false ∧ Tokenizer.LooksAhead kind text)) := by
  have hend : t.rest = '@' :: '(' :: after := h.rest_eq (hbody .exactlyOne) hlength
  obtain ⟨hclass, hquoted, -, -⟩ := h.allows hend
  let start (kind : ExtglobKind) : Tokenizer :=
    { rest := (Context.ofPattern options (before ++ kind.mark :: '(' :: rest)).body }
  have hstart : (start .exactlyOne).Alike (start kind) := ⟨rfl, rfl, rfl, rfl, rfl, rfl⟩
  have hlengths : (before ++ kind.mark :: '(' :: rest).length =
      (before ++ '@' :: '(' :: rest).length := by simp
  refine h.passes.exists_alike (starSource_ne_nil options) rfl hhead
    (fun text hextension hmode source hsource => ?_) hend hclass hquoted
    (Tokenizer.sound_begin _ _) hstart (hbody .exactlyOne) (hbody kind)
  rw [hlengths]
  exact exists_extensionSource_remarked rfl hextension hmode hsource kind

/-- Where the tokenizer gets to the operator outside of brackets and quotes, a group is opened. -/
theorem opensAt_of_allows
    (hsize : Text.byteSize (before ++ kind.mark :: '(' :: rest) ≤ options.effectiveMaxLength)
    (hpasses : Tokenizer.Passes (Context.ofPattern options (before ++ kind.mark :: '(' :: rest))
      (extensionSource options (before ++ kind.mark :: '(' :: rest).length)
      { rest := (Context.ofPattern options (before ++ kind.mark :: '(' :: rest)).body } t)
    {after : List Char} (hrest : t.rest = kind.mark :: '(' :: after)
    (hlength : after.length = rest.length) (hne : after ≠ []) (hhead : after.head? ≠ some '?')
    (hclass : t.inClass = false) (hquoted : t.quoted = false) (hextglob : options.noExtglob = false)
    (hallows : t.Allows kind) : OpensAt options before rest kind t := by
  have hallows' : (t.reading ('(' :: after)).Allows kind := ⟨hallows.question, hallows.star⟩
  exact ⟨hsize, hpasses, _, _, hrest, congrArg (· + 1) hlength,
    Tokenizer.step_mark_of_allows rfl hne hhead hclass hquoted hextglob hallows',
    Tokenizer.opensGroup_openExtglob ..⟩

/-- The operators open extended groups at the same places, but for two exceptions: a question mark
opens none behind a token that reads like a parenthesis, and a star opens none behind a globstar or
a run of stars. -/
theorem exists_opensAt_iff (h : OpensAt options before rest .exactlyOne t) (hne : rest ≠ [])
    (hquestion : rest.head? ≠ some '?') (kind : ExtglobKind) :
    (∃ t', OpensAt options before rest kind t') ↔ t.Allows kind := by
  obtain ⟨before', after, hlength, hhead, hbody⟩ := exists_body_remarked options before rest
  have hne' : after ≠ [] := fun hnil =>
    hne (List.length_eq_zero_iff.mp (by rw [← hlength, hnil]; rfl))
  have hhead' : after.head? ≠ some '?' := hhead hquestion
  have hend : t.rest = '@' :: '(' :: after := h.rest_eq (hbody .exactlyOne) hlength
  obtain ⟨hclass, hquoted, hextglob, -⟩ := h.allows hend
  have hsize := Nat.le_trans (Nat.le_of_eq (byteSize_remarked before rest kind)) h.size
  obtain ⟨text, r, r', hpasses, hpasses', halike, hrest, hrest',
    rfl | ⟨hclass', hquoted', hlooks⟩⟩ := h.exists_alike hlength hhead' hbody kind
  case inl =>
    -- The operator is reached in states that are alike.
    obtain rfl : t = r := hpasses.eq_of_length_le (by rw [hrest, hend]; rfl)
    rw [← halike.allows_iff]
    constructor
    case mp =>
      rintro ⟨t', h'⟩
      have hend' : t'.rest = kind.mark :: '(' :: after := h'.rest_eq (hbody kind) hlength
      obtain rfl : t' = r' := hpasses'.eq_of_length h'.passes (by rw [hrest', hend']; rfl)
      exact (h'.allows hend').2.2.2
    case mpr =>
      intro hallows
      exact ⟨r', opensAt_of_allows hsize hpasses' hrest' hlength hne' hhead'
        (halike.inClass.trans hclass) (halike.quoted.trans hquoted) hextglob hallows⟩
  case inr =>
    have hclass'' : r'.inClass = false := halike.inClass.trans hclass'
    have hquoted'' : r'.quoted = false := halike.quoted.trans hquoted'
    obtain ⟨rfl, hparen⟩ | ⟨rfl, rfl⟩ := hlooks
    · -- A question mark gets behind a parenthesis either way, so that neither side holds.
      have hmark : r.rest = text ++ ExtglobKind.exactlyOne.mark :: '(' :: after := hrest
      have hvalue : t.last.value = ['('] :=
        hpasses.value_last_of_marksParen hclass' hquoted' hmark hend hparen
      refine ⟨fun ⟨t', h'⟩ => ?_, fun hallows => absurd hvalue (hallows.question rfl)⟩
      have hend' : t'.rest = '?' :: '(' :: after := h'.rest_eq (hbody .zeroOrOne) hlength
      have hpasses'' := hpasses'.of_length_le h'.passes (by
        rw [hrest', hend']
        exact (List.suffix_append text _).length_le)
      have hvalue' : t'.last.value = ['('] :=
        hpasses''.value_last_of_marksParen hclass'' hquoted'' hrest' hend' hparen
      exact absurd hvalue' ((h'.allows hend').2.2.2.question rfl)
    · -- An exclamation mark before `(?` opens nothing, so that the next one does.
      refine iff_of_true ?_ ⟨nofun, nofun⟩
      obtain ⟨s, hpasses'', hend', hclass₁, hquoted₁⟩ :=
        Tokenizer.exists_passes_of_raw hclass'' hquoted'' hrest'
      exact ⟨s, opensAt_of_allows hsize (hpasses'.trans hpasses'') hend' hlength hne' hhead' hclass₁
        hquoted₁ hextglob ⟨nofun, nofun⟩⟩

/-- In `a?(b)` a group is opened as it is in `a@(b)`. -/
theorem exists_opensAt_behind_text :
    (∃ t, OpensAt { fastPaths := false } ['a'] ['b', ')'] .exactlyOne t) ∧
      ∃ t, OpensAt { fastPaths := false } ['a'] ['b', ')'] .zeroOrOne t := by
  let ctx := Context.ofPattern { fastPaths := false } ['a', '@', '(', 'b', ')']
  let t := Tokenizer.plainText ctx { rest := ['@', '(', 'b', ')'], position := 1 } 'a'
  have h : OpensAt { fastPaths := false } ['a'] ['b', ')'] .exactlyOne t :=
    ⟨by decide, .step rfl rfl (.refl _), _, _, rfl, rfl, rfl, _, _, rfl, rfl, rfl⟩
  exact ⟨⟨t, h⟩, (exists_opensAt_iff h (by simp) (by simp) .zeroOrOne).mpr
    ⟨by decide, by decide⟩⟩

/-- In `(@(a)` and in `x/**""@(a)` a group is opened, but neither in `(?(a)` nor in `x/**""*(a)`. -/
theorem exists_opensAt_exactlyOne_only :
    ((∃ t, OpensAt { fastPaths := false } ['('] ['a', ')'] .exactlyOne t) ∧
      ¬∃ t, OpensAt { fastPaths := false } ['('] ['a', ')'] .zeroOrOne t) ∧
    (∃ t, OpensAt { fastPaths := false } ['x', '/', '*', '*', '"', '"'] ['a', ')'] .exactlyOne t) ∧
      ¬∃ t, OpensAt { fastPaths := false } ['x', '/', '*', '*', '"', '"'] ['a', ')']
        .zeroOrMore t := by
  refine ⟨⟨?_, ?_⟩, ?_, ?_⟩
  · exact ⟨_, by decide, .step rfl rfl (.refl _), _, _, rfl, rfl, rfl, _, _, rfl, rfl, rfl⟩
  · rintro ⟨t, h⟩
    obtain ⟨s, hpasses, hrest, hvalue⟩ : ∃ s, Tokenizer.Passes
        (Context.ofPattern { fastPaths := false } ['(', '?', '(', 'a', ')'])
        (extensionSource { fastPaths := false } 5) { rest := ['(', '?', '(', 'a', ')'] } s ∧
          s.rest = ['?', '(', 'a', ')'] ∧ s.last.value = ['('] :=
      ⟨_, .step rfl rfl (.refl _), rfl, rfl⟩
    have hbody : (Context.ofPattern { fastPaths := false } ['(', '?', '(', 'a', ')']).body =
        ['('] ++ ['?', '(', 'a', ')'] := rfl
    have hend : t.rest = ['?', '(', 'a', ')'] := h.rest_eq hbody rfl
    obtain rfl : t = s := hpasses.eq_of_length h.passes (by rw [hrest, hend])
    exact (h.allows hend).2.2.2.question rfl hvalue
  · exact ⟨_, by decide, .step rfl rfl (.step rfl rfl (.step rfl rfl (.step rfl rfl
      (.step rfl rfl (.step rfl rfl (.refl _)))))), _, _, rfl, rfl, rfl, _, _, rfl, rfl, rfl⟩
  · rintro ⟨t, h⟩
    obtain ⟨s, hpasses, hrest, hkind⟩ : ∃ s, Tokenizer.Passes
        (Context.ofPattern { fastPaths := false }
          ['x', '/', '*', '*', '"', '"', '*', '(', 'a', ')'])
        (extensionSource { fastPaths := false } 10)
        { rest := ['x', '/', '*', '*', '"', '"', '*', '(', 'a', ')'] } s ∧
          s.rest = ['*', '(', 'a', ')'] ∧ s.last.kind = .globstar :=
      ⟨_, .step rfl rfl (.step rfl rfl (.step rfl rfl (.step rfl rfl (.step rfl rfl
        (.step rfl rfl (.refl _)))))), rfl, rfl⟩
    have hbody : (Context.ofPattern { fastPaths := false }
        ['x', '/', '*', '*', '"', '"', '*', '(', 'a', ')']).body =
          ['x', '/', '*', '*', '"', '"'] ++ ['*', '(', 'a', ')'] := rfl
    have hend : t.rest = ['*', '(', 'a', ')'] := h.rest_eq hbody rfl
    obtain rfl : t = s := hpasses.eq_of_length h.passes (by rw [hrest, hend])
    exact ((h.allows hend).2.2.2.star rfl).1 hkind

end

end PathGlob.Pattern
