import PathGlob.Proofs.Pattern.Alike
import PathGlob.Proofs.Pattern.Extglobs
import PathGlob.Proofs.Pattern.Unbalanced

/-!
# `PathGlob.Proofs.Pattern.Marks`: one operator in the place of another

Two patterns have the same text before an operator and the parenthesis behind it, and the same text
behind them, but the operators are different ones. The tokenizer looks ahead, so it may notice the
operator before it gets there. That makes a difference in two cases only. An operator in front of a
parenthesis opens no group if a question mark is behind the parenthesis, and `!(?` opens one unless
an exclamation mark is behind it, among others.
-/

set_option autoImplicit false

namespace PathGlob.Pattern

open Regex

/-- The operators of extended groups. -/
def isMark (c : Char) : Bool := ['@', '!', '?', '+', '*'].contains c

theorem isMark_mark (kind : ExtglobKind) : isMark kind.mark = true := by
  cases kind <;> rfl

theorem ExtglobKind.mark_ne (kind : ExtglobKind) {c : Char} (hc : isMark c = false) :
    kind.mark ≠ c := by
  rintro rfl
  exact absurd (isMark_mark kind) (by rw [hc]; decide)

/-- Operators, and an opening parenthesis behind them. -/
def MarksParen (text : List Char) : Prop :=
  ∃ marks : List Char, (∀ c ∈ marks, isMark c = true) ∧ text = marks ++ ['(']

theorem marksParen_paren : MarksParen ['('] := ⟨[], by simp, rfl⟩

theorem MarksParen.cons {c : Char} {text : List Char} (hc : isMark c = true) (h : MarksParen text) :
    MarksParen (c :: text) := by
  obtain ⟨marks, hmarks, rfl⟩ := h
  exact ⟨c :: marks, List.forall_mem_cons.mpr ⟨hc, hmarks⟩, rfl⟩

/-! ### The text ahead -/

section
variable {before after text text' : List Char} {kind : ExtglobKind}
  (htext : text = before ++ '@' :: '(' :: after)
  (htext' : text' = before ++ kind.mark :: '(' :: after)

include htext htext'

theorem length_remarked : text'.length = text.length := by
  simp [htext, htext']

theorem getElem?_remarked_iff {c : Char} (hc : isMark c = false) (n : Nat) :
    text'[n]? = some c ↔ text[n]? = some c := by
  have hat : '@' ≠ c := ExtglobKind.mark_ne .exactlyOne hc
  have hmark : kind.mark ≠ c := kind.mark_ne hc
  rw [htext, htext']
  induction before generalizing n text text' with
  | nil => cases n <;> simp [hat, hmark]
  | cons d before ih =>
    cases n with
    | zero => rfl
    | succ n => exact ih rfl rfl n

theorem mem_remarked_iff {c : Char} (hc : isMark c = false) : c ∈ text' ↔ c ∈ text := by
  rw [List.mem_iff_getElem?, List.mem_iff_getElem?]
  exact exists_congr fun n => getElem?_remarked_iff htext htext' hc n

/-- A parenthesis without a question mark behind it is ahead, unless the operator in question is
that question mark. -/
theorem opens_remarked_iff (hopens : kind = .zeroOrOne → before ≠ ['(']) :
    (text'[0]? = some '(' ∧ text'[1]? ≠ some '?') ↔
      (text[0]? = some '(' ∧ text[1]? ≠ some '?') := by
  rw [htext, htext']
  match before, hopens with
  | [], _ => cases kind <;> simp [ExtglobKind.mark]
  | [c], hopens => cases kind <;> simp_all [ExtglobKind.mark]
  | _ :: _ :: _, _ => exact Iff.rfl

theorem negations_remarked (hafter : after.head? ≠ some '?')
    (hopens : kind = .zeroOrOne → ¬MarksParen before) :
    Tokenizer.negations text' = Tokenizer.negations text := by
  subst htext htext'
  rw [List.head?_eq_getElem?] at hafter
  induction before with
  | nil => cases kind <;> simp [ExtglobKind.mark, Tokenizer.negations, hafter]
  | cons c before ih =>
    by_cases hc : c = '!'
    case neg =>
      have hnone (text : List Char) : Tokenizer.negations (c :: text) = 0 := by
        rw [Tokenizer.negations]
        rintro _ heq
        exact hc (List.cons.inj heq).1
      rw [List.cons_append, List.cons_append, hnone, hnone]
    case pos =>
      subst hc
      have hopens' (hkind : kind = .zeroOrOne) : ¬MarksParen before := fun h =>
        hopens hkind (h.cons rfl)
      have hsame := @opens_remarked_iff before after _ _ kind rfl rfl
        fun hkind heq => hopens' hkind (heq ▸ marksParen_paren)
      rw [List.cons_append, List.cons_append, Tokenizer.negations, Tokenizer.negations, ih hopens']
      refine if_congr ?_ rfl rfl
      simpa only [List.head?_eq_getElem?, Decidable.not_and_iff_not_or_not, ne_eq,
        Decidable.not_not, Bool.or_eq_true, decide_eq_true_eq] using not_congr hsame

theorem takeWhile_remarked :
    (text'.takeWhile fun c => !isSpecial c) = text.takeWhile fun c => !isSpecial c := by
  have hmark : isSpecial kind.mark = true := by cases kind <;> rfl
  rw [htext, htext']
  induction before generalizing text text' with
  | nil => simp [hmark, show isSpecial '@' = true from rfl]
  | cons c before ih => rw [List.cons_append, List.cons_append, List.takeWhile_cons,
      List.takeWhile_cons, ih rfl rfl]

theorem isExtension_remarked : isExtension text' = isExtension text := by
  rw [htext, htext']
  cases before with
  | nil => cases kind <;> rfl
  | cons c before =>
    by_cases hc : c = '.'
    case pos =>
      have hmark : kind.mark ≠ '\\' ∧ kind.mark ≠ '/' ∧ kind.mark ≠ '.' := by
        cases kind <;> decide
      have hne (d : Char) : (before ++ d :: '(' :: after).isEmpty = false := by
        cases before <;> rfl
      simp [isExtension, hc, hne, hmark]
    case neg => simp [isExtension, hc]

omit htext htext' in
/-- A separator, two stars and a separator do not reach as far as the operator. -/
theorem exists_before_of_globstar {more : List Char}
    (h : before ++ kind.mark :: '(' :: after = '/' :: '*' :: '*' :: '/' :: more) :
    ∃ further, before = '/' :: '*' :: '*' :: '/' :: further ∧
      more = further ++ kind.mark :: '(' :: after := by
  have hslash : kind.mark ≠ '/' := kind.mark_ne rfl
  rcases before with _ | ⟨a, _ | ⟨b, _ | ⟨c, _ | ⟨d, further⟩⟩⟩⟩ <;> simp_all

/-- The globstars that add nothing end before the operator. -/
theorem redundantGlobstars_remarked (n : Nat) :
    redundantGlobstars text' n = redundantGlobstars text n ∧
      redundantGlobstars text n ≤ before.length := by
  have hnot {kind : ExtglobKind} {before : List Char} :
      ['/', '*', '*'] ≠ before ++ kind.mark :: '(' :: after := by
    intro h
    have : '(' ∈ ['/', '*', '*'] := h ▸ by simp
    exact absurd this (by decide)
  subst htext htext'
  induction n generalizing before with
  | zero => simp [redundantGlobstars]
  | succ n ih =>
    have hother {kind' : ExtglobKind} (h : ∀ more, before ≠ '/' :: '*' :: '*' :: '/' :: more) :
        redundantGlobstars (before ++ kind'.mark :: '(' :: after) (n + 1) = 0 := by
      rw [redundantGlobstars]
      · exact fun heq => hnot heq.symm
      · intro more heq
        obtain ⟨further, hbefore, -⟩ := exists_before_of_globstar heq
        exact h further hbefore
    by_cases h : ∃ more, before = '/' :: '*' :: '*' :: '/' :: more
    case pos =>
      obtain ⟨more, rfl⟩ := h
      obtain ⟨heq, hle⟩ := @ih ('/' :: more)
      refine ⟨congrArg (3 + ·) heq, Nat.le_trans (Nat.add_le_add_left hle 3) ?_⟩
      simp only [List.length_cons]
      omega
    case neg =>
      have h := not_exists.mp h
      rw [hother h, show redundantGlobstars (before ++ '@' :: '(' :: after) (n + 1) = 0 from
        @hother .exactlyOne h]
      exact ⟨rfl, Nat.zero_le _⟩

end

/-! ### Stars -/

namespace Tokenizer

section
variable {ctx ctx' : Context} {t t' : Tokenizer} (h : t.Alike t')

include h

theorem Alike.promote (place : Nat) (source source' : List Char) :
    (t.promote place source).Alike (t'.promote place source') :=
  h.modify place fun token token' htoken => by simp_all [Token.bare_eq_iff]

theorem Alike.absorbSlash (ctx ctx' : Context) :
    (t.absorbSlash ctx).Alike (t'.absorbSlash ctx') :=
  (h.skip 1).push ctx ctx' rfl

theorem Alike.globstarAfterSlash (slashPlace starPlace : Nat) (slash slash' star star' : Token)
    (source source' : List Char) :
    (t.globstarAfterSlash slashPlace starPlace slash star source).Alike
      (t'.globstarAfterSlash slashPlace starPlace slash' star' source') :=
  ((h.with_output ..).setSource ..).promote ..

variable {before after : List Char} {kind : ExtglobKind}
  (hrest : t.rest = before ++ '@' :: '(' :: after)
  (hrest' : t'.rest = before ++ kind.mark :: '(' :: after)
include hrest hrest'

theorem Alike.globstarAt (ctx ctx' : Context) (star star' : Token)
    (priorPlace : Nat) {prior prior' : Token} (hprior : prior'.kind = prior.kind)
    (beforePrior : Option TokenKind) :
    (t.globstarAt ctx star priorPlace prior beforePrior).Alike
      (t'.globstarAt ctx' star' priorPlace prior' beforePrior) := by
  obtain ⟨hglobstars, hle⟩ := redundantGlobstars_remarked hrest hrest' t.rest.length
  unfold Tokenizer.globstarAt
  dsimp only
  rw [length_remarked hrest hrest', hglobstars, h.lastPlace, hprior]
  generalize redundantGlobstars t.rest t.rest.length = k at hle
  have hskipped : Alike { t.skip k with globstar := true } { t'.skip k with globstar := true } :=
    { h.skip k with }
  have hnext : (t.skip k).rest = before.drop k ++ '@' :: '(' :: after :=
    (congrArg (List.drop k) hrest).trans (List.drop_append_of_le_length hle)
  have hnext' : (t'.skip k).rest = before.drop k ++ kind.mark :: '(' :: after :=
    (congrArg (List.drop k) hrest').trans (List.drop_append_of_le_length hle)
  have hempty : (t.skip k).rest.isEmpty = false := by rw [hnext]; cases before.drop k <;> rfl
  have hempty' : (t'.skip k).rest.isEmpty = false := by rw [hnext']; cases before.drop k <;> rfl
  have hslash : (t'.skip k).rest.head? = some '/' ↔ (t.skip k).rest.head? = some '/' := by
    rw [List.head?_eq_getElem?, List.head?_eq_getElem?]
    exact getElem?_remarked_iff hnext hnext' rfl 0
  refine .ite (by simp [hempty, hempty']) ((hskipped.with_output ..).promote ..) (.ite ?_ ?_ ?_)
  case refine_1 => simp [hempty, hempty']
  case refine_2 => exact hskipped.globstarAfterSlash ..
  case refine_3 =>
    refine .ite (by simp [hslash]) ((hskipped.globstarAfterSlash ..).absorbSlash ..) (.ite ?_ ?_ ?_)
    case refine_1 => simp [hslash]
    case refine_2 => exact ((hskipped.with_output ..).promote ..).absorbSlash ..
    case refine_3 => exact ((hskipped.with_output ..).emit ..).promote ..

theorem Alike.secondStar (hoptions : ctx'.options = ctx.options) :
    (t.secondStar ctx).Alike (t'.secondStar ctx') := by
  have hnext : (t'.ahead 0).any (· ≠ '/') = (t.ahead 0).any (· ≠ '/') := by
    rw [ahead, ahead, hrest, hrest']
    have hmark : kind.mark ≠ '/' := kind.mark_ne rfl
    cases before <;> simp [hmark]
  have hkind (place : Nat) := (Token.bare_eq_iff.mp (h.bareAt place)).1
  have hprevious (place : Nat) := (Token.bare_eq_iff.mp (h.bareAt place)).2.2.1
  unfold Tokenizer.secondStar
  dsimp only
  simp only [hoptions, h.previous_last, hprevious, hkind, h.inBrace, hnext]
  split
  case isTrue => exact h
  case isFalse =>
    split
    case isTrue => exact h.push ctx ctx' rfl
    case isFalse => exact h.globstarAt hrest hrest' ctx ctx' _ _ _ (hkind _) _

omit h in
theorem opensExtglob_remarked (hoptions : ctx'.options = ctx.options)
    (hopens : kind = .zeroOrOne → before ≠ ['(']) :
    t'.opensExtglob ctx' = t.opensExtglob ctx := by
  have hiff := opens_remarked_iff hrest hrest' hopens
  have hdecide (t : Tokenizer) (ctx : Context) : t.opensExtglob ctx =
      (!ctx.options.noExtglob && decide (t.rest[0]? = some '(' ∧ t.rest[1]? ≠ some '?')) := by
    unfold Tokenizer.opensExtglob ahead
    simp [Bool.and_assoc]
  rw [hdecide, hdecide, hoptions, decide_eq_decide.mpr hiff]

theorem Alike.star (hoptions : ctx'.options = ctx.options)
    (hopens : kind = .zeroOrOne → before ≠ ['(']) : (t.star ctx).Alike (t'.star ctx') := by
  have hgroup : (!ctx'.options.noExtglob && t'.ahead 0 = some '(' &&
        (t'.ahead 1).any (· ≠ '?')) =
      (!ctx.options.noExtglob && t.ahead 0 = some '(' && (t.ahead 1).any (· ≠ '?')) := by
    have hsame := opensExtglob_remarked hrest hrest' hoptions hopens
    have hopens' (t : Tokenizer) (ctx : Context) {mark : Char}
        (hrest : t.rest = before ++ mark :: '(' :: after) :
        (!ctx.options.noExtglob && t.ahead 0 = some '(' && (t.ahead 1).any (· ≠ '?')) =
          t.opensExtglob ctx := by
      unfold Tokenizer.opensExtglob ahead
      rw [hrest]
      match before with
      | [] | [_] | _ :: _ :: _ => simp
    rw [hopens' t' ctx' hrest', hopens' t ctx hrest, hsame]
  unfold Tokenizer.star
  rw [h.kind_last, h.isStarRun_last, hgroup]
  split
  case isTrue =>
    have hrun := (h.modifyLast fun token token' (htoken : token'.bare = token.bare) =>
      show Token.bare { token' with
          kind := .star, isStarRun := true, value := token'.value ++ ['*'],
          source? := some ctx'.star } =
        Token.bare { token with
          kind := .star, isStarRun := true, value := token.value ++ ['*'],
          source? := some ctx.star } by simp_all [Token.bare_eq_iff]).needRebuild
    exact { hrun with }
  case isFalse =>
    split
    case isTrue => exact h.openExtglob ..
    case isFalse =>
      split
      case isTrue => exact h.secondStar hrest hrest' hoptions
      case isFalse =>
        dsimp only
        refine Alike.push (h.between ?_ ?_) ctx ctx' rfl
        all_goals
          split
          case h_1 => exact .of_guardLast _ _
          case h_2 => exact .refl _

theorem Alike.bang (hoptions : ctx'.options = ctx.options) (hafter : after.head? ≠ some '?')
    (hopens : kind = .zeroOrOne → ¬MarksParen before)
    (hraw : kind = .negate → before ≠ ['(', '?']) : (t.bang ctx).Alike (t'.bang ctx') := by
  let opens (rest : List Char) : Bool := rest[0]? = some '(' && !(rest[1]? = some '?' &&
    (rest[2]? = some '!' || rest[2]? = some '=' || rest[2]? = some '<' || rest[2]? = some ':'))
  have hsame : opens t'.rest = opens t.rest := by
    rw [hrest, hrest']
    simp only [opens]
    match before, hraw with
    | [], _ => cases kind <;> simp [ExtglobKind.mark]
    | [_], _ => simp
    | [c, d], hraw => cases kind <;> simp_all [ExtglobKind.mark]
    | _ :: _ :: _ :: _, _ => rfl
  have hnegations := negations_remarked hrest hrest' hafter hopens
  have hplain := h.plainText ctx ctx' '!' (takeWhile_remarked hrest hrest')
  unfold Tokenizer.bang
  dsimp only
  rw [Bool.and_assoc, Bool.and_assoc]
  show Alike (if !ctx.options.noExtglob && opens t.rest then _ else _)
    (if !ctx'.options.noExtglob && opens t'.rest then _ else _)
  rw [hsame, hoptions, h.place, hnegations]
  split
  case isTrue => exact h.openExtglob ..
  case isFalse =>
    split
    case isTrue => exact { h.skip _ with start := rfl }
    case isFalse => exact hplain

end

/-! ### One step -/

section
variable {ctx ctx' : Context} {tail tail' : List Char → Except Error (List Char)}
  {t t' next : Tokenizer} {before after : List Char} {kind : ExtglobKind} {c : Char}

theorem exists_negateClosing (frame : ExtglobFrame)
    (hextension : isExtension t'.rest = isExtension t.rest)
    (htail : (frame.inner.contains '*' && isExtension t.rest) = true →
      ∀ source, tail t.rest = .ok source → ∃ source', tail' t'.rest = .ok source')
    {closing : List Char} (hok : t.negateClosing ctx tail frame = .ok closing) :
    ∃ closing', t'.negateClosing ctx' tail' frame = .ok closing' := by
  unfold negateClosing at hok ⊢
  dsimp only at hok ⊢
  rw [hextension]
  split at hok
  case isTrue hasked =>
    obtain ⟨source, hsource, -⟩ := bind_eq_ok hok
    obtain ⟨source', hsource'⟩ := htail hasked source hsource
    rw [if_pos hasked, hsource']
    exact ⟨_, rfl⟩
  case isFalse hasked =>
    rw [if_neg hasked]
    exact ⟨_, (apply_ite pure _ _ _).symm⟩

/-- One operator in the place of another makes no difference to a step, but for the sources, unless
the step looks as far as the operator and finds a group there that it would not find otherwise. -/
theorem Alike.step (h : t.Alike t') (hrest : t.rest = before ++ '@' :: '(' :: after)
    (hrest' : t'.rest = before ++ kind.mark :: '(' :: after) (hoptions : ctx'.options = ctx.options)
    (hafter : after.head? ≠ some '?') (hescape : c = '\\' → before ≠ [])
    (hopens : t.readsText c = false → isMark c = true → kind = .zeroOrOne → ¬MarksParen before)
    (hraw : t.readsText c = false → c = '!' → kind = .negate → before ≠ ['(', '?'])
    (htail : t.extension? c = some t.rest → ∀ source, tail t.rest = .ok source →
      ∃ source', tail' t'.rest = .ok source')
    (hstep : Tokenizer.step ctx tail t c = .ok next) :
    ∃ next', Tokenizer.step ctx' tail' t' c = .ok next' ∧ next.Alike next' := by
  have hok {a a' : Tokenizer} (ha : a.Alike a')
      (heq : (.ok a : Except Error Tokenizer) = .ok next) :
      ∃ next', (.ok a' : Except Error Tokenizer) = .ok next' ∧ next.Alike next' := by
    cases heq
    exact ⟨a', rfl, ha⟩
  have hplain (c : Char) := h.plainText ctx ctx' c (takeWhile_remarked hrest hrest')
  have hquoted : Alike { t with quoted := !t.quoted } { t' with quoted := !t'.quoted } :=
    { h with quoted := congrArg (!·) h.quoted }
  have hquote (b : Bool) : Alike
      (if b then ({ t with quoted := !t.quoted } : Tokenizer).pushText ctx ['"'] ['"']
        else { t with quoted := !t.quoted })
      (if b then ({ t' with quoted := !t'.quoted } : Tokenizer).pushText ctx' ['"'] ['"']
        else { t' with quoted := !t'.quoted }) :=
    .ite Iff.rfl (hquoted.pushText ..) hquoted
  have hinClass : (t'.inClass && (c ≠ ']' || t'.last.value = ['['] || t'.last.value = ['[', '^'])) =
      (t.inClass && (c ≠ ']' || t.last.value = ['['] || t.last.value = ['[', '^'])) := by
    rw [h.inClass, h.value_last]
  have hinQuotes : (t'.quoted && c ≠ '"') = (t.quoted && c ≠ '"') := by rw [h.quoted]
  have hclosing : t'.ahead 0 = some ']' ↔ t.ahead 0 = some ']' :=
    getElem?_remarked_iff hrest hrest' rfl 0
  have hcolon : t'.ahead 0 = some ':' ↔ t.ahead 0 = some ':' :=
    getElem?_remarked_iff hrest hrest' rfl 0
  unfold Tokenizer.step at hstep ⊢
  split at hstep
  case isTrue hnul =>
    rw [if_pos hnul]
    exact hok h hstep
  case isFalse hnul =>
    rw [if_neg hnul]
    split at hstep
    case isTrue hbackslash =>
      rw [if_pos hbackslash]
      refine hok (h.escape hoptions ?_) hstep
      rw [hrest, hrest']
      cases before with
      | nil => exact absurd rfl (hescape hbackslash)
      | cons => rfl
    case isFalse hbackslash =>
      rw [if_neg hbackslash]
      split at hstep
      case isTrue hclass =>
        rw [if_pos (hinClass.trans hclass)]
        exact hok (h.inBracket hoptions hclosing hcolon c) hstep
      case isFalse hclass =>
        rw [if_neg (hinClass ▸ hclass)]
        split at hstep
        case isTrue hquoted =>
          rw [if_pos (hinQuotes.trans hquoted)]
          exact hok (h.pushText ..) hstep
        case isFalse hquoted =>
          rw [if_neg (hinQuotes ▸ hquoted)]
          have htext : t.readsText c = false :=
            Bool.or_eq_false_iff.mpr ⟨Bool.eq_false_iff.mpr hclass, Bool.eq_false_iff.mpr hquoted⟩
          have hopens' (hmark : isMark c = true) (hkind : kind = .zeroOrOne) : before ≠ ['('] :=
            fun heq => hopens htext hmark hkind (heq ▸ marksParen_paren)
          have hgroup (hmark : isMark c = true) :=
            opensExtglob_remarked hrest hrest' hoptions (hopens' hmark)
          split at hstep
          case h_1 =>
            rw [hoptions]
            exact hok (hquote _) hstep
          case h_2 => exact hok (h.openParen ..) hstep
          case h_3 =>
            refine h.closeParen hoptions (fun frame frames frames' closing htakes hkind hclosed =>
              exists_negateClosing frame (isExtension_remarked hrest hrest')
                (fun hasked => htail ?_) hclosed) hstep
            have hask : (frame.kind = .negate && frame.inner.contains '*' &&
                isExtension t.rest) = true := by
              rwa [hkind, decide_eq_true rfl, Bool.true_and]
            unfold extension?
            rw [htext, htakes]
            exact if_pos hask
          case h_4 =>
            refine h.openBracket hoptions (Bool.eq_iff_iff.mpr ?_) hstep
            rw [List.contains_iff_mem, List.contains_iff_mem]
            exact mem_remarked_iff hrest hrest' rfl
          case h_5 => exact h.closeBracket hoptions hstep
          case h_6 =>
            rw [hoptions]
            exact hok (.ite Iff.rfl (hplain _) (h.openBrace ..)) hstep
          case h_7 => exact hok (h.closeBrace hoptions) hstep
          case h_8 => exact hok (h.pushText ..) hstep
          case h_9 => exact hok (h.comma ..) hstep
          case h_10 => exact hok (h.slash ..) hstep
          case h_11 => exact hok (h.dot ..) hstep
          case h_12 => exact hok (h.qmark (hgroup rfl)) hstep
          case h_13 =>
            exact hok (h.bang hrest hrest' hoptions hafter (hopens htext rfl) (hraw htext rfl))
              hstep
          case h_14 | h_15 => exact hok (h.operator (hgroup rfl) _ _ _) hstep
          case h_16 => exact hok (h.star hrest hrest' hoptions (hopens' rfl)) hstep
          case h_17 => exact hok (hplain _) hstep

end

end Tokenizer

end PathGlob.Pattern
