import PathGlob.Compile
import PathGlob.Proofs.Pattern.Outlined
import PathGlob.Proofs.Pattern.Unmarked

/-!
# `PathGlob.Proofs.Pattern.ClassNames`: what the option for class names is about

A class name stands behind `[:`. Where a pattern has no `[:`, the option for class names should make
no difference, but it does. In a bracket that holds an opening bracket, as the one of `[[x:]` does,
every colon is taken for the end of a name. It marks the bracket, and where a negated bracket is
marked the separator is not kept out of it. And if the text before the colon happens to be a name
behind another colon, as in `[a:[xdigit:]]`, it is replaced (`misreadsColon`).

Everything else is the same with and without the option. As long as no colon is misread, the
tokenizer passes through the same states but for the marks (`Tokenizer.run_unmarked`), and arrives
at the same source. So the pattern and the extensions that are translated on their own are made
ready to match in the same way (`isMatch_withPosix`).
-/

set_option autoImplicit false

namespace PathGlob

/-- The same options, with or without the one for class names. -/
def Options.withPosix (options : Options) (posix : Bool) : Options := { options with posix }

namespace Pattern

/-- A colon behind this text of a bracket is taken for the end of a class name, and that makes a
difference: the bracket is negated, or there is a name in it that is replaced. -/
def misreadsColon (value : List Char) : Bool :=
  let body := value.drop 1
  body.contains '[' && (body.head? = some '^' ||
    (body.contains ':' && (lastClassName? value).any fun found => (posixClass? found.2).isSome))

/-- The text of a bracket has another opening bracket in it, and it is not negated. -/
structure HoldsBracket (value : List Char) : Prop where
  mem : '[' ∈ value.drop 1
  not_negated : (value.drop 1).head? ≠ some '^'

theorem HoldsBracket.append {value : List Char} (h : HoldsBracket value) (more : List Char) :
    HoldsBracket (value ++ more) := by
  obtain ⟨hmem, hhead⟩ := h
  cases value with
  | nil => cases hmem
  | cons c body =>
    have hne : body ≠ [] := List.ne_nil_of_mem hmem
    refine ⟨List.mem_append_left more hmem, ?_⟩
    show (body ++ more).head? ≠ _
    rwa [List.head?_append_of_ne_nil _ hne]

namespace Tokenizer

/-- A colon is next that makes a difference. -/
def misreads (t : Tokenizer) : Bool :=
  t.inClass && t.rest.head? = some ':' && misreadsColon t.last.value

/-- A bracket that is open is marked only if it holds an opening bracket and is not negated. -/
def Marked (t : Tokenizer) : Prop :=
  t.inClass = true → t.last.isPosix = true → HoldsBracket t.last.value

section
variable {ctx : Context} {tail tail' : List Char → Except Error (List Char)} {t next : Tokenizer}
  {c : Char} {rest : List Char}

theorem unmarked_markPosix (t : Tokenizer) : t.markPosix.unmarked = t.unmarked := by
  have htokens : (t.tokens.modify t.lastPlace fun token => { token with isPosix := true }).map
      Token.unmarked = (t.tokens.map Token.unmarked).modify t.lastPlace id :=
    map_unmarked_modify _ _ fun _ => rfl
  rw [List.modify_id] at htokens
  simp only [unmarked, markPosix, modifyLast, modify, htokens]

theorem ahead_ne_colon (hrest : t.rest = c :: rest) (hname : ¬['[', ':'] <+: t.rest)
    (hopen : c = '[') : (t.reading rest).ahead 0 ≠ some ':' := by
  intro hcolon
  obtain ⟨more, rfl⟩ := List.head?_eq_some_iff.mp ((ahead_zero _).symm.trans hcolon)
  exact hname ⟨more, by rw [hrest, hopen]; rfl⟩

theorem misreadsColon_of_misreads (hrest : t.rest = c :: rest) (hcolon : t.misreads = false)
    (hclass : t.inClass = true) (hc : c = ':') : misreadsColon t.last.value = false := by
  simpa [misreads, hclass, hrest, hc] using hcolon

/-! ### Characters of a bracket -/

/-- Unless a colon is misread, it marks the bracket, or it is a character like any other. -/
theorem posixName_cases (hne : t.tokens ≠ []) (hcolon : misreadsColon t.last.value = false) :
    t.posixName = (t, false) ∨
      (HoldsBracket t.last.value ∧ t.posixName = (t.markPosix, false)) := by
  by_cases hopen : (!(t.last.value.drop 1).contains '[') = true
  case pos => exact .inl (posixName_of_not_opened rfl hopen)
  case neg =>
    have hmem : (t.last.value.drop 1).contains '[' = true := by simpa using hopen
    simp only [misreadsColon, hmem, Bool.true_and, Bool.or_eq_false_iff,
      decide_eq_false_iff_not] at hcolon
    obtain ⟨hhead, hname⟩ := hcolon
    refine .inr ⟨⟨by simpa using hmem, hhead⟩, posixName_of_not_named hne rfl hopen ?_⟩
    cases hsecond : (t.last.value.drop 1).contains ':' with
    | false => exact .inl rfl
    | true =>
      refine .inr fun before name hfound => ?_
      rw [hsecond, Bool.true_and, hfound] at hname
      simpa using hname

/-- A character of a bracket is added to it as it is without the option for class names. A colon may
mark the bracket before. -/
theorem inBracket_cases (ctx : Context) (hne : t.tokens ≠ [])
    (hname : c = '[' → t.ahead 0 ≠ some ':')
    (hcolon : c = ':' → misreadsColon t.last.value = false) :
    ∃ s, (s = t ∨ (HoldsBracket t.last.value ∧ s = t.markPosix)) ∧
      t.inBracket ctx c = s.appendClass (t.classChar ctx.withoutPosix c) := by
  have hchar : t.classChar ctx c = t.classChar ctx.withoutPosix c := by
    unfold classChar
    by_cases hopen : c = '['
    · simp [hopen, hname hopen]
    · simp only [if_neg hopen]
  have hvalue : t.markPosix.last.value = t.last.value := (turns_markPosix hne rfl).value
  have hmarked : t.markPosix.classChar ctx c = t.classChar ctx c := by
    unfold classChar
    rw [hvalue]
    rfl
  unfold inBracket
  split
  case isFalse => exact ⟨t, .inl rfl, by rw [hchar]⟩
  case isTrue hposix =>
    rw [Bool.and_eq_true, decide_eq_true_eq] at hposix
    obtain hsame | ⟨hholds, hsame⟩ := posixName_cases hne (hcolon hposix.1)
    · rw [hsame]
      exact ⟨t, .inl rfl, by rw [← hchar]; rfl⟩
    · rw [hsame]
      exact ⟨t.markPosix, .inr ⟨hholds, rfl⟩, by rw [← hchar, ← hmarked]; rfl⟩

theorem unmarked_inBracket (hne : t.tokens ≠ []) (hname : c = '[' → t.ahead 0 ≠ some ':')
    (hcolon : c = ':' → misreadsColon t.last.value = false) :
    (t.inBracket ctx c).unmarked = t.unmarked.inBracket ctx.withoutPosix c := by
  have hplain : t.unmarked.inBracket ctx.withoutPosix c =
      t.unmarked.appendClass (t.classChar ctx.withoutPosix c) := by
    unfold inBracket
    rw [if_neg (by simp [Context.withoutPosix])]
    unfold classChar
    rw [last_unmarked]
    rfl
  -- A mark that the colon has set is taken off again.
  obtain ⟨s, hs, hsame⟩ := inBracket_cases ctx hne hname hcolon
  rw [hplain, hsame, unmarked_appendClass]
  obtain rfl | ⟨-, rfl⟩ := hs
  · rfl
  · rw [unmarked_markPosix]

/-- The mark of a bracket makes no difference to one that holds an opening bracket: it is no text
that could be meant literally in any case. -/
theorem finishBracket_of_mem {body : List Char} (hmem : '[' ∈ body) (isPosix : Bool) :
    t.finishBracket ctx body isPosix = t.finishBracket ctx body false := by
  have hmeta : Regex.hasMeta body = true :=
    List.any_eq_true.mpr ⟨'[', hmem, by decide⟩
  unfold finishBracket
  simp only [hmeta, Bool.or_true, if_true]

theorem unmarked_finishBracket (body : List Char) (isPosix : Bool) :
    (t.finishBracket ctx body isPosix).unmarked = t.unmarked.finishBracket ctx body isPosix := by
  have hprevious : t.unmarked.last.previous.bind (t.unmarked.tokens[·]?) =
      (t.last.previous.bind (t.tokens[·]?)).map Token.unmarked := by
    rw [last_unmarked, tokens_unmarked, Token.previous_unmarked]
    cases t.last.previous with
    | none => rfl
    | some place => exact List.getElem?_map
  unfold finishBracket
  dsimp only
  rw [hprevious]
  refine unmarked_ite (by cases t.last.previous.bind (t.tokens[·]?) <;> rfl) ?_
    (unmarked_ite Iff.rfl rfl ?_)
  · let change (token : Token) : Token := { token with value := ctx.dotGuard ++ token.value }
    have hguard : (t.modifyLast change).unmarked = t.unmarked.modifyLast change :=
      unmarked_modifyLast t change fun _ => rfl
    exact congrArg needRebuild hguard
  · rw [last_unmarked, unmarked_modifyLast]
    · rfl
    · exact fun _ => rfl

/-- The bracket is closed as it is without the mark. -/
theorem closeBracket_unmarked (hmarked : t.Marked) :
    t.unmarked.closeBracket ctx = (t.closeBracket ctx).map unmarked := by
  let body := t.last.value.drop 1
  let closing (isPosix : Bool) : List Char :=
    if !isPosix && body.head? = some '^' && !body.contains '/' then
      Regex.Fragment.slashClass ctx.windows ++ [']']
    else [']']
  let closed (t : Tokenizer) (isPosix : Bool) : Tokenizer :=
    (({ t with inClass := false } : Tokenizer).appendClass (closing isPosix)).finishBracket ctx
      body isPosix
  -- The mark is only looked at for the separator of a negated bracket, and for a literal one.
  have hclosed (hclass : t.inClass = true) : closed t t.last.isPosix = closed t false := by
    cases hposix : t.last.isPosix with
    | false => rfl
    | true =>
      obtain ⟨hmem, hhead⟩ := hmarked hclass hposix
      have hclosing : closing true = closing false := by
        simp [closing, show body.head? ≠ some '^' from hhead]
      simp only [closed, hclosing]
      exact finishBracket_of_mem hmem true
  unfold closeBracket
  rw [inClass_unmarked, last_unmarked]
  cases hnoBracket : ctx.options.noBracket with
  | true => exact congrArg Except.ok (unmarked_pushText ctx t _ _).symm
  | false =>
    cases hclass : t.inClass with
    | false =>
      cases hstrict : ctx.options.strictBrackets with
      | true => rfl
      | false => exact congrArg Except.ok (unmarked_pushText ctx t _ _).symm
    | true =>
      show Except.ok (closed t.unmarked false) = .ok (closed t t.last.isPosix).unmarked
      rw [hclosed hclass, show (closed t false).unmarked = _ from unmarked_finishBracket _ false,
        unmarked_appendClass]
      rfl

/-! ### Steps -/

/-- Everything that a step does is done without the option for class names as well. -/
theorem step_unmarked (hne : t.tokens ≠ []) (hmarked : t.Marked)
    (hname : c = '[' → t.ahead 0 ≠ some ':')
    (hcolon : t.inClass = true → c = ':' → misreadsColon t.last.value = false) :
    step ctx.withoutPosix tail t.unmarked c = (step ctx tail t c).map unmarked := by
  unfold step
  rw [inClass_unmarked, last_unmarked, Token.value_unmarked, quoted_unmarked]
  split
  case isTrue => rfl
  case isFalse =>
    split
    case isTrue => exact congrArg Except.ok (unmarked_escape ctx t).symm
    case isFalse =>
      split
      case isTrue hbody =>
        have hclass : t.inClass = true := by
          rw [Bool.and_eq_true] at hbody
          exact hbody.1
        exact congrArg Except.ok (unmarked_inBracket hne hname (hcolon hclass)).symm
      case isFalse =>
        split
        case isTrue => exact congrArg Except.ok (unmarked_pushText ctx t _ _).symm
        case isFalse =>
          split
          case h_1 =>
            let s : Tokenizer := { t with quoted := !t.quoted }
            have hquote :
                (if ctx.options.keepQuotes then s.pushText ctx ['"'] ['"'] else s).unmarked =
                  if ctx.options.keepQuotes then s.unmarked.pushText ctx ['"'] ['"']
                  else s.unmarked :=
              unmarked_ite Iff.rfl (unmarked_pushText ctx s _ _) rfl
            exact congrArg Except.ok hquote.symm
          case h_2 => exact congrArg Except.ok (unmarked_openParen ctx t).symm
          case h_3 => exact unmarked_closeParen ctx t tail
          case h_4 => exact unmarked_openBracket ctx t
          case h_5 => exact closeBracket_unmarked hmarked
          case h_6 =>
            exact congrArg Except.ok (unmarked_ite Iff.rfl (unmarked_plainText ctx t '{')
              (unmarked_openBrace ctx t)).symm
          case h_7 => exact congrArg Except.ok (unmarked_closeBrace ctx t).symm
          case h_8 => exact congrArg Except.ok (unmarked_pushText ctx t _ _).symm
          case h_9 => exact congrArg Except.ok (unmarked_comma ctx t).symm
          case h_10 => exact congrArg Except.ok (unmarked_slash ctx t).symm
          case h_11 => exact congrArg Except.ok (unmarked_dot ctx t).symm
          case h_12 => exact congrArg Except.ok (unmarked_qmark ctx t).symm
          case h_13 => exact congrArg Except.ok (unmarked_bang ctx t).symm
          case h_14 => exact congrArg Except.ok (unmarked_operator ctx t _ _ rfl).symm
          case h_15 => exact congrArg Except.ok (unmarked_operator ctx t _ _ rfl).symm
          case h_16 => exact congrArg Except.ok (unmarked_star ctx t).symm
          case h_17 => exact congrArg Except.ok (unmarked_plainText ctx t _).symm

/-! ### Which brackets are open -/

section
variable (ctx : Context) (t : Tokenizer)

@[simp] theorem pushText_inClass (value source : List Char) :
    (t.pushText ctx value source).inClass = t.inClass :=
  push_inClass ..

@[simp] theorem plainText_inClass (c : Char) : (t.plainText ctx c).inClass = t.inClass :=
  pushText_inClass ctx (t.skip _) _ _

@[simp] theorem openParen_inClass : (t.openParen ctx).inClass = t.inClass := push_inClass ..

@[simp] theorem openBrace_inClass : (t.openBrace ctx).inClass = t.inClass := push_inClass ..

@[simp] theorem operator_inClass (kind : ExtglobKind) (c : Char) (other : Token) :
    (t.operator ctx kind c other).inClass = t.inClass := by
  unfold operator
  rw [apply_ite inClass, openExtglob_inClass, push_inClass, ite_self]

@[simp] theorem comma_inClass : (t.comma ctx).inClass = t.inClass := by
  unfold comma
  split <;> exact push_inClass ..

@[simp] theorem slash_inClass : (t.slash ctx).inClass = t.inClass := by
  unfold slash
  rw [apply_ite inClass, push_inClass, ite_self]

@[simp] theorem dot_inClass : (t.dot ctx).inClass = t.inClass := by
  unfold dot
  split
  case isTrue => rfl
  case isFalse => exact push_inClass ..

@[simp] theorem qmark_inClass : (t.qmark ctx).inClass = t.inClass := by
  unfold qmark
  dsimp only
  rw [apply_ite inClass, apply_ite inClass, openExtglob_inClass, pushText_inClass, push_inClass,
    ite_self, ite_self]

@[simp] theorem bang_inClass : (t.bang ctx).inClass = t.inClass := by
  unfold bang
  dsimp only
  rw [apply_ite inClass, apply_ite inClass, openExtglob_inClass, plainText_inClass]
  simp [skip]

@[simp] theorem escape_inClass : (t.escape ctx).inClass = t.inClass := by
  unfold escape
  split
  case h_1 => exact pushText_inClass ..
  case h_2 =>
    dsimp only
    rw [apply_ite inClass, apply_ite inClass, apply_ite inClass, pushText_inClass,
      pushText_inClass, ite_self]
    simp [appendClass, emit, modifyLast, modify, skip]

@[simp] theorem closeBrace_inClass : (t.closeBrace ctx).inClass = t.inClass := by
  unfold closeBrace literalBrace
  split
  case h_2 => exact push_inClass ..
  case h_1 =>
    dsimp only
    split
    case h_1 => rw [push_inClass]
    case h_2 => split <;> simp [emit, modify]

@[simp] theorem star_inClass : (t.star ctx).inClass = t.inClass := by
  have hglobstar (star : Token) (place : Nat) (prior : Token) (before : Option TokenKind) :
      (t.globstarAt ctx star place prior before).inClass = t.inClass := by
    unfold globstarAt absorbSlash
    dsimp only
    repeat' split
    all_goals first | rfl | exact push_inClass ..
  have hsecond : (t.secondStar ctx).inClass = t.inClass := by
    unfold secondStar
    dsimp only
    rw [apply_ite inClass, apply_ite inClass, push_inClass, hglobstar, ite_self, ite_self]
  unfold star
  split
  case isTrue => rfl
  case isFalse =>
    split
    case isTrue => exact openExtglob_inClass ..
    case isFalse =>
      split
      case isTrue => exact hsecond
      case isFalse =>
        dsimp only
        rw [push_inClass]
        split <;> rfl

theorem closeParen_inClass (hok : t.closeParen ctx tail = .ok next) : next.inClass = t.inClass := by
  unfold closeParen at hok
  split at hok
  case h_1 frame frames _ =>
    rw [closeExtglob_eq_map] at hok
    obtain ⟨closing, -, rfl⟩ := exists_of_map_eq_ok hok
    unfold extglobClosed
    dsimp only
    rw [apply_ite inClass, push_inClass, (guarded_same ctx _ frame).2.1, ite_self]
  case h_2 =>
    cases hok
    exact push_inClass ..
  case h_3 =>
    split at hok
    case isTrue => cases hok
    case isFalse =>
      cases hok
      exact push_inClass ..

end

theorem closeBracket_inClass (hclass : t.inClass = false) (hok : t.closeBracket ctx = .ok next) :
    next.inClass = false := by
  have htext : (t.pushText ctx [']'] ['\\', ']']).inClass = false :=
    (pushText_inClass ..).trans hclass
  unfold closeBracket at hok
  rw [hclass] at hok
  split at hok
  case isTrue =>
    cases hok
    exact htext
  case isFalse =>
    rw [if_pos (by rfl)] at hok
    split at hok
    case isTrue => cases hok
    case isFalse =>
      cases hok
      exact htext

/-- A bracket that is opened has no mark. -/
theorem isPosix_openBracket (hclass : t.inClass = false) (hok : t.openBracket ctx = .ok next) :
    next.inClass = false ∨ next.last.isPosix = false := by
  unfold openBracket at hok
  split at hok
  case isTrue =>
    split at hok
    case isTrue => cases hok
    case isFalse =>
      cases hok
      exact .inl ((push_inClass ..).trans hclass)
  case isFalse =>
    cases hok
    let bracket : Token := { kind := .bracket, value := ['['] }
    obtain ⟨previous, htokens⟩ := tokens_push_of_kind_ne (by simp [bracket] : bracket.kind ≠ .text)
      ctx { t with inClass := true }
    rw [last_of_tokens_eq htokens]
    exact .inr rfl

/-- Outside of brackets a step may open one, which has no mark. -/
theorem isPosix_step (hclass : t.inClass = false) (hstep : step ctx tail t c = .ok next) :
    next.inClass = false ∨ next.last.isPosix = false := by
  have hsame (hnext : next.inClass = t.inClass) :
      next.inClass = false ∨ next.last.isPosix = false := .inl (hnext.trans hclass)
  unfold step at hstep
  rw [hclass] at hstep
  split at hstep
  case isTrue =>
    cases hstep
    exact hsame rfl
  case isFalse =>
    split at hstep
    case isTrue =>
      cases hstep
      exact hsame (escape_inClass ctx t)
    case isFalse =>
      rw [if_neg (by simp)] at hstep
      split at hstep
      case isTrue =>
        cases hstep
        exact hsame (pushText_inClass ..)
      case isFalse =>
        split at hstep
        case h_3 => exact hsame (closeParen_inClass ctx t hstep)
        case h_4 => exact isPosix_openBracket hclass hstep
        case h_5 => exact .inl (closeBracket_inClass hclass hstep)
        all_goals
          cases hstep
          refine hsame ?_
        case h_1 => split <;> simp [hclass]
        case h_6 => split <;> simp
        all_goals simp

/-! ### Which brackets are marked -/

theorem Marked.appendClass (h : t.Marked) (hne : t.tokens ≠ []) (more : List Char) :
    (t.appendClass more).Marked := by
  have hlast : (t.appendClass more).last = { t.last with value := t.last.value ++ more } :=
    last_modifyLast hne _
  intro hclass hposix
  rw [hlast] at hposix ⊢
  exact (h hclass hposix).append more

theorem isPosix_last_push (hkind : t.last.kind = .bracket) (ctx : Context) (token : Token) :
    (t.push ctx token).last.isPosix = token.isPosix := by
  have hprepared : t.prepared ctx token = t := by
    unfold prepared
    rw [if_neg (by simp [hkind])]
  have htokens : (t.push ctx token).tokens =
      t.tokens ++ [{ token with previous := some t.lastPlace }] := by
    rw [push_eq_prepared, hprepared]
    show t.pushed token = _
    unfold pushed
    rw [if_neg (by simp [hkind])]
  rw [last_of_tokens_eq htokens]

theorem Marked.escape (h : t.Marked) (hne : t.tokens ≠ []) (hkind : t.last.kind = .bracket)
    (hclass : t.inClass = true) : (t.escape ctx).Marked := by
  unfold Tokenizer.escape
  split
  case h_1 =>
    have hposix := isPosix_last_push hkind ctx (.text ['\\'] ['\\', '\\'])
    exact fun _ htrue => absurd (hposix.symm.trans htrue) (by decide)
  case h_2 =>
    split
    case isTrue => exact h
    case isFalse =>
      dsimp only
      rw [if_pos (show (t.skip 1).inClass = true from hclass)]
      exact Marked.appendClass (t := t.skip 1) h hne _

theorem Marked.inBracket (h : t.Marked) (hne : t.tokens ≠ [])
    (hname : c = '[' → t.ahead 0 ≠ some ':')
    (hcolon : c = ':' → misreadsColon t.last.value = false) : (t.inBracket ctx c).Marked := by
  obtain ⟨s, hs, hsame⟩ := inBracket_cases ctx hne hname hcolon
  rw [hsame]
  obtain rfl | ⟨hholds, rfl⟩ := hs
  · exact h.appendClass hne _
  · have hmark := turns_markPosix hne rfl
    have hmarked : t.markPosix.Marked := fun _ _ => by rwa [hmark.value]
    exact hmarked.appendClass hmark.tokens _

/-- As long as no colon is misread, the brackets that are marked make no difference. -/
theorem Marked.step (h : t.Marked) (hsound : t.Sound ctx) (hrest : t.rest = c :: rest)
    (hname : ¬['[', ':'] <+: t.rest) (hcolon : t.misreads = false)
    (hstep : Tokenizer.step ctx tail (t.reading rest) c = .ok next) : next.Marked := by
  cases hclass : t.inClass with
  | false =>
    intro htrue hposix
    obtain hfalse | hfalse := isPosix_step (t := t.reading rest) hclass hstep
    · cases hfalse.symm.trans htrue
    · cases hfalse.symm.trans hposix
  | true =>
    have hbracketed : t.Bracketed ctx := (hsound.brackets hclass).resolve_left (by simp [hrest])
    have hs : (t.reading rest).Bracketed ctx := hbracketed.taking rest
    have hread : (t.reading rest).Marked := h
    unfold Tokenizer.step at hstep
    split at hstep
    case isTrue =>
      cases hstep
      exact hread
    case isFalse =>
      split at hstep
      case isTrue =>
        cases hstep
        exact hread.escape hs.joined.ne_nil hs.kind hs.inClass
      case isFalse =>
        split at hstep
        case isTrue =>
          cases hstep
          exact hread.inBracket hs.joined.ne_nil (ahead_ne_colon hrest hname)
            (misreadsColon_of_misreads (t := t) hrest hcolon hclass)
        case isFalse hclosing =>
          simp only [hs.inClass, Bool.true_and, Bool.or_eq_true, decide_eq_true_eq, not_or,
            Classical.not_not] at hclosing
          obtain ⟨⟨rfl, -⟩, -⟩ := hclosing
          rw [if_neg (by simp [hs.quoted])] at hstep
          exact fun htrue => absurd (htrue.symm.trans (hs.arrives_closeBracket hstep).inClass)
            (by simp)

/-! ### Runs -/

theorem misreads_unmarked : t.unmarked.misreads = t.misreads := by
  unfold misreads
  rw [last_unmarked]
  rfl

/-- Without strict brackets, the tokenizer passes through the same states, and perhaps others. -/
theorem Passes.lenient (htail : Refines tail tail') {t' : Tokenizer} (h : Passes ctx tail t t') :
    Passes ctx.lenient tail' t t' := by
  induction h with
  | refl t => exact .refl t
  | step hrest hstep h ih =>
    refine .step hrest ?_ ih
    cases hstrict : ctx.options.strictBrackets with
    | true => exact (of_step_eq_ok hstrict htail hstep).2.2
    | false =>
      have hsame : ctx.lenient = ctx := by
        unfold Context.lenient Options.lenient
        rw [← hstrict]
      rw [hsame, ← hstep]
      refine (step_congr_tail fun text htext => ?_).symm
      cases hsource : tail text with
      | error e => cases (step_of_extension? htext hsource).symm.trans hstep
      | ok source => rw [htail text source hsource]

theorem extension?_unmarked : t.unmarked.extension? c = t.extension? c := by
  unfold extension? readsText
  rw [last_unmarked]
  rfl

/-- As long as no colon is misread, a run passes through the same states, but for the marks. The
extensions may be translated in another way, if it is the same for those that turn up. -/
theorem run_unmarked (hstar : ctx.star ≠ []) (n : Nat) (hsound : t.Sound ctx) (hmarked : t.Marked)
    (hname : ¬['[', ':'] <:+: t.rest)
    (hpasses : ∀ t', Passes ctx.withoutPosix tail' t.unmarked t' → t'.misreads = false ∧
      ∀ text, t'.nextExtension? = some text → tail text = tail' text) :
    run ctx.withoutPosix tail' n t.unmarked = (run ctx tail n t).map unmarked := by
  induction n generalizing t with
  | zero => rfl
  | succ n ih =>
    cases hrest : t.rest with
    | nil =>
      have hrest' : t.unmarked.rest = [] := hrest
      rw [run_of_rest_nil ctx tail hrest, run_of_rest_nil _ tail' hrest']
      rfl
    | cons c rest =>
      have hrest' : t.unmarked.rest = c :: rest := hrest
      obtain ⟨hcolon, hextension⟩ := hpasses _ (.refl _)
      have hcolon' : t.misreads = false := misreads_unmarked.symm.trans hcolon
      have hbegin : ¬['[', ':'] <+: t.rest := fun h => hname h.isInfix
      -- If the character has an extension translated, it is one that turns up.
      have hcongr : step ctx tail (t.reading rest) c = step ctx tail' (t.reading rest) c :=
        step_congr_tail fun text htext => hextension text <| by
          rw [nextExtension?_of_rest_eq hrest']
          exact extension?_unmarked.trans htext
      have hstep : step ctx.withoutPosix tail' (t.unmarked.reading rest) c =
          (step ctx tail (t.reading rest) c).map unmarked := by
        rw [hcongr]
        exact step_unmarked (t := t.reading rest) hsound.joined.ne_nil hmarked
          (ahead_ne_colon hrest hbegin) (misreadsColon_of_misreads (t := t) hrest hcolon')
      rw [run_of_rest_eq ctx tail hrest, run_of_rest_eq _ tail' hrest', hstep]
      cases hnext : step ctx tail (t.reading rest) c with
      | error => rfl
      | ok next =>
        rw [hnext] at hstep
        refine ih (hsound.step hstar hrest hnext)
          (hmarked.step hsound hrest hbegin hcolon' hnext) ?_
          fun t' h => hpasses t' (.step hrest' hstep h)
        obtain ⟨k, hsuffix, -⟩ := follows_step hnext
        rw [hsuffix]
        exact fun h => hname (h.trans ((List.drop_suffix k rest).trans
          (hrest ▸ List.suffix_cons c rest)).isInfix)

end

end Tokenizer

/-! ### Patterns without a class name -/

section
variable {text pattern : List Char}

theorem exists_normalizeFrom_cons (escaped : Bool) (c : Char) (text : List Char) :
    ∃ d escaped', Separator.normalizeFrom escaped (c :: text) =
      d :: Separator.normalizeFrom escaped' text ∧ (d = c ∨ d = '/') := by
  cases escaped with
  | true => exact ⟨c, false, rfl, .inl rfl⟩
  | false =>
    rw [Separator.normalizeFrom]
    repeat' split
    · exact ⟨c, _, rfl, .inl rfl⟩
    · exact ⟨c, _, rfl, .inl rfl⟩
    · exact ⟨'/', _, rfl, .inr rfl⟩

/-- Neither of the two characters comes from a backslash. -/
theorem not_infix_normalizeFrom (escaped : Bool) (h : ¬['[', ':'] <:+: text) :
    ¬['[', ':'] <:+: Separator.normalizeFrom escaped text := by
  induction text generalizing escaped with
  | nil => simp [Separator.normalizeFrom]
  | cons c text ih =>
    obtain ⟨hbegin, hwithin⟩ := not_or.mp (mt List.infix_cons_iff.mpr h)
    obtain ⟨d, escaped', hnormal, hd⟩ := exists_normalizeFrom_cons escaped c text
    rw [hnormal, List.infix_cons_iff, not_or]
    refine ⟨fun hbegins => ?_, ih escaped' hwithin⟩
    rw [List.cons_prefix_cons] at hbegins
    obtain ⟨rfl, hnext⟩ := hbegins
    obtain rfl : '[' = c := hd.resolve_right (by decide)
    cases text with
    | nil => simp [Separator.normalizeFrom] at hnext
    | cons c text =>
      obtain ⟨d, escaped'', hnormal, hd⟩ := exists_normalizeFrom_cons escaped' c text
      rw [hnormal, List.cons_prefix_cons] at hnext
      obtain rfl : d = ':' := hnext.1.symm
      obtain rfl : ':' = c := hd.resolve_right (by decide)
      exact hbegin (by simp)

theorem not_infix_body (options : Options) (h : ¬['[', ':'] <:+: pattern) :
    ¬['[', ':'] <:+: (Context.ofPattern options pattern).body := by
  have hsimple : ¬['[', ':'] <:+: simplify pattern := fun hwithin =>
    h (hwithin.trans (simplify_isPrefix pattern).isInfix)
  have hnormal : ¬['[', ':'] <:+:
      if options.windows then Separator.normalize (simplify pattern) else simplify pattern := by
    split
    case isTrue => exact not_infix_normalizeFrom false hsimple
    case isFalse => exact hsimple
  have hsuffix (text : List Char) : (dropDotSlash text).2 <:+ text := by
    unfold dropDotSlash
    split
    case h_1 rest => exact List.suffix_append ['.', '/'] rest
    case h_2 => exact List.suffix_refl _
  exact fun hwithin => hnormal (hwithin.trans (hsuffix _).isInfix)

end

/-! ### Translations -/

section
variable {ctx : Context} {tail tail' : List Char → Except Error (List Char)} {options : Options}
  {pattern text : List Char}

/-- The tokenizer arrives at the same source. -/
theorem tokenize_withoutPosix (hstar : ctx.star ≠ []) (hname : ¬['[', ':'] <:+: ctx.body)
    (hpasses : ∀ t, Tokenizer.Passes ctx.withoutPosix tail' { rest := ctx.body } t →
      t.misreads = false ∧ ∀ text, t.nextExtension? = some text → tail text = tail' text) :
    (ctx.withoutPosix.tokenize tail').map Translation.essence =
      (ctx.tokenize tail).map Translation.essence := by
  have hrun : Tokenizer.run ctx.withoutPosix tail' ctx.body.length { rest := ctx.body } =
      (Tokenizer.run ctx tail ctx.body.length { rest := ctx.body }).map Tokenizer.unmarked :=
    Tokenizer.run_unmarked hstar _ (Tokenizer.sound_begin ctx ctx.body)
      (fun hclass => by cases hclass) hname hpasses
  show (Tokenizer.run ctx.withoutPosix tail' ctx.body.length { rest := ctx.body } >>= _).map _ = _
  rw [hrun]
  unfold Context.tokenize
  cases Tokenizer.run ctx tail ctx.body.length { rest := ctx.body } with
  | error => rfl
  | ok t =>
    have hfinish : t.unmarked.finish ctx.withoutPosix = (t.finish ctx).map Tokenizer.unmarked :=
      Tokenizer.unmarked_finish ctx t
    show ((t.unmarked.finish ctx.withoutPosix >>= _).map _ : Except Error Translation) =
      (t.finish ctx >>= _).map _
    rw [hfinish]
    cases t.finish ctx <;> rfl

/-- The translations agree if no colon is misread and the extensions that turn up are translated
in the same way. -/
theorem parseWithin_withPosix (depth : Nat) (hname : ¬['[', ':'] <:+: pattern)
    (hpasses : ∀ t, Tokenizer.Passes (Context.ofPattern (options.withPosix false) pattern)
        (extensionSource (options.withPosix false) depth)
        { rest := (Context.ofPattern (options.withPosix false) pattern).body } t →
      t.misreads = false ∧ ∀ text, t.nextExtension? = some text →
        extensionSource (options.withPosix true) depth text =
          extensionSource (options.withPosix false) depth text) :
    (parseWithin depth (options.withPosix true) pattern).map Translation.essence =
      (parseWithin depth (options.withPosix false) pattern).map Translation.essence := by
  rw [parseWithin_eq, parseWithin_eq]
  show Except.map _ (if options.effectiveMaxLength < Text.byteSize pattern then _ else _) =
    Except.map _ (if options.effectiveMaxLength < Text.byteSize pattern then _ else _)
  split
  case isTrue => rfl
  case isFalse =>
    split
    case isTrue => rfl
    case isFalse =>
      rw [translate_essence, translate_essence]
      exact (tokenize_withoutPosix (starSource_ne_nil _)
        (not_infix_body (options.withPosix true) hname) hpasses).symm

/-- When the pattern is translated without the option for class names, there is a colon that would
make a difference with the option. -/
def MisreadsColon (options : Options) (pattern : List Char) : Prop :=
  ∃ t, Passes (options.withPosix false) pattern t ∧ t.misreads = true

theorem refines_lenient (options : Options) (depth : Nat) :
    Tokenizer.Refines (extensionSource options depth) (extensionSource options.lenient depth) := by
  cases hstrict : options.strictBrackets with
  | true => exact refines_extensionSource_lenient hstrict depth
  | false =>
    have hsame : options.lenient = options := by
      unfold Options.lenient
      rw [← hstrict]
    rw [hsame]
    exact fun _ _ => id

theorem extensionSource_succ (options : Options) (depth : Nat) (text : List Char) :
    extensionSource options (depth + 1) text =
      ((parseWithin depth options text).map Translation.essence).map Translation.output := by
  rw [extensionSource, ← parseWithin_essence depth options false text]
  cases parseWithin depth { options with fastPaths := false } text <;> rfl

/-- An extension in which no colon is misread is translated in the same way. -/
theorem extensionSource_withPosix (hextension : isExtension text = true)
    (hname : ¬['[', ':'] <:+: text) (hcolon : ¬MisreadsColon options text) (depth : Nat) :
    extensionSource (options.withPosix true) depth text =
      extensionSource (options.withPosix false) depth text := by
  cases depth with
  | zero => rfl
  | succ depth =>
    rw [extensionSource_succ, extensionSource_succ]
    refine congrArg (Except.map Translation.output)
      (parseWithin_withPosix depth hname fun t h => ?_)
    -- An extension has no extensions of its own.
    obtain ⟨hpasses, hnone⟩ : Passes (options.withPosix false) text t ∧ t.nextExtension? = none :=
      passes_of_isExtension hextension (h.lenient (refines_lenient _ depth))
    exact ⟨Bool.eq_false_iff.mpr fun hmisreads => hcolon ⟨t, hpasses, hmisreads⟩,
      fun rest hrest => absurd (hnone.symm.trans hrest) (by simp)⟩

/-- A pattern without `[:` is translated in the same way if no colon is misread in it and in the
extensions that are translated on their own. -/
theorem parse_withPosix (hname : ¬['[', ':'] <:+: pattern)
    (hcolon : ¬MisreadsColon options pattern)
    (hextension : ∀ text, HasExtension (options.withPosix false) pattern text →
      ¬MisreadsColon options text) :
    (parse pattern (options.withPosix true)).map Translation.essence =
      (parse pattern (options.withPosix false)).map Translation.essence := by
  refine parseWithin_withPosix pattern.length hname fun t h => ?_
  have hpasses : Passes (options.withPosix false) pattern t := h.lenient (refines_lenient _ _)
  refine ⟨Bool.eq_false_iff.mpr fun hmisreads => hcolon ⟨t, hpasses, hmisreads⟩,
    fun text htext => ?_⟩
  have hfound : HasExtension (options.withPosix false) pattern text := ⟨t, hpasses, htext⟩
  exact extensionSource_withPosix hfound.isExtension
    (fun hwithin => not_infix_body _ hname (hwithin.trans hfound.isSuffix.isInfix))
    (hextension text hfound) _

end

end Pattern

open Pattern

/-- Translations that differ at most in their tokens are made ready to match in the same way. -/
theorem isMatch_compile_congr {translation translation' : Translation}
    (h : translation.essence = translation'.essence) (options : Options) (posix : Bool)
    (text : List Char) :
    (compile translation (options.withPosix posix)).map (·.isMatch text) =
      (compile translation' options).map (·.isMatch text) := by
  have hsource :
      sourceOf translation (options.withPosix posix) = sourceOf translation' options := by
    simp only [Translation.essence, Translation.mk.injEq] at h
    unfold sourceOf
    rw [h.2.1, h.2.2.2.1]
    rfl
  unfold compile
  dsimp only
  rw [hsource]
  rw [show (options.withPosix posix).debug = options.debug from rfl]
  split <;> rfl

end PathGlob
