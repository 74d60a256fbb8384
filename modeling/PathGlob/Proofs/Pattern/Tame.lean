import PathGlob.Proofs.Pattern.Brackets
import PathGlob.Proofs.Pattern.Progress

/-!
# `PathGlob.Proofs.Pattern.Tame`: patterns without quotes and negations

A tame character does not change how others are read, so there are few things that it can do
(`TameStep`). As long as all characters are tame, the tokenizer stays outside of brackets, quotes
and braces, and a parenthesis that belongs to no extended group stays among the tokens
(`Tokenizer.Retains`). What follows a negated group is never looked at, and neither are named
classes (`step_congr`).
-/

set_option autoImplicit false

namespace PathGlob.Pattern

open Regex

/-- The character is no dot and no separator of another kind of text: no negation, backslash,
quotation mark or bracket, and no brace that opens a group. -/
def isTame (options : Options) (c : Char) : Bool :=
  !(['.', '!', '\\', '"', '[', ']', '\x00'].contains c) && (c ≠ '{' || options.noBrace)

/-- The same context, but without named classes. -/
def Context.withoutPosix (ctx : Context) : Context :=
  { ctx with options := { ctx.options with posix := false } }

/-- A parenthesis that belongs to no extended group. -/
def Token.isRawParen (token : Token) : Bool := token.kind = .paren && !token.isExtglob

theorem any_modify {α : Type} {test : α → Bool} {items : List α} {place : Nat} {change : α → α}
    (hchange : ∀ item, items[place]? = some item → test item = true → test (change item) = true)
    (h : items.any test = true) : (items.modify place change).any test = true := by
  obtain ⟨item, hitem, htest⟩ := List.any_eq_true.mp h
  obtain ⟨i, hi⟩ := List.mem_iff_getElem?.mp hitem
  refine List.any_eq_true.mpr ?_
  by_cases heq : i = place
  · subst heq
    refine ⟨change item, List.mem_of_getElem? (i := i) ?_, hchange item hi htest⟩
    rw [List.getElem?_modify, hi]
    simp
  · refine ⟨item, List.mem_of_getElem? (i := i) ?_, htest⟩
    rw [List.getElem?_modify, hi]
    simp [Ne.symm heq]

namespace Tokenizer

variable {ctx : Context} {t s t' : Tokenizer} {token : Token}

/-- A parenthesis that belongs to no extended group is among the tokens. -/
def hasRawParen (t : Tokenizer) : Bool := t.tokens.any Token.isRawParen

/-- The second state is as far outside of brackets, quotes and braces as the first one, and has
its parentheses. -/
structure Retains (t t' : Tokenizer) : Prop where
  inClass : t'.inClass = t.inClass
  quoted : t'.quoted = t.quoted
  negated : t'.negated = t.negated
  inBrace : t.inBrace = false → t'.inBrace = false
  rawParen : t.hasRawParen = true → t'.hasRawParen = true

theorem kind_ne_of_lastPlace {kind : TokenKind} (h : t.last.kind ≠ kind)
    (htoken : t.tokens[t.lastPlace]? = some token) : token.kind ≠ kind := by
  rw [lastPlace, ← List.getLast?_eq_getElem?] at htoken
  rw [last, htoken] at h
  exact h

namespace Retains

theorem refl (t : Tokenizer) : t.Retains t := ⟨rfl, rfl, rfl, id, id⟩

theorem trans (h : t.Retains s) (h' : s.Retains t') : t.Retains t' where
  inClass := h'.inClass.trans h.inClass
  quoted := h'.quoted.trans h.quoted
  negated := h'.negated.trans h.negated
  inBrace := h'.inBrace ∘ h.inBrace
  rawParen := h'.rawParen ∘ h.rawParen

/-- A token is changed that is no parenthesis, or stays the parenthesis it is. -/
theorem modify {place : Nat} {change : Token → Token}
    (h : ∀ token, t.tokens[place]? = some token → token.isRawParen = true →
      (change token).isRawParen = true) : t.Retains (t.modify place change) :=
  ⟨rfl, rfl, rfl, id, any_modify h⟩

/-- A token gets another source. -/
theorem setSource (t : Tokenizer) (place : Nat) (source : Token → List Char) :
    t.Retains (t.modify place fun token => { token with source? := some (source token) }) :=
  modify fun _ _ => id

/-- A token is changed that is no parenthesis. -/
theorem modify_of_kind_ne {place : Nat} {change : Token → Token}
    (h : ∀ token, t.tokens[place]? = some token → token.kind ≠ .paren) :
    t.Retains (t.modify place change) := by
  refine modify fun token htoken hraw => absurd ?_ (h token htoken)
  rw [Token.isRawParen, Bool.and_eq_true, decide_eq_true_eq] at hraw
  exact hraw.1

theorem modifyLast {change : Token → Token} (h : t.last.kind ≠ .paren) :
    t.Retains (t.modifyLast change) :=
  modify_of_kind_ne fun _ htoken => kind_ne_of_lastPlace h htoken

theorem of_same (htokens : t'.tokens = t.tokens) (hframes : t'.frames = t.frames)
    (hcalm : t'.inClass = t.inClass ∧ t'.quoted = t.quoted ∧ t'.negated = t.negated) :
    t.Retains t' where
  inClass := hcalm.1
  quoted := hcalm.2.1
  negated := hcalm.2.2
  inBrace := by rw [Tokenizer.inBrace, Tokenizer.inBrace, hframes]; exact id
  rawParen := by rw [hasRawParen, hasRawParen, htokens]; exact id

end Retains

theorem inBrace_noteInner (t : Tokenizer) (value : List Char) :
    (t.noteInner value).inBrace = t.inBrace := by
  unfold inBrace noteInner
  show (modifyFrame _ t.frames).any Frame.isBrace = _
  induction t.frames with
  | nil => rfl
  | cons frame frames ih =>
    cases frame with
    | extglob frame => rfl
    | paren | brace =>
      rw [modifyFrame, List.any_cons, List.any_cons]
      exact congrArg _ ih

theorem noted_prepared (ctx : Context) (t : Tokenizer) (token : Token) :
    (t.prepared ctx token).noted token = t.noted token := by
  obtain heq | ⟨-, -, heq⟩ := prepared_cases ctx t token
  · rw [heq]
  · rw [heq]
    rfl

theorem retains_demoteGlobstar (ctx : Context) (h : t.last.kind = .globstar) :
    t.Retains (t.demoteGlobstar ctx) := by
  let s := (t.cutOutput (Text.byteSize t.last.source)).emit ctx.star
  have hcut : t.Retains s := .of_same rfl rfl ⟨rfl, rfl, rfl⟩
  exact hcut.trans (Retains.modifyLast (show t.last.kind ≠ .paren by simp [h]))

/-- Adding a token takes away no other. -/
theorem retains_push (ctx : Context) (t : Tokenizer) (token : Token) :
    t.Retains (t.push ctx token) := by
  have hprepared : t.Retains (t.prepared ctx token) := by
    obtain heq | ⟨hlast, -, heq⟩ := prepared_cases ctx t token
    · rw [heq]
      exact .refl t
    · rw [heq]
      exact retains_demoteGlobstar ctx hlast
  refine hprepared.trans ?_
  rw [push_eq_prepared, ← noted_prepared]
  generalize t.prepared ctx token = t
  refine ⟨rfl, rfl, rfl, fun hbrace => ?_, fun hraw => ?_⟩
  · show (t.noted token).any Frame.isBrace = false
    unfold noted
    split
    · exact hbrace
    · exact (t.inBrace_noteInner token.value).trans hbrace
  · show (t.pushed token).any Token.isRawParen = true
    unfold pushed
    split
    case isTrue hmerge =>
      rw [Bool.and_eq_true, decide_eq_true_eq] at hmerge
      have hkeep : (t.modifyLast fun last => { last with
          value := last.value ++ token.value
          source? := some (last.source ++ token.source) }).hasRawParen = true :=
        (Retains.modifyLast (by simp [hmerge.1])).rawParen hraw
      exact hkeep
    case isFalse =>
      rw [List.any_append, Bool.or_eq_true]
      exact .inl hraw

namespace Retains

theorem push (h : t.Retains s) : t.Retains (s.push ctx token) := h.trans (retains_push ctx s token)

theorem skip (h : t.Retains s) (n : Nat) : t.Retains (s.skip n) :=
  h.trans (.of_same rfl rfl ⟨rfl, rfl, rfl⟩)

end Retains

/-! ### One step -/

section
variable (ctx : Context) (t : Tokenizer)

theorem retains_plainText (c : Char) : t.Retains (t.plainText ctx c) :=
  ((Retains.refl t).skip _).push

theorem retains_openParen : t.Retains (t.openParen ctx) := by
  have hopen : t.Retains { t with frames := .paren t.tokens.length :: t.frames } :=
    ⟨rfl, rfl, rfl, id, id⟩
  exact hopen.push

/-- A parenthesis without an operator belongs to no extended group. -/
theorem hasRawParen_openParen : (t.openParen ctx).hasRawParen = true := by
  let captures := ctx.options.capture || ctx.hasReference || t.ahead 0 = some '?'
  let token := Token.ofSource .paren ['('] (Fragment.openGroup captures)
  obtain ⟨previous, htokens⟩ := tokens_push_of_kind_ne (show token.kind ≠ .text by simp [token]) ctx
    { t with frames := .paren t.tokens.length :: t.frames }
  have hopen : (t.openParen ctx).tokens = _ := htokens
  rw [hasRawParen, hopen, List.any_append, Bool.or_eq_true]
  exact .inr rfl

theorem retains_openExtglob (kind : ExtglobKind) (c : Char) :
    t.Retains (t.openExtglob ctx kind c) := by
  have hopen {s : Tokenizer} (h : t.Retains s) (frame : ExtglobFrame) :
      t.Retains { s with frames := .extglob frame :: s.frames } :=
    h.trans ⟨rfl, rfl, rfl, id, id⟩
  exact hopen (((Retains.refl t).push.skip 1).push) _

theorem retains_slash : t.Retains (t.slash ctx) := by
  unfold slash
  split
  case isTrue hdot =>
    rw [Bool.and_eq_true, decide_eq_true_eq] at hdot
    refine ⟨rfl, rfl, rfl, id, fun hraw => ?_⟩
    -- What is dropped is a dot.
    obtain ⟨token, htoken, hparen⟩ := List.any_eq_true.mp hraw
    refine List.any_eq_true.mpr ⟨token, ?_, hparen⟩
    have hne : t.tokens ≠ [] := List.ne_nil_of_mem htoken
    rw [← List.dropLast_concat_getLast hne, List.mem_append, List.mem_singleton] at htoken
    refine htoken.resolve_right fun heq => ?_
    have hlast : t.last = token := by
      rw [last, List.getLast?_eq_some_getLast hne, heq]
      rfl
    rw [Token.isRawParen, Bool.and_eq_true, decide_eq_true_eq, ← hlast, hdot.1] at hparen
    exact absurd hparen.1 (by simp)
  case isFalse => exact retains_push ctx t _

theorem retains_qmark : t.Retains (t.qmark ctx) := by
  unfold qmark
  dsimp only
  split
  case isTrue => exact retains_openExtglob ctx t _ _
  case isFalse => split <;> exact retains_push ctx t _

theorem retains_operator (kind : ExtglobKind) (c : Char) (token : Token) :
    t.Retains (t.operator ctx kind c token) := by
  unfold operator
  split
  case isTrue => exact retains_openExtglob ctx t _ _
  case isFalse => exact retains_push ctx t token

theorem retains_absorbSlash : t.Retains (t.absorbSlash ctx) := ((Retains.refl t).skip 1).push

variable {t}

theorem retains_globstarAfterSlash {starPlace : Nat}
    (h : ∀ token, t.tokens[starPlace]? = some token → token.kind ≠ .paren) (slashPlace : Nat)
    (slash star : Token) (source : List Char) :
    t.Retains (t.globstarAfterSlash slashPlace starPlace slash star source) := by
  let opening := ['(', '?', ':'] ++ slash.source
  let s := (t.cutOutput (Text.byteSize slash.source + Text.byteSize star.source)).emit
    (opening ++ source)
  have hcut : t.Retains s := .of_same rfl rfl ⟨rfl, rfl, rfl⟩
  have hopened : t.Retains (s.setSource slashPlace opening) :=
    hcut.trans (.setSource s slashPlace fun _ => opening)
  refine hopened.trans (.modify_of_kind_ne fun token htoken => ?_)
  obtain ⟨-, found, hfound, rfl⟩ | ⟨-, hfound⟩ := getElem?_modify_iff.mp htoken
  · exact h found hfound
  · exact h token hfound

theorem retains_globstarAt (h : t.last.kind = .star) (star : Token) (priorPlace : Nat)
    (prior : Token) (before : Option TokenKind) :
    t.Retains (t.globstarAt ctx star priorPlace prior before) := by
  have hlast (token : Token) (htoken : t.tokens[t.lastPlace]? = some token) :
      token.kind ≠ .paren := kind_ne_of_lastPlace (by simp [h]) htoken
  have hpromote {s : Tokenizer} (hs : t.Retains s) (htokens : s.tokens = t.tokens)
      (source : List Char) : t.Retains (s.promote t.lastPlace source) :=
    hs.trans (.modify_of_kind_ne (htokens ▸ hlast))
  have hafter {s : Tokenizer} (hs : t.Retains s) (htokens : s.tokens = t.tokens)
      (source : List Char) :
      t.Retains (s.globstarAfterSlash priorPlace t.lastPlace prior star source) :=
    hs.trans (retains_globstarAfterSlash (htokens ▸ hlast) _ _ _ _)
  have habsorb {s : Tokenizer} (hs : t.Retains s) : t.Retains (s.absorbSlash ctx) :=
    hs.trans (retains_absorbSlash ctx s)
  have hsame {n : Nat} {output : List Char} :
      t.Retains { t.skip n with globstar := true, output } :=
    .of_same rfl rfl ⟨rfl, rfl, rfl⟩
  unfold globstarAt
  dsimp only
  split
  case isTrue => exact hpromote hsame rfl _
  case isFalse =>
    split
    case isTrue => exact hafter hsame rfl _
    case isFalse =>
      split
      case isTrue => exact habsorb (hafter hsame rfl _)
      case isFalse =>
        split
        case isTrue => exact habsorb (hpromote hsame rfl _)
        case isFalse => exact hpromote hsame rfl _

theorem retains_secondStar (h : t.last.kind = .star) : t.Retains (t.secondStar ctx) := by
  unfold secondStar
  split
  case isTrue => exact .refl t
  case isFalse =>
    dsimp only
    split
    case isTrue => exact retains_push ctx t _
    case isFalse => exact retains_globstarAt ctx h _ _ _ _

theorem retains_star (hrun : t.last.isStarRun = true → t.last.kind = .star) :
    t.Retains (t.star ctx) := by
  unfold star
  split
  case isTrue hlast =>
    rw [Bool.or_eq_true, decide_eq_true_eq] at hlast
    have hkind : t.last.kind ≠ .paren := by
      obtain hglobstar | hlast := hlast
      · simp [hglobstar]
      · simp [hrun hlast]
    exact (Retains.modifyLast hkind).trans (.of_same rfl rfl ⟨rfl, rfl, rfl⟩)
  case isFalse =>
    split
    case isTrue => exact retains_openExtglob ctx t _ _
    case isFalse =>
      split
      case isTrue hstar => exact retains_secondStar ctx hstar
      case isFalse =>
        dsimp only
        split
        case h_1 guard _ =>
          have hemit : t.Retains (t.emit guard) := .of_same rfl rfl ⟨rfl, rfl, rfl⟩
          have hguard : t.Retains (t.guardLast guard) :=
            hemit.trans (.setSource _ (t.emit guard).lastPlace fun token => token.source ++ guard)
          exact hguard.push
        case h_2 => exact retains_push ctx t _

/-! ### Closing groups -/

variable {tail : List Char → Except Error (List Char)}

theorem retains_closeExtglob {frame : ExtglobFrame} (h : t.closeExtglob ctx tail frame = .ok t') :
    t.Retains t' := by
  let s : Tokenizer := { t with negatedExtglob := t.negatedExtglob ||
    (frame.kind = ExtglobKind.negate && frame.before = TokenKind.bos) }
  have hs : t.Retains s := .of_same rfl rfl ⟨rfl, rfl, rfl⟩
  have hguarded : t.Retains (s.guarded ctx frame) := by
    refine hs.trans ?_
    unfold guarded
    dsimp only
    split
    · exact (Retains.setSource s frame.operator fun token => ctx.dotGuard ++ token.source).trans
        (.of_same rfl rfl ⟨rfl, rfl, rfl⟩)
    · exact .refl s
  -- What closes the group makes no difference.
  have hclosed (paren : Token) (optional : Bool) : t.Retains
      (let s := (s.guarded ctx frame).push ctx paren
        if optional then { s with optionalGroup := some s.lastPlace } else s) := by
    cases optional
    · exact hguarded.push
    · exact hguarded.push.trans (.of_same rfl rfl ⟨rfl, rfl, rfl⟩)
  unfold closeExtglob at h
  dsimp only at h
  split at h
  case isTrue =>
    obtain ⟨closing, -, h⟩ := bind_eq_ok h
    cases h
    exact hclosed _ _
  case isFalse =>
    cases h
    exact hclosed _ _

theorem retains_closeParen (h : t.closeParen ctx tail = .ok t') : t.Retains t' := by
  have htaken {found : Frame} {others : List Frame}
      (htake : takeFrame? (fun frame => !frame.isBrace) t.frames = some (found, others)) :
      t.Retains { t with frames := others } := by
    obtain ⟨-, above, below, hframes, rfl, -⟩ := takeFrame?_eq_some htake
    refine ⟨rfl, rfl, rfl, fun hbrace => ?_, id⟩
    rw [inBrace, hframes] at hbrace
    show (above ++ below).any Frame.isBrace = false
    simp only [List.any_append, List.any_cons, Bool.or_eq_false_iff] at hbrace ⊢
    exact ⟨hbrace.1, hbrace.2.2⟩
  unfold closeParen at h
  split at h
  case h_1 htake => exact (htaken htake).trans (retains_closeExtglob ctx h)
  case h_2 htake =>
    cases h
    exact (htaken htake).push
  case h_3 =>
    split at h
    case isTrue => cases h
    case isFalse =>
      cases h
      exact retains_push ctx t _

end

/-! ### Steps -/

/-- What a tame character can do, outside of brackets, quotes and braces. -/
inductive TameStep (ctx : Context) (tail : List Char → Except Error (List Char)) (t : Tokenizer) :
    Char → Tokenizer → Prop where
  | openParen : TameStep ctx tail t '(' (t.openParen ctx)
  | closeParen {t' : Tokenizer} (h : t.closeParen ctx tail = .ok t') : TameStep ctx tail t ')' t'
  | closeBrace : TameStep ctx tail t '}' (t.pushText ctx ['}'] ['\\', '}'])
  | bar : TameStep ctx tail t '|' (t.pushText ctx ['|'] (if t.inParen then ['|'] else ['\\', '|']))
  | comma : TameStep ctx tail t ',' (t.push ctx (.ofSource .comma [','] [',']))
  | slash : TameStep ctx tail t '/' (t.slash ctx)
  | qmark : TameStep ctx tail t '?' (t.qmark ctx)
  | plus : TameStep ctx tail t '+'
      (t.operator ctx .oneOrMore '+' (.ofSource .plus ['+'] Fragment.plus))
  | atSign : TameStep ctx tail t '@' (t.operator ctx .exactlyOne '@' (.text ['@'] ['@']))
  | star : TameStep ctx tail t '*' (t.star ctx)
  | plain {c : Char} (h : c ∈ ['{', '$', '^'] ∨ isSpecial c = false) :
      TameStep ctx tail t c (t.plainText ctx c)

section
variable {tail : List Char → Except Error (List Char)} {c : Char}

theorem comma_of_inBrace_eq_false (h : t.inBrace = false) (ctx : Context) :
    t.comma ctx = t.push ctx (.ofSource .comma [','] [',']) := by
  unfold comma
  split
  case h_1 hframes =>
    rw [inBrace, hframes] at h
    exact absurd h (by simp [Frame.isBrace])
  case h_2 => rfl

theorem closeBrace_of_inBrace_eq_false (h : t.inBrace = false) (ctx : Context) :
    t.closeBrace ctx = t.pushText ctx ['}'] ['\\', '}'] := by
  unfold closeBrace
  split
  case h_1 htake =>
    obtain ⟨-, above, below, hframes, -⟩ := takeFrame?_eq_some htake
    rw [inBrace, hframes] at h
    exact absurd h (by simp [Frame.isBrace])
  case h_2 => rfl

theorem tameStep (htame : isTame ctx.options c = true) (hclass : t.inClass = false)
    (hquoted : t.quoted = false) (hbrace : t.inBrace = false)
    (hok : step ctx tail t c = .ok t') : TameStep ctx tail t c t' := by
  rw [isTame, Bool.and_eq_true, Bool.not_eq_true', List.contains_eq_mem,
    decide_eq_false_iff_not] at htame
  simp only [List.mem_cons, List.not_mem_nil, or_false, not_or] at htame
  obtain ⟨⟨hdot, hbang, hbackslash, hquote, hopening, hclosing, hnul⟩, hopen⟩ := htame
  unfold step at hok
  rw [if_neg hnul, if_neg hbackslash, if_neg (by simp [hclass]), if_neg (by simp [hquoted])] at hok
  split at hok
  case h_1 => exact absurd rfl hquote
  case h_2 =>
    cases hok
    exact .openParen
  case h_3 => exact .closeParen hok
  case h_4 => exact absurd rfl hopening
  case h_5 => exact absurd rfl hclosing
  case h_6 =>
    cases hok
    rw [if_pos (by simpa using hopen)]
    exact .plain (.inl (by simp))
  case h_7 =>
    cases hok
    rw [closeBrace_of_inBrace_eq_false hbrace]
    exact .closeBrace
  case h_8 =>
    cases hok
    exact .bar
  case h_9 =>
    cases hok
    rw [comma_of_inBrace_eq_false hbrace]
    exact .comma
  case h_10 =>
    cases hok
    exact .slash
  case h_11 => exact absurd rfl hdot
  case h_12 =>
    cases hok
    exact .qmark
  case h_13 => exact absurd rfl hbang
  case h_14 =>
    cases hok
    exact .plus
  case h_15 =>
    cases hok
    exact .atSign
  case h_16 =>
    cases hok
    exact .star
  case h_17 =>
    cases hok
    refine .plain ?_
    by_cases hanchor : c = '$' ∨ c = '^'
    · exact .inl (by simp [hanchor])
    · refine .inr ?_
      rw [not_or] at hanchor
      simp_all [isSpecial]

/-- A step outside of brackets, quotes and braces stays there. -/
theorem TameStep.retains (h : TameStep ctx tail t c t')
    (hrun : t.last.isStarRun = true → t.last.kind = .star) : t.Retains t' := by
  cases h with
  | openParen => exact retains_openParen ctx t
  | closeParen h => exact retains_closeParen ctx h
  | closeBrace | bar | comma => exact retains_push ctx t _
  | slash => exact retains_slash ctx t
  | qmark => exact retains_qmark ctx t
  | plus | atSign => exact retains_operator ctx t _ _ _
  | star => exact retains_star ctx hrun
  | plain => exact retains_plainText ctx t c

/-- What follows a negated group matters only if it is an extension. -/
theorem closeExtglob_congr {tail' : List Char → Except Error (List Char)} (h : '.' ∉ t.rest)
    (frame : ExtglobFrame) : t.closeExtglob ctx tail frame = t.closeExtglob ctx tail' frame := by
  have hextension : isExtension t.rest = false := by
    unfold isExtension
    split
    case h_1 hrest =>
      rw [hrest] at h
      exact absurd List.mem_cons_self h
    case h_2 => rfl
  have hclosing : t.negateClosing ctx tail frame = t.negateClosing ctx tail' frame := by
    unfold negateClosing
    simp only [hextension, Bool.and_false, Bool.false_eq_true, if_false]
  unfold closeExtglob
  rw [hclosing]

theorem closeParen_congr {tail' : List Char → Except Error (List Char)} (h : '.' ∉ t.rest) :
    t.closeParen ctx tail = t.closeParen ctx tail' := by
  unfold closeParen
  split
  case h_1 frame frames htake =>
    exact closeExtglob_congr (t := { t with frames }) h frame
  case h_2 => rfl
  case h_3 => rfl

/-- Outside of brackets there are no named classes. -/
theorem step_congr {tail' : List Char → Except Error (List Char)} (hclass : t.inClass = false)
    (h : '.' ∉ t.rest) : step ctx tail t c = step ctx.withoutPosix tail' t c := by
  have hparen : t.closeParen ctx tail = t.closeParen ctx.withoutPosix tail' := closeParen_congr h
  unfold step
  simp only [hclass, Bool.false_and, Bool.false_eq_true, if_false, hparen]
  rfl

end

/-! ### Runs -/

/-- Outside of brackets, quotes and braces, and only tame characters are left. -/
structure Tame (ctx : Context) (t : Tokenizer) : Prop where
  situation : t.Situation ctx.withoutPosix
  begun : t.Begun
  inClass : t.inClass = false
  quoted : t.quoted = false
  negated : t.negated = false
  inBrace : t.inBrace = false
  rest : ∀ c ∈ t.rest, isTame ctx.options c = true

namespace Tame

variable {tail : List Char → Except Error (List Char)} {c : Char} {rest : List Char}

theorem ready (h : t.Tame ctx) (hrest : t.rest ≠ []) : t.Ready ctx t.frames := by
  cases h.situation with
  | ready hready => exact ⟨hready.layout, hready.settled, hready.synced⟩
  | bracketing _ _ hbracketing => exact absurd (h.inClass.symm.trans hbracketing.inClass) (by simp)
  | ended hnil => exact absurd hnil hrest
  | cut hnil => exact absurd hnil hrest

theorem isStarRun (h : t.Tame ctx) (hrest : t.rest ≠ []) (hrun : t.last.isStarRun = true) :
    t.last.kind = .star := by
  have hsettled := (h.ready hrest).settled
  refine hsettled.run t.last ?_ hrun
  rw [last, List.getLast?_eq_some_getLast hsettled.ne_nil]
  exact List.getLast_mem _

/-- A step over a tame character. -/
theorem step (hctx : ctx.withoutPosix.IsStandard) (h : t.Tame ctx) (hrest : t.rest = c :: rest)
    (hok : Tokenizer.step ctx tail (t.taking rest) c = .ok t') :
    TameStep ctx tail (t.taking rest) c t' ∧ t'.Tame ctx ∧
      (t.hasRawParen = true → t'.hasRawParen = true) := by
  have htame := h.rest
  rw [hrest, List.forall_mem_cons] at htame
  have hstep : TameStep ctx tail (t.taking rest) c t' :=
    tameStep htame.1 h.inClass h.quoted h.inBrace hok
  have hretains := hstep.retains (h.isStarRun (by simp [hrest]))
  have hdot : '.' ∉ rest := fun hmem => absurd (htame.2 '.' hmem) (by simp [isTame])
  have hok' : Tokenizer.step ctx.withoutPosix (fun _ => .error .empty) (t.taking rest) c =
      .ok t' := by
    rw [← step_congr (t := t.taking rest) h.inClass hdot, hok]
  obtain ⟨hsituation, hbegun⟩ := h.situation.step hctx (fun _ _ hfalse => absurd hfalse (by simp))
    h.begun hrest hok'
  obtain ⟨k, hfollows, -⟩ := follows_step hok
  refine ⟨hstep, ⟨hsituation, hbegun, hretains.inClass.trans h.inClass,
    hretains.quoted.trans h.quoted, hretains.negated.trans h.negated, hretains.inBrace h.inBrace,
    fun d hd => htame.2 d ?_⟩, hretains.rawParen⟩
  rw [hfollows] at hd
  exact List.mem_of_mem_drop hd

theorem hasRawParen_run (hctx : ctx.withoutPosix.IsStandard) (n : Nat) (h : t.Tame ctx)
    (hraw : t.hasRawParen = true) (hok : run ctx tail n t = .ok t') :
    t'.Tame ctx ∧ t'.hasRawParen = true := by
  induction n generalizing t with
  | zero =>
    cases hok
    exact ⟨h, hraw⟩
  | succ n ih =>
    rw [run] at hok
    split at hok
    case h_1 =>
      cases hok
      exact ⟨h, hraw⟩
    case h_2 c rest hrest =>
      obtain ⟨next, hstep, hrun⟩ := bind_eq_ok hok
      obtain ⟨-, hnext, hretains⟩ := h.step hctx hrest hstep
      exact ih hnext (hretains hraw) hrun

/-- At the end, no parenthesis changes its kind. -/
theorem retains_finish (h : t.Tame ctx) (hok : t.finish ctx = .ok s) : t.Retains s := by
  have hend (t : Tokenizer) (frame : Frame) : t.Retains (t.endFrame frame) := by
    cases frame with
    | paren place => exact .setSource t place fun _ => ['\\', '(']
    | extglob frame =>
      exact (Retains.setSource t frame.operator fun token => Regex.escape token.value).trans
        (.setSource _ (frame.operator + 1) fun _ => ['\\', '('])
    | brace frame =>
      have hcommas (places : List Nat) (t : Tokenizer) :
          t.Retains (places.foldl (fun t place => t.setSource place [',']) t) := by
        induction places generalizing t with
        | nil => exact .refl t
        | cons place places ih => exact (Retains.setSource t place fun _ => [',']).trans (ih _)
      exact (Retains.setSource t frame.token fun _ => ['\\', '{']).trans (hcommas _ _)
  have hends (frames : List Frame) (t : Tokenizer) : t.Retains (frames.foldl endFrame t) := by
    induction frames generalizing t with
    | nil => exact .refl t
    | cons frame frames ih => exact (hend t frame).trans (ih _)
  unfold finish at hok
  obtain ⟨bracketed, hbracket, hok⟩ := bind_eq_ok hok
  rw [endBracket_eq ctx h.inClass] at hbracket
  cases hbracket
  obtain ⟨framed, hframes, hok⟩ := bind_eq_ok hok
  have hframed : t.Retains framed := by
    unfold endFrames at hframes
    split at hframes
    case h_1 =>
      cases hframes
      exact .refl t
    case h_2 =>
      split at hframes
      case isTrue => exact absurd hframes (by simp)
      case isFalse =>
        cases hframes
        exact (hends t.frames t).trans ⟨rfl, rfl, rfl, fun _ => rfl, id⟩
  have hallowed : t.Retains (framed.allowSlash ctx) := by
    unfold allowSlash
    split
    · exact hframed.push
    · exact hframed
  cases hok
  split
  · exact hallowed.trans (.of_same rfl rfl ⟨rfl, rfl, rfl⟩)
  · exact hallowed

end Tame

end Tokenizer

end PathGlob.Pattern
