import PathGlob.Proofs.Pattern.Alike
import PathGlob.Proofs.Pattern.Sound

/-!
# `PathGlob.Proofs.Pattern.Unmarked`: brackets with and without the mark of a class name

A bracket is marked when a class name seems to end in it. Nothing looks at the mark but the closing
of that very bracket. So a state without its marks (`Tokenizer.unmarked`) goes on as the state
itself does, without the marks, as long as no bracket is closed to which its mark makes a
difference. Here it is shown of everything else that a character may do, and of the end of the text
(`Tokenizer.unmarked_finish`).
-/

set_option autoImplicit false

namespace PathGlob.Pattern

open Regex

/-- The token without the mark of a class name. -/
def Token.unmarked (token : Token) : Token := { token with isPosix := false }

section
variable (token : Token)

@[simp] theorem Token.kind_unmarked : token.unmarked.kind = token.kind := rfl

@[simp] theorem Token.value_unmarked : token.unmarked.value = token.value := rfl

@[simp] theorem Token.source_unmarked : token.unmarked.source = token.source := rfl

@[simp] theorem Token.previous_unmarked : token.unmarked.previous = token.previous := rfl

@[simp] theorem Token.isExtglob_unmarked : token.unmarked.isExtglob = token.isExtglob := rfl

@[simp] theorem Token.isStarRun_unmarked : token.unmarked.isStarRun = token.isStarRun := rfl

end

theorem map_unmarked_modify (tokens : List Token) (place : Nat) {change change' : Token → Token}
    (hchange : ∀ token, (change token).unmarked = change' token.unmarked) :
    (tokens.modify place change).map Token.unmarked =
      (tokens.map Token.unmarked).modify place change' := by
  induction tokens generalizing place with
  | nil => simp
  | cons token tokens ih =>
    cases place with
    | zero => simp [hchange]
    | succ place => simp [ih]

theorem map_unmarked_modifyLastWhere (test : Token → Bool) (change : Token → Token)
    (htest : ∀ token, test token.unmarked = test token)
    (hchange : ∀ token, (change token).unmarked = change token.unmarked) (tokens : List Token) :
    (modifyLastWhere test change tokens).map Token.unmarked =
      modifyLastWhere test change (tokens.map Token.unmarked) := by
  have hgo (tokens : List Token) : (modifyLastWhere.go test change tokens).map Token.unmarked =
      modifyLastWhere.go test change (tokens.map Token.unmarked) := by
    induction tokens with
    | nil => rfl
    | cons token tokens ih =>
      rw [modifyLastWhere.go, List.map_cons, modifyLastWhere.go, htest]
      split
      case isTrue => rw [List.map_cons, hchange]
      case isFalse => rw [List.map_cons, ih]
  unfold modifyLastWhere
  rw [List.map_reverse, hgo, List.map_reverse]

namespace Tokenizer

/-- The state without the marks of class names. -/
def unmarked (t : Tokenizer) : Tokenizer := { t with tokens := t.tokens.map Token.unmarked }

section
variable (ctx : Context) (t : Tokenizer)

@[simp] theorem tokens_unmarked : t.unmarked.tokens = t.tokens.map Token.unmarked := rfl

@[simp] theorem rest_unmarked : t.unmarked.rest = t.rest := rfl

@[simp] theorem output_unmarked : t.unmarked.output = t.output := rfl

@[simp] theorem frames_unmarked : t.unmarked.frames = t.frames := rfl

@[simp] theorem inClass_unmarked : t.unmarked.inClass = t.inClass := rfl

@[simp] theorem quoted_unmarked : t.unmarked.quoted = t.quoted := rfl

@[simp] theorem place_unmarked : t.unmarked.place = t.place := rfl

@[simp] theorem start_unmarked : t.unmarked.start = t.start := rfl

@[simp] theorem ahead_unmarked (n : Nat) : t.unmarked.ahead n = t.ahead n := rfl

@[simp] theorem inBrace_unmarked : t.unmarked.inBrace = t.inBrace := rfl

@[simp] theorem opensExtglob_unmarked : t.unmarked.opensExtglob ctx = t.opensExtglob ctx := rfl

@[simp] theorem lastPlace_unmarked : t.unmarked.lastPlace = t.lastPlace := by
  simp [lastPlace]

@[simp] theorem last_unmarked : t.unmarked.last = t.last.unmarked := by
  unfold last
  rw [tokens_unmarked, List.getLast?_map]
  cases t.tokens.getLast? <;> rfl

@[simp] theorem tokenAt_unmarked (place : Nat) :
    t.unmarked.tokens[place]?.getD .bos = (t.tokens[place]?.getD .bos).unmarked := by
  rw [tokens_unmarked, List.getElem?_map]
  cases t.tokens[place]? <;> rfl

/-! ### What all characters are made of -/

omit ctx t in
theorem unmarked_ite {p p' : Prop} [Decidable p] [Decidable p'] {a b a' b' : Tokenizer}
    (hp : p' ↔ p) (ha : a.unmarked = a') (hb : b.unmarked = b') :
    (if p then a else b).unmarked = if p' then a' else b' := by
  by_cases h : p
  · rwa [if_pos h, if_pos (hp.mpr h)]
  · rwa [if_neg h, if_neg (mt hp.mp h)]

theorem unmarked_modify (place : Nat) (change : Token → Token)
    (hchange : ∀ token, (change token).unmarked = change token.unmarked) :
    (t.modify place change).unmarked = t.unmarked.modify place change := by
  simp only [unmarked, modify, map_unmarked_modify t.tokens place hchange]

theorem unmarked_modifyLast (change : Token → Token)
    (hchange : ∀ token, (change token).unmarked = change token.unmarked) :
    (t.modifyLast change).unmarked = t.unmarked.modifyLast change := by
  rw [modifyLast, modifyLast, unmarked_modify t _ change hchange, lastPlace_unmarked]

theorem unmarked_demoteGlobstar :
    (t.demoteGlobstar ctx).unmarked = t.unmarked.demoteGlobstar ctx := by
  unfold demoteGlobstar
  rw [unmarked_modifyLast, last_unmarked]
  · rfl
  · exact fun _ => rfl

variable {token : Token}

theorem unmarked_prepared : (t.prepared ctx token).unmarked = t.unmarked.prepared ctx token := by
  unfold prepared
  simp only [last_unmarked, Token.kind_unmarked,
    show t.unmarked.keepsGlobstar token = t.keepsGlobstar token from rfl]
  split
  case isTrue => exact unmarked_demoteGlobstar ctx t
  case isFalse => rfl

/-- A token is added, which has no mark. -/
theorem unmarked_push (htoken : token.isPosix = false) :
    (t.push ctx token).unmarked = t.unmarked.push ctx token := by
  have hpushed (t : Tokenizer) : (t.pushed token).map Token.unmarked = t.unmarked.pushed token := by
    -- Text may be merged into the last token, the mark of which is lost either way.
    have hsame : token.unmarked = token := by
      rw [Token.unmarked, ← htoken]
    unfold pushed
    simp only [last_unmarked, Token.kind_unmarked, lastPlace_unmarked]
    split
    case isTrue => exact map_unmarked_modify _ _ fun _ => rfl
    case isFalse =>
      rw [List.map_append, tokens_unmarked, List.map_singleton]
      congr 2
      conv => rhs; rw [← hsame]
      rfl
  rw [push_eq_prepared, push_eq_prepared, ← unmarked_prepared, ← hpushed]
  rfl

theorem unmarked_pushText (value source : List Char) :
    (t.pushText ctx value source).unmarked = t.unmarked.pushText ctx value source :=
  unmarked_push ctx t rfl

/-! ### Groups -/

theorem unmarked_openParen : (t.openParen ctx).unmarked = t.unmarked.openParen ctx := by
  unfold openParen
  rw [unmarked_push ctx _ rfl, tokens_unmarked, List.length_map]
  rfl

theorem unmarked_openBrace : (t.openBrace ctx).unmarked = t.unmarked.openBrace ctx := by
  unfold openBrace
  rw [unmarked_push ctx _ rfl, tokens_unmarked, List.length_map]
  rfl

theorem unmarked_openExtglob (kind : ExtglobKind) (operator : Char) :
    (t.openExtglob ctx kind operator).unmarked = t.unmarked.openExtglob ctx kind operator := by
  let mark := Token.ofSource (.extglob kind) [operator]
    (if t.output.isEmpty then Fragment.oneChar else [])
  let paren : Token := { Token.ofSource .paren ['(']
    ((if ctx.options.capture then ['('] else []) ++ kind.opening) with isExtglob := true }
  let opened (s : Tokenizer) : Tokenizer :=
    { s with frames := .extglob ⟨kind, t.last.kind, t.tokens.length, []⟩ :: s.frames }
  have hpush : (((t.push ctx mark).skip 1).push ctx paren).unmarked =
      ((t.unmarked.push ctx mark).skip 1).push ctx paren := by
    rw [unmarked_push ctx _ rfl, ← unmarked_push ctx t rfl]
    rfl
  have hopened : t.unmarked.openExtglob ctx kind operator =
      opened (((t.unmarked.push ctx mark).skip 1).push ctx paren) := by
    unfold openExtglob
    simp only [last_unmarked, Token.kind_unmarked, tokens_unmarked, List.length_map,
      output_unmarked]
    rfl
  rw [hopened, ← hpush]
  rfl

theorem unmarked_comma : (t.comma ctx).unmarked = t.unmarked.comma ctx := by
  unfold comma
  rw [frames_unmarked, tokens_unmarked, List.length_map]
  cases t.frames with
  | nil => exact unmarked_push ctx t rfl
  | cons frame frames =>
    cases frame with
    | paren | extglob => exact unmarked_push ctx t rfl
    | brace frame => exact unmarked_push ctx _ rfl

theorem operandTexts?_unmarked (expectText : Bool) (tokens : List Token) :
    operandTexts? expectText (tokens.map Token.unmarked) = operandTexts? expectText tokens := by
  induction tokens generalizing expectText with
  | nil => rfl
  | cons token tokens ih =>
    rw [List.map_cons, operandTexts?, operandTexts?, ih, ih]
    rfl

theorem rangeSource?_unmarked (frame : BraceFrame) :
    t.unmarked.rangeSource? ctx frame = t.rangeSource? ctx frame := by
  unfold rangeSource?
  rw [tokens_unmarked, ← List.map_drop, operandTexts?_unmarked]

theorem joinSources_unmarked (tokens : List Token) :
    (tokens.map Token.unmarked).flatMap Token.source = tokens.flatMap Token.source := by
  rw [List.flatMap_map]
  rfl

theorem unmarked_literalBrace (frame : BraceFrame) :
    (t.literalBrace ctx frame).unmarked = t.unmarked.literalBrace ctx frame := by
  let change (token : Token) : Token :=
    { token with value := ['\\', '{'], source? := some ['\\', '{'] }
  have htokens : (t.tokens.modify frame.token change).map Token.unmarked =
      (t.tokens.map Token.unmarked).modify frame.token change :=
    map_unmarked_modify _ _ fun _ => rfl
  have hunbraced : (t.unbraced frame).unmarked = t.unmarked.unbraced frame := by
    unfold unbraced unmarked
    simp only [change] at htokens
    simp only [← htokens, ← List.map_drop, joinSources_unmarked]
  let brace : Token := .ofSource .brace ['\\', '}'] ['\\', '}']
  have hpush : ((t.unbraced frame).push ctx brace).unmarked = _ := unmarked_push ctx _ rfl
  rw [hunbraced] at hpush
  exact hpush

theorem unmarked_closeBrace : (t.closeBrace ctx).unmarked = t.unmarked.closeBrace ctx := by
  unfold closeBrace
  rw [frames_unmarked]
  split
  case h_2 => exact unmarked_pushText ctx t _ _
  case h_1 frame frames _ =>
    have hrange : ({ t.unmarked with frames } : Tokenizer).rangeSource? ctx frame =
        ({ t with frames } : Tokenizer).rangeSource? ctx frame :=
      rangeSource?_unmarked ctx { t with frames } frame
    dsimp only
    rw [hrange]
    split
    case h_1 =>
      rw [unmarked_push ctx _ rfl, tokens_unmarked, ← List.map_take]
      rfl
    case h_2 =>
      refine unmarked_ite Iff.rfl ?_ ?_
      · exact unmarked_push ctx _ rfl
      · exact unmarked_literalBrace ctx _ frame

/-! ### Wildcards -/

theorem unmarked_dot : (t.dot ctx).unmarked = t.unmarked.dot ctx := by
  unfold dot
  refine unmarked_ite (by simp) ?_ ?_
  · let change (token : Token) : Token := { token with
      kind := .dots, value := ['.', '.'], source? := some (Fragment.dot ++ Fragment.dot) }
    have hdots : (t.modifyLast change).unmarked = t.unmarked.modifyLast change :=
      unmarked_modifyLast t change fun _ => rfl
    show ((t.modifyLast change).unmarked.emit Fragment.dot).noteDots = _
    rw [hdots]
  · simp only [last_unmarked, Token.kind_unmarked]
    exact unmarked_push ctx t rfl

theorem unmarked_operator (kind : ExtglobKind) (c : Char) {other : Token}
    (hother : other.isPosix = false) :
    (t.operator ctx kind c other).unmarked = t.unmarked.operator ctx kind c other :=
  unmarked_ite Iff.rfl (unmarked_openExtglob ctx t kind c) (unmarked_push ctx t hother)

theorem unmarked_qmark : (t.qmark ctx).unmarked = t.unmarked.qmark ctx := by
  unfold qmark
  dsimp only
  refine unmarked_ite (by simp) (unmarked_openExtglob ctx t _ _) (unmarked_ite (by simp) ?_ ?_)
  · rw [last_unmarked]
    exact unmarked_push ctx t rfl
  · rw [last_unmarked]
    exact unmarked_push ctx t rfl

theorem unmarked_plainText (c : Char) : (t.plainText ctx c).unmarked = t.unmarked.plainText ctx c :=
  unmarked_pushText ctx _ _ _

theorem unmarked_bang : (t.bang ctx).unmarked = t.unmarked.bang ctx :=
  unmarked_ite Iff.rfl (unmarked_openExtglob ctx t _ _)
    (unmarked_ite Iff.rfl rfl (unmarked_plainText ctx t '!'))

theorem unmarked_slash : (t.slash ctx).unmarked = t.unmarked.slash ctx := by
  refine unmarked_ite (by rw [last_unmarked]; rfl) ?_ (unmarked_push ctx t rfl)
  unfold unmarked
  rw [List.map_dropLast]
  rfl

theorem unmarked_promote (place : Nat) (source : List Char) :
    (t.promote place source).unmarked = t.unmarked.promote place source :=
  unmarked_modify t place _ fun _ => rfl

theorem unmarked_globstarAfterSlash (slashPlace starPlace : Nat) (slash star : Token)
    (source : List Char) :
    (t.globstarAfterSlash slashPlace starPlace slash star source).unmarked =
      t.unmarked.globstarAfterSlash slashPlace starPlace slash.unmarked star.unmarked source := by
  unfold globstarAfterSlash
  dsimp only
  rw [unmarked_promote, setSource, unmarked_modify]
  · rfl
  · exact fun _ => rfl

theorem unmarked_absorbSlash : (t.absorbSlash ctx).unmarked = t.unmarked.absorbSlash ctx :=
  unmarked_push ctx _ rfl

theorem unmarked_globstarAt (star : Token) (priorPlace : Nat) (prior : Token)
    (beforePrior : Option TokenKind) :
    (t.globstarAt ctx star priorPlace prior beforePrior).unmarked =
      t.unmarked.globstarAt ctx star.unmarked priorPlace prior.unmarked beforePrior := by
  have hfirst : (t.unmarked.tokens.head?.getD .bos).source = (t.tokens.head?.getD .bos).source := by
    rw [tokens_unmarked, List.head?_map]
    cases t.tokens.head? <;> rfl
  -- The state once the segments that add nothing are read over.
  let skipped (t : Tokenizer) : Tokenizer :=
    { t.skip (redundantGlobstars t.rest t.rest.length) with globstar := true }
  let begun (t : Tokenizer) (source : List Char) : Tokenizer :=
    { skipped t with output := (t.tokens.head?.getD .bos).source ++ source }
  have hbegun (source : List Char) : (begun t source).unmarked = begun t.unmarked source := by
    simp only [begun]
    rw [hfirst]
    rfl
  have hpromote (source : List Char) :
      ((begun t source).promote t.lastPlace source).unmarked =
        (begun t.unmarked source).promote t.unmarked.lastPlace source := by
    rw [unmarked_promote, hbegun, lastPlace_unmarked]
  have hplace : (skipped t).unmarked.lastPlace = t.lastPlace := lastPlace_unmarked (skipped t)
  unfold globstarAt
  refine unmarked_ite (by rfl) (hpromote _) (unmarked_ite (by rfl) ?_ (unmarked_ite (by rfl) ?_
    (unmarked_ite (by rfl) ?_ ?_)))
  · rw [unmarked_globstarAfterSlash, lastPlace_unmarked]
    rfl
  · rw [unmarked_absorbSlash, unmarked_globstarAfterSlash, lastPlace_unmarked]
    rfl
  · rw [unmarked_absorbSlash]
    exact congrArg (absorbSlash ctx) (hpromote _)
  · rw [unmarked_promote, lastPlace_unmarked]
    rfl

theorem unmarked_secondStar : (t.secondStar ctx).unmarked = t.unmarked.secondStar ctx := by
  unfold secondStar
  refine unmarked_ite Iff.rfl rfl ?_
  simp only [last_unmarked, Token.previous_unmarked, tokenAt_unmarked, Token.kind_unmarked]
  exact unmarked_ite (by rfl) (unmarked_push ctx t rfl) (unmarked_globstarAt ctx t _ _ _ _)

theorem starGuard?_unmarked : t.unmarked.starGuard? ctx = t.starGuard? ctx := by
  unfold starGuard?
  rw [last_unmarked, lastPlace_unmarked]
  rfl

theorem unmarked_guardLast (guard : List Char) :
    (t.guardLast guard).unmarked = t.unmarked.guardLast guard := by
  unfold guardLast
  rw [unmarked_modifyLast]
  · rfl
  · exact fun _ => rfl

theorem unmarked_star : (t.star ctx).unmarked = t.unmarked.star ctx := by
  unfold star
  refine unmarked_ite (by simp) ?_ (unmarked_ite Iff.rfl (unmarked_openExtglob ctx t _ _)
    (unmarked_ite (by simp) (unmarked_secondStar ctx t) ?_))
  · let change (token : Token) : Token := { token with
      kind := .star, isStarRun := true, value := token.value ++ ['*'], source? := some ctx.star }
    have hrun : (t.modifyLast change).unmarked = t.unmarked.modifyLast change :=
      unmarked_modifyLast t change fun _ => rfl
    rw [← hrun]
    rfl
  · rw [unmarked_push ctx _ rfl, starGuard?_unmarked]
    split
    case h_1 => rw [unmarked_guardLast]
    case h_2 => rfl

/-! ### Characters of a bracket, and parentheses -/

theorem unmarked_appendClass (body : List Char) :
    (t.appendClass body).unmarked = t.unmarked.appendClass body := by
  unfold appendClass
  rw [unmarked_modifyLast]
  · rfl
  · exact fun _ => rfl

theorem unmarked_escape : (t.escape ctx).unmarked = t.unmarked.escape ctx := by
  unfold escape
  rw [rest_unmarked]
  split
  case h_1 => exact unmarked_pushText ctx t _ _
  case h_2 next _ _ =>
    refine unmarked_ite Iff.rfl rfl (unmarked_ite Iff.rfl ?_ (unmarked_ite Iff.rfl ?_ ?_))
    · exact unmarked_appendClass (t.skip 1) _
    · exact unmarked_pushText ctx (t.skip 1) _ _
    · exact unmarked_pushText ctx (t.skip 1) _ _

theorem unmarked_openBracket : t.unmarked.openBracket ctx = (t.openBracket ctx).map unmarked := by
  unfold openBracket
  rw [rest_unmarked]
  split
  case isTrue =>
    split
    case isTrue => rfl
    case isFalse => exact congrArg Except.ok (unmarked_push ctx t rfl).symm
  case isFalse =>
    exact congrArg Except.ok (unmarked_push ctx { t with inClass := true } rfl).symm

theorem unmarked_guarded (frame : ExtglobFrame) :
    (t.guarded ctx frame).unmarked = t.unmarked.guarded ctx frame := by
  unfold guarded
  refine unmarked_ite (by simp) ?_ rfl
  let change (token : Token) : Token :=
    { token with source? := some (ctx.dotGuard ++ token.source) }
  have hmodify : (t.modify frame.operator change).unmarked =
      t.unmarked.modify frame.operator change := unmarked_modify t _ _ fun _ => rfl
  show ((t.modify frame.operator change).unmarked).needRebuild = _
  rw [hmodify]

theorem unmarked_extglobClosed (frame : ExtglobFrame) (closing : List Char) :
    (t.extglobClosed ctx frame closing).unmarked = t.unmarked.extglobClosed ctx frame closing := by
  let noted (t : Tokenizer) : Tokenizer := { t with
    negatedExtglob := t.negatedExtglob ||
      (frame.kind = ExtglobKind.negate && frame.before = TokenKind.bos) }
  let paren : Token := { Token.ofSource .paren [')']
    (if ctx.options.capture then closing ++ [')'] else closing) with isExtglob := true }
  have hpush : (((noted t).guarded ctx frame).push ctx paren).unmarked =
      ((noted t.unmarked).guarded ctx frame).push ctx paren := by
    rw [unmarked_push ctx _ rfl, unmarked_guarded]
    rfl
  unfold extglobClosed
  refine unmarked_ite Iff.rfl ?_ hpush
  simp only [noted, paren] at hpush
  rw [← hpush, lastPlace_unmarked]
  rfl

theorem unmarked_closeParen (tail : List Char → Except Error (List Char)) :
    t.unmarked.closeParen ctx tail = (t.closeParen ctx tail).map unmarked := by
  unfold closeParen
  rw [frames_unmarked]
  split
  case h_1 frame frames _ =>
    let s : Tokenizer := { t with frames }
    show s.unmarked.closeExtglob ctx tail frame = (s.closeExtglob ctx tail frame).map unmarked
    rw [closeExtglob_eq_map, closeExtglob_eq_map,
      show s.unmarked.negateClosing ctx tail frame = s.negateClosing ctx tail frame from rfl]
    cases (if frame.kind = .negate then s.negateClosing ctx tail frame
        else .ok (frame.kind.closing [])) with
    | error => rfl
    | ok closing => exact congrArg Except.ok (unmarked_extglobClosed ctx s frame closing).symm
  case h_2 frame frames _ _ =>
    exact congrArg Except.ok (unmarked_push ctx { t with frames } rfl).symm
  case h_3 =>
    split
    case isTrue => rfl
    case isFalse => exact congrArg Except.ok (unmarked_push ctx t rfl).symm

/-! ### The end of the text -/

theorem unmarked_setSource (place : Nat) (source : List Char) :
    (t.setSource place source).unmarked = t.unmarked.setSource place source :=
  unmarked_modify t place _ fun _ => rfl

theorem unmarked_endFrame (frame : Frame) :
    (t.endFrame frame).unmarked = t.unmarked.endFrame frame := by
  cases frame with
  | paren place => exact unmarked_setSource t place _
  | extglob frame =>
    refine (unmarked_setSource _ _ _).trans (congrArg (setSource · _ _) ?_)
    exact unmarked_modify t _ _ fun _ => rfl
  | brace frame =>
    have hcommas (places : List Nat) (t : Tokenizer) :
        (places.foldl (fun t place => t.setSource place [',']) t).unmarked =
          places.foldl (fun t place => t.setSource place [',']) t.unmarked := by
      induction places generalizing t with
      | nil => rfl
      | cons place places ih => rw [List.foldl_cons, List.foldl_cons, ih, unmarked_setSource]
    refine (hcommas frame.commas _).trans ?_
    rw [unmarked_setSource]
    rfl

theorem unmarked_endFrames : t.unmarked.endFrames ctx = (t.endFrames ctx).map unmarked := by
  have hfold (frames : List Frame) (t : Tokenizer) :
      (frames.foldl endFrame t).unmarked = frames.foldl endFrame t.unmarked := by
    induction frames generalizing t with
    | nil => rfl
    | cons frame frames ih => rw [List.foldl_cons, List.foldl_cons, ih, unmarked_endFrame]
  unfold endFrames
  rw [frames_unmarked]
  split
  case h_1 => rfl
  case h_2 =>
    split
    case isTrue => rfl
    case isFalse =>
      rw [← hfold]
      rfl

theorem unmarked_endBracket : t.unmarked.endBracket ctx = (t.endBracket ctx).map unmarked := by
  let isBracket (token : Token) : Bool := token.kind = .bracket
  let escaped (token : Token) : Token := { token with value := Regex.escape token.value }
  have htokens := map_unmarked_modifyLastWhere isBracket escaped (fun _ => rfl) (fun _ => rfl)
    t.tokens
  unfold endBracket
  rw [inClass_unmarked]
  split
  case isTrue => rfl
  case isFalse =>
    split
    case isTrue => rfl
    case isFalse =>
      rw [tokens_unmarked, ← htokens]
      rfl

theorem unmarked_allowSlash : (t.allowSlash ctx).unmarked = t.unmarked.allowSlash ctx :=
  unmarked_ite (by simp) (unmarked_push ctx t rfl) rfl

/-- The end of the text is the same, and so is the source. -/
theorem unmarked_finish : t.unmarked.finish ctx = (t.finish ctx).map unmarked := by
  unfold finish
  rw [unmarked_endBracket]
  cases t.endBracket ctx with
  | error => rfl
  | ok s =>
    show s.unmarked.endFrames ctx >>= _ = (s.endFrames ctx >>= _).map unmarked
    rw [unmarked_endFrames]
    cases s.endFrames ctx with
    | error => rfl
    | ok s =>
      have hjoin : (s.allowSlash ctx).unmarked.joinSources = (s.allowSlash ctx).joinSources :=
        joinSources_unmarked _
      refine congrArg Except.ok
        (unmarked_ite (p := (s.allowSlash ctx).rebuild = true) ?_ ?_ ?_).symm
      · rw [← unmarked_allowSlash]
        rfl
      · rw [← unmarked_allowSlash, hjoin]
        rfl
      · exact unmarked_allowSlash ctx s

end

end Tokenizer

end PathGlob.Pattern
