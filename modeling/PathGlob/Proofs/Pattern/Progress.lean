import PathGlob.Proofs.Pattern.Ready

/-!
# `PathGlob.Proofs.Pattern.Progress`: reading never turns back

A step reads the character it is given and perhaps some of those behind it. What is left is an
end of what was left before, and the tokenizer counts how many characters that takes
(`Tokenizer.follows_step`). So once a character has been read, the tokenizer is never again at
the beginning of the text.
-/

set_option autoImplicit false

namespace PathGlob.Pattern.Tokenizer

/-- The second state stands behind the first one, by as many characters as it has read more. -/
def Follows (t t' : Tokenizer) : Prop :=
  ∃ k, t'.rest = t.rest.drop k ∧ t'.position = t.position + k

namespace Follows

variable {ctx : Context} {t s s' : Tokenizer}

theorem refl (t : Tokenizer) : t.Follows t := ⟨0, rfl, rfl⟩

theorem trans (h : t.Follows s) (h' : s.Follows s') : t.Follows s' := by
  obtain ⟨k, hrest, hposition⟩ := h
  obtain ⟨k', hrest', hposition'⟩ := h'
  exact ⟨k + k', by rw [hrest', hrest, List.drop_drop],
    by rw [hposition', hposition, Nat.add_assoc]⟩

theorem skip (h : t.Follows s) (k : Nat) : t.Follows (s.skip k) := h.trans ⟨k, rfl, rfl⟩

theorem of_same (hrest : s.rest = t.rest) (hposition : s.position = t.position) : t.Follows s :=
  ⟨0, hrest, hposition⟩

theorem push (h : t.Follows s) {token : Token} : t.Follows (s.push ctx token) :=
  h.trans (.of_same (push_rest ctx s token) (push_position ctx s token))

theorem pushText (h : t.Follows s) {value source : List Char} :
    t.Follows (s.pushText ctx value source) :=
  h.push

/-- A token is added to a state that has read no more. -/
theorem push_of_same (hrest : s.rest = t.rest) (hposition : s.position = t.position)
    {token : Token} : t.Follows (s.push ctx token) :=
  (of_same hrest hposition).push

theorem le_position (h : t.Follows s) : t.position ≤ s.position := by
  obtain ⟨k, -, hposition⟩ := h
  omega

theorem length_rest_le (h : t.Follows s) : s.rest.length ≤ t.rest.length := by
  obtain ⟨k, hrest, -⟩ := h
  rw [hrest, List.length_drop]
  omega

end Follows

/-! ### One step -/

section
variable (ctx : Context) (t : Tokenizer)

theorem follows_plainText (c : Char) : t.Follows (t.plainText ctx c) :=
  ((Follows.refl t).skip _).pushText

theorem follows_escape : t.Follows (t.escape ctx) := by
  have hskip := (Follows.refl t).skip 1
  unfold escape
  split
  case h_1 => exact (Follows.refl t).pushText
  case h_2 next _ _ =>
    split
    case isTrue => exact Follows.refl t
    case isFalse =>
      dsimp only
      split
      case isTrue => exact hskip.trans (.of_same (by rfl) (by rfl))
      case isFalse => split <;> exact hskip.pushText

theorem follows_slash : t.Follows (t.slash ctx) := by
  unfold slash
  split
  case isTrue => exact .of_same (by rfl) (by rfl)
  case isFalse => exact (Follows.refl t).push

theorem follows_dot : t.Follows (t.dot ctx) := by
  unfold dot
  split
  case isTrue => exact .of_same (by rfl) (by rfl)
  case isFalse => exact (Follows.refl t).push

theorem follows_openExtglob (kind : ExtglobKind) (c : Char) :
    t.Follows (t.openExtglob ctx kind c) :=
  ((((Follows.refl t).push).skip 1).push).trans (.of_same (by rfl) (by rfl))

theorem follows_closeBrace : t.Follows (t.closeBrace ctx) := by
  unfold closeBrace
  split
  case h_2 => exact (Follows.refl t).pushText
  case h_1 frame frames _ =>
    dsimp only
    generalize (if frame.dots && !frame.comma then _ else none : Option (List Char)) = range
    cases range with
    | some source => exact .push_of_same (by rfl) (by rfl)
    | none =>
      dsimp only
      split
      case isTrue => exact .push_of_same (by rfl) (by rfl)
      case isFalse => exact .push_of_same (by rfl) (by rfl)

theorem follows_comma : t.Follows (t.comma ctx) := by
  unfold comma
  split
  case h_1 => exact .push_of_same (by rfl) (by rfl)
  case h_2 => exact (Follows.refl t).push

theorem follows_qmark : t.Follows (t.qmark ctx) := by
  unfold qmark
  dsimp only
  split
  case isTrue => exact follows_openExtglob ctx t _ _
  case isFalse =>
    split
    case isTrue => exact (Follows.refl t).pushText
    case isFalse => exact (Follows.refl t).push

theorem follows_operator (kind : ExtglobKind) (c : Char) (token : Token) :
    t.Follows (t.operator ctx kind c token) := by
  unfold operator
  split
  case isTrue => exact follows_openExtglob ctx t _ _
  case isFalse => exact (Follows.refl t).push

/-- Only marks of negation are dropped along with one. -/
theorem mem_take_negations (text : List Char) : ∀ d ∈ text.take (negations text), d = '!' := by
  induction text with
  | nil => simp
  | cons c text ih =>
    unfold negations
    split
    case h_1 rest heq =>
      obtain ⟨rfl, rfl⟩ := List.cons.inj heq
      split
      case isTrue =>
        rw [Nat.add_comm, List.take_succ_cons]
        exact List.forall_mem_cons.mpr ⟨rfl, ih⟩
      case isFalse => simp
    case h_2 => simp

theorem follows_bang : t.Follows (t.bang ctx) := by
  unfold bang
  dsimp only
  split
  case isTrue => exact follows_openExtglob ctx t _ _
  case isFalse =>
    split
    case isTrue => exact ((Follows.refl t).skip _).trans (.of_same (by rfl) (by rfl))
    case isFalse => exact follows_plainText ctx t '!'

theorem follows_globstarAt (star : Token) (priorPlace : Nat) (prior : Token)
    (before : Option TokenKind) : t.Follows (t.globstarAt ctx star priorPlace prior before) := by
  have hskip := (Follows.refl t).skip (redundantGlobstars t.rest t.rest.length)
  -- The separator behind a globstar is the only further character.
  have habsorb {s : Tokenizer} (h : t.Follows s) : t.Follows (s.absorbSlash ctx) :=
    (h.skip 1).push
  unfold globstarAt
  dsimp only
  split
  case isTrue => exact hskip.trans (.of_same (by rfl) (by rfl))
  case isFalse =>
    split
    case isTrue => exact hskip.trans (.of_same (by rfl) (by rfl))
    case isFalse =>
      split
      case isTrue => exact habsorb (hskip.trans (.of_same (by rfl) (by rfl)))
      case isFalse =>
        split
        case isTrue => exact habsorb (hskip.trans (.of_same (by rfl) (by rfl)))
        case isFalse => exact hskip.trans (.of_same (by rfl) (by rfl))

theorem follows_star : t.Follows (t.star ctx) := by
  unfold star
  split
  case isTrue => exact .of_same (by rfl) (by rfl)
  case isFalse =>
    split
    case isTrue => exact follows_openExtglob ctx t _ _
    case isFalse =>
      split
      case isTrue =>
        unfold secondStar
        split
        case isTrue => exact Follows.refl t
        case isFalse =>
          dsimp only
          split
          case isTrue => exact (Follows.refl t).push
          case isFalse => exact follows_globstarAt ctx t _ _ _ _
      case isFalse =>
        dsimp only
        split
        case h_1 => exact .push_of_same (by rfl) (by rfl)
        case h_2 => exact (Follows.refl t).push

theorem follows_posixName : t.Follows t.posixName.1 := by
  unfold posixName
  dsimp only
  split
  case isTrue => exact Follows.refl t
  case isFalse =>
    split
    case isTrue => exact .of_same (by rfl) (by rfl)
    case isFalse =>
      split
      case h_1 => exact .of_same (by rfl) (by rfl)
      case h_2 before name _ =>
        split
        case h_1 => exact .of_same (by rfl) (by rfl)
        case h_2 members _ =>
          have hskip : t.Follows (t.skip 1) := (Follows.refl t).skip 1
          dsimp only
          have hname {s : Tokenizer} (h : t.Follows s) (needsChar : Bool) :
              t.Follows (if needsChar then s.setSource 0 Regex.Fragment.oneChar else s) := by
            cases needsChar
            · exact h
            · exact h.trans (.of_same (by rfl) (by rfl))
          refine hname ?_ _
          split
          case isTrue => exact hskip.trans (.of_same (by rfl) (by rfl))
          case isFalse => exact .of_same (by rfl) (by rfl)

theorem follows_inBracket (c : Char) : t.Follows (t.inBracket ctx c) := by
  unfold inBracket
  split
  case isTrue =>
    have hname := follows_posixName t
    dsimp only
    split
    case isTrue => exact hname
    case isFalse => exact hname.trans (.of_same (by rfl) (by rfl))
  case isFalse => exact .of_same (by rfl) (by rfl)

variable {ctx t} {t' : Tokenizer}

theorem follows_openBracket (h : t.openBracket ctx = .ok t') : t.Follows t' := by
  unfold openBracket at h
  split at h
  case isTrue =>
    split at h
    case isTrue => cases h
    case isFalse =>
      cases h
      exact (Follows.refl t).push
  case isFalse =>
    cases h
    exact .push_of_same (by rfl) (by rfl)

theorem follows_closeBracket (h : t.closeBracket ctx = .ok t') : t.Follows t' := by
  have hfinish (s : Tokenizer) (body : List Char) (isPosix : Bool) :
      s.Follows (s.finishBracket ctx body isPosix) := by
    unfold finishBracket
    dsimp only
    repeat' split
    all_goals exact .of_same (by rfl) (by rfl)
  unfold closeBracket at h
  split at h
  case isTrue =>
    cases h
    exact (Follows.refl t).pushText
  case isFalse =>
    split at h
    case isTrue =>
      split at h
      case isTrue => cases h
      case isFalse =>
        cases h
        exact (Follows.refl t).pushText
    case isFalse =>
      cases h
      have hclosed (closing : List Char) :
          t.Follows (({ t with inClass := false } : Tokenizer).appendClass closing) :=
        .of_same (by rfl) (by rfl)
      exact (hclosed _).trans (hfinish _ _ _)

section
variable {tail : List Char → Except Error (List Char)}

theorem follows_closeExtglob {frame : ExtglobFrame} (h : t.closeExtglob ctx tail frame = .ok t') :
    t.Follows t' := by
  let s : Tokenizer := { t with negatedExtglob := t.negatedExtglob ||
    (frame.kind = ExtglobKind.negate && frame.before = TokenKind.bos) }
  have hguarded : t.Follows (s.guarded ctx frame) := by
    unfold guarded
    dsimp only
    split <;> exact .of_same (by rfl) (by rfl)
  -- What closes the group makes no difference.
  have hclosed (paren : Token) (optional : Bool) : t.Follows
      (let s := (s.guarded ctx frame).push ctx paren
        if optional then { s with optionalGroup := some s.lastPlace } else s) := by
    cases optional
    · exact hguarded.push
    · exact hguarded.push.trans (.of_same (by rfl) (by rfl))
  unfold closeExtglob at h
  dsimp only at h
  split at h
  case isTrue =>
    obtain ⟨closing, -, h⟩ := bind_eq_ok h
    cases h
    exact hclosed _ _
  case isFalse =>
    cases h
    exact hclosed _ _

theorem follows_closeParen (h : t.closeParen ctx tail = .ok t') : t.Follows t' := by
  unfold closeParen at h
  split at h
  case h_1 frame frames _ =>
    have hframes : t.Follows { t with frames } := .of_same (by rfl) (by rfl)
    exact hframes.trans (follows_closeExtglob h)
  case h_2 =>
    cases h
    exact .push_of_same (by rfl) (by rfl)
  case h_3 =>
    split at h
    case isTrue => cases h
    case isFalse =>
      cases h
      exact (Follows.refl t).push

/-- A step reads on. -/
theorem follows_step {c : Char} (h : step ctx tail t c = .ok t') : t.Follows t' := by
  have hok {s : Tokenizer} (hs : (.ok s : Except Error Tokenizer) = .ok t')
      (hfollows : t.Follows s) : t.Follows t' := by
    cases hs
    exact hfollows
  unfold step at h
  split at h
  case isTrue => exact hok h (.refl t)
  case isFalse =>
    split at h
    case isTrue => exact hok h (follows_escape ctx t)
    case isFalse =>
      split at h
      case isTrue => exact hok h (follows_inBracket ctx t c)
      case isFalse =>
        split at h
        case isTrue => exact hok h (Follows.refl t).pushText
        case isFalse =>
          split at h
          case h_1 =>
            refine hok h ?_
            split
            case isTrue => exact .push_of_same (by rfl) (by rfl)
            case isFalse => exact .of_same (by rfl) (by rfl)
          case h_2 => exact hok h (.push_of_same (by rfl) (by rfl))
          case h_3 => exact follows_closeParen h
          case h_4 => exact follows_openBracket h
          case h_5 => exact follows_closeBracket h
          case h_6 =>
            refine hok h ?_
            split
            case isTrue => exact follows_plainText ctx t '{'
            case isFalse => exact .push_of_same (by rfl) (by rfl)
          case h_7 => exact hok h (follows_closeBrace ctx t)
          case h_8 => exact hok h (Follows.refl t).pushText
          case h_9 => exact hok h (follows_comma ctx t)
          case h_10 => exact hok h (follows_slash ctx t)
          case h_11 => exact hok h (follows_dot ctx t)
          case h_12 => exact hok h (follows_qmark ctx t)
          case h_13 => exact hok h (follows_bang ctx t)
          case h_14 | h_15 => exact hok h (follows_operator ctx t _ _ _)
          case h_16 => exact hok h (follows_star ctx t)
          case h_17 => exact hok h (follows_plainText ctx t c)

/-- The number of steps is no bound if there are as many as characters. -/
theorem rest_run {n : Nat} (hn : t.rest.length ≤ n) (h : run ctx tail n t = .ok t') :
    t'.rest = [] := by
  induction n generalizing t with
  | zero =>
    cases h
    exact List.length_eq_zero_iff.mp (Nat.le_zero.mp hn)
  | succ n ih =>
    rw [run] at h
    split at h
    case h_1 hrest =>
      cases h
      exact hrest
    case h_2 c rest hrest =>
      obtain ⟨next, hstep, hrun⟩ := bind_eq_ok h
      have hnext := (follows_step hstep).length_rest_le
      rw [hrest, List.length_cons] at hn
      exact ih (Nat.le_trans hnext (Nat.le_of_succ_le_succ hn)) hrun

/-- More steps than there are characters make no difference. -/
theorem run_eq_run {n m : Nat} (hn : t.rest.length ≤ n) (hm : t.rest.length ≤ m) :
    run ctx tail n t = run ctx tail m t := by
  induction n generalizing t m with
  | zero =>
    have hrest := List.length_eq_zero_iff.mp (Nat.le_zero.mp hn)
    cases m <;> simp [run, hrest]
  | succ n ih =>
    cases m with
    | zero =>
      have hrest := List.length_eq_zero_iff.mp (Nat.le_zero.mp hm)
      simp [run, hrest]
    | succ m =>
      rw [run, run]
      cases hrest : t.rest with
      | nil => rfl
      | cons c rest =>
        rw [hrest, List.length_cons] at hn hm
        dsimp only
        cases hstep : step ctx tail { t with rest, position := t.position + 1 } c with
        | error => rfl
        | ok next =>
          have hnext : next.rest.length ≤ rest.length := (follows_step hstep).length_rest_le
          exact ih (by omega) (by omega)

end

end

end PathGlob.Pattern.Tokenizer
