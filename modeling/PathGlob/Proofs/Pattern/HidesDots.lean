import PathGlob.Proofs.Pattern.Starred

/-!
# `PathGlob.Proofs.Pattern.HidesDots`: translations that match no hidden segment

Every tame character adds a source that leads past no hidden segment (`Hides.step`), as long as
groups are extended groups, hold no separators and are closed again. A parenthesis of another kind
would stay among the tokens to the end.

A separator in a group could be passed over together with the group, and the group may be followed
by a wildcard without a guard. What a group that stays open has taken for alternatives becomes
text, without the guards that the group would have got.
-/

set_option autoImplicit false

namespace PathGlob.Pattern

open Regex Cursor

/-- With so many groups open, the text closes them and the groups that it opens itself. There is no
separator within a group. -/
def closesGroups : Nat → List Char → Bool
  | depth, [] => depth = 0
  | depth, '(' :: rest => closesGroups (depth + 1) rest
  | depth, ')' :: rest => 0 < depth && closesGroups (depth - 1) rest
  | depth, '/' :: rest => depth = 0 && closesGroups depth rest
  | depth, _ :: rest => closesGroups depth rest

theorem closesGroups_cons {c : Char} (h : c ∉ ['(', ')', '/']) (depth : Nat) (rest : List Char) :
    closesGroups depth (c :: rest) = closesGroups depth rest := by
  simp only [List.mem_cons, List.not_mem_nil, or_false, not_or] at h
  rw [closesGroups]
  · exact h.1
  · exact h.2.1
  · exact h.2.2

theorem closesGroups_tail {depth : Nat} {c : Char} {rest : List Char} (h : c ∉ ['(', ')'])
    (hcloses : closesGroups depth (c :: rest) = true) : closesGroups depth rest = true := by
  by_cases hslash : c = '/'
  · rw [hslash, closesGroups, Bool.and_eq_true] at hcloses
    exact hcloses.2
  · rwa [closesGroups_cons (by simp_all)] at hcloses

/-- Reading on past no parenthesis. -/
theorem closesGroups_drop {depth n : Nat} {text : List Char}
    (h : ∀ c ∈ text.take n, c ∉ ['(', ')']) (hcloses : closesGroups depth text = true) :
    closesGroups depth (text.drop n) = true := by
  induction text generalizing n with
  | nil => simpa using hcloses
  | cons c text ih =>
    cases n with
    | zero => exact hcloses
    | succ n =>
      rw [List.take_succ_cons, List.forall_mem_cons] at h
      exact ih h.2 (closesGroups_tail h.1 hcloses)

namespace Tokenizer

variable {ctx : Context} {t t' : Tokenizer}

/-! ### What a star reads -/

theorem length_frames_push (ctx : Context) (t : Tokenizer) (token : Token) :
    (t.push ctx token).frames.length = t.frames.length := by
  rw [push_frames]
  unfold noted
  split
  · rfl
  · unfold noteInner
    show (modifyFrame _ t.frames).length = _
    induction t.frames with
    | nil => rfl
    | cons frame frames ih =>
      cases frame with
      | extglob frame => rfl
      | paren | brace => exact congrArg (· + 1) ih

/-- The groups that are open are closed in what is left of the text. -/
def closesRest (t : Tokenizer) : Bool := closesGroups t.frames.length t.rest

theorem closesRest_push (ctx : Context) (t : Tokenizer) (token : Token) :
    (t.push ctx token).closesRest = t.closesRest := by
  rw [closesRest, closesRest, length_frames_push, push_rest]

theorem closesRest_skip {n : Nat} (h : ∀ c ∈ t.rest.take n, c ∉ ['(', ')'])
    (hcloses : t.closesRest = true) : (t.skip n).closesRest = true :=
  closesGroups_drop h hcloses

/-- No group is open where a separator is next. -/
theorem frames_eq_nil (hcloses : t.closesRest = true) (hrest : t.rest.head? = some '/') :
    t.frames = [] := by
  obtain ⟨more, hmore⟩ := List.head?_eq_some_iff.mp hrest
  rw [closesRest, hmore, closesGroups, Bool.and_eq_true, decide_eq_true_eq] at hcloses
  exact List.eq_nil_of_length_eq_zero hcloses.1

theorem closesRest_absorbSlash (hrest : t.rest.head? = some '/') (hcloses : t.closesRest = true) :
    (t.absorbSlash ctx).closesRest = true := by
  rw [absorbSlash, closesRest_push]
  refine closesRest_skip (fun c hc => ?_) hcloses
  obtain ⟨more, hmore⟩ := List.head?_eq_some_iff.mp hrest
  rw [hmore] at hc
  simp_all

section
variable (star : Token) (priorPlace : Nat) (prior : Token) (before : Option TokenKind)

theorem closesRest_globstarAt (hcloses : t.closesRest = true) :
    (t.globstarAt ctx star priorPlace prior before).closesRest = true := by
  have hskip : (t.skip (redundantGlobstars t.rest t.rest.length)).closesRest = true := by
    refine closesRest_skip (fun c hc => ?_) hcloses
    obtain rfl | rfl := mem_take_redundantGlobstars _ _ c hc <;> simp
  unfold globstarAt
  dsimp only
  split
  case isTrue => exact hskip
  case isFalse =>
    split
    case isTrue => exact hskip
    case isFalse =>
      split
      case isTrue hbetween =>
        rw [Bool.and_eq_true, decide_eq_true_eq] at hbetween
        exact closesRest_absorbSlash hbetween.2 hskip
      case isFalse =>
        split
        case isTrue hfirst =>
          rw [Bool.and_eq_true, decide_eq_true_eq, decide_eq_true_eq] at hfirst
          exact closesRest_absorbSlash hfirst.2 hskip
        case isFalse => exact hskip

theorem kind_last_globstarAt (hne : t.tokens ≠ []) :
    (t.globstarAt ctx star priorPlace prior before).last.kind = .globstar ∨
      (t.globstarAt ctx star priorPlace prior before).last.kind = .slash := by
  have hpromote {s : Tokenizer} (hs : s.tokens.length = t.tokens.length) (source : List Char) :
      (s.promote t.lastPlace source).last.kind = .globstar := by
    have := last_promote (t := s) (by rwa [← List.length_pos_iff, hs, List.length_pos_iff]) source
    rwa [lastPlace, hs] at this
  have hafter {s : Tokenizer} (hs : s.tokens.length = t.tokens.length) (source : List Char) :
      (s.globstarAfterSlash priorPlace t.lastPlace prior star source).last.kind = .globstar := by
    unfold globstarAfterSlash
    exact hpromote ((List.length_modify _ _ _).trans hs) _
  have habsorb {s : Tokenizer} (hs : s.last.kind = .globstar) :
      (s.absorbSlash ctx).last.kind = .slash := by
    refine kind_last_push (t := s.skip 1) (fun hnil => ?_) ctx absorbed
    rw [last, show s.tokens = [] from hnil] at hs
    exact absurd hs (by simp)
  unfold globstarAt
  dsimp only
  split
  case isTrue => exact .inl (hpromote rfl _)
  case isFalse =>
    split
    case isTrue => exact .inl (hafter rfl _)
    case isFalse =>
      split
      case isTrue => exact .inr (habsorb (hafter rfl _))
      case isFalse =>
        split
        case isTrue => exact .inr (habsorb (hpromote rfl _))
        case isFalse => exact .inl (hpromote rfl _)

end

/-- A star that opens no group leaves a star behind, a globstar, or the separator after one. -/
theorem kind_last_star (hne : t.tokens ≠ [])
    (hextglob : t.starOpensExtglob ctx = false) :
    (t.star ctx).last.kind = .star ∨ (t.star ctx).last.kind = .globstar ∨
      (t.star ctx).last.kind = .slash := by
  unfold star
  split
  case isTrue =>
    refine .inl ?_
    show (t.modifyLast _).last.kind = .star
    rw [last_modifyLast hne]
  case isFalse hlast =>
    rw [if_neg (not_opens_of_starOpensExtglob hextglob hlast)]
    split
    case isTrue hstar =>
      unfold secondStar
      split
      case isTrue => exact .inl hstar
      case isFalse =>
        dsimp only
        split
        case isTrue => exact .inl (kind_last_push hne ctx _)
        case isFalse => exact .inr (kind_last_globstarAt _ _ _ _ hne)
    case isFalse =>
      dsimp only
      refine .inl (kind_last_push ?_ ctx _)
      split
      · rw [guardLast, modifyLast, modify, emit, ← List.length_pos_iff, List.length_modify,
          List.length_pos_iff]
        exact hne
      · exact hne

theorem closesRest_star
    (hextglob : t.starOpensExtglob ctx = false) (hcloses : t.closesRest = true) :
    (t.star ctx).closesRest = true := by
  unfold star
  split
  case isTrue => exact hcloses
  case isFalse hlast =>
    rw [if_neg (not_opens_of_starOpensExtglob hextglob hlast)]
    split
    case isTrue =>
      unfold secondStar
      split
      case isTrue => exact hcloses
      case isFalse =>
        dsimp only
        split
        case isTrue => rwa [closesRest_push]
        case isFalse => exact closesRest_globstarAt _ _ _ _ hcloses
    case isFalse =>
      dsimp only
      rw [closesRest_push]
      split
      · exact hcloses
      · exact hcloses

/-! ### What each character adds -/

/-- The sources so far lead past no hidden segment, and the open groups are closed later on. Behind
the parenthesis that opens a group no question mark is next. -/
structure Hides (ctx : Context) (t : Tokenizer) : Prop where
  sheltered : ∃ outer inner, t.Sheltered ctx (t.rest ≠ []) t.last.kind.exit outer inner ∧
    (inner = [] → t.rest.head? ≠ some '?')
  closes : t.closesRest = true
  bos : t.last.kind = .bos → t.position = t.start

theorem Hides.of_last (kind : TokenKind) {outer inner : List Token}
    (h : t.Sheltered ctx True kind.exit outer inner) (hlast : t.last.kind = kind)
    (hbos : kind ≠ .bos) (hinner : inner = [] → t.rest.head? ≠ some '?')
    (hcloses : t.closesRest = true) : t.Hides ctx where
  sheltered := ⟨outer, inner, by rw [hlast]; exact h.mono fun _ => trivial, hinner⟩
  closes := hcloses
  bos heq := absurd (hlast.symm.trans heq) hbos

section
variable {outer inner : List Token} (hhides : ctx.HidesDots)
  (h : t.Sheltered ctx True t.last.kind.exit outer inner) (hne : t.tokens ≠ [])
include hhides h hne

/-- A token that stands for a character, or for a piece of the source language. -/
theorem Sheltered.hides_push {token : Token}
    (hkind : token.kind ∈ [.text, .comma, .plus, .qmark]) (hvalue : '.' ∉ token.value)
    (hleads : ∀ source,
      GuidesBody ctx.options.noCase (entry t.frames) Safe source t.last.kind.exit →
      GuidesBody ctx.options.noCase (entry t.frames) Safe (source ++ token.source) Safe)
    (hcloses : t.closesRest = true) : (t.push ctx token).Hides ctx := by
  have hplain {kind : TokenKind} (hnot : kind ∉ [.text, .comma, .plus, .qmark]) :
      token.kind ≠ kind := fun heq => hnot (heq ▸ hkind)
  have hexit : token.kind.beginsSegment = false := by
    simp only [List.mem_cons, List.not_mem_nil, or_false] at hkind
    obtain hkind | hkind | hkind | hkind := hkind <;> rw [hkind] <;> rfl
  obtain ⟨inner', hinner, h'⟩ := h.push hhides hne hleads isExit_safe hvalue (fun _ => hexit)
    (hplain (by simp)) (hplain (by simp)) (fun hslash => absurd hslash (hplain (by simp)))
    fun hstar => absurd hstar (not_or.mpr ⟨hplain (by simp), hplain (by simp)⟩)
  rw [← TokenKind.exit_of_not_beginsSegment hexit] at h'
  exact .of_last token.kind h' (kind_last_push hne ctx token) (hplain (by simp))
    (fun hnil => absurd hnil hinner) (by rwa [closesRest_push])

/-- Text that is no dot and no separator. -/
theorem Sheltered.hides_escape {token : Token} (text : List Char)
    (hkind : token.kind ∈ [.text, .comma, .plus, .qmark]) (hvalue : '.' ∉ token.value)
    (hsource : token.source = Regex.escape text) (hnil : text ≠ [])
    (htext : ∀ c ∈ text, c ≠ '.' ∧ c ≠ '/') (hcloses : t.closesRest = true) :
    (t.push ctx token).Hides ctx := by
  refine h.hides_push hhides hne hkind hvalue (fun source hbody => hbody.append ?_) hcloses
  rw [hsource]
  exact (guides_escape hnil htext).mono t.last.kind.isExit_exit.2 fun _ => id

theorem Sheltered.hides_plainText {c : Char} (hc : c ∈ ['{', '$', '^'] ∨ isSpecial c = false)
    (hcloses : t.closesRest = true) : (t.plainText ctx c).Hides ctx := by
  let run := t.rest.takeWhile fun d => !isSpecial d
  have hrun (d : Char) (hd : d ∈ run) : isSpecial d = false := isSpecial_of_mem_run hd
  have hplain {d : Char} (hd : isSpecial d = false) : d ≠ '.' ∧ d ≠ '/' ∧ d ∉ ['(', ')'] := by
    refine ⟨?_, ?_, ?_⟩
    · rintro rfl
      exact absurd hd (by decide)
    · rintro rfl
      exact absurd hd (by decide)
    · intro hmem
      simp only [List.mem_cons, List.not_mem_nil, or_false] at hmem
      obtain rfl | rfl := hmem <;> exact absurd hd (by decide)
  have hchars : ∀ d ∈ c :: run, d ≠ '.' ∧ d ≠ '/' := by
    refine List.forall_mem_cons.mpr ⟨?_, fun d hd => ?_⟩
    · obtain hc | hc := hc
      · simp only [List.mem_cons, List.not_mem_nil, or_false] at hc
        obtain rfl | rfl | rfl := hc <;> decide
      · exact ⟨(hplain hc).1, (hplain hc).2.1⟩
    · exact ⟨(hplain (hrun d hd)).1, (hplain (hrun d hd)).2.1⟩
  have hsource : (if c = '$' || c = '^' || c = '{' then ['\\', c] else [c]) ++ run =
      Regex.escape (c :: run) := by
    have hfirst : (if c = '$' || c = '^' || c = '{' then ['\\', c] else [c]) = escapeChar c := by
      obtain hc | hc := hc
      · simp only [List.mem_cons, List.not_mem_nil, or_false] at hc
        obtain rfl | rfl | rfl := hc <;> decide
      · rw [escapeChar_of_not_isSpecial hc, if_neg]
        rintro hanchor
        have : c = '$' ∨ c = '^' ∨ c = '{' := by simpa [or_assoc] using hanchor
        obtain rfl | rfl | rfl := this <;> exact absurd hc (by decide)
    rw [hfirst, Regex.escape, List.flatMap_cons]
    exact congrArg _ (escape_plain hrun).symm
  have htake : t.rest.take run.length = run := by
    have := List.takeWhile_append_dropWhile (p := fun d => !isSpecial d) (l := t.rest)
    calc t.rest.take run.length
        = (run ++ t.rest.dropWhile fun d => !isSpecial d).take run.length := by rw [this]
      _ = run := List.take_left
  have hskip : (t.skip run.length).closesRest = true :=
    closesRest_skip (fun d hd => (hplain (hrun d (htake ▸ hd))).2.2) hcloses
  refine Sheltered.hides_escape (t := t.skip run.length) hhides
    (h.of_same rfl ⟨rfl, rfl⟩) hne (c :: run) (by simp) ?_ hsource (List.cons_ne_nil _ _) hchars
    hskip
  exact fun hmem => (hchars '.' hmem).1 rfl

/-- A separator, outside of all groups. -/
theorem Sheltered.hides_slash (hframes : t.frames = []) (hcloses : t.closesRest = true) :
    (t.slash ctx).Hides ctx := by
  have hslash : t.slash ctx =
      t.push ctx (.ofSource .slash ['/'] (Fragment.slash ctx.windows)) := by
    rw [Tokenizer.slash, if_neg (by simp [h.dot])]
  have hguides : ctx.Guides Clear (Fragment.slash ctx.windows) Clear := guides_slash
  rw [hslash]
  have hleads (source : List Char) (hbody : GuidesBody ctx.options.noCase (entry t.frames) Safe
      source t.last.kind.exit) : GuidesBody ctx.options.noCase (entry t.frames) Safe
        (source ++ (Token.ofSource .slash ['/'] (Fragment.slash ctx.windows)).source) Clear :=
    hbody.append (hguides.mono t.last.kind.isExit_exit.2 fun _ => id)
  obtain ⟨inner', hinner, h'⟩ := h.push hhides hne hleads isExit_clear
    (by simp [Token.ofSource]) (fun hopen => absurd hframes hopen) (by simp) (by simp)
    (fun _ => hguides) (by simp)
  exact .of_last .slash h' (kind_last_push hne ctx _) (by simp)
    (fun hnil => absurd hnil hinner) (by rwa [closesRest_push])

/-- A bar, which separates alternatives within a group. -/
theorem Sheltered.hides_bar (hcloses : t.closesRest = true) :
    (t.pushText ctx ['|'] (if t.inParen then ['|'] else ['\\', '|'])).Hides ctx := by
  by_cases hframes : t.frames = []
  · have hparen : t.inParen = false := by rw [inParen, hframes]; rfl
    rw [hparen]
    exact h.hides_escape hhides hne ['|'] (by simp) (by simp [Token.text, Token.ofSource])
      (by decide) (by simp) (by simp) hcloses
  · obtain ⟨frame, others, hcons⟩ := List.exists_cons_of_ne_nil hframes
    have hextglob := h.enclosed.isExtglob frame (hcons ▸ List.mem_cons_self)
    have hparen : t.inParen = true := by
      rw [inParen, hcons, List.any_cons]
      cases frame with
      | extglob frame => rfl
      | paren | brace => exact absurd hextglob (by simp [Frame.isExtglob])
    have hentry : entry t.frames = Safe := by rw [entry, hcons]; rfl
    have hexit : t.last.kind.exit = Safe :=
      TokenKind.exit_of_not_beginsSegment (h.inside hframes)
    rw [hparen]
    refine h.hides_push hhides hne (by simp) (by simp [Token.text, Token.ofSource])
      (fun source hbody => ?_) hcloses
    rw [hexit] at hbody
    have := hbody.bar
    rwa [hentry] at this ⊢

/-- An operator with its parenthesis. -/
theorem Sheltered.hides_openExtglob (hopens : t.ahead 0 = some '(' ∧ t.ahead 1 ≠ some '?')
    {kind : ExtglobKind} (hkind : kind ≠ .negate) {operator : Char} (hoperator : operator ≠ '.')
    (hcloses : t.closesRest = true) : (t.openExtglob ctx kind operator).Hides ctx := by
  obtain ⟨outer', h', hlength, hlast⟩ := h.openExtglob hhides hne hkind hoperator
  have hrest : (t.openExtglob ctx kind operator).rest = t.rest.drop 1 := by
    show (Tokenizer.push ctx _ _).rest = _
    rw [push_rest]
    show (Tokenizer.push ctx t _).rest.drop 1 = _
    rw [push_rest]
  obtain ⟨hparen, hquestion⟩ := hopens
  refine .of_last .paren h' hlast (by simp) (fun _ => ?_) ?_
  · rw [hrest, List.head?_drop]
    exact hquestion
  · obtain ⟨more, hmore⟩ := List.head?_eq_some_iff.mp
      (show t.rest.head? = some '(' by rwa [List.head?_eq_getElem?])
    rw [closesRest, hmore, closesGroups] at hcloses
    rw [closesRest, hlength, hrest, hmore]
    exact hcloses

/-- A character that opens a group if a parenthesis follows it. -/
theorem Sheltered.hides_operator {kind : ExtglobKind} (hkind : kind ≠ .negate) {operator : Char}
    (hoperator : operator ≠ '.') {token : Token} (hpush : (t.push ctx token).Hides ctx)
    (hcloses : t.closesRest = true) : (t.operator ctx kind operator token).Hides ctx := by
  unfold Tokenizer.operator
  split
  case isTrue hopens =>
    rw [opensExtglob, Bool.and_eq_true, Bool.and_eq_true, decide_eq_true_eq,
      decide_eq_true_eq] at hopens
    exact h.hides_openExtglob hhides hne ⟨hopens.1.2, hopens.2⟩ hkind hoperator hcloses
  case isFalse => exact hpush

/-- A question mark. Behind a group that has been closed it may be a quantifier. -/
theorem Sheltered.hides_qmark (hinner : inner ≠ []) (hcloses : t.closesRest = true) :
    (t.qmark ctx).Hides ctx := by
  have hescaped := h.hides_escape hhides hne ['?']
    (show (Token.text ['?'] ['\\', '?']).kind ∈ _ by simp) (by simp [Token.text, Token.ofSource])
    (by decide) (by simp) (by simp) hcloses
  unfold Tokenizer.qmark
  dsimp only
  split
  case isTrue hopens =>
    rw [Bool.and_eq_true, opensExtglob, Bool.and_eq_true, Bool.and_eq_true, decide_eq_true_eq,
      decide_eq_true_eq] at hopens
    exact h.hides_openExtglob hhides hne ⟨hopens.2.1.2, hopens.2.2⟩ (by simp) (by simp) hcloses
  case isFalse =>
    split
    case isTrue hparen =>
      split
      case isTrue => exact hescaped
      case isFalse =>
        -- The group is repeated as a whole.
        obtain ⟨earlier, piece, hsources, hearlier, hpiece⟩ := h.closed trivial hinner hparen
        have hprepared : t.prepared ctx (.text ['?'] ['?']) = t := by
          rw [Tokenizer.prepared, if_neg (by simp [hparen])]
        have hleads : GuidesBody ctx.options.noCase (entry t.frames) Safe
            (inner.flatMap Token.source ++ (Token.text ['?'] ['?']).source) Safe := by
          rw [hsources, List.append_assoc]
          exact hearlier.append (hpiece.quantified (by simp)).guides
        obtain ⟨inner', hinner', h'⟩ := h.push_of_leads hne hprepared hleads isExit_safe
          (by simp [Token.text, Token.ofSource]) (fun _ => rfl) (by simp) (by simp) (by simp)
          (by simp)
        have hcloses' := (closesRest_push ctx t (.text ['?'] ['?'])).trans hcloses
        exact .of_last .text h' (kind_last_push hne ctx _) (by simp)
          (fun hnil => absurd hnil hinner') hcloses'
    case isFalse =>
      refine h.hides_push hhides hne (by simp) (by simp [Token.ofSource]) (fun source hbody => ?_)
        hcloses
      by_cases hbegins : t.last.kind.beginsSegment = true
      · simp only [hbegins, hhides.dot, Bool.not_true, Bool.false_eq_true, if_false]
        rw [TokenKind.exit, if_pos hbegins] at hbody
        exact hbody.append guides_anyCharNoDot
      · rw [Bool.not_eq_true] at hbegins
        simp only [hbegins, Bool.not_false, if_true]
        rw [TokenKind.exit_of_not_beginsSegment hbegins] at hbody
        exact hbody.append guides_anyChar

/-- A star. -/
theorem Sheltered.hides_star (hready : t.Ready ctx t.frames)
    (hplace : t.last.kind = .bos ↔ t.place = t.start) (hcloses : t.closesRest = true) :
    (t.star ctx).Hides ctx := by
  cases hextglob : t.starOpensExtglob ctx with
  | true =>
    rw [star_of_starOpensExtglob hextglob]
    simp only [starOpensExtglob, Bool.and_eq_true, decide_eq_true_eq] at hextglob
    refine h.hides_openExtglob hhides hne ⟨hextglob.2.1.2, fun hquestion => ?_⟩ (by simp) (by simp)
      hcloses
    rw [hquestion] at hextglob
    exact absurd hextglob.2.2 (by simp)
  | false =>
    obtain ⟨inner', h'⟩ := h.readStar hhides hready hplace (frames_eq_nil hcloses) hextglob
    have hkind := kind_last_star hne hextglob
    have hne' {kind : TokenKind} (hnot : kind ∉ [.star, .globstar, .slash]) :
        (t.star ctx).last.kind ≠ kind := by
      rintro rfl
      exact hnot (by simpa using hkind)
    refine ⟨⟨outer, inner', h', fun hnil => ?_⟩, closesRest_star hextglob hcloses,
      fun hbos => absurd hbos (hne' (by simp))⟩
    have htokens : (t.star ctx).tokens ≠ [] := fun hempty =>
      (hne' (by simp) : (t.star ctx).last.kind ≠ .bos) (by rw [last, hempty]; rfl)
    exact absurd (h'.kind_last_of_inner_eq_nil htokens hnil) (hne' (by simp))

end

/-! ### Steps and runs -/

section
variable {tail : List Char → Except Error (List Char)} {c : Char} {rest : List Char}

/-- A tame character leads past no hidden segment, unless it is a parenthesis that belongs to no
extended group. -/
theorem Hides.step (hhides : ctx.HidesDots) (htame : t.Tame ctx) (h : t.Hides ctx)
    (hrest : t.rest = c :: rest) (hstep : TameStep ctx tail (t.taking rest) c t') :
    t'.Hides ctx ∨ t'.hasRawParen = true := by
  obtain ⟨outer, inner, hsheltered, hinner⟩ := h.sheltered
  have hready := htame.ready (by simp [hrest])
  have hne : (t.taking rest).tokens ≠ [] := hready.settled.ne_nil
  have hs : (t.taking rest).Sheltered ctx True (t.taking rest).last.kind.exit outer inner :=
    (hsheltered.mono fun _ => by simp [hrest]).of_same rfl ⟨rfl, rfl⟩
  have hcloses := h.closes
  rw [closesRest, hrest] at hcloses
  have hrests (hc : c ∉ ['(', ')']) : (t.taking rest).closesRest = true :=
    closesGroups_tail hc hcloses
  -- Most characters add a token that stands for themselves.
  have hchar {token : Token} (hc : c ∉ ['(', ')', '.', '/'])
      (hkind : token.kind ∈ [.text, .comma, .plus, .qmark]) (hvalue : token.value = [c])
      (hsource : token.source = escapeChar c) : ((t.taking rest).push ctx token).Hides ctx := by
    simp only [List.mem_cons, List.not_mem_nil, or_false, not_or] at hc
    refine hs.hides_escape hhides hne [c] hkind ?_ ?_ (by simp) (by simp [hc])
      (hrests (by simp [hc]))
    · simpa [hvalue] using Ne.symm hc.2.2.1
    · simpa [Regex.escape] using hsource
  cases hstep with
  | openParen => exact .inr (hasRawParen_openParen ctx _)
  | closeParen hok =>
    -- The group that is closed is the innermost one.
    rw [closesGroups, Bool.and_eq_true, decide_eq_true_eq] at hcloses
    obtain ⟨frame, others, hframes⟩ :=
      List.exists_cons_of_ne_nil (List.length_pos_iff.mp hcloses.1)
    have hextglob := hs.enclosed.isExtglob frame (hframes ▸ List.mem_cons_self)
    cases frame with
    | paren | brace => exact absurd hextglob (by simp [Frame.isExtglob])
    | extglob frame =>
      have hclose : (t.taking rest).closeParen ctx tail =
          { t.taking rest with frames := others }.closeExtglob ctx tail frame := by
        have htake : takeFrame? (fun frame => !frame.isBrace) (t.taking rest).frames =
            some (.extglob frame, others) := by
          rw [show (t.taking rest).frames = _ from hframes]
          rfl
        rw [closeParen, htake]
      rw [hclose] at hok
      obtain ⟨outer', inner', hinner', h', hothers, hrest', hlast⟩ :=
        hs.closeExtglob hhides hframes hok
      refine .inl (.of_last .paren h' hlast (by simp) (fun hnil => absurd hnil hinner') ?_)
      rw [hframes, List.length_cons, Nat.add_sub_cancel] at hcloses
      rw [closesRest, hothers, hrest']
      exact hcloses.2
  | closeBrace => exact .inl (hchar (by simp) (by simp) rfl (by decide))
  | bar => exact .inl (hs.hides_bar hhides hne (hrests (by simp)))
  | comma => exact .inl (hchar (by simp) (by simp) rfl (by decide))
  | slash =>
    have hframes : t.frames = [] := frames_eq_nil h.closes (by rw [hrest]; rfl)
    exact .inl (hs.hides_slash hhides hne hframes (hrests (by simp)))
  | qmark =>
    have hne' : inner ≠ [] := fun hnil => hinner hnil (by rw [hrest]; rfl)
    exact .inl (hs.hides_qmark hhides hne hne' (hrests (by simp)))
  | plus =>
    exact .inl (hs.hides_operator hhides hne (by simp) (by simp)
      (hchar (by simp) (by simp) rfl (by decide)) (hrests (by simp)))
  | atSign =>
    exact .inl (hs.hides_operator hhides hne (by simp) (by simp)
      (hchar (by simp) (by simp) rfl (by decide)) (hrests (by simp)))
  | star =>
    have hplace : t.last.kind = .bos ↔ t.position = t.start := by
      refine ⟨h.bos, fun hstart => ?_⟩
      rw [last, htame.begun.first hstart]
      rfl
    have hready' : (t.taking rest).Ready ctx (t.taking rest).frames :=
      ⟨hready.layout, hready.settled, hready.synced⟩
    exact .inl (hs.hides_star hhides hne hready' hplace (hrests (by simp)))
  | plain hc =>
    refine .inl (hs.hides_plainText hhides hne hc (hrests fun hparen => ?_))
    simp only [List.mem_cons, List.not_mem_nil, or_false] at hparen
    obtain rfl | rfl := hparen <;> exact absurd hc (by decide)

/-- A whole run leads past no hidden segment, or meets a parenthesis that belongs to no extended
group. -/
theorem Hides.run (hctx : ctx.withoutPosix.IsStandard) (hhides : ctx.HidesDots) (n : Nat)
    (htame : t.Tame ctx) (h : t.Hides ctx) (hok : run ctx tail n t = .ok t') :
    t'.Tame ctx ∧ (t'.Hides ctx ∨ t'.hasRawParen = true) := by
  induction n generalizing t with
  | zero =>
    cases hok
    exact ⟨htame, .inl h⟩
  | succ n ih =>
    rw [Tokenizer.run] at hok
    split at hok
    case h_1 =>
      cases hok
      exact ⟨htame, .inl h⟩
    case h_2 c rest hrest =>
      obtain ⟨next, hnext, hrun⟩ := bind_eq_ok hok
      obtain ⟨hstep, htame', -⟩ := htame.step hctx hrest hnext
      obtain h' | hraw := h.step hhides htame hrest hstep
      · exact ih htame' h' hrun
      · exact (htame'.hasRawParen_run hctx n hraw hrun).imp_right .inr

end

/-! ### The end of the text -/

/-- A separator that may be missing is all that is added at the end. -/
theorem guides_allowSlash {blind : Bool} {P R : Cursor → Prop}
    (h : GuidesBody blind P R t.joinSources Clear) :
    GuidesBody blind P R (t.allowSlash ctx).joinSources Clear := by
  unfold allowSlash
  split
  case isFalse => exact h
  case isTrue hlast =>
    rw [Bool.and_eq_true, Bool.or_eq_true, decide_eq_true_eq, decide_eq_true_eq] at hlast
    let token := Token.ofSource .maybeSlash [] (Fragment.slash ctx.windows ++ ['?'])
    have hprepared : t.prepared ctx token = t := by
      rw [Tokenizer.prepared]
      obtain hkind | hkind := hlast.2 <;> simp [hkind]
    obtain ⟨previous, htokens⟩ :=
      tokens_push_of_kind_ne (show token.kind ≠ .text by simp [token]) ctx t
    rw [hprepared] at htokens
    rw [joinSources_of_tokens_eq htokens]
    exact h.append guides_optionalSlash

/-- The source that is put together at the end is that of the tokens. -/
theorem Tame.output_finish (htame : t.Tame ctx) (hframes : t.frames = [])
    (hok : t.finish ctx = .ok t') : t'.output = (t.allowSlash ctx).joinSources := by
  have hfinish : t' = if (t.allowSlash ctx).rebuild then
      { t.allowSlash ctx with output := (t.allowSlash ctx).joinSources } else t.allowSlash ctx := by
    rw [finish_of_endFrames ctx htame.inClass (endFrames_eq ctx hframes)] at hok
    exact (Except.ok.inj hok).symm
  obtain ⟨hlayout, hsynced⟩ := htame.situation.endBracket
    (endBracket_eq ctx.withoutPosix htame.inClass)
  have hsynced' := (layout_allowSlash ctx (hframes ▸ hlayout) hsynced).2
  rw [hfinish]
  split
  case isTrue => rfl
  case isFalse hrebuild => exact hsynced' (eq_false_of_ne_true hrebuild)

theorem Hides.guides_finish (htame : t.Tame ctx) (h : t.Hides ctx) (hrest : t.rest = [])
    (hok : t.finish ctx = .ok t') :
    GuidesBody ctx.options.noCase Clear Safe t'.output Clear := by
  obtain ⟨outer, inner, hsheltered, -⟩ := h.sheltered
  have hframes : t.frames = [] := by
    have hcloses := h.closes
    rw [closesRest, hrest, closesGroups, decide_eq_true_eq] at hcloses
    exact List.eq_nil_of_length_eq_zero hcloses
  have houter : outer = [] := hsheltered.enclosed.frames_eq_nil_iff.mp hframes
  have hentry : entry t.frames = Clear := by rw [entry, hframes]; rfl
  rw [htame.output_finish hframes hok]
  refine guides_allowSlash ?_
  have hleads := hsheltered.leads.mono t.last.kind.isExit_exit.2
  rw [hentry] at hleads
  rwa [joinSources, hsheltered.tokens, houter, List.nil_append]

/-- At the beginning of a pattern. -/
theorem hides_initial {text : List Char} (hcloses : closesGroups 0 text = true) :
    Hides ctx { rest := text } where
  sheltered := by
    refine ⟨[], [.bos], ?_, fun hnil => absurd hnil (by simp)⟩
    exact
      { tokens := rfl
        enclosed := .outermost
        leads := GuidesBody.nil
        between := isExit_clear
        inside := fun hopen => absurd rfl hopen
        dot := fun hdot => absurd (show TokenKind.bos = .dot from hdot) (by simp)
        closed := fun _ _ hparen => absurd (show TokenKind.bos = .paren from hparen) (by simp)
        slash := fun hslash => absurd (show TokenKind.bos = .slash from hslash) (by simp)
        star := fun _ hstar => absurd
          (show TokenKind.bos = .star ∨ TokenKind.bos = .globstar from hstar) (by simp)
        optional := fun place hplace => absurd hplace (by simp)
        opening := fun hnil => absurd hnil (by simp) }
  closes := hcloses
  bos _ := rfl

end Tokenizer

/-- The translation of a tame pattern leads past no hidden segment, unless some parenthesis belongs
to no extended group. -/
theorem Context.guides_tokenize {ctx : Context} (hctx : ctx.withoutPosix.IsStandard)
    (hhides : ctx.HidesDots) (hbody : ∀ c ∈ ctx.body, isTame ctx.options c = true)
    (hcloses : closesGroups 0 ctx.body = true) {tail : List Char → Except Error (List Char)}
    {translation : Translation} (hok : ctx.tokenize tail = .ok translation)
    (hextglobs : translation.tokens.all (fun token => !token.isRawParen) = true) :
    translation.negated = false ∧
      GuidesBody ctx.options.noCase Clear Safe translation.output Clear := by
  obtain ⟨t, hrun, hok⟩ := bind_eq_ok hok
  obtain ⟨s, hfinish, hok⟩ := bind_eq_ok hok
  cases hok
  have htame : Tokenizer.Tame ctx { rest := ctx.body } :=
    { situation :=
        .ready ⟨.singleton _ _ neutral_nil, .singleton neutral_nil rfl rfl, fun _ => rfl⟩ rfl
      begun := ⟨Nat.le_refl _, fun _ => rfl, fun hfalse => absurd hfalse (by simp),
        fun hkind => absurd (show TokenKind.bos = .dot from hkind) (by simp)⟩
      inClass := rfl
      quoted := rfl
      negated := rfl
      inBrace := rfl
      rest := hbody }
  obtain ⟨htame', hcases⟩ := (Tokenizer.hides_initial hcloses).run hctx hhides _ htame hrun
  have hretains := htame'.retains_finish hfinish
  refine ⟨hretains.negated.trans htame'.negated, ?_⟩
  obtain hhides' | hraw := hcases
  · exact hhides'.guides_finish htame'
      (Tokenizer.rest_run (t := { rest := ctx.body }) (Nat.le_refl _) hrun) hfinish
  · -- A parenthesis of another kind would still be there.
    obtain ⟨token, htoken, hparen⟩ := List.any_eq_true.mp (hretains.rawParen hraw)
    have := List.all_eq_true.mp hextglobs token htoken
    rw [hparen] at this
    exact absurd this (by simp)

end PathGlob.Pattern
