import PathGlob.Proofs.Pattern.Tame
import PathGlob.Proofs.Regex.Guards

/-!
# `PathGlob.Proofs.Pattern.Shelter`: sources that stay clear of hidden segments

While a pattern is translated, the sources of the tokens so far lead past no hidden segment. What
they lead to depends on the last token (`TokenKind.exit`): behind a separator, and at the start of
the pattern, the next segment may still turn out to be hidden.

The innermost open group has tokens of its own, behind its operator and its parenthesis. Those
before them are never looked at until the group is closed, and `Enclosed` says what is known of
them: the operator has no guard yet, and it gets one when the group is closed if the group begins a
segment. `Sheltered` is what the steps of the tokenizer keep.
-/

set_option autoImplicit false

namespace PathGlob.Pattern

open Regex Cursor

/-- What the sources lead to behind a token of this kind. -/
def TokenKind.exit (kind : TokenKind) : Cursor → Prop := if kind.beginsSegment then Clear else Safe

/-- The cursors that the tokens of the innermost group begin at. Groups that begin a segment are
guarded. -/
def entry (frames : List Frame) : Cursor → Prop := if frames.isEmpty then Clear else Safe

/-- Between safe and clear. -/
def IsExit (Q : Cursor → Prop) : Prop := (∀ c, c.Safe → Q c) ∧ ∀ c, Q c → c.Clear

theorem isExit_safe : IsExit Safe := ⟨fun _ => id, fun _ => And.left⟩

theorem isExit_clear : IsExit Clear := ⟨fun _ => And.left, fun _ => id⟩

theorem TokenKind.isExit_exit (kind : TokenKind) : IsExit kind.exit := by
  unfold exit
  split
  · exact isExit_clear
  · exact isExit_safe

theorem TokenKind.exit_of_not_beginsSegment {kind : TokenKind} (h : kind.beginsSegment = false) :
    kind.exit = Safe := by
  unfold exit
  rw [if_neg (by simp [h])]

namespace Context

/-- No wildcard is to match the dot of a hidden segment. -/
structure HidesDots (ctx : Context) : Prop where
  dot : ctx.options.dot = false
  bash : ctx.options.bash = false
  star : ctx.star = starSource ctx.options

/-- Whatever is matched by a source between pieces leads from cursors of one kind to cursors of
another. -/
def Guides (ctx : Context) (P : Cursor → Prop) (source : List Char) (Q : Cursor → Prop) : Prop :=
  Regex.Guides ctx.options.noCase P source Q

/-- The source of the innermost group so far leads to cursors of this kind, and all alternatives
but the last one lead to safe ones. -/
def Leads (ctx : Context) (frames : List Frame) (tokens : List Token) (Q : Cursor → Prop) : Prop :=
  GuidesBody ctx.options.noCase (entry frames) Safe (tokens.flatMap Token.source) Q

variable {ctx : Context}

theorem HidesDots.guides_star (h : ctx.HidesDots) : ctx.Guides Safe ctx.star Safe := by
  have hstar : Regex.Guides ctx.options.noCase Safe (Fragment.star ctx.options.windows) Safe :=
    Regex.guides_star
  rw [h.star]
  unfold starSource
  simp only [h.bash, Bool.false_eq_true, if_false]
  split
  · have := hstar.wrapped true (by unfold Fragment.star Fragment.anyChar; simp)
    exact this
  · exact hstar

theorem HidesDots.guides_dotGuard (h : ctx.HidesDots) : ctx.Guides Clear ctx.dotGuard Safe := by
  unfold dotGuard
  rw [h.dot]
  exact Regex.guides_dotGuard

theorem HidesDots.globstar_eq (h : ctx.HidesDots) :
    ctx.globstar = Fragment.globstar ctx.options.windows false ctx.options.capture := by
  rw [globstar, h.dot]

end Context

/-- An extended group is a piece. -/
theorem guidesPiece_extglob {blind : Bool} {source : List Char}
    (h : GuidesBody blind Safe Safe source Safe) {kind : ExtglobKind} (hkind : kind ≠ .negate)
    (capture : Bool) : GuidesPiece blind Safe ((if capture then ['('] else []) ++ ['(', '?', ':'] ++
      source ++ if capture then kind.closing [] ++ [')'] else kind.closing []) Safe := by
  have hquantified {quantifier : Char} (hmem : quantifier ∈ ['?', '*', '+']) :
      GuidesPiece blind Safe (['(', '?', ':'] ++ source ++ [')', quantifier]) Safe := by
    have := h.group.quantified hmem
    rwa [List.append_assoc] at this
  have hgroup : GuidesPiece blind Safe (['(', '?', ':'] ++ source ++ kind.closing []) Safe := by
    cases kind with
    | negate => exact absurd rfl hkind
    | exactlyOne => exact h.group
    | zeroOrOne | oneOrMore | zeroOrMore => exact hquantified (by simp)
  cases capture with
  | false => simpa using hgroup
  | true =>
    have := (hgroup.guides.body (R := Safe)).capture (by simp)
    simpa using this

/-! ### Groups that are open -/

/-- The tokens up to the parenthesis of the innermost group. -/
inductive Enclosed (ctx : Context) : List Frame → List Token → Prop where
  | outermost : Enclosed ctx [] []
  | group {frames : List Frame} {outer inner : List Token} {operator opening : Token}
      {frame : ExtglobFrame} (houter : Enclosed ctx frames outer)
      (hinner : ctx.Leads frames inner frame.before.exit)
      (hplace : frame.operator = (outer ++ inner).length) (hkind : frame.kind ≠ .negate)
      (hbefore : frames ≠ [] → frame.before.beginsSegment = false) (hdot : '.' ∉ frame.inner)
      (hoperator : ∀ P, ctx.Guides P operator.source P)
      (hopening : opening.source =
        (if ctx.options.capture then ['('] else []) ++ ['(', '?', ':'])
      (hparen : opening.kind = .paren) :
      Enclosed ctx (.extglob frame :: frames) (outer ++ inner ++ [operator, opening])

namespace Enclosed

variable {ctx : Context} {frames : List Frame} {outer : List Token}

theorem isExtglob (h : Enclosed ctx frames outer) : ∀ frame ∈ frames, frame.isExtglob = true := by
  induction h with
  | outermost => exact fun _ hframe => absurd hframe List.not_mem_nil
  | group _ _ _ _ _ _ _ _ _ ih => exact List.forall_mem_cons.mpr ⟨rfl, ih⟩

theorem frames_eq_nil_iff (h : Enclosed ctx frames outer) : frames = [] ↔ outer = [] := by
  cases h <;> simp

/-- The last token before those of the innermost group is the parenthesis that opened it. -/
theorem exists_opening (h : Enclosed ctx frames outer) (hne : outer ≠ []) :
    ∃ before opening, outer = before ++ [opening] ∧ opening.kind = .paren := by
  cases h with
  | outermost => exact absurd rfl hne
  | @group _ outer inner operator opening _ _ _ _ _ _ _ _ _ hparen =>
    exact ⟨outer ++ inner ++ [operator], opening, by simp, hparen⟩

/-- Text without dots may be noted. -/
theorem noted (h : Enclosed ctx frames outer) {t : Tokenizer} (hframes : t.frames = frames)
    {token : Token} (hvalue : '.' ∉ token.value) :
    Enclosed ctx (t.noted token) outer ∧ (t.noted token).length = frames.length := by
  subst hframes
  unfold Tokenizer.noted
  split
  · exact ⟨h, rfl⟩
  · unfold Tokenizer.noteInner
    generalize t.frames = frames at h
    cases h with
    | outermost => exact ⟨.outermost, rfl⟩
    | group houter hinner hplace hkind hbefore hdot hoperator hopening hparen =>
      refine ⟨.group houter hinner hplace hkind hbefore ?_ hoperator hopening hparen, rfl⟩
      simp only [List.mem_append, not_or]
      exact ⟨hdot, hvalue⟩

end Enclosed

theorem entry_of_length_eq {frames frames' : List Frame} (h : frames'.length = frames.length) :
    entry frames' = entry frames := by
  unfold entry
  cases frames <;> cases frames' <;> simp_all

/-! ### The tokens of the innermost group -/

/-- The tokens before a star: it is no matter whether the star is taken away again, nor the
separator before it with its guard. -/
structure BeforeStar (ctx : Context) (frames : List Frame) (before : List Token) : Prop where
  leads : ctx.Leads frames before Safe
  slash : ∀ earlier prior, before = earlier ++ [prior] → prior.kind = .slash →
    ctx.Leads frames earlier Clear ∧ ctx.Guides Clear prior.source Safe

namespace Tokenizer

theorem prepared_frames (ctx : Context) (t : Tokenizer) (token : Token) :
    (t.prepared ctx token).frames = t.frames ∧
      (t.prepared ctx token).optionalGroup = t.optionalGroup := by
  obtain heq | ⟨-, -, heq⟩ := prepared_cases ctx t token
  · rw [heq]
    exact ⟨rfl, rfl⟩
  · rw [heq]
    exact ⟨rfl, rfl⟩

@[simp] theorem push_optionalGroup (ctx : Context) (t : Tokenizer) (token : Token) :
    (t.push ctx token).optionalGroup = t.optionalGroup := by
  rw [push_eq_prepared]
  exact (prepared_frames ctx t token).2

/-- What has been prepared for a token is still prepared for it. -/
theorem prepared_prepared (ctx : Context) (t : Tokenizer) (token : Token) :
    (t.prepared ctx token).prepared ctx token = t.prepared ctx token ∧
      (t.prepared ctx token).push ctx token = t.push ctx token := by
  have hprepared : (t.prepared ctx token).prepared ctx token = t.prepared ctx token := by
    obtain heq | ⟨hlast, -, heq⟩ := prepared_cases ctx t token
    · rw [heq, heq]
    · have hne : t.tokens ≠ [] := by
        intro hnil
        rw [last, hnil] at hlast
        exact absurd hlast (by simp)
      have hkind : (t.demoteGlobstar ctx).last.kind = .star :=
        congrArg Token.kind (last_modifyLast (t := (t.cutOutput (Text.byteSize t.last.source)).emit
          ctx.star) hne _)
      rw [heq, Tokenizer.prepared, if_neg (by simp [hkind])]
  refine ⟨hprepared, ?_⟩
  rw [push_eq_prepared, push_eq_prepared, hprepared, noted_prepared]

/-- The sources so far lead past no hidden segment. What is said of the last token is only needed to
read on, which is not possible behind a globstar that ends the text. -/
structure Sheltered (ctx : Context) (more : Prop) (Q : Cursor → Prop) (outer inner : List Token)
    (t : Tokenizer) : Prop where
  tokens : t.tokens = outer ++ inner
  enclosed : Enclosed ctx t.frames outer
  leads : ctx.Leads t.frames inner Q
  between : IsExit Q
  inside : t.frames ≠ [] → t.last.kind.beginsSegment = false
  dot : t.last.kind ≠ .dot
  /-- A group that has been closed is a piece. -/
  closed : more → inner ≠ [] → t.last.kind = .paren → ∃ earlier piece,
    inner.flatMap Token.source = earlier ++ piece ∧
      GuidesBody ctx.options.noCase (entry t.frames) Safe earlier Safe ∧
      GuidesPiece ctx.options.noCase Safe piece Safe
  /-- A separator is a token of its own. -/
  slash : t.last.kind = .slash → ∃ earlier last, inner = earlier ++ [last] ∧
    ctx.Leads t.frames earlier Clear ∧ ctx.Guides Clear last.source Q
  star : more → t.last.kind = .star ∨ t.last.kind = .globstar →
    ∃ before last, inner = before ++ [last] ∧ BeforeStar ctx t.frames before
  optional : ∀ place, t.optionalGroup = some place → place < t.tokens.length
  opening : inner = [] → t.optionalGroup ≠ some t.lastPlace

namespace Sheltered

variable {ctx : Context} {more : Prop} {Q R : Cursor → Prop} {outer inner : List Token}
  {t : Tokenizer} {token : Token}

theorem inner_ne_nil (h : t.Sheltered ctx more Q outer inner) (hne : t.tokens ≠ [])
    (hframes : t.frames = []) : inner ≠ [] := by
  rintro rfl
  rw [h.tokens, h.enclosed.frames_eq_nil_iff.mp hframes] at hne
  exact hne rfl

/-- The last token is one of the innermost group, unless that has just been opened. -/
theorem exists_inner_eq (h : t.Sheltered ctx more Q outer inner) (hinner : inner ≠ []) :
    ∃ before, inner = before ++ [t.last] := by
  obtain ⟨before, last, rfl⟩ : ∃ before last, inner = before ++ [last] :=
    ⟨inner.dropLast, inner.getLast hinner, (List.dropLast_concat_getLast hinner).symm⟩
  refine ⟨before, ?_⟩
  rw [last_of_tokens_eq (h.tokens.trans (List.append_assoc outer before [last]).symm)]

/-- Another token takes the place of a star. -/
theorem replaceStar (h : t.Sheltered ctx True Q outer inner)
    (hlast : t.last.kind = .star ∨ t.last.kind = .globstar) {change : Token → Token}
    {s : Tokenizer} (htokens : s.tokens = t.tokens.modify t.lastPlace change)
    (hsame : s.frames = t.frames ∧ s.optionalGroup = t.optionalGroup)
    (hkind : (change t.last).kind = .star ∨ (change t.last).kind = .globstar)
    (hguides : ctx.Guides Safe (change t.last).source R)
    (hbetween : IsExit R) :
    ∃ inner', inner' ≠ [] ∧ inner'.length = inner.length ∧ s.Sheltered ctx True R outer inner' := by
  obtain ⟨before, last, rfl, hbefore⟩ := h.star trivial hlast
  have htokensBefore : t.tokens = (outer ++ before) ++ [last] :=
    h.tokens.trans (List.append_assoc _ _ _).symm
  rw [last_of_tokens_eq htokensBefore] at hkind hguides
  have htokens' : s.tokens = (outer ++ before) ++ [change last] :=
    htokens.trans (tokens_modifyLast htokensBefore)
  rw [← last_of_tokens_eq htokens'] at hkind
  have hne {kind : TokenKind} (hstar : kind ≠ .star) (hglobstar : kind ≠ .globstar) :
      s.last.kind ≠ kind := by
    obtain hkind | hkind := hkind
    · exact hkind ▸ hstar.symm
    · exact hkind ▸ hglobstar.symm
  obtain ⟨hframes, hoptional⟩ := hsame
  refine ⟨before ++ [change last], by simp, by simp, ?_⟩
  refine
    { tokens := htokens'.trans (List.append_assoc _ _ _)
      enclosed := hframes ▸ h.enclosed
      between := hbetween
      leads := ?leads
      inside := fun _ => ?inside
      dot := hne (by simp) (by simp)
      closed := fun _ _ hparen => absurd hparen (hne (by simp) (by simp))
      slash := fun hslash => absurd hslash (hne (by simp) (by simp))
      star := fun _ _ => ⟨before, _, rfl, hframes ▸ hbefore⟩
      optional := fun place hplace => ?optional
      opening := fun hnil => absurd hnil (by simp) }
  case leads =>
    rw [hframes]
    have := hbefore.leads.append hguides
    simpa [Context.Leads] using this
  case inside =>
    obtain hkind | hkind := hkind
    · rw [hkind]
      rfl
    · rw [hkind]
      rfl
  case optional =>
    have := h.optional place (hoptional ▸ hplace)
    rw [htokensBefore] at this
    simpa [htokens'] using this

/-- A star takes the place of a globstar. -/
theorem demoteGlobstar (hhides : ctx.HidesDots) (h : t.Sheltered ctx True Q outer inner)
    (hlast : t.last.kind = .globstar) :
    ∃ inner', (t.demoteGlobstar ctx).Sheltered ctx True Q outer inner' ∧
      inner'.length = inner.length := by
  obtain ⟨inner', -, hlength, h'⟩ := h.replaceStar (.inr hlast) (s := t.demoteGlobstar ctx) rfl
    ⟨rfl, rfl⟩ (.inl rfl) (hhides.guides_star.mono (fun _ => id) h.between.1)
    h.between
  exact ⟨inner', h', hlength⟩

theorem prepared (hhides : ctx.HidesDots) (h : t.Sheltered ctx True Q outer inner)
    (token : Token) : ∃ inner', (t.prepared ctx token).Sheltered ctx True Q outer inner' ∧
      inner'.length = inner.length ∧ (t.last.kind ≠ .globstar → inner' = inner) := by
  obtain heq | ⟨hlast, -, heq⟩ := prepared_cases ctx t token
  · rw [heq]
    exact ⟨inner, h, rfl, fun _ => rfl⟩
  · rw [heq]
    obtain ⟨inner', h', hlength⟩ := h.demoteGlobstar hhides hlast
    exact ⟨inner', h', hlength, fun hne => absurd hlast hne⟩

/-- Behind the parenthesis that opened it, a group has no tokens yet. -/
theorem kind_last_of_inner_eq_nil (h : t.Sheltered ctx more Q outer inner) (hne : t.tokens ≠ [])
    (hinner : inner = []) : t.last.kind = .paren := by
  have htokens := h.tokens
  rw [hinner, List.append_nil] at htokens
  obtain ⟨before, opening, rfl, hparen⟩ := h.enclosed.exists_opening (htokens ▸ hne)
  rw [last_of_tokens_eq htokens, hparen]

/-- A token is added at the end. -/
theorem push_of_leads (h : t.Sheltered ctx more Q outer inner) (hne : t.tokens ≠ [])
    (hprepared : t.prepared ctx token = t)
    (hleads : GuidesBody ctx.options.noCase (entry t.frames) Safe
      (inner.flatMap Token.source ++ token.source) R)
    (hbetween : IsExit R) (hvalue : '.' ∉ token.value)
    (hinside : t.frames ≠ [] → token.kind.beginsSegment = false) (hdot : token.kind ≠ .dot)
    (hparen : token.kind ≠ .paren)
    (hslash : token.kind = .slash → ctx.Guides Clear token.source R)
    (hstar : token.kind = .star ∨ token.kind = .globstar → ∀ c, Q c → c.Safe) :
    ∃ inner', inner' ≠ [] ∧ (t.push ctx token).Sheltered ctx True R outer inner' := by
  have hkind := kind_last_push hne ctx token
  obtain ⟨henclosed, hlength⟩ := h.enclosed.noted rfl hvalue
  have hentry := entry_of_length_eq hlength
  rw [← push_frames ctx t token] at henclosed hlength hentry
  have hpushed : (t.push ctx token).tokens = t.pushed token := by
    rw [push_eq_prepared, hprepared]
  have hoptional := push_optionalGroup ctx t token
  -- What remains is what the tokens are, for text merged with text and for all others.
  have hsheltered {inner' : List Token} (hinner : inner' ≠ [])
      (htokens : (t.push ctx token).tokens = outer ++ inner') (hle : inner.length ≤ inner'.length)
      (hsources : inner'.flatMap Token.source = inner.flatMap Token.source ++ token.source)
      (hadded : token.kind ≠ .text → ∃ last : Token, inner' = inner ++ [last] ∧
        last.source = token.source) :
      (t.push ctx token).Sheltered ctx True R outer inner' := by
    refine
      { tokens := htokens
        enclosed := henclosed
        between := hbetween
        leads := by rwa [Context.Leads, hentry, hsources]
        inside := fun hframes => ?inside
        dot := by rwa [hkind]
        closed := fun _ _ hlast => absurd (hkind.symm.trans hlast) hparen
        slash := fun hlast => ?slash
        star := fun _ hlast => ?star
        optional := fun place hplace => ?optional
        opening := fun hnil => absurd hnil hinner }
    case inside =>
      rw [hkind]
      refine hinside fun hnil => hframes ?_
      rw [hnil] at hlength
      exact List.eq_nil_of_length_eq_zero hlength
    case slash =>
      have hlast := hkind.symm.trans hlast
      obtain ⟨last, rfl, hsource⟩ := hadded (by simp [hlast])
      refine ⟨inner, last, rfl, ?_, by rw [hsource]; exact hslash hlast⟩
      rw [Context.Leads, hentry]
      exact h.leads.mono h.between.2
    case star =>
      rw [hkind] at hlast
      obtain ⟨last, rfl, -⟩ := hadded (by obtain hlast | hlast := hlast <;> simp [hlast])
      refine ⟨inner, last, rfl, ?_, fun earlier prior heq hprior => ?_⟩
      · rw [Context.Leads, hentry]
        exact h.leads.mono (hstar hlast)
      · -- A separator before a star has got its guard already.
        obtain ⟨before, heq'⟩ := h.exists_inner_eq (by simp [heq])
        obtain ⟨rfl, hprior'⟩ := List.append_inj' (heq'.symm.trans heq) rfl
        obtain rfl := (List.cons.inj hprior').1
        obtain ⟨earlier, last, heq, hearlier, hguides⟩ := h.slash hprior
        obtain ⟨rfl, hlast'⟩ := List.append_inj' (heq'.symm.trans heq) rfl
        obtain rfl := (List.cons.inj hlast').1
        rw [Context.Leads, hentry]
        exact ⟨hearlier, hguides.mono (fun _ => id) (hstar hlast)⟩
    case optional =>
      have := h.optional place (hoptional.symm.trans hplace)
      rw [h.tokens, List.length_append] at this
      rw [htokens, List.length_append]
      omega
  by_cases hmerge : t.last.kind = .text && token.kind = .text
  · rw [Bool.and_eq_true, decide_eq_true_eq, decide_eq_true_eq] at hmerge
    have hinner : inner ≠ [] := by
      intro hnil
      have := h.kind_last_of_inner_eq_nil hne hnil
      rw [hmerge.1] at this
      exact absurd this (by simp)
    obtain ⟨before, heq⟩ := h.exists_inner_eq hinner
    have htokens : t.tokens = (outer ++ before) ++ [t.last] := by
      rw [h.tokens, List.append_assoc, ← heq]
    rw [pushed_eq htokens, if_pos (by simp [hmerge])] at hpushed
    refine ⟨_, List.append_ne_nil_of_right_ne_nil before (List.cons_ne_nil _ []), hsheltered ?_
      (hpushed.trans (List.append_assoc _ _ _)) ?_ ?_ fun hne => absurd hmerge.2 hne⟩
    · simp
    · rw [heq]
      simp
    · rw [heq]
      simp [Token.source]
  · rw [pushed, if_neg hmerge, h.tokens, List.append_assoc] at hpushed
    refine ⟨_, ?_, hsheltered ?_ hpushed ?_ ?_ fun _ => ⟨_, rfl, rfl⟩⟩
    · simp
    · simp
    · simp
    · simp [Token.source]

/-- A token that leads on from what the sources so far lead to. -/
theorem push (hhides : ctx.HidesDots) (h : t.Sheltered ctx True Q outer inner) (hne : t.tokens ≠ [])
    (hleads : ∀ source, GuidesBody ctx.options.noCase (entry t.frames) Safe source Q →
      GuidesBody ctx.options.noCase (entry t.frames) Safe (source ++ token.source) R)
    (hbetween : IsExit R) (hvalue : '.' ∉ token.value)
    (hinside : t.frames ≠ [] → token.kind.beginsSegment = false) (hdot : token.kind ≠ .dot)
    (hparen : token.kind ≠ .paren)
    (hslash : token.kind = .slash → ctx.Guides Clear token.source R)
    (hstar : token.kind = .star ∨ token.kind = .globstar → ∀ c, Q c → c.Safe) :
    ∃ inner', inner' ≠ [] ∧ (t.push ctx token).Sheltered ctx True R outer inner' := by
  obtain ⟨inner', h', -⟩ := h.prepared hhides token
  obtain ⟨hprepared, hpush⟩ := prepared_prepared ctx t token
  have hne' : (t.prepared ctx token).tokens ≠ [] := by
    rw [← List.length_pos_iff, length_prepared, List.length_pos_iff]
    exact hne
  have hframes := (prepared_frames ctx t token).1
  rw [← hpush]
  exact h'.push_of_leads hne' hprepared (by rw [hframes]; exact hleads _ (hframes ▸ h'.leads))
    hbetween hvalue (fun hnil => hinside (hframes ▸ hnil)) hdot hparen hslash hstar

/-! ### Groups -/

/-- A group is opened. -/
theorem openExtglob (hhides : ctx.HidesDots)
    (h : t.Sheltered ctx True t.last.kind.exit outer inner) (hne : t.tokens ≠ [])
    {kind : ExtglobKind} (hkind : kind ≠ .negate) {operator : Char} (hoperator : operator ≠ '.') :
    ∃ outer', (t.openExtglob ctx kind operator).Sheltered ctx True Safe outer' [] ∧
      (t.openExtglob ctx kind operator).frames.length = t.frames.length + 1 ∧
      (t.openExtglob ctx kind operator).last.kind = .paren := by
  let guard := if t.output.isEmpty then Fragment.oneChar else []
  let first : Token := .ofSource (.extglob kind) [operator] guard
  let paren : Token := { Token.ofSource .paren ['(']
    ((if ctx.options.capture then ['('] else []) ++ kind.opening) with isExtglob := true }
  let s := (t.push ctx first).skip 1
  let frame : ExtglobFrame := ⟨kind, t.last.kind, t.tokens.length, []⟩
  have hopened : t.openExtglob ctx kind operator =
      { s.push ctx paren with frames := .extglob frame :: (s.push ctx paren).frames } := rfl
  obtain ⟨inner', h', hlength, -⟩ := h.prepared hhides first
  obtain ⟨previous, hpush⟩ := tokens_push_of_kind_ne (show first.kind ≠ .text by simp [first]) ctx t
  have hkindLast : s.last.kind = .extglob kind := kind_last_push hne ctx first
  have hprepared : s.prepared ctx paren = s := by
    rw [Tokenizer.prepared, if_neg (by simp [hkindLast])]
  obtain ⟨previous', hpush'⟩ :=
    tokens_push_of_kind_ne (show paren.kind ≠ .text by simp [paren]) ctx s
  have htokens : (t.openExtglob ctx kind operator).tokens =
      outer ++ inner' ++ [{ first with previous }, { paren with previous := previous' }] := by
    rw [hopened]
    show (s.push ctx paren).tokens = _
    rw [hpush', hprepared]
    show (t.push ctx first).tokens ++ _ = _
    rw [hpush, h'.tokens, List.append_assoc]
    rfl
  have hframes : (t.openExtglob ctx kind operator).frames = .extglob frame :: t.noted first := by
    rw [hopened]
    show _ :: (s.push ctx paren).frames = _
    rw [push_frames]
    show _ :: (t.push ctx first).frames = _
    rw [push_frames]
  obtain ⟨henclosed, hnoted⟩ := h.enclosed.noted rfl
    (show '.' ∉ first.value by simpa [first, Token.ofSource] using hoperator.symm)
  have hopening : kind.opening = ['(', '?', ':'] := by
    cases kind with
    | negate => exact absurd rfl hkind
    | _ => rfl
  have hplace : t.tokens.length = (outer ++ inner').length := by
    rw [h.tokens, List.length_append, List.length_append, hlength]
  have hlast : (t.openExtglob ctx kind operator).last.kind = .paren := by
    rw [last_of_tokens_eq (htokens.trans (List.append_cons _ _ _))]
    rfl
  have hoptional : (t.openExtglob ctx kind operator).optionalGroup = t.optionalGroup := by
    rw [hopened]
    show (s.push ctx paren).optionalGroup = _
    rw [push_optionalGroup]
    exact push_optionalGroup ctx t first
  refine ⟨outer ++ inner' ++ [{ first with previous }, { paren with previous := previous' }], ?_,
    by rw [hframes, List.length_cons, hnoted], hlast⟩
  refine
    { tokens := htokens.trans (List.append_nil _).symm
      enclosed := ?enclosed
      between := isExit_safe
      leads := ?leads
      inside := fun _ => by rw [hlast]; rfl
      dot := by rw [hlast]; simp
      closed := fun _ hnil => absurd rfl hnil
      slash := fun hslash => absurd (hlast.symm.trans hslash) (by simp)
      star := fun _ hstar => absurd hstar (by simp [hlast])
      optional := fun place hsome => ?optional
      opening := fun _ hsome => ?opening }
  case enclosed =>
    rw [hframes]
    refine .group henclosed ?_ hplace hkind ?_ (by simp [frame]) (fun P => ?_) ?_ rfl
    · rw [Context.Leads, entry_of_length_eq hnoted]
      exact (prepared_frames ctx t first).1 ▸ h'.leads
    · intro hframes
      refine h.inside fun hnil => hframes ?_
      rw [hnil] at hnoted
      exact List.eq_nil_of_length_eq_zero hnoted
    · show ctx.Guides P guard P
      simp only [guard]
      split
      · exact guides_oneChar
      · exact .nil
    · show (if ctx.options.capture then ['('] else []) ++ kind.opening = _
      rw [hopening]
  case leads =>
    rw [hframes]
    exact GuidesBody.nil
  case optional =>
    have := h.optional place (hoptional.symm.trans hsome)
    rw [htokens, List.length_append, ← hplace]
    omega
  case opening =>
    have := h.optional _ (hoptional.symm.trans hsome)
    simp only [lastPlace, htokens, List.length_append] at this
    simp only [hplace, List.length_append, List.length_cons, List.length_nil] at this
    omega

/-- The tokens once a group has been closed. Its operator is guarded if it begins a segment. -/
theorem exists_closed (hhides : ctx.HidesDots) {frame : ExtglobFrame} {others : List Frame}
    (henclosed : Enclosed ctx (.extglob frame :: others) outer) {tokens : List Token}
    (htokens : t.tokens = outer ++ tokens) :
    ∃ outer' inner' operator opening, Enclosed ctx others outer' ∧
      ctx.Leads others (inner' ++ [operator]) Safe ∧
      (t.guarded ctx frame).tokens = outer' ++ (inner' ++ [operator, opening] ++ tokens) ∧
      outer.length = (outer' ++ inner').length + 2 ∧
      opening.source = (if ctx.options.capture then ['('] else []) ++ ['(', '?', ':'] := by
  cases henclosed with
  | @group _ outer' inner' operator opening _ houter hinner hplace hkind _ hdot hoperator
      hopening =>
  have hnoDot : ((Text.pieces '|' frame.inner).any fun alternative =>
      alternative.head? = some '.') = false := by
    rw [List.any_eq_false]
    intro piece hpiece hhead
    have hmem := List.mem_of_mem_head? (show '.' ∈ piece.head? by simpa using hhead)
    exact hdot (Text.mem_of_mem_pieces hpiece hmem)
  have hlength : (outer' ++ inner' ++ [operator, opening]).length =
      (outer' ++ inner').length + 2 := by
    simp [Nat.add_assoc]
  have hlt : frame.operator < t.tokens.length := by
    have := congrArg List.length htokens
    rw [List.length_append, hlength] at this
    omega
  by_cases hbegins : frame.before.beginsSegment = true
  · have hguarded : (t.guarded ctx frame).tokens = t.tokens.modify frame.operator fun token =>
        { token with source? := some (ctx.dotGuard ++ token.source) } := by
      unfold Tokenizer.guarded
      simp only [hbegins, hnoDot, hlt, Bool.and_false, Bool.not_false, Bool.and_self, decide_true,
        if_true]
      rfl
    refine ⟨outer', inner', { operator with source? := some (ctx.dotGuard ++ operator.source) },
      opening, houter, ?_, ?_, hlength, hopening⟩
    · have hexit : frame.before.exit = Clear := by rw [TokenKind.exit, if_pos hbegins]
      have := (hexit ▸ hinner).append (hhides.guides_dotGuard.append (hoperator Safe))
      simpa [Context.Leads, Token.source] using this
    · rw [hguarded, htokens, hplace]
      have := modify_append_length (outer' ++ inner') (opening :: tokens) operator
        fun token => { token with source? := some (ctx.dotGuard ++ token.source) }
      simpa using this
  · have hexit : frame.before.exit = Safe :=
      TokenKind.exit_of_not_beginsSegment (Bool.not_eq_true _ ▸ hbegins)
    refine ⟨outer', inner', operator, opening, houter, ?_, ?_, hlength, hopening⟩
    · have := (hexit ▸ hinner).append (hoperator Safe)
      simpa [Context.Leads] using this
    · unfold Tokenizer.guarded
      rw [if_neg (by simp [hbegins]), htokens]
      simp

/-- What closes a group that is not negated. -/
theorem closeExtglob_eq (ctx : Context) (tail : List Char → Except Error (List Char))
    {frame : ExtglobFrame} (hkind : frame.kind ≠ .negate) (t : Tokenizer) :
    ∃ optionalGroup, t.closeExtglob ctx tail frame =
        .ok { (t.guarded ctx frame).push ctx { Token.ofSource .paren [')']
          (if ctx.options.capture then frame.kind.closing [] ++ [')'] else frame.kind.closing [])
            with isExtglob := true } with optionalGroup } ∧
      (optionalGroup = t.optionalGroup ∨ optionalGroup = some (t.tokens.length)) := by
  let paren : Token := { Token.ofSource .paren [')']
    (if ctx.options.capture then frame.kind.closing [] ++ [')'] else frame.kind.closing []) with
      isExtglob := true }
  let s := (t.guarded ctx frame).push ctx paren
  have heq : t.closeExtglob ctx tail frame =
      .ok (if frame.before.beginsSegment && frame.kind.isOptional then
        { s with optionalGroup := some s.lastPlace } else s) := by
    unfold Tokenizer.closeExtglob
    dsimp only
    rw [if_neg hkind]
    simp only [hkind, decide_false, Bool.false_and, Bool.or_false]
    rfl
  have hoptional : s.optionalGroup = t.optionalGroup := by
    show ((t.guarded ctx frame).push ctx paren).optionalGroup = _
    rw [push_optionalGroup]
    unfold Tokenizer.guarded
    dsimp only
    split <;> rfl
  have hplace : s.lastPlace = t.tokens.length := by
    have hlength : (t.guarded ctx frame).tokens.length = t.tokens.length := by
      unfold Tokenizer.guarded
      dsimp only
      split
      · exact List.length_modify _ _ _
      · rfl
    rw [lastPlace, length_push (by simp [paren]), hlength, Nat.add_sub_cancel]
  rw [heq]
  split
  · exact ⟨_, rfl, .inr (congrArg some hplace)⟩
  · exact ⟨_, rfl, .inl hoptional⟩

/-- A group is closed. -/
theorem closeExtglob (hhides : ctx.HidesDots) {tail : List Char → Except Error (List Char)}
    (h : t.Sheltered ctx True t.last.kind.exit outer inner)
    {frame : ExtglobFrame} {others : List Frame} (hframes : t.frames = .extglob frame :: others)
    {t' : Tokenizer}
    (hok : ({ t with frames := others } : Tokenizer).closeExtglob ctx tail frame = .ok t') :
    ∃ outer' inner', inner' ≠ [] ∧ t'.Sheltered ctx True Safe outer' inner' ∧
      t'.frames = others ∧ t'.rest = t.rest ∧ t'.last.kind = .paren := by
  have henclosed := h.enclosed
  rw [hframes] at henclosed
  have hkind : frame.kind ≠ .negate := by cases henclosed; assumption
  let u : Tokenizer := { t with frames := others }
  let closing := if ctx.options.capture then frame.kind.closing [] ++ [')']
    else frame.kind.closing []
  let paren : Token := { Token.ofSource .paren [')'] closing with isExtglob := true }
  obtain ⟨outer', inner', operator, opening, houter, hleads, htokens, hlength, hopening⟩ :=
    exists_closed hhides henclosed (t := u) h.tokens
  obtain ⟨optionalGroup, hclose, hoptional⟩ := closeExtglob_eq ctx tail hkind u
  have hclosed : t' = { (u.guarded ctx frame).push ctx paren with optionalGroup } :=
    Except.ok.inj (hok.symm.trans hclose)
  obtain ⟨previous, hpush⟩ := tokens_push_of_kind_ne (show paren.kind ≠ .text by simp [paren]) ctx
    (u.guarded ctx frame)
  have hprepared : (u.guarded ctx frame).prepared ctx paren = u.guarded ctx frame := by
    rw [Tokenizer.prepared, if_neg (by simp [keepsGlobstar, paren])]
  -- The tokens of the group join those before it.
  let inner₂ := inner' ++ [operator, opening] ++ inner ++ [{ paren with previous }]
  have htokens' : ((u.guarded ctx frame).push ctx paren).tokens = outer' ++ inner₂ := by
    rw [hpush, hprepared, htokens]
    simp [inner₂]
  have hlast : ((u.guarded ctx frame).push ctx paren).last.kind = .paren := by
    rw [last_of_tokens_eq (htokens'.trans (List.append_assoc _ _ _).symm)]
    rfl
  have hframes' : ((u.guarded ctx frame).push ctx paren).frames = others := by
    rw [push_frames, Tokenizer.noted, if_pos (show paren.kind = .paren from rfl)]
    exact (guarded_same ctx u frame).1
  have hrest : ((u.guarded ctx frame).push ctx paren).rest = t.rest := by
    rw [push_rest]
    unfold Tokenizer.guarded
    dsimp only
    split <;> rfl
  clear hok hclose hpush hprepared htokens
  generalize (u.guarded ctx frame).push ctx paren = s at hclosed htokens' hlast hframes' hrest
  subst hclosed
  have hcount : t.tokens.length < (outer' ++ inner₂).length := by
    have := congrArg List.length h.tokens
    simp only [List.length_append] at this hlength
    simp only [inner₂, List.length_append, List.length_cons, List.length_nil]
    omega
  have hbody : GuidesBody ctx.options.noCase Safe Safe (inner.flatMap Token.source) Safe := by
    have hexit : t.last.kind.exit = Safe :=
      TokenKind.exit_of_not_beginsSegment (h.inside (by simp [hframes]))
    have := h.leads
    rw [hexit, hframes] at this
    exact this
  have hpiece := guidesPiece_extglob hbody hkind ctx.options.capture
  rw [← hopening] at hpiece
  have hsources : inner₂.flatMap Token.source = (inner' ++ [operator]).flatMap Token.source ++
      (opening.source ++ inner.flatMap Token.source ++ closing) := by
    simp [inner₂, Token.source, paren, Token.ofSource]
  refine ⟨outer', inner₂, by simp [inner₂], ?_, hframes', hrest, hlast⟩
  refine
    { tokens := htokens'
      enclosed := hframes' ▸ houter
      between := isExit_safe
      leads := ?leads
      inside := fun _ => congrArg TokenKind.beginsSegment hlast
      dot := fun hdot => absurd (hlast.symm.trans hdot) (by simp)
      closed := fun _ _ _ => ?closed
      slash := fun hslash => absurd (hlast.symm.trans hslash) (by simp)
      star := fun _ hstar => ?star
      optional := fun place hsome => ?optional
      opening := fun hnil => absurd hnil (by simp [inner₂]) }
  case leads =>
    show GuidesBody _ (entry s.frames) _ _ _
    rw [hframes', hsources]
    exact hleads.append hpiece.guides
  case closed =>
    show ∃ earlier piece, _ ∧ GuidesBody _ (entry s.frames) _ _ _ ∧ _
    rw [hframes']
    exact ⟨_, _, hsources, hleads, hpiece⟩
  case star =>
    obtain hstar | hstar := hstar <;> exact absurd (hlast.symm.trans hstar) (by simp)
  case optional =>
    show place < s.tokens.length
    rw [htokens']
    obtain hsame | hnew := hoptional
    · have := h.optional place (hsame.symm.trans hsome)
      omega
    · obtain rfl : place = t.tokens.length := Option.some.inj (hsome.symm.trans hnew)
      exact hcount

end Sheltered

end Tokenizer

end PathGlob.Pattern
