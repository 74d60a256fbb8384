import PathGlob.Proofs.Pattern.Globstar
import PathGlob.Proofs.Pattern.Shelter

/-!
# `PathGlob.Proofs.Pattern.Starred`: stars that stay clear of hidden segments

A star gets a guard where a segment begins, so the sources still lead past no hidden segment
(`Sheltered.star`). Two stars that fill a segment make a globstar, which takes the separator before
it, with the guard, into its own group. So each of them has to be undone before the globstar can
take their place, and that is why `Sheltered` remembers what stood before a star.
-/

set_option autoImplicit false

namespace PathGlob.Pattern

open Regex Cursor

/-- Only what follows a separator is redundant. -/
theorem redundantGlobstars_eq_zero {rest : List Char} (h : rest.head? ≠ some '/') (n : Nat) :
    redundantGlobstars rest n = 0 := by
  cases n with
  | zero => rw [redundantGlobstars]
  | succ n =>
    unfold redundantGlobstars
    split
    · exact absurd rfl h
    · exact absurd rfl h
    · rfl

namespace Tokenizer

variable {ctx : Context} {more : Prop} {Q R : Cursor → Prop} {outer inner : List Token}
  {t : Tokenizer}

/-- A star opens a group if it is not the third one of a run. -/
def starOpensExtglob (ctx : Context) (t : Tokenizer) : Bool :=
  !(t.last.kind = .globstar || t.last.isStarRun) &&
    (!ctx.options.noExtglob && t.ahead 0 = some '(' && (t.ahead 1).any (· ≠ '?'))

theorem star_of_starOpensExtglob (h : t.starOpensExtglob ctx = true) :
    t.star ctx = t.openExtglob ctx .zeroOrMore '*' := by
  rw [starOpensExtglob, Bool.and_eq_true, Bool.not_eq_true'] at h
  rw [Tokenizer.star, if_neg (ne_true_of_eq_false h.1), if_pos h.2]

theorem not_opens_of_starOpensExtglob (h : t.starOpensExtglob ctx = false)
    (hlast : ¬ (t.last.kind = .globstar || t.last.isStarRun) = true) :
    ¬ (!ctx.options.noExtglob && t.ahead 0 = some '(' && (t.ahead 1).any (· ≠ '?')) = true := by
  rw [starOpensExtglob, eq_false_of_ne_true hlast, Bool.not_false, Bool.true_and] at h
  exact ne_true_of_eq_false h

namespace Sheltered

theorem mono {more' : Prop} (h : t.Sheltered ctx more Q outer inner) (hmore : more' → more) :
    t.Sheltered ctx more' Q outer inner :=
  { h with
    closed := fun hholds => h.closed (hmore hholds)
    star := fun hholds => h.star (hmore hholds) }

/-- Where the text goes on is no matter, nor the source that is edited along. -/
theorem of_same (h : t.Sheltered ctx more Q outer inner) {s : Tokenizer}
    (htokens : s.tokens = t.tokens)
    (hsame : s.frames = t.frames ∧ s.optionalGroup = t.optionalGroup) :
    s.Sheltered ctx more Q outer inner := by
  obtain ⟨hframes, hoptional⟩ := hsame
  have hlast : s.last = t.last := by rw [last, last, htokens]
  refine
    { tokens := htokens.trans h.tokens
      enclosed := hframes ▸ h.enclosed
      leads := hframes ▸ h.leads
      between := h.between
      inside := by rw [hframes, hlast]; exact h.inside
      dot := hlast ▸ h.dot
      closed := by rw [hframes, hlast]; exact h.closed
      slash := by rw [hframes, hlast]; exact h.slash
      star := by rw [hframes, hlast]; exact h.star
      optional := by rw [hoptional, htokens]; exact h.optional
      opening := by rw [hoptional, lastPlace, htokens]; exact h.opening }

/-! ### The first star -/

/-- A guard is put behind the last token, and a star is to follow. -/
theorem guardLast (h : t.Sheltered ctx more Q outer inner) (hinner : inner ≠ [])
    {guard : List Char} (hguard : ctx.Guides Q guard Safe) :
    ∃ inner', inner' ≠ [] ∧ (t.guardLast guard).Sheltered ctx False Safe outer inner' ∧
      (t.guardLast guard).last.kind = t.last.kind := by
  obtain ⟨before, heq⟩ := h.exists_inner_eq hinner
  let change (token : Token) : Token := { token with source? := some (token.source ++ guard) }
  have htokens : t.tokens = (outer ++ before) ++ [t.last] := by
    rw [h.tokens, List.append_assoc, ← heq]
  have htokens' : (t.guardLast guard).tokens = (outer ++ before) ++ [change t.last] :=
    tokens_modifyLast htokens
  have hlast : (t.guardLast guard).last = change t.last := last_of_tokens_eq htokens'
  have hkind : (t.guardLast guard).last.kind = t.last.kind := by rw [hlast]
  refine ⟨before ++ [change t.last], by simp, ?_, hkind⟩
  refine
    { tokens := htokens'.trans (List.append_assoc _ _ _)
      enclosed := h.enclosed
      leads := ?leads
      between := isExit_safe
      inside := fun hframes => by rw [hkind]; exact h.inside hframes
      dot := by rw [hkind]; exact h.dot
      closed := fun hfalse => hfalse.elim
      slash := fun hslash => ?slash
      star := fun hfalse => hfalse.elim
      optional := fun place hplace => ?optional
      opening := fun hnil => absurd hnil (by simp) }
  case leads =>
    have := h.leads.append hguard
    rw [heq] at this
    show ctx.Leads t.frames (before ++ [change t.last]) Safe
    simpa [Context.Leads, Token.source, change] using this
  case slash =>
    obtain ⟨earlier, last, heq', hearlier, hguides⟩ := h.slash (hkind.symm.trans hslash)
    obtain ⟨rfl, hlast'⟩ := List.append_inj' (heq.symm.trans heq') rfl
    obtain rfl := (List.cons.inj hlast').1
    exact ⟨before, change t.last, rfl, hearlier, hguides.append hguard⟩
  case optional =>
    have := h.optional place hplace
    rw [htokens] at this
    simpa [htokens'] using this

/-- The source of a star behind a safe place. -/
theorem push_star (h : t.Sheltered ctx more Safe outer inner) (hne : t.tokens ≠ [])
    (hkind : t.last.kind ≠ .globstar) {source : List Char}
    (hsource : ctx.Guides Safe source Safe) :
    (∃ inner', (t.push ctx (.ofSource .star ['*'] source)).Sheltered ctx True Safe outer inner') ∧
      (t.push ctx (.ofSource .star ['*'] source)).last.kind = .star := by
  have hprepared : t.prepared ctx (.ofSource .star ['*'] source) = t := by
    rw [Tokenizer.prepared, if_neg (by simp [hkind])]
  obtain ⟨inner', -, h'⟩ := h.push_of_leads hne hprepared (h.leads.append hsource)
    isExit_safe (by simp [Token.ofSource]) (fun _ => rfl) (by simp) (by simp)
    (by simp) fun _ _ => id
  exact ⟨⟨inner', h'⟩, kind_last_push hne ctx _⟩

/-- The first star, with its guard where a segment begins. -/
theorem firstStar (hhides : ctx.HidesDots) (h : t.Sheltered ctx True t.last.kind.exit outer inner)
    (hne : t.tokens ≠ []) (hglobstar : t.last.kind ≠ .globstar)
    (hplace : t.last.kind = .bos ↔ t.place = t.start) :
    let star := (match t.starGuard? ctx with
      | some guard => t.guardLast guard
      | none => t).push ctx (.ofSource .star ['*'] ctx.star)
    (∃ inner', star.Sheltered ctx True Safe outer inner') ∧ star.last.kind = .star := by
  -- A guard needs a token that it can be put behind.
  have hguarded {guard : List Char} (hinner : inner ≠ [])
      (hguard : ctx.Guides t.last.kind.exit guard Safe) :
      (∃ inner', ((t.guardLast guard).push ctx
        (.ofSource .star ['*'] ctx.star)).Sheltered ctx True Safe outer inner') ∧
      ((t.guardLast guard).push ctx (.ofSource .star ['*'] ctx.star)).last.kind = .star := by
    obtain ⟨inner', hinner', hs, hkind⟩ := h.guardLast hinner hguard
    refine hs.push_star ?_ (hkind ▸ hglobstar) hhides.guides_star
    rw [hs.tokens]
    exact List.append_ne_nil_of_right_ne_nil _ hinner'
  have hdotGuard : ctx.Guides t.last.kind.exit ctx.dotGuard Safe :=
    hhides.guides_dotGuard.mono t.last.kind.isExit_exit.2 fun _ => id
  have hinner (hkind : t.last.kind ≠ .paren) : inner ≠ [] := fun hnil =>
    hkind (h.kind_last_of_inner_eq_nil hne hnil)
  unfold starGuard?
  dsimp only
  rw [if_neg h.dot]
  by_cases hbegins : t.place = t.start ∨ t.last.kind = .slash
  · have hkind : t.last.kind ≠ .paren := by
      obtain hstart | hslash := hbegins
      · simp [hplace.mpr hstart]
      · simp [hslash]
    rw [if_pos (by simpa [h.dot] using hbegins)]
    dsimp only
    split
    · exact hguarded (hinner hkind) hdotGuard
    · exact hguarded (hinner hkind) (hdotGuard.append guides_oneChar)
  · rw [if_neg (by simpa [h.dot] using hbegins)]
    split
    · rename_i hoptional
      split at hoptional
      · obtain rfl := Option.some.inj hoptional
        exact hguarded (fun hnil => h.opening hnil ‹_›) hdotGuard
      · exact absurd hoptional (by simp)
    · rw [not_or] at hbegins
      have hexit : t.last.kind.exit = Safe := by
        refine TokenKind.exit_of_not_beginsSegment ?_
        have hbos : t.last.kind ≠ .bos := fun hbos => hbegins.1 (hplace.mp hbos)
        cases hkind : t.last.kind <;> simp_all [TokenKind.beginsSegment]
      exact (hexit ▸ h).push_star hne hglobstar hhides.guides_star

/-! ### Globstars -/

/-- A third star makes the run a single star again. -/
theorem starRun (hhides : ctx.HidesDots) (h : t.Sheltered ctx True Q outer inner)
    (hlast : t.last.kind = .star ∨ t.last.kind = .globstar) :
    ∃ inner', inner' ≠ [] ∧ Sheltered ctx True Safe outer inner' { (t.modifyLast fun token =>
      { token with kind := .star, isStarRun := true, value := token.value ++ ['*'],
                   source? := some ctx.star }).needRebuild with globstar := true } := by
  obtain ⟨inner', hinner, -, h'⟩ := h.replaceStar hlast (s := { (t.modifyLast fun token =>
    { token with kind := .star, isStarRun := true, value := token.value ++ ['*'],
                 source? := some ctx.star }).needRebuild with globstar := true }) rfl
    ⟨rfl, rfl⟩ (.inl rfl) hhides.guides_star isExit_safe
  exact ⟨inner', hinner, h'⟩

section
variable {before : List Token} {prior star : Token}

/-- A globstar takes the place of the star. -/
theorem promote (h : t.Sheltered ctx True Q outer inner) (hstar : t.Starred before prior star)
    {source : List Char} (hsource : ctx.Guides Safe source R)
    (hbetween : IsExit R) {s : Tokenizer}
    (htokens : s.tokens = t.tokens)
    (hsame : s.frames = t.frames ∧ s.optionalGroup = t.optionalGroup) :
    ∃ inner', inner' ≠ [] ∧
      (s.promote (before.length + 1) source).Sheltered ctx True R outer inner' := by
  have hpromoted : (s.promote (before.length + 1) source).tokens =
      t.tokens.modify t.lastPlace fun token => { token with
        kind := .globstar, value := token.value ++ ['*'], source? := some source } := by
    rw [hstar.lastPlace, ← htokens]
    rfl
  obtain ⟨inner', hinner, -, h'⟩ := h.replaceStar (.inl (by rw [hstar.last, hstar.kind])) hpromoted
    hsame (.inr rfl) hsource hbetween
  exact ⟨inner', hinner, h'⟩

/-- A globstar takes the place of the separator and the star. -/
theorem globstarAfterSlash (h : t.Sheltered ctx True Q outer inner)
    (hstar : t.Starred before prior star) (hprior : prior.kind = .slash) {source : List Char}
    (hsource : ∀ slash, ctx.Guides Clear slash Safe →
      ctx.Guides Clear (['(', '?', ':'] ++ slash ++ source) R)
    (hbetween : IsExit R) {s : Tokenizer}
    (htokens : s.tokens = t.tokens)
    (hsame : s.frames = t.frames ∧ s.optionalGroup = t.optionalGroup) :
    ∃ inner', (s.globstarAfterSlash before.length (before.length + 1) prior star source).Sheltered
      ctx False R outer inner' := by
  obtain ⟨inside, last, rfl, hbefore⟩ := h.star trivial (.inl (by rw [hstar.last, hstar.kind]))
  have hsplit : (outer ++ inside) ++ [last] = (before ++ [prior]) ++ [star] := by
    rw [List.append_assoc, ← h.tokens, hstar.tokens]
    simp
  obtain ⟨hfront, -⟩ := List.append_inj' hsplit rfl
  -- The separator belongs to the innermost group, which a parenthesis has opened.
  obtain ⟨earlier, rfl⟩ : ∃ earlier, inside = earlier ++ [prior] := by
    obtain rfl | ⟨earlier, found, rfl⟩ := List.eq_nil_or_concat inside
    · rw [List.append_nil] at hfront
      obtain ⟨_, opening, heq, hparen⟩ := h.enclosed.exists_opening (by simp [hfront])
      obtain ⟨-, hopening⟩ := List.append_inj' (hfront.symm.trans heq) rfl
      rw [← (List.cons.inj hopening).1, hprior] at hparen
      exact absurd hparen (by simp)
    · rw [List.concat_eq_append, ← List.append_assoc] at hfront
      obtain ⟨-, hfound⟩ := List.append_inj' hfront rfl
      exact ⟨earlier, by rw [List.concat_eq_append, (List.cons.inj hfound).1]⟩
  obtain ⟨hearlier, hguides⟩ := hbefore.slash earlier prior rfl hprior
  rw [← List.append_assoc] at hfront
  obtain ⟨rfl, -⟩ := List.append_inj' hfront rfl
  have hs : s.Starred (outer ++ earlier) prior star :=
    ⟨htokens.trans hstar.tokens, hstar.kind, hstar.isStarRun⟩
  let slash : Token := { prior with source? := some (['(', '?', ':'] ++ prior.source) }
  let globstar : Token :=
    { star with kind := .globstar, value := star.value ++ ['*'], source? := some source }
  have htokens' := hs.tokens_globstarAfterSlash source
  have hlast : (s.globstarAfterSlash (outer ++ earlier).length ((outer ++ earlier).length + 1)
      prior star source).last.kind = .globstar := by
    rw [last_of_tokens_eq (htokens'.trans (List.append_cons _ _ _))]
  obtain ⟨hframes, hoptional⟩ := hsame
  refine ⟨earlier ++ [slash, globstar], ?_⟩
  refine
    { tokens := htokens'.trans (List.append_assoc _ _ _)
      enclosed := hframes ▸ h.enclosed
      leads := ?leads
      between := hbetween
      inside := fun _ => by rw [hlast]; rfl
      dot := by rw [hlast]; simp
      closed := fun hfalse => hfalse.elim
      slash := fun hslash => absurd (hlast.symm.trans hslash) (by simp)
      star := fun hfalse => hfalse.elim
      optional := fun place hplace => ?optional
      opening := fun hnil => absurd hnil (by simp) }
  case leads =>
    show ctx.Leads s.frames _ R
    rw [hframes]
    have := hearlier.append (hsource prior.source hguides)
    simpa [Context.Leads, Token.source, slash, globstar] using this
  case optional =>
    have := h.optional place (hoptional ▸ hplace)
    rw [h.tokens] at this
    rw [htokens']
    simpa using this

/-- The separator behind a globstar. -/
theorem absorbSlash (h : t.Sheltered ctx more Clear outer inner) (hne : t.tokens ≠ [])
    (hframes : t.frames = []) :
    ∃ inner', inner' ≠ [] ∧ (t.absorbSlash ctx).Sheltered ctx True
      (t.absorbSlash ctx).last.kind.exit outer inner' := by
  have hprepared : (t.skip 1).prepared ctx absorbed = t.skip 1 := by
    unfold Tokenizer.prepared
    simp [keepsGlobstar, absorbed]
  have hguides : ctx.Guides Clear absorbed.source Clear := .nil
  have hkind : (t.absorbSlash ctx).last.kind = .slash :=
    kind_last_push (t := t.skip 1) hne ctx absorbed
  have hskip : (t.skip 1).Sheltered ctx more Clear outer inner :=
    h.of_same rfl ⟨rfl, rfl⟩
  rw [hkind]
  exact hskip.push_of_leads (R := Clear) hne hprepared (h.leads.append hguides)
    isExit_clear (by decide)
    (fun hopen => absurd hframes hopen) (by decide) (by decide) (fun _ => hguides) (by simp)

/-- The second of two stars that may form a globstar. A separator behind it is outside of all
groups. -/
theorem globstarAt (hhides : ctx.HidesDots) (h : t.Sheltered ctx True Q outer inner)
    (hstar : t.Starred before prior star) (hslash : t.rest.head? = some '/' → t.frames = [])
    (beforePrior : Option TokenKind) :
    ∃ inner', (t.globstarAt ctx star before.length prior beforePrior).Sheltered ctx
      ((t.globstarAt ctx star before.length prior beforePrior).rest ≠ [])
      (t.globstarAt ctx star before.length prior beforePrior).last.kind.exit outer inner' := by
  have hglobstar : ctx.Guides Safe ctx.globstar Safe := by
    rw [hhides.globstar_eq]
    exact guides_globstar
  let s : Tokenizer :=
    { t.skip (redundantGlobstars t.rest t.rest.length) with globstar := true }
  have hs : s.Starred before prior star := ⟨hstar.tokens, hstar.kind, hstar.isStarRun⟩
  have hframes (hrest : s.rest.head? = some '/') : t.frames = [] := by
    refine Classical.byContradiction fun hopen => ?_
    have hzero := redundantGlobstars_eq_zero (fun hhead => hopen (hslash hhead)) t.rest.length
    have hsame : s.rest = t.rest := congrArg (List.drop · t.rest) hzero
    exact hopen (hslash (hsame ▸ hrest))
  have hpromote {output : List Char} {more : Prop} : ∃ inner',
      ({ s with output }.promote (before.length + 1) ctx.globstar).Sheltered ctx more
        ({ s with output }.promote (before.length + 1) ctx.globstar).last.kind.exit outer
        inner' := by
    obtain ⟨inner', -, h'⟩ := h.promote hstar hglobstar isExit_safe (s := { s with output }) rfl
      ⟨rfl, rfl⟩
    have hs' : { s with output }.Starred before prior star := ⟨hs.tokens, hs.kind, hs.isStarRun⟩
    rw [last_of_tokens_eq ((hs'.tokens_promote _).trans (List.append_cons before prior _))]
    exact ⟨inner', h'.mono fun _ => trivial⟩
  unfold Tokenizer.globstarAt
  dsimp only
  rw [hstar.lastPlace]
  split
  case isTrue => exact hpromote
  case isFalse =>
    split
    case isTrue hlast =>
      simp only [Bool.and_eq_true, decide_eq_true_eq, List.isEmpty_iff] at hlast
      obtain ⟨⟨⟨hprior, -⟩, -⟩, hrest⟩ := hlast
      have hclosing : (if ctx.options.strictSlashes then [')'] else ['|', '$', ')']) =
          ['|', '$', ')'] ∨ (if ctx.options.strictSlashes then [')'] else ['|', '$', ')']) =
            [')'] := by
        split <;> simp
      obtain ⟨inner', h'⟩ := h.globstarAfterSlash hstar hprior
        (fun slash hguides => hhides.globstar_eq ▸ guides_trailingGlobstar hguides hclosing)
        isExit_safe (s := s) rfl ⟨rfl, rfl⟩
      rw [last_of_tokens_eq ((hs.tokens_globstarAfterSlash _).trans (List.append_cons before _ _))]
      exact ⟨inner', h'.mono fun hmore => hmore hrest⟩
    case isFalse =>
      split
      case isTrue hbetween =>
        simp only [Bool.and_eq_true, decide_eq_true_eq] at hbetween
        obtain ⟨⟨hprior, -⟩, hrest⟩ := hbetween
        have hclosing : (if 1 < s.rest.length then ['|', '$', ')'] else [')']) =
            ['|', '$', ')'] ∨ (if 1 < s.rest.length then ['|', '$', ')'] else [')']) = [')'] := by
          split <;> simp
        obtain ⟨inner', h'⟩ := h.globstarAfterSlash hstar hprior
          (fun slash hguides => hhides.globstar_eq ▸ guides_innerGlobstar hguides hclosing)
          isExit_clear (s := s) rfl ⟨rfl, rfl⟩
        obtain ⟨inner'', -, h''⟩ := h'.absorbSlash
          (by rw [hs.tokens_globstarAfterSlash]; simp) (hframes hrest)
        exact ⟨inner'', h''.mono fun _ => trivial⟩
      case isFalse =>
        split
        case isTrue hfirst =>
          rw [Bool.and_eq_true, decide_eq_true_eq, decide_eq_true_eq] at hfirst
          let source := ['(', '?', ':', '^', '|'] ++ Fragment.slash ctx.windows ++
            '|' :: ctx.globstar ++ Fragment.slash ctx.windows ++ [')']
          have hsource : ctx.Guides Safe source Clear := by
            simp only [source, hhides.globstar_eq]
            exact guides_leadingGlobstar
          let s' : Tokenizer :=
            { s with output := (t.tokens.head?.getD .bos).source ++ source }
          have hs' : s'.Starred before prior star := ⟨hs.tokens, hs.kind, hs.isStarRun⟩
          obtain ⟨inner', -, h'⟩ := h.promote hstar hsource isExit_clear (s := s') rfl
            ⟨rfl, rfl⟩
          obtain ⟨inner'', -, h''⟩ := h'.absorbSlash (by rw [hs'.tokens_promote]; simp)
            (hframes hfirst.2)
          exact ⟨inner'', h''.mono fun _ => trivial⟩
        case isFalse => exact hpromote

/-- A star after a star. -/
theorem secondStar (hhides : ctx.HidesDots) (h : t.Sheltered ctx True t.last.kind.exit outer inner)
    (hstar : t.Starred before prior star) (hprevious : star.previous = some before.length)
    (hslash : t.rest.head? = some '/' → t.frames = []) :
    ∃ inner', (t.secondStar ctx).Sheltered ctx ((t.secondStar ctx).rest ≠ [])
      (t.secondStar ctx).last.kind.exit outer inner' := by
  have hkind : t.last.kind = .star := by rw [hstar.last, hstar.kind]
  have hprior : t.tokens[before.length]? = some prior := by simp [hstar.tokens]
  have hexit : TokenKind.star.exit = Safe := TokenKind.exit_of_not_beginsSegment rfl
  unfold Tokenizer.secondStar
  split
  case isTrue => exact ⟨inner, h.mono fun _ => trivial⟩
  case isFalse =>
    dsimp only
    split
    case isTrue =>
      rw [hkind, hexit] at h
      have hne : t.tokens ≠ [] := by simp [hstar.tokens]
      obtain ⟨⟨inner', h'⟩, hlast⟩ := h.push_star hne (by simp [hkind]) .nil
      rw [hlast, hexit]
      exact ⟨inner', h'.mono fun _ => trivial⟩
    case isFalse =>
      rw [hstar.last, hprevious, Option.getD_some, hprior, Option.getD_some]
      exact h.globstarAt hhides hstar hslash _

end

/-- A star that opens no group. -/
theorem readStar (hhides : ctx.HidesDots) (h : t.Sheltered ctx True t.last.kind.exit outer inner)
    (hready : t.Ready ctx t.frames) (hplace : t.last.kind = .bos ↔ t.place = t.start)
    (hslash : t.rest.head? = some '/' → t.frames = [])
    (hextglob : t.starOpensExtglob ctx = false) :
    ∃ inner', (t.star ctx).Sheltered ctx ((t.star ctx).rest ≠ []) (t.star ctx).last.kind.exit
      outer inner' := by
  have hne := hready.settled.ne_nil
  have hshelter {s : Tokenizer} (hkind : s.last.kind = .star) {inner' : List Token}
      (hs : s.Sheltered ctx True Safe outer inner') :
      s.Sheltered ctx (s.rest ≠ []) s.last.kind.exit outer inner' := by
    rw [hkind, TokenKind.exit_of_not_beginsSegment rfl]
    exact hs.mono fun _ => trivial
  unfold Tokenizer.star
  split
  case isTrue hlast =>
    rw [Bool.or_eq_true, decide_eq_true_eq] at hlast
    have hkind : t.last.kind = .star ∨ t.last.kind = .globstar := by
      refine hlast.symm.imp_left (hready.settled.run t.last ?_)
      rw [last, List.getLast?_eq_some_getLast hne]
      exact List.getLast_mem _
    obtain ⟨inner', -, h'⟩ := h.starRun hhides hkind
    refine ⟨inner', hshelter ?_ h'⟩
    show (t.modifyLast _).last.kind = .star
    rw [last_modifyLast hne]
  case isFalse hlast =>
    rw [if_neg (not_opens_of_starOpensExtglob hextglob hlast)]
    rw [Bool.or_eq_true, decide_eq_true_eq, not_or] at hlast
    split
    case isTrue hstar =>
      obtain ⟨before, prior, hstarred, hprevious, -⟩ :=
        hready.exists_starred hstar (eq_false_of_ne_true hlast.2)
      exact h.secondStar hhides hstarred hprevious hslash
    case isFalse =>
      obtain ⟨⟨inner', h'⟩, hkind⟩ := h.firstStar hhides hne hlast.1 hplace
      simp only [hhides.bash, Bool.false_eq_true, if_false]
      exact ⟨inner', hshelter hkind h'⟩

end Sheltered

end Tokenizer

end PathGlob.Pattern
