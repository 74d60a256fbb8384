import PathGlob.Proofs.Pattern.Arrives
import PathGlob.Proofs.Pattern.Thins
import PathGlob.Proofs.Regex.Assembled

/-!
# `PathGlob.Proofs.Pattern.Hushed`: tokens without capturing groups

With captures not asked for, a token opens no capturing group by itself, with one exception: a
parenthesis that belongs to the source language is translated as it stands, and what keeps it from
capturing is in the tokens behind it. `Hushed` says this of a list of tokens, so that it survives
whatever the tokenizer does to the tokens later: more of them are added, the last one is changed,
the tokens of a range are dropped, and what open groups refer to becomes text.

For the last of these the groups have to refer to what they take it for (`Frame.Points`).
`Tokenizer.Mute` puts both together.
-/

set_option autoImplicit false

namespace PathGlob

namespace Regex

/-! ### Fragments -/

variable {v w : List Char}

theorem silent_slash (windows : Bool) : Silent (Fragment.slash windows) := fun rest => by
  cases windows <;> rfl

theorem uncounted_slashClass (windows : Bool) : Uncounted true true (Fragment.slashClass windows) :=
  fun rest => by cases windows <;> rfl

theorem silent_dot : Silent Fragment.dot := uncounted_backslash false '.'

theorem silent_anyChar (windows : Bool) : Silent (Fragment.anyChar windows) := fun rest => by
  cases windows <;> rfl

theorem silent_anyCharNoDot (windows : Bool) : Silent (Fragment.anyCharNoDot windows) :=
  fun rest => by cases windows <;> rfl

theorem silent_oneChar : Silent Fragment.oneChar := fun rest => by
  simp [Fragment.oneChar, countCaptures, opensCapture]

theorem silent_noDotSegment (windows : Bool) : Silent (Fragment.noDotSegment windows) :=
  fun rest => by
    cases windows <;> simp [Fragment.noDotSegment, Fragment.slash, countCaptures, opensCapture]

theorem silent_noDotsSegment (windows : Bool) : Silent (Fragment.noDotsSegment windows) :=
  fun rest => by
    cases windows <;> simp [Fragment.noDotsSegment, Fragment.dotsSegment, Fragment.slash,
      countCaptures, opensCapture]

theorem silent_dotGuard (windows dots : Bool) : Silent (Fragment.dotGuard windows dots) := by
  unfold Fragment.dotGuard
  split
  · exact silent_noDotsSegment windows
  · exact fun rest => by simp [Fragment.noDot, countCaptures, opensCapture]

theorem silent_star (windows : Bool) : Silent (Fragment.star windows) := fun rest => by
  cases windows <;> rfl

theorem silent_globstar (windows dots : Bool) : Silent (Fragment.globstar windows dots false) :=
  fun rest => by
    cases windows <;> cases dots <;>
      simp [Fragment.globstar, Fragment.openGroup, Fragment.segmentStart, Fragment.dotsSegment,
        Fragment.dot, Fragment.slash, countCaptures, opensCapture]

theorem silent_openGroup : Silent (Fragment.openGroup false) := fun rest => by
  simp [Fragment.openGroup, countCaptures, opensCapture]

/-! ### What may follow a question mark -/

/-- Behind a question mark that begins a group, the character does not begin a name. -/
def IsMildChar (c : Char) : Prop := c ≠ '<' ∧ c ≠ 'P'

instance : DecidablePred IsMildChar := fun c => inferInstanceAs (Decidable (c ≠ '<' ∧ c ≠ 'P'))

/-- Behind a question mark that begins a group, the source does not begin a name. -/
def IsMild (source : List Char) : Prop := ∀ c, source.head? = some c → IsMildChar c

theorem isMild_nil : IsMild [] := fun _ h => absurd h (by simp)

theorem isMild_cons {c : Char} (hc : IsMildChar c) (source : List Char) : IsMild (c :: source) := by
  rintro _ ⟨⟩
  exact hc

theorem IsMild.append (hv : IsMild v) (hw : IsMild w) : IsMild (v ++ w) := by
  cases v with
  | nil => exact hw
  | cons c v => exact isMild_cons (hv c rfl) _

theorem opensCapture_question {c : Char} (hc : IsMildChar c) (rest : List Char) :
    opensCapture ('?' :: c :: rest) = false := by
  unfold opensCapture
  split <;> simp_all [IsMildChar]

end Regex

namespace Pattern

open Regex

/-! ### Tokens -/

/-- The token opens no capturing group. Behind a question mark that begins a group, it makes it no
named one, nor does the text of an operator. -/
structure Token.IsHushed (token : Token) : Prop where
  silent : Silent token.source
  paren : token.kind = .paren → token.source ≠ [] ∧ IsMild token.source
  operator : ∀ kind, token.kind = .extglob kind →
    IsMild token.source ∧ IsMild (Regex.escape token.value)

/-- A parenthesis that belongs to the source language. -/
structure Token.IsBare (token : Token) : Prop where
  kind : token.kind = .paren
  source : token.source = ['(']

/-- Behind a bare parenthesis the tokens keep it from capturing: they begin with a question mark,
and do not go on with a name. -/
inductive Asks : List Token → Prop
  | text {token : Token} {c : Char} {source : List Char} {more : List Token}
      (hkind : token.kind = .text) (hsource : token.source = '?' :: c :: source)
      (hc : IsMildChar c) : Asks (token :: more)
  | group {token operator paren : Token} {kind : ExtglobKind} {more : List Token}
      (hkind : token.kind = .text) (hsource : token.source = ['?'])
      (hoperator : operator.kind = .extglob kind) (hparen : paren.kind = .paren) :
      Asks (token :: operator :: paren :: more)

/-- No group of the tokens captures, nor would one if an open group became text. -/
inductive Hushed : List Token → Prop
  | nil : Hushed []
  | cons {token : Token} {tokens : List Token} (htoken : token.IsHushed) (h : Hushed tokens) :
      Hushed (token :: tokens)
  | bare {token : Token} {tokens : List Token} (htoken : token.IsBare) (hasks : Asks tokens)
      (h : Hushed tokens) : Hushed (token :: tokens)

theorem Token.isHushed_of_kind {token : Token} (h : Silent token.source)
    (hparen : token.kind ≠ .paren) (hoperator : ∀ kind, token.kind ≠ .extglob kind) :
    token.IsHushed where
  silent := h
  paren heq := absurd heq hparen
  operator kind heq := absurd heq (hoperator kind)

theorem Token.isHushed_paren {token : Token} (hkind : token.kind = .paren) (h : Silent token.source)
    {c : Char} {source : List Char} (hsource : token.source = c :: source) (hc : IsMildChar c) :
    token.IsHushed where
  silent := h
  paren _ := hsource ▸ ⟨List.cons_ne_nil _ _, isMild_cons hc _⟩
  operator kind heq := absurd (hkind.symm.trans heq) (by simp)

/-- Only what the token stands for matters. -/
theorem Token.IsHushed.congr {token token' : Token} (h : token.IsHushed)
    (hkind : token'.kind = token.kind) (hvalue : token'.value = token.value)
    (hsource : token'.source = token.source) : token'.IsHushed := by
  refine ⟨hsource ▸ h.silent, fun heq => ?_, fun kind heq => ?_⟩
  · rw [hsource]
    exact h.paren (hkind.symm.trans heq)
  · rw [hsource, hvalue]
    exact h.operator kind (hkind.symm.trans heq)

/-- A source that opens no group is put behind or before the token's own. -/
theorem Token.IsHushed.of_append {token token' : Token} (h : token.IsHushed) {guard : List Char}
    (hguard : Silent guard) (hmild : IsMild guard) (hkind : token'.kind = token.kind)
    (hvalue : token'.value = token.value)
    (hsource : token'.source = token.source ++ guard ∨ token'.source = guard ++ token.source) :
    token'.IsHushed := by
  refine ⟨?_, fun heq => ?_, fun kind heq => ?_⟩
  · obtain hsource | hsource := hsource
    · exact hsource ▸ h.silent.append hguard
    · exact hsource ▸ hguard.append h.silent
  · obtain ⟨hne, hparen⟩ := h.paren (hkind.symm.trans heq)
    obtain hsource | hsource := hsource
    · exact hsource ▸ ⟨List.append_ne_nil_of_left_ne_nil hne _, hparen.append hmild⟩
    · exact hsource ▸ ⟨List.append_ne_nil_of_right_ne_nil _ hne, hmild.append hparen⟩
  · obtain ⟨hoperator, hescape⟩ := h.operator kind (hkind.symm.trans heq)
    refine ⟨?_, hvalue ▸ hescape⟩
    obtain hsource | hsource := hsource
    · exact hsource ▸ hoperator.append hmild
    · exact hsource ▸ hmild.append hoperator

section
variable {tokens more : List Token} {token last last' : Token} {place : Nat}
  {change : Token → Token}

theorem Asks.append (h : Asks tokens) (more : List Token) : Asks (tokens ++ more) := by
  cases h with
  | text hkind hsource hc => exact .text hkind hsource hc
  | group hkind hsource hoperator hparen => exact .group hkind hsource hoperator hparen

/-- The last token is changed. In a text the question mark is still the beginning, and a parenthesis
of a group stays one. -/
theorem Asks.setLast (hasks : Asks (tokens ++ [last]))
    (htext : last.kind = .text → last'.kind = .text ∧ last.source <+: last'.source)
    (hreferred : last.kind.isReferred = true → last'.kind = last.kind) :
    Asks (tokens ++ [last']) := by
  generalize htokens : tokens ++ [last] = all at hasks
  cases hasks with
  | text hkind hsource hc =>
    cases tokens with
    | nil =>
      cases htokens
      obtain ⟨hkind', more, hsource'⟩ := htext hkind
      exact .text hkind' (by rw [← hsource', hsource]; rfl) hc
    | cons first tokens =>
      cases htokens
      exact .text hkind hsource hc
  | group hkind hsource hoperator hparen =>
    match tokens with
    | [] => exact absurd htokens (by simp)
    | [_] => exact absurd htokens (by simp)
    | [_, _] =>
      -- The last token is the parenthesis of the group itself.
      cases htokens
      exact .group hkind hsource hoperator ((hreferred (by rw [hparen]; rfl)).trans hparen)
    | _ :: _ :: _ :: _ =>
      cases htokens
      exact .group hkind hsource hoperator hparen

theorem Asks.modify (hasks : Asks tokens)
    (hchange : ∀ token, tokens[place]? = some token → token.kind ≠ .text ∧
      (token.kind.isReferred = true → (change token).kind = token.kind)) :
    Asks (tokens.modify place change) := by
  cases hasks with
  | text hkind hsource hc =>
    cases place with
    | zero => exact absurd hkind (hchange _ rfl).1
    | succ place => exact .text hkind hsource hc
  | group hkind hsource hoperator hparen =>
    match place with
    | 0 => exact absurd hkind (hchange _ rfl).1
    | 1 =>
      exact .group hkind hsource
        (((hchange _ rfl).2 (by rw [hoperator]; rfl)).trans hoperator) hparen
    | 2 =>
      exact .group hkind hsource hoperator
        (((hchange _ rfl).2 (by rw [hparen]; rfl)).trans hparen)
    | place + 3 => exact .group hkind hsource hoperator hparen

/-- None of the tokens is a brace. -/
theorem Asks.take (hasks : Asks tokens) (hplace : kindAt tokens place = some .brace) :
    Asks (tokens.take place) := by
  cases hasks with
  | text hkind hsource hc =>
    cases place with
    | zero => exact absurd (hkind.symm.trans (Option.some.inj hplace)) (by simp)
    | succ place => exact .text hkind hsource hc
  | group hkind hsource hoperator hparen =>
    match place with
    | 0 => exact absurd (hkind.symm.trans (Option.some.inj hplace)) (by simp)
    | 1 => exact absurd (hoperator.symm.trans (Option.some.inj hplace)) (by simp)
    | 2 => exact absurd (hparen.symm.trans (Option.some.inj hplace)) (by simp)
    | place + 3 => exact .group hkind hsource hoperator hparen

namespace Hushed

theorem append (h : Hushed tokens) (hmore : Hushed more) : Hushed (tokens ++ more) := by
  induction h with
  | nil => exact hmore
  | cons htoken _ ih => exact .cons htoken ih
  | bare htoken hasks _ ih => exact .bare htoken (hasks.append more) ih

theorem concat (h : Hushed tokens) (htoken : token.IsHushed) : Hushed (tokens ++ [token]) :=
  h.append (.cons htoken .nil)

/-- Of the tokens, only bare parentheses are not hushed by themselves. -/
theorem isHushed (h : Hushed tokens) (htoken : token ∈ tokens) (hkind : token.kind ≠ .paren) :
    token.IsHushed := by
  induction h with
  | nil => exact absurd htoken List.not_mem_nil
  | cons hhead _ ih =>
    obtain rfl | htoken := List.mem_cons.mp htoken
    · exact hhead
    · exact ih htoken
  | bare hhead _ _ ih =>
    obtain rfl | htoken := List.mem_cons.mp htoken
    · exact absurd hhead.kind hkind
    · exact ih htoken

/-- The last token has nothing behind it that would keep it from capturing. -/
theorem isHushed_last (h : Hushed (tokens ++ [last])) : last.IsHushed := by
  generalize htokens : tokens ++ [last] = all at h
  induction h generalizing tokens with
  | nil => exact absurd htokens (by simp)
  | cons htoken _ ih =>
    cases tokens with
    | nil =>
      cases htokens
      exact htoken
    | cons first tokens => exact ih (List.cons.inj htokens).2
  | bare htoken hasks _ ih =>
    cases tokens with
    | nil =>
      cases htokens
      -- Nothing is behind it that could keep it from capturing.
      exact nomatch hasks
    | cons first tokens => exact ih (List.cons.inj htokens).2

/-- Parentheses have sources that are not empty and begin no name. -/
theorem isMild_paren (h : Hushed (token :: tokens)) (hkind : token.kind = .paren) :
    token.source ≠ [] ∧ IsMild token.source := by
  cases h with
  | cons htoken _ => exact htoken.paren hkind
  | bare htoken _ _ =>
    rw [htoken.source]
    exact ⟨List.cons_ne_nil _ _, isMild_cons (by decide) _⟩

end Hushed

/-- The source behind a bare parenthesis keeps it from capturing. -/
theorem Asks.opensCapture_eq_false (hasks : Asks tokens) (h : Hushed tokens) (rest : List Char) :
    opensCapture (tokens.flatMap Token.source ++ rest) = false := by
  cases hasks with
  | text _ hsource hc =>
    rw [List.flatMap_cons, hsource]
    exact opensCapture_question hc _
  | @group token operator paren kind more hkind hsource hoperator hparen =>
    have hbehind : Hushed (operator :: paren :: more) := by
      cases h with
      | cons _ h => exact h
      | bare hbare => exact absurd (hkind.symm.trans hbare.kind) (by simp)
    -- A guard may stand before the operator, and the operator may have no source, so what follows
    -- the question mark is found in the two sources together.
    have hrest : Hushed (paren :: more) := by
      cases hbehind with
      | cons _ h => exact h
      | bare hbare => exact absurd (hoperator.symm.trans hbare.kind) (by simp)
    have hfirst : operator.IsHushed :=
      hbehind.isHushed List.mem_cons_self (by simp [hoperator])
    obtain ⟨hne, hmild⟩ := hrest.isMild_paren hparen
    have hgroup : IsMild (operator.source ++ paren.source) :=
      (hfirst.operator kind hoperator).1.append hmild
    obtain ⟨c, source, heq⟩ :=
      List.exists_cons_of_ne_nil (List.append_ne_nil_of_right_ne_nil operator.source hne)
    simp only [List.flatMap_cons, hsource, ← List.append_assoc, List.cons_append, heq]
    rw [List.append_assoc]
    exact opensCapture_question (hgroup c (by rw [heq]; rfl)) _

namespace Hushed

/-- No group of the source of the tokens captures. -/
theorem silent (h : Hushed tokens) : Silent (tokens.flatMap Token.source) := by
  induction h with
  | nil => exact uncounted_nil false
  | cons htoken _ ih =>
    rw [List.flatMap_cons]
    exact htoken.silent.append ih
  | bare htoken hasks h ih =>
    -- Whether the parenthesis is counted depends on the sources behind it.
    intro rest
    have hopens := hasks.opensCapture_eq_false h rest
    rw [List.flatMap_cons, htoken.source, List.append_assoc, List.singleton_append, countCaptures,
      hopens, ih rest]
    simp

/-- A bare parenthesis, with what keeps it from capturing. -/
theorem concat_bare (h : Hushed tokens) (htoken : token.IsBare) (hasks : Asks more)
    (hmore : Hushed more) : Hushed (tokens ++ token :: more) :=
  h.append (.bare htoken hasks hmore)

/-- The last token is changed. Text may only grow. -/
theorem setLast (h : Hushed (tokens ++ [last])) (hlast : last'.IsHushed)
    (htext : last.kind = .text → last'.kind = .text ∧ last.source <+: last'.source)
    (hreferred : last.kind.isReferred = true → last'.kind = last.kind) :
    Hushed (tokens ++ [last']) := by
  generalize htokens : tokens ++ [last] = all at h
  induction h generalizing tokens with
  | nil => exact absurd htokens (by simp)
  | cons htoken _ ih =>
    cases tokens with
    | nil => exact .cons hlast .nil
    | cons first tokens =>
      obtain ⟨rfl, hrest⟩ := List.cons.inj htokens
      exact .cons htoken (ih hrest)
  | bare htoken hbehind _ ih =>
    cases tokens with
    | nil =>
      cases htokens
      exact nomatch hbehind
    | cons first tokens =>
      obtain ⟨rfl, hrest⟩ := List.cons.inj htokens
      have hrest' : tokens ++ [last] = _ := hrest
      exact .bare htoken ((hrest' ▸ hbehind).setLast htext hreferred) (ih hrest')

/-- A token is changed that is no text. What open groups refer to stays of its kind. -/
theorem modify (h : Hushed tokens) (hchange : ∀ token, tokens[place]? = some token →
    token.kind ≠ .text ∧ (token.kind.isReferred = true → (change token).kind = token.kind) ∧
      (change token).IsHushed) :
    Hushed (tokens.modify place change) := by
  induction h generalizing place with
  | nil => simpa using Hushed.nil
  | cons htoken h ih =>
    cases place with
    | zero => exact .cons (hchange _ rfl).2.2 h
    | succ place => exact .cons htoken (ih hchange)
  | bare htoken hbehind h ih =>
    cases place with
    | zero => exact .cons (hchange _ rfl).2.2 h
    | succ place =>
      refine .bare htoken (hbehind.modify fun token heq => ?_) (ih hchange)
      exact ⟨(hchange token heq).1, (hchange token heq).2.1⟩

/-- The tokens before a brace. -/
theorem take (h : Hushed tokens) (hplace : kindAt tokens place = some .brace) :
    Hushed (tokens.take place) := by
  induction h generalizing place with
  | nil => simpa using Hushed.nil
  | cons htoken _ ih =>
    cases place with
    | zero => exact .nil
    | succ place => exact .cons htoken (ih hplace)
  | bare htoken hbehind _ ih =>
    cases place with
    | zero => exact .nil
    | succ place => exact .bare htoken (hbehind.take hplace) (ih hplace)

end Hushed

end

end Pattern

end PathGlob
