import PathGlob.Proofs.Pattern.Ready

/-!
# `PathGlob.Proofs.Pattern.Runs`: tokens that are added on the way of a run

Two relations describe how a run goes on without saying how it ends. `Extends` says that reading
has changed only what stands behind the tokens that were there before, so the source of a group
that is put together anew, or guarded once it is closed, is still that of its tokens. `Leads`
says that a run comes by a state, whatever the bound on its steps.

A run of plain characters is read in one step. `leads_plain` splits it: the first of its
characters may be taken to be read alone, so patterns can be followed character by character.
-/

set_option autoImplicit false

namespace PathGlob.Pattern

open Regex

/-! ### Adding tokens -/

/-- The second tokens are the first ones with more source at the end, and every token but a
text one stays where it is. -/
def Extends (tokens : List Token) (source : List Char) (tokens' : List Token) : Prop :=
  ∀ before token after, tokens = before ++ token :: after → token.kind ≠ .text →
    ∃ after', tokens' = before ++ token :: after' ∧
      after'.flatMap Token.source = after.flatMap Token.source ++ source

theorem Extends.refl (tokens : List Token) : Extends tokens [] tokens :=
  fun _ _ after h _ => ⟨after, h, (List.append_nil _).symm⟩

theorem Extends.trans {tokens tokens' tokens'' : List Token} {a b : List Char}
    (h : Extends tokens a tokens') (h' : Extends tokens' b tokens'') :
    Extends tokens (a ++ b) tokens'' := by
  intro before token after heq hkind
  obtain ⟨after', heq', hsource⟩ := h before token after heq hkind
  obtain ⟨after'', heq'', hsource'⟩ := h' before token after' heq' hkind
  exact ⟨after'', heq'', by rw [hsource', hsource, List.append_assoc]⟩

theorem extends_append (tokens added : List Token) :
    Extends tokens (added.flatMap Token.source) (tokens ++ added) := by
  intro before token after heq _
  exact ⟨after ++ added, by rw [heq, List.append_assoc]; rfl, List.flatMap_append⟩

namespace Tokenizer

variable {t t' t'' : Tokenizer} {ctx : Context}

/-- A token that is added stands behind the others, even if it is merged with the last one. -/
theorem extends_pushed (h : t.tokens ≠ []) (token : Token) :
    Extends t.tokens token.source (t.pushed token) := by
  obtain ⟨before, htokens⟩ := exists_tokens_eq h
  have hpushed := pushed_eq htokens token
  intro first other after heq hother
  rw [hpushed]
  split
  case isTrue hmerge =>
    -- A text token that grows is behind every token that is not text.
    simp only [Bool.and_eq_true, decide_eq_true_eq] at hmerge
    rw [htokens] at heq
    rcases List.eq_nil_or_concat after with rfl | ⟨middle, x, rfl⟩
    · obtain ⟨-, hx⟩ := List.append_inj' heq rfl
      exact absurd (List.cons.inj hx).1 (fun hx => hother (hx ▸ hmerge.1))
    · rw [List.concat_eq_append] at heq ⊢
      rw [← List.cons_append, ← List.append_assoc] at heq
      obtain ⟨rfl, hx⟩ := List.append_inj' heq rfl
      obtain rfl := (List.cons.inj hx).1
      refine ⟨middle ++ [_], by rw [List.append_assoc]; rfl, ?_⟩
      simp [Token.source]
  case isFalse =>
    have hadded := extends_append t.tokens [{ token with previous := some before.length }]
      first other after heq hother
    rw [htokens, List.append_assoc] at hadded
    simpa [Token.source] using hadded

/-- Unless the last token is a globstar, a token is added and its text noted. -/
theorem push_eq_noted (ctx : Context) (h : t.last.kind ≠ .globstar) (token : Token) :
    t.push ctx token = { t with
      output := t.output ++ token.source, tokens := t.pushed token, frames := t.noted token } := by
  have hprepared : t.prepared ctx token = t := by simp [prepared, h]
  rw [push_eq_prepared, hprepared]

/-- Two texts noted in a row are one. -/
theorem noteInner_noteInner (t : Tokenizer) (v w : List Char) :
    (t.noteInner v).noteInner w = t.noteInner (v ++ w) := by
  have hframes (frames : List Frame) : (({ t with frames }.noteInner v).noteInner w).frames =
      ({ t with frames }.noteInner (v ++ w)).frames := by
    induction frames with
    | nil => rfl
    | cons frame frames ih =>
      cases frame with
      | extglob frame => simp [noteInner, modifyFrame, List.append_assoc]
      | paren | brace => exact congrArg (List.cons _) ih
  exact congrArg (fun frames => { t with frames }) (hframes t.frames)

/-- Reading on does not depend on the text that was added before. -/
theorem pushText_reading (ctx : Context) (h : t.last.kind ≠ .globstar) (value source : List Char)
    {d : Char} {more : List Char} (hrest : t.rest = d :: more) (n : Nat) :
    ((t.pushText ctx value source).reading more).skip n =
      (t.skip (n + 1)).pushText ctx value source := by
  rw [pushText, pushText, push_eq_noted ctx h,
    push_eq_noted ctx (show (t.skip (n + 1)).last.kind ≠ .globstar from h)]
  simp only [Tokenizer.reading, skip, hrest, List.drop_succ_cons, Nat.add_assoc, Nat.add_comm 1 n]
  rfl

/-- Text that is added is last. -/
theorem kind_last_pushed (h : t.tokens ≠ []) (value source : List Char) :
    ((t.pushed (.text value source)).getLast?.getD .bos).kind = .text := by
  obtain ⟨before, htokens⟩ := exists_tokens_eq h
  have hkind : (Token.text value source).kind = .text := rfl
  rw [pushed_eq htokens, hkind]
  split
  case isTrue hmerge => simpa using hmerge
  case isFalse => simp

/-- Two texts in a row are one. -/
theorem pushText_pushText (ctx : Context) (hne : t.tokens ≠ []) (h : t.last.kind ≠ .globstar)
    (v s v' s' : List Char) :
    (t.pushText ctx v s).pushText ctx v' s' = t.pushText ctx (v ++ v') (s ++ s') := by
  obtain ⟨before, htokens⟩ := exists_tokens_eq hne
  have hfirst := pushed_eq htokens (.text v s)
  have hboth := pushed_eq htokens (.text (v ++ v') (s ++ s'))
  have hkind (v s : List Char) : (Token.text v s).kind = .text := rfl
  have htokens' : (t.push ctx (.text v s)).tokens = t.pushed (.text v s) := by
    rw [push_eq_noted ctx h]
  have hsecond : (t.push ctx (.text v s)).pushed (.text v' s') =
      t.pushed (.text (v ++ v') (s ++ s')) := by
    simp only [hkind, decide_true, Bool.and_true, decide_eq_true_eq] at hfirst hboth
    rw [hboth]
    split
    case isTrue hmerge =>
      rw [hfirst, if_pos hmerge] at htokens'
      rw [pushed_eq htokens', if_pos (by simp [hmerge])]
      simp [Token.text, Token.ofSource, Token.source]
    case isFalse hmerge =>
      rw [hfirst, if_neg hmerge, List.append_cons] at htokens'
      rw [pushed_eq htokens', if_pos (by simp)]
      simp [Token.text, Token.ofSource, Token.source]
  have hlast : (t.push ctx (.text v s)).last.kind ≠ .globstar := by
    rw [Tokenizer.last, htokens', kind_last_pushed hne]
    decide
  have hnoted : (t.push ctx (.text v s)).noted (.text v' s') =
      t.noted (.text (v ++ v') (s ++ s')) := by
    have hframes := congrArg Tokenizer.frames (noteInner_noteInner t v v')
    rw [push_eq_noted ctx h]
    exact hframes
  rw [pushText, pushText, pushText, push_eq_noted ctx hlast, hsecond, hnoted, push_eq_noted ctx h,
    push_eq_noted ctx h]
  simp [Token.text, Token.ofSource, Token.source]

/-! ### States on the way -/

section
variable (ctx : Context) (tail : List Char → Except Error (List Char)) {c : Char}
  {more : List Char}

/-- However many steps there are for the first state, the second one is a state on the way with
enough steps left. -/
def Leads (t t' : Tokenizer) : Prop :=
  ∀ n, t.rest.length ≤ n → ∃ m, t'.rest.length ≤ m ∧ run ctx tail n t = run ctx tail m t'

variable {ctx tail}

theorem Leads.refl (t : Tokenizer) : Leads ctx tail t t := fun n hn => ⟨n, hn, rfl⟩

theorem Leads.trans (h : Leads ctx tail t t') (h' : Leads ctx tail t' t'') :
    Leads ctx tail t t'' := by
  intro n hn
  obtain ⟨m, hm, hrun⟩ := h n hn
  obtain ⟨k, hk, hrun'⟩ := h' m hm
  exact ⟨k, hk, hrun.trans hrun'⟩

theorem Leads.of_step (hrest : t.rest = c :: more)
    (hstep : step ctx tail (t.reading more) c = .ok t') (hrest' : t'.rest.length ≤ more.length) :
    Leads ctx tail t t' := by
  intro n hn
  rw [hrest] at hn
  cases n with
  | zero => exact absurd hn (by simp)
  | succ n =>
    have hn : more.length ≤ n := by simpa using hn
    exact ⟨n, by omega, by rw [run_of_rest_eq ctx tail hrest, hstep]; rfl⟩

theorem Leads.run_eq (h : Leads ctx tail t t') (hrest : t'.rest = []) :
    run ctx tail t.rest.length t = .ok t' := by
  obtain ⟨m, -, hrun⟩ := h _ (Nat.le_refl _)
  rw [hrun, run_of_rest_nil ctx tail hrest]

variable (ctx tail)

theorem step_of_not_isSpecial (hclass : t.inClass = false) (hquoted : t.quoted = false)
    (hc : isSpecial c = false) :
    step ctx tail t c = .ok ((t.skip (t.rest.takeWhile fun d => !isSpecial d).length).pushText ctx
      (c :: t.rest.takeWhile fun d => !isSpecial d)
      (c :: t.rest.takeWhile fun d => !isSpecial d)) := by
  simp only [isSpecial, List.contains_eq_mem, decide_eq_false_iff_not, List.mem_cons,
    List.not_mem_nil, or_false, not_or] at hc
  simp [step, hclass, hquoted, hc, plainText]

/-- A plain character is read as if it were read alone, even where the tokenizer takes a whole
run of them. -/
theorem leads_plain (hclass : t.inClass = false) (hquoted : t.quoted = false)
    (hne : t.tokens ≠ []) (hlast : t.last.kind ≠ .globstar) (hrest : t.rest = c :: more)
    (hc : isSpecial c = false) :
    Leads ctx tail t ((t.reading more).pushText ctx [c] [c]) := by
  have hpushed : ((t.reading more).pushText ctx [c] [c]).rest = more := by simp [pushText, reading]
  have hstep := step_of_not_isSpecial ctx tail (t := t.reading more) hclass hquoted hc
  have hrest' : (t.reading more).rest = more := rfl
  rw [hrest'] at hstep
  cases more with
  | nil => exact .of_step hrest hstep (Nat.le_of_eq (by rw [hpushed]))
  | cons d more =>
    cases hd : isSpecial d with
    | true =>
      rw [List.takeWhile_cons_of_neg (by simp [hd])] at hstep
      exact .of_step hrest hstep (Nat.le_of_eq (by rw [hpushed]))
    | false =>
      -- The run of the first character is that character and the run of the next one.
      intro n hn
      rw [hrest] at hn
      cases n with
      | zero => exact absurd hn (by simp)
      | succ n =>
        refine ⟨n + 1, by rw [hpushed]; simp at hn ⊢; omega, ?_⟩
        let next := ((t.reading (d :: more)).pushText ctx [c] [c]).reading more
        have hnext := step_of_not_isSpecial ctx tail (t := next)
          (show _ = false by simp [next, pushText, reading, hclass])
          (show _ = false by simp [next, pushText, reading, hquoted]) hd
        rw [run_of_rest_eq ctx tail hrest, run_of_rest_eq ctx tail hpushed, hstep, hnext,
          List.takeWhile_cons_of_pos (by simp [hd])]
        show Except.bind (.ok _) _ = Except.bind (.ok _) _
        rw [List.length_cons]
        congr 2
        show _ = pushText ctx (skip (Tokenizer.reading _ more)
          (more.takeWhile fun d => !isSpecial d).length) _ _
        rw [pushText_reading ctx (t := t.reading (d :: more)) hlast [c] [c] rfl,
          pushText_pushText ctx (t := (t.reading (d :: more)).skip _) hne hlast]
        rfl

end

end Tokenizer

end PathGlob.Pattern
