import PathGlob.Proofs.Pattern.Arrives

/-!
# `PathGlob.Proofs.Pattern.Sound`: the tokens and the source stay in step

`Tokenizer.Sound` adds to `Tokenizer.Joined` what is known within brackets and at the beginning of
the pattern. Every step keeps it, so whatever the pattern and the options, the source that the
tokenizer arrives at is that of its tokens (`Context.output_tokenize`).
-/

set_option autoImplicit false

namespace PathGlob.Pattern

open Regex

namespace Tokenizer

variable {ctx : Context} {t : Tokenizer} {token : Token}

/-! ### Brackets -/

/-- Within brackets: the last token is the bracket, which is its own source. -/
structure Bracketed (ctx : Context) (t : Tokenizer) : Prop where
  joined : t.Joined
  inClass : t.inClass = true
  quoted : t.quoted = false
  noBracket : ctx.options.noBracket = false
  kind : t.last.kind = .bracket
  source? : t.last.source? = none

/-- What becomes of a bracket: its value and its marks may change. -/
structure Token.KeepsBracket (change : Token → Token) : Prop where
  kind : ∀ token, (change token).kind = token.kind
  previous : ∀ token, (change token).previous = token.previous
  isStarRun : ∀ token, (change token).isStarRun = token.isStarRun
  source? : ∀ token, (change token).source? = token.source?

theorem literalBracket_ne_nil (ctx : Context) {value : List Char} (h : value ≠ []) :
    literalBracket ctx value ≠ [] := by
  unfold literalBracket
  split
  · intro hnil
    obtain ⟨c, rest, rfl⟩ := List.exists_cons_of_ne_nil h
    exact escapeChar_ne_nil c (List.flatMap_eq_nil_iff.mp hnil c List.mem_cons_self)
  · simp

namespace Bracketed

variable {t' : Tokenizer}

theorem output_ne_nil (h : t.Bracketed ctx) : t.output ≠ [] :=
  h.joined.output_ne_nil_of_kind (by simp [h.kind])

theorem source_last (h : t.Bracketed ctx) : t.last.source = t.last.value := by
  rw [Token.source, h.source?]
  rfl

/-- The value of the bracket is changed, and the source with it, unless that is put together
anew. -/
theorem joined_modifyLast (h : t.Bracketed ctx) (change : Token → Token)
    (hchange : Token.KeepsBracket change)
    (htokens : t'.tokens = t.tokens.modify t.lastPlace change) (hframes : t'.frames = t.frames)
    (hrebuild : t'.rebuild = false → t.rebuild = false)
    (houtput : t'.rebuild = false → ∀ before, t.output = before ++ t.last.value →
      t'.output = before ++ (change t.last).value) (hne : t'.output ≠ []) :
    t'.Joined ∧ t'.last.kind = .bracket := by
  have hlast : t'.last = change t.last := by
    have := last_modifyLast h.joined.ne_nil change
    rwa [Tokenizer.modifyLast, modify, last, ← htokens] at this
  refine ⟨?_, by rw [hlast, hchange.kind, h.kind]⟩
  refine h.joined.modifyLast change htokens hframes hchange.previous (.inl (hchange.kind _))
    (fun htrue => .inr ⟨hchange.isStarRun _ ▸ htrue, hchange.kind _⟩) hrebuild
    (fun hfalse before hbefore => ?_) hne
  rw [h.source_last] at hbefore
  rw [Token.source, hchange.source?, h.source?]
  exact houtput hfalse before hbefore

theorem modifyLast (h : t.Bracketed ctx) (change : Token → Token)
    (hchange : Token.KeepsBracket change)
    (htokens : t'.tokens = t.tokens.modify t.lastPlace change) (hframes : t'.frames = t.frames)
    (hrebuild : t'.rebuild = false → t.rebuild = false)
    (houtput : t'.rebuild = false → ∀ before, t.output = before ++ t.last.value →
      t'.output = before ++ (change t.last).value) (hne : t'.output ≠ [])
    (hclass : t'.inClass = true) (hquoted : t'.quoted = false) : t'.Bracketed ctx := by
  have hlast : t'.last = change t.last := by
    have := last_modifyLast h.joined.ne_nil change
    rwa [Tokenizer.modifyLast, modify, last, ← htokens] at this
  refine ⟨(h.joined_modifyLast change hchange htokens hframes hrebuild houtput hne).1, hclass, hquoted,
    h.noBracket, ?_, ?_⟩
  · rw [hlast, hchange.kind, h.kind]
  · rw [hlast, hchange.source?, h.source?]

theorem appendClass (h : t.Bracketed ctx) (more : List Char) :
    (t.appendClass more).Bracketed ctx := by
  refine h.modifyLast (fun token => { token with value := token.value ++ more })
    ⟨fun _ => rfl, fun _ => rfl, fun _ => rfl, fun _ => rfl⟩ rfl rfl id
    (fun _ before hbefore => ?_) (List.append_ne_nil_of_left_ne_nil h.output_ne_nil _) h.inClass
    h.quoted
  show t.output ++ more = before ++ (t.last.value ++ more)
  rw [hbefore, List.append_assoc]

/-- The first token gets another source. -/
theorem setSource_zero (h : t.Bracketed ctx) (hrebuild : t.rebuild = true) (source : List Char) :
    (t.setSource 0 source).Bracketed ctx := by
  let change (token : Token) : Token := { token with source? := some source }
  have hpos : t.lastPlace ≠ 0 := by
    intro hzero
    have hlast := getElem?_lastPlace h.joined.ne_nil
    have hhead := h.joined.linked.head
    rw [kindAt, ← hzero, hlast] at hhead
    exact absurd (h.kind.symm.trans (Option.some.inj hhead)) (by simp)
  have hlast : (t.setSource 0 source).last = t.last := by
    have hne : (t.setSource 0 source).tokens ≠ [] := by
      show t.tokens.modify 0 change ≠ []
      rw [ne_eq, ← List.length_eq_zero_iff, List.length_modify, List.length_eq_zero_iff]
      exact h.joined.ne_nil
    have hplace : (t.setSource 0 source).lastPlace = t.lastPlace := by
      show (t.tokens.modify 0 change).length - 1 = _
      rw [List.length_modify]
      rfl
    have hfound := getElem?_lastPlace hne
    rw [hplace] at hfound
    obtain ⟨hzero, -⟩ | ⟨-, hsame⟩ := getElem?_modify_iff.mp hfound
    · exact absurd hzero hpos
    · exact Option.some.inj (hsame.symm.trans (getElem?_lastPlace h.joined.ne_nil))
  refine ⟨joined_of_rebuild (h.joined.linked.modify_of_same fun _ => ⟨rfl, rfl, rfl⟩)
    ⟨h.joined.braced.ordered, fun brace hbrace => ?_⟩ hrebuild h.output_ne_nil, h.inClass, h.quoted,
    h.noBracket, ?_, ?_⟩
  · show kindAt (t.tokens.modify 0 change) _ = _
    rw [kindAt_modify_of_kind_eq change fun _ => rfl]
    exact h.joined.braced.kinds brace hbrace
  · rw [hlast, h.kind]
  · rw [hlast, h.source?]

/-- A colon within brackets, whether or not it ends a class name. -/
theorem posixName (h : t.Bracketed ctx) : t.posixName.1.Bracketed ctx ∧
    t.posixName.1.start = t.start ∧ t.position ≤ t.posixName.1.position := by
  let mark (token : Token) : Token := { token with isPosix := true }
  have hmark : (t.modifyLast mark).Bracketed ctx :=
    h.modifyLast mark ⟨fun _ => rfl, fun _ => rfl, fun _ => rfl, fun _ => rfl⟩ rfl rfl
      id (fun _ _ hbefore => hbefore) h.output_ne_nil h.inClass h.quoted
  unfold Tokenizer.posixName
  dsimp only
  split
  · exact ⟨h, rfl, Nat.le_refl _⟩
  · split
    · exact ⟨hmark, rfl, Nat.le_refl _⟩
    · split
      · exact ⟨hmark, rfl, Nat.le_refl _⟩
      · rename_i before name _
        split
        · exact ⟨hmark, rfl, Nat.le_refl _⟩
        · rename_i members _
          let s := ((t.modifyLast mark).modifyLast fun token =>
            { token with value := before ++ members }).needRebuild
          have hs : s.Bracketed ctx :=
            hmark.modifyLast (fun token => { token with value := before ++ members })
              ⟨fun _ => rfl, fun _ => rfl, fun _ => rfl, fun _ => rfl⟩ rfl rfl
              (fun hfalse => absurd hfalse (by simp [s, needRebuild]))
              (fun hfalse => absurd hfalse (by simp [s, needRebuild])) h.output_ne_nil h.inClass
              h.quoted
          have hskip (n : Nat) : (s.skip n).Bracketed ctx :=
            ⟨hs.joined.skip n, hs.inClass, hs.quoted, hs.noBracket, hs.kind, hs.source?⟩
          have hset (n : Nat) : ((s.skip n).setSource 0 Fragment.oneChar).Bracketed ctx :=
            (hskip n).setSource_zero rfl _
          show Bracketed ctx (if _ then Tokenizer.setSource (if _ then s.skip 1 else s) 0 _ else
            if _ then s.skip 1 else s) ∧ _
          split
          · split
            · exact ⟨hset 1, rfl, Nat.le_add_right _ _⟩
            · exact ⟨hskip 1, rfl, Nat.le_add_right _ _⟩
          · split
            · exact ⟨hset 0, rfl, Nat.le_refl _⟩
            · exact ⟨hs, rfl, Nat.le_refl _⟩

/-- A character within brackets. -/
theorem inBracket (h : t.Bracketed ctx) (c : Char) : (t.inBracket ctx c).Bracketed ctx ∧
    (t.inBracket ctx c).start = t.start ∧ t.position ≤ (t.inBracket ctx c).position := by
  obtain ⟨hname, hstart, hposition⟩ := h.posixName
  unfold Tokenizer.inBracket
  split
  · dsimp only
    split
    · exact ⟨hname, hstart, hposition⟩
    · exact ⟨hname.appendClass _, hstart, hposition⟩
  · exact ⟨h.appendClass _, rfl, Nat.le_refl _⟩

/-- A closing bracket. -/
theorem arrives_closeBracket (h : t.Bracketed ctx) (hok : t.closeBracket ctx = .ok t') :
    t.Arrives t' := by
  unfold closeBracket at hok
  rw [if_neg (by simp [h.noBracket]), if_neg (by simp [h.inClass])] at hok
  dsimp only at hok
  cases hok
  generalize hclosing : (if (!t.last.isPosix && decide ((t.last.value.drop 1).head? = some '^') &&
    !(t.last.value.drop 1).contains '/') = true then Fragment.slashClass ctx.windows ++ [']']
    else [']']) = closing
  have hs := h.appendClass closing
  let closed := ({ t with inClass := false } : Tokenizer).appendClass closing
  have harrives {s : Tokenizer} (hjoined : s.Joined ∧ s.last.kind = .bracket)
      (hclass : s.inClass = false) (hstart : s.start = t.start)
      (hposition : s.position = t.position) : t.Arrives s :=
    .of_kind_ne hjoined.1 hclass hstart (Nat.le_of_eq hposition.symm) (by simp [hjoined.2])
  obtain hguard | hkeep | hliteral :=
    finishBracket_cases ctx closed (t.last.value.drop 1) t.last.isPosix
  · rw [hguard]
    refine harrives (hs.joined_modifyLast
      (fun token => { token with value := ctx.dotGuard ++ token.value })
      ⟨fun _ => rfl, fun _ => rfl, fun _ => rfl, fun _ => rfl⟩ rfl rfl
      (fun hfalse => absurd hfalse (by simp [needRebuild]))
      (fun hfalse => absurd hfalse (by simp [needRebuild])) hs.output_ne_nil) rfl rfl rfl
  · rw [hkeep]
    exact harrives ⟨hs.joined.congr rfl rfl rfl rfl, hs.kind⟩ rfl rfl rfl
  · rw [hliteral]
    let value := literalBracket ctx closed.last.value
    refine harrives (hs.joined_modifyLast (fun token => { token with value })
      ⟨fun _ => rfl, fun _ => rfl, fun _ => rfl, fun _ => rfl⟩ rfl rfl id
      (fun _ before hbefore => ?_) ?_) rfl rfl rfl
    · show Text.dropLastBytes (Text.byteSize closed.last.value) closed.output ++ value = _
      rw [show closed.output = before ++ closed.last.value from hbefore, Text.dropLastBytes_append]
    · refine List.append_ne_nil_of_right_ne_nil _ (literalBracket_ne_nil ctx ?_)
      have hvalue : closed.last.value = t.last.value ++ closing :=
        congrArg Token.value (last_modifyLast h.joined.ne_nil _)
      rw [hvalue, ← hclosing]
      split <;> simp

end Bracketed

/-! ### Steps -/

/-- What holds between two characters, brackets and the beginning of the pattern included. Within
brackets a backslash that ends the text is a token of its own. -/
structure Sound (ctx : Context) (t : Tokenizer) : Prop where
  joined : t.Joined
  start : t.start ≤ t.position
  first : t.position = t.start → t.IsFresh
  dot : t.position = t.start + 1 → t.last.kind = .dot → t.IsDotted
  ends : t.EndsPlainly
  brackets : t.inClass = true → t.rest = [] ∨ t.Bracketed ctx

section
variable {rest : List Char} {c : Char} {t' : Tokenizer}

theorem IsFresh.taking (h : t.IsFresh) (rest : List Char) : (t.taking rest).IsFresh :=
  ⟨h.tokens, h.frames, h.rebuild⟩

theorem Arrives.sound (h : (t.taking rest).Arrives t') (hsound : t.Sound ctx) : t'.Sound ctx := by
  have hstart := hsound.start
  have hsame : t'.start = t.start := h.start
  have hposition : t.position + 1 ≤ t'.position := h.position
  refine ⟨h.joined, by omega, fun heq => by omega, fun heq hdot => ?_, h.ends hsound.ends,
    fun hclass => absurd (hclass.symm.trans h.inClass) (by simp)⟩
  exact h.dot ((hsound.first (by omega)).taking rest) hdot

/-- The bracket may have grown, but nothing that the beginning of the pattern is about. -/
theorem Bracketed.sound (h : t'.Bracketed ctx) (hsound : t.Sound ctx) (hstart : t'.start = t.start)
    (hposition : t.position + 1 ≤ t'.position) : t'.Sound ctx := by
  have := hsound.start
  have hdot : t'.last.kind ≠ .dot := by simp [h.kind]
  exact ⟨h.joined, by omega, fun heq => by omega, fun _ hkind => absurd hkind hdot,
    fun hkind => absurd hkind hdot, fun _ => .inr h⟩

theorem Bracketed.taking (h : t.Bracketed ctx) (rest : List Char) :
    (t.taking rest).Bracketed ctx :=
  ⟨h.joined.congr rfl rfl rfl rfl, h.inClass, h.quoted, h.noBracket, h.kind, h.source?⟩

theorem Sound.taking (hsound : t.Sound ctx) (hclass : t.inClass = false) :
    (t.taking rest).Joined ∧ (t.taking rest).inClass = false :=
  ⟨hsound.joined.congr rfl rfl rfl rfl, hclass⟩

variable (hstar : ctx.star ≠ []) (hsound : t.Sound ctx)
include hstar hsound

/-- A backslash within brackets. -/
theorem Bracketed.step_escape (h : t.Bracketed ctx) : ((t.taking rest).escape ctx).Sound ctx := by
  have hs := h.taking rest
  unfold escape
  split
  case h_1 hrest =>
    have hpush : ((t.taking rest).push ctx (.text ['\\'] ['\\', '\\'])).Joined :=
      hs.joined.push hstar (by simp) (.inl (List.cons_ne_nil _ _))
    have hstart := hsound.start
    have hkind : ((t.taking rest).push ctx (.text ['\\'] ['\\', '\\'])).last.kind ≠ .dot := by
      rw [kind_last_push hs.joined.ne_nil]
      simp
    refine ⟨hpush, ?_, fun heq => ?_, fun _ hdot => absurd hdot hkind,
      fun hdot => absurd hdot hkind, fun _ => .inl ((push_rest _ _ _).trans hrest)⟩
    · show _ ≤ ((t.taking rest).push ctx _).position
      rw [pushText, push_position, push_start]
      exact Nat.le_succ_of_le hstart
    · rw [pushText, push_position, push_start] at heq
      exact absurd heq (Nat.ne_of_gt (Nat.lt_succ_of_le hstart))
  case h_2 next more _ =>
    split
    · exact hs.sound hsound rfl (Nat.le_refl _)
    · dsimp only
      rw [if_pos (show ((t.taking rest).skip 1).inClass = true from h.inClass)]
      have hskip : ((t.taking rest).skip 1).Bracketed ctx :=
        ⟨hs.joined.skip 1, hs.inClass, hs.quoted, hs.noBracket, hs.kind, hs.source?⟩
      exact (hskip.appendClass _).sound hsound rfl (Nat.le_add_right _ _)

/-- A character within brackets. -/
theorem Bracketed.step {tail : List Char → Except Error (List Char)} (h : t.Bracketed ctx)
    (hok : Tokenizer.step ctx tail (t.taking rest) c = .ok t') : t'.Sound ctx := by
  have hs := h.taking rest
  unfold Tokenizer.step at hok
  split at hok
  · cases hok
    exact hs.sound hsound rfl (Nat.le_refl _)
  · split at hok
    · cases hok
      exact h.step_escape hstar hsound
    · split at hok
      case isTrue =>
        cases hok
        obtain ⟨hbracketed, hstart, hposition⟩ := hs.inBracket c
        exact hbracketed.sound hsound hstart hposition
      case isFalse hclosing =>
        simp only [hs.inClass, Bool.true_and, Bool.or_eq_true, decide_eq_true_eq, not_or,
          Classical.not_not] at hclosing
        obtain ⟨⟨rfl, -⟩, -⟩ := hclosing
        rw [if_neg (by simp [hs.quoted])] at hok
        exact (hs.arrives_closeBracket hok).sound hsound

/-- A leading `./` is dropped from the pattern. -/
theorem Sound.step_slash (hclass : t.inClass = false) : ((t.taking rest).slash ctx).Sound ctx := by
  obtain ⟨hjoined, hclass'⟩ := hsound.taking hclass
  unfold slash
  split
  case isTrue hdot =>
    rw [Bool.and_eq_true, decide_eq_true_eq, decide_eq_true_eq] at hdot
    obtain ⟨⟨dot, htokens⟩, hframes, hrebuild⟩ := hsound.dot hdot.2 hdot.1
    let s : Tokenizer := { t.taking rest with
      start := (t.taking rest).place + 1, output := [], tokens := (t.taking rest).tokens.dropLast }
    have hfresh : s.IsFresh := by
      refine ⟨?_, hframes, hrebuild⟩
      show t.tokens.dropLast = _
      rw [htokens]
      rfl
    have hlast : s.last = .bos := by
      rw [last, hfresh.tokens]
      rfl
    have hkind : s.last.kind ≠ .dot := by simp [hlast]
    refine ⟨⟨?_, fun _ => ?_, ?_, fun _ => ?_, fun _ => hfresh⟩, Nat.le_refl _, fun _ => hfresh,
      fun _ hdot => absurd hdot hkind, fun hdot => absurd hdot hkind,
      fun htrue => absurd (htrue.symm.trans hclass) (by simp)⟩
    · show Linked s.tokens
      rw [hfresh.tokens]
      exact linked_bos
    · show [] = s.tokens.flatMap Token.source
      rw [hfresh.tokens]
      rfl
    · show Braced s.tokens s.frames
      rw [hfresh.frames]
      exact ⟨.nil, fun _ hframe => absurd hframe List.not_mem_nil⟩
    · show Sized s.tokens s.frames
      rw [hfresh.frames]
      exact fun _ hframe => absurd hframe List.not_mem_nil
  case isFalse =>
    refine (hjoined.arrives_push hstar hclass' 0 (List.Sublist.refl _) (by simp) (.inl ?_)
      (by simp)).sound hsound
    exact slash_ne_nil _

theorem Sound.step_bang (hclass : t.inClass = false) : ((t.taking rest).bang ctx).Sound ctx := by
  obtain ⟨hjoined, hclass'⟩ := hsound.taking hclass
  unfold bang
  dsimp only
  split
  · exact (hjoined.arrives_openExtglob hstar hclass' _ _).sound hsound
  · split
    case isFalse => exact (hjoined.arrives_plainText hstar hclass' _).sound hsound
    case isTrue hnegate =>
      rw [Bool.and_eq_true, decide_eq_true_eq] at hnegate
      have hposition : t.position = 0 := hnegate.2
      have hstart : t.start = 0 := by have := hsound.start; omega
      have hfresh := hsound.first (by omega)
      have hkind : t.last.kind ≠ .dot := by simp [last, hfresh.tokens]
      refine ⟨hjoined.congr rfl rfl rfl rfl, ?_, fun _ => ⟨hfresh.tokens, hfresh.frames,
        hfresh.rebuild⟩, fun _ hdot => absurd hdot hkind, hsound.ends,
        fun htrue => absurd (htrue.symm.trans hclass) (by simp)⟩
      show _ + 1 ≤ t.position + 1 + _
      omega

theorem Sound.step_openBracket (hclass : t.inClass = false) (hquoted : t.quoted = false)
    (hok : (t.taking rest).openBracket ctx = .ok t') : t'.Sound ctx := by
  obtain ⟨hjoined, hclass'⟩ : (t.taking rest).Joined ∧ (t.taking rest).inClass = false :=
    hsound.taking hclass
  unfold openBracket at hok
  split at hok
  case isTrue =>
    split at hok
    case isTrue => exact absurd hok (by simp)
    case isFalse =>
      cases hok
      refine (hjoined.arrives_push hstar hclass' 0 (List.Sublist.refl _) ⟨by simp, rfl⟩ (.inl ?_)
        (by simp)).sound hsound
      exact List.cons_ne_nil _ _
  case isFalse hnoBracket =>
    cases hok
    let s : Tokenizer := { t.taking rest with inClass := true }
    let token : Token := { kind := .bracket, value := ['['] }
    have hs : s.Joined := hjoined.congr rfl rfl rfl rfl
    have hfalse : ctx.options.noBracket = false := by
      cases hoption : ctx.options.noBracket with
      | false => rfl
      | true => simp [hoption] at hnoBracket
    obtain ⟨previous, htokens⟩ := tokens_push_of_kind_ne (by simp [token] : token.kind ≠ .text) ctx s
    have hlast := last_of_tokens_eq htokens
    have hbracketed : (s.push ctx token).Bracketed ctx :=
      ⟨hs.push hstar ⟨by simp [token], rfl⟩ (.inl (List.cons_ne_nil _ _)), push_inClass _ _ _,
        (push_quoted _ _ _).trans hquoted, hfalse, by rw [hlast], by rw [hlast]⟩
    exact hbracketed.sound hsound (push_start _ _ _)
      (Nat.le_of_eq (push_position ctx s token).symm)

/-- Every step keeps what holds between two characters. -/
theorem Sound.step {tail : List Char → Except Error (List Char)} (hrest : t.rest = c :: rest)
    (hok : Tokenizer.step ctx tail (t.taking rest) c = .ok t') : t'.Sound ctx := by
  cases hclass : t.inClass with
  | true =>
    obtain hnil | hbracketed := hsound.brackets hclass
    · exact absurd (hrest.symm.trans hnil) (by simp)
    · exact hbracketed.step hstar hsound hok
  | false =>
    obtain ⟨h, hclass'⟩ : (t.taking rest).Joined ∧ (t.taking rest).inClass = false :=
      hsound.taking hclass
    unfold Tokenizer.step at hok
    split at hok
    · cases hok
      exact (h.arrives_self hclass').sound hsound
    · split at hok
      · cases hok
        exact (h.arrives_escape hstar hclass').sound hsound
      · rw [if_neg (by simp [hclass'])] at hok
        split at hok
        case isTrue =>
          cases hok
          exact (h.arrives_pushText hstar hclass' 0 _ (escapeChar_ne_nil c)).sound hsound
        case isFalse hquoted =>
          split at hok
          case h_1 =>
            cases hok
            let s : Tokenizer := { t.taking rest with quoted := !(t.taking rest).quoted }
            have hs : s.Joined := h.congr rfl rfl rfl rfl
            have harrives {t' : Tokenizer} (h : s.Arrives t') : (t.taking rest).Arrives t' :=
              ⟨h.joined, h.inClass, h.start, h.position,
                fun hfresh => h.dot ⟨hfresh.tokens, hfresh.frames, hfresh.rebuild⟩, h.ends⟩
            show (if ctx.options.keepQuotes then _ else s).Sound ctx
            split
            · exact (harrives (hs.arrives_pushText hstar hclass' 0 _ (by simp))).sound hsound
            · exact (harrives (hs.arrives_self hclass')).sound hsound
          case h_2 =>
            cases hok
            exact (h.arrives_openParen hstar hclass').sound hsound
          case h_3 => exact (h.arrives_closeParen hstar hclass' hok).sound hsound
          case h_4 =>
            exact hsound.step_openBracket hstar hclass (by simpa [Tokenizer.taking] using hquoted)
              hok
          case h_5 => exact (h.arrives_closeBracket hstar hclass' hok).sound hsound
          case h_6 =>
            cases hok
            split
            · exact (h.arrives_plainText hstar hclass' _).sound hsound
            · exact (h.arrives_openBrace hstar hclass').sound hsound
          case h_7 =>
            cases hok
            exact (h.arrives_closeBrace hstar hclass').sound hsound
          case h_8 =>
            cases hok
            exact (h.arrives_pushText hstar hclass' 0 _ (by split <;> simp)).sound hsound
          case h_9 =>
            cases hok
            exact (h.arrives_comma hstar hclass').sound hsound
          case h_10 =>
            cases hok
            exact hsound.step_slash hstar hclass
          case h_11 =>
            cases hok
            exact (h.arrives_dot hstar hclass' hsound.ends).sound hsound
          case h_12 =>
            cases hok
            exact (h.arrives_qmark hstar hclass').sound hsound
          case h_13 =>
            cases hok
            exact hsound.step_bang hstar hclass
          case h_14 =>
            cases hok
            refine (h.arrives_operator hstar hclass' _ _ (by simp) ?_ (by simp)).sound hsound
            exact List.cons_ne_nil _ _
          case h_15 =>
            cases hok
            refine (h.arrives_operator hstar hclass' _ _ (by simp) ?_ (by simp)).sound hsound
            exact List.cons_ne_nil _ _
          case h_16 =>
            cases hok
            exact (h.arrives_star hstar hclass').sound hsound
          case h_17 =>
            cases hok
            exact (h.arrives_plainText hstar hclass' _).sound hsound

/-- So does a whole run. -/
theorem Sound.run {tail : List Char → Except Error (List Char)} (n : Nat)
    (hok : Tokenizer.run ctx tail n t = .ok t') : t'.Sound ctx := by
  induction n generalizing t with
  | zero =>
    cases hok
    exact hsound
  | succ n ih =>
    rw [Tokenizer.run] at hok
    split at hok
    case h_1 =>
      cases hok
      exact hsound
    case h_2 c rest hrest =>
      obtain ⟨next, hstep, hrun⟩ := bind_eq_ok hok
      exact ih (hsound.step hstar hrest hstep) hrun

end

theorem sound_begin (ctx : Context) (text : List Char) : Sound ctx { rest := text } := by
  have hfresh : ({ rest := text } : Tokenizer).IsFresh := ⟨rfl, rfl, rfl⟩
  have hkind : ({ rest := text } : Tokenizer).last.kind ≠ .dot := by simp [last]
  exact ⟨⟨linked_bos, fun _ => rfl, ⟨.nil, fun _ hframe => absurd hframe List.not_mem_nil⟩,
    fun _ _ hframe => absurd hframe List.not_mem_nil, fun _ => hfresh⟩, Nat.le_refl _,
    fun _ => hfresh, fun _ hdot => absurd hdot hkind, fun hdot => absurd hdot hkind,
    fun htrue => absurd htrue (by simp)⟩

/-! ### The end of the text -/

section
variable {s : Tokenizer}

theorem synced_endBracket (h : t.Synced) (hok : t.endBracket ctx = .ok s) : s.Synced := by
  unfold endBracket at hok
  split at hok
  · cases hok
    exact h
  · split at hok
    · exact absurd hok (by simp)
    · cases hok
      exact fun hfalse => absurd hfalse (by simp)

theorem synced_endFrames (h : t.Synced) (hok : t.endFrames ctx = .ok s) : s.Synced := by
  unfold endFrames at hok
  split at hok
  · cases hok
    exact h
  · split at hok
    · exact absurd hok (by simp)
    · cases hok
      exact fun hfalse => absurd hfalse (by simp)

theorem synced_allowSlash (h : t.Synced) : (t.allowSlash ctx).Synced := by
  unfold allowSlash
  split
  case isFalse => exact h
  case isTrue hlast =>
    rw [Bool.and_eq_true, Bool.or_eq_true, decide_eq_true_eq, decide_eq_true_eq] at hlast
    have hne : t.tokens ≠ [] := by
      intro hnil
      simp [last, hnil] at hlast
    have hprepared (token : Token) : t.prepared ctx token = t := by
      unfold prepared
      obtain hkind | hkind := hlast.2 <;> simp [hkind]
    refine synced_push_of_prepared ?_ ?_
    · rwa [hprepared]
    · rwa [hprepared]

/-- What is still open at the end becomes text, and the source is that of the tokens. -/
theorem output_finish (h : t.Synced) (hok : t.finish ctx = .ok s) : s.output = s.joinSources := by
  unfold finish at hok
  obtain ⟨bracketed, hbracket, hok⟩ := bind_eq_ok hok
  obtain ⟨framed, hframes, hok⟩ := bind_eq_ok hok
  have hsynced : (framed.allowSlash ctx).Synced := synced_allowSlash
    (synced_endFrames (synced_endBracket h hbracket) hframes)
  cases hok
  split
  case isTrue => rfl
  case isFalse hfalse => exact hsynced (eq_false_of_ne_true hfalse)

end

end Tokenizer

/-- The source of what the tokenizer arrives at is that of its tokens. -/
theorem Context.output_tokenize {ctx : Context} (hstar : ctx.star ≠ [])
    {tail : List Char → Except Error (List Char)} {translation : Translation}
    (hok : ctx.tokenize tail = .ok translation) :
    translation.output = translation.tokens.flatMap Token.source := by
  unfold tokenize at hok
  obtain ⟨t, hrun, hok⟩ := bind_eq_ok hok
  obtain ⟨s, hfinish, hok⟩ := bind_eq_ok hok
  cases hok
  exact Tokenizer.output_finish
    ((Tokenizer.sound_begin ctx ctx.body).run hstar _ hrun).joined.synced hfinish

end PathGlob.Pattern
