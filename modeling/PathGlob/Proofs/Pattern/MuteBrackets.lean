import PathGlob.Proofs.Pattern.Mute
import PathGlob.Proofs.Pattern.Outlined

/-!
# `PathGlob.Proofs.Pattern.MuteBrackets`: brackets that open no capturing group

What the tokenizer gathers within brackets is the beginning of a class, of which the body is
complete after every character (`readBody`): neither does it leave the class, nor does it end in the
middle of an escape. Hence parentheses in it open nothing (`uncounted_of_readBody`). While the
tokenizer is within brackets, the tokens before them are hushed (`Tokenizer.MuteWithin`), and the
closing bracket makes a hushed token of the class (`Tokenizer.MuteWithin.closeBracket`).
-/

set_option autoImplicit false

namespace PathGlob.Pattern

open Regex

/-! ### Bodies of classes -/

/-- Reads the body of a class, which a closing bracket would end. The flag tells whether a backslash
hides the next character. -/
def readBody (hides : Bool) : List Char → Option Bool
  | [] => some hides
  | c :: body =>
    if hides then readBody false body
    else if c = '\\' then readBody true body
    else if c = ']' then none
    else readBody false body

section
variable {hides : Bool} {body more : List Char}

theorem readBody_append (hides : Bool) (body more : List Char) :
    readBody hides (body ++ more) =
      (readBody hides body).bind fun hides => readBody hides more := by
  induction body generalizing hides with
  | nil => rfl
  | cons c body ih =>
    rw [List.cons_append, readBody, readBody]
    repeat' split
    · exact ih false
    · exact ih true
    · rfl
    · exact ih false

/-- A body that is complete opens no group, nor does it leave the class. -/
theorem uncounted_of_readBody (h : readBody false body = some false) :
    Uncounted true true body := by
  have hread (body : List Char) (hides : Bool) (h : readBody hides body = some false) :
      Uncounted true true ((if hides then ['\\'] else []) ++ body) := by
    induction body generalizing hides with
    | nil =>
      cases h
      exact uncounted_nil true
    | cons c body ih =>
      rw [readBody] at h
      cases hides with
      | true => exact (uncounted_backslash true c).append (ih false h)
      | false =>
        rw [if_neg Bool.false_ne_true] at h
        split at h
        case isTrue heq =>
          subst heq
          exact ih true h
        case isFalse hescape =>
          split at h
          case isTrue => exact absurd h (by simp)
          case isFalse hclose => exact (uncounted_of_ne_close hclose hescape).append (ih false h)
  exact hread body false h

theorem readBody_escapeClassChar (c : Char) : readBody false (escapeClassChar c) = some false := by
  unfold escapeClassChar
  split
  · simp [readBody]
  · rename_i hplain
    have hne : c ≠ '\\' ∧ c ≠ ']' := by
      constructor <;> rintro rfl <;> exact hplain (by decide)
    simp [readBody, hne]

/-- The characters of a named class are a body, even behind a backslash. -/
theorem readBody_posixClass {name members : List Char} (h : posixClass? name = some members)
    (hides : Bool) : readBody hides members = some false := by
  have hmem : ∃ named ∈ posixClasses, named.2 = members := by
    obtain ⟨before, after, heq, -⟩ := List.lookup_eq_some_iff.mp h
    exact ⟨(name, members), by simp [heq], rfl⟩
  obtain ⟨named, hnamed, rfl⟩ := hmem
  have hall : ∀ named ∈ posixClasses, ∀ hides, readBody hides named.2 = some false := by decide
  exact hall named hnamed hides

/-- A class body cut at an opening bracket within it begins as it began. -/
theorem lastClassName?_before {before name : List Char}
    (h : lastClassName? ('[' :: body) = some (before, name)) (hopen : '[' ∈ body) :
    ∃ body', before = '[' :: body' ∧ body' <+: body := by
  unfold lastClassName? at h
  dsimp only at h
  split at h
  case h_2 => exact absurd h (by simp)
  case h_1 =>
    split at h
    case isFalse => exact absurd h (by simp)
    case isTrue =>
      cases h
      obtain ⟨after, before, heq, hafter⟩ :=
        List.eq_append_cons_of_mem (List.mem_reverse.mpr hopen)
      have hbody : body = before.reverse ++ '[' :: after.reverse := by
        rw [← body.reverse_reverse, heq]
        simp
      have hpass : ∀ c ∈ after, decide (c ≠ '[') = true := fun c hc =>
        decide_eq_true fun hopen => hafter (hopen ▸ hc)
      refine ⟨before.reverse, ?_, hbody ▸ List.prefix_append _ _⟩
      rw [List.reverse_cons, heq, List.append_assoc, List.dropWhile_append_of_pos hpass]
      simp

end

namespace Tokenizer

variable {ctx : Context} {t t' : Tokenizer} {before : List Token} {bracket : Token}

/-- The source of a bracket expression that may also be meant literally. -/
theorem silent_literalBracket (hctx : ctx.IsMute) {value : List Char} (h : Silent value) :
    Silent (literalBracket ctx value) := by
  unfold literalBracket
  split
  · exact silent_escape _
  · rw [hctx.capture]
    have hbar : Silent ['|'] := fun _ => rfl
    have := silent_group (((silent_escape value).append hbar).append h)
    simpa using this

/-! ### Within brackets -/

/-- Within brackets: the last token is the bracket with its body so far. -/
structure MuteWithin (t : Tokenizer) (before : List Token) (bracket : Token) : Prop where
  tokens : t.tokens = before ++ [bracket]
  hushed : Hushed before
  frames : ∀ frame ∈ t.frames, frame.Points before
  inClass : t.inClass = true
  known : opensKnown t.rest = true
  kind : bracket.kind = .bracket
  source? : bracket.source? = none
  body : ∃ body, bracket.value = '[' :: body ∧ readBody false body = some false

namespace MuteWithin

variable (h : t.MuteWithin before bracket)
include h

theorem last_eq : t.last = bracket := last_of_tokens_eq h.tokens

theorem ne_nil : t.tokens ≠ [] := by simp [h.tokens]

/-- The bracket is changed, and perhaps the first token with it. -/
theorem change {before' : List Token} {bracket' : Token}
    (htokens : t'.tokens = before' ++ [bracket']) (hhushed : Hushed before')
    (hkeeps : KeepsReferred before before')
    (hkind : bracket'.kind = bracket.kind) (hsource : bracket'.source? = bracket.source?)
    (hbody : ∃ body, bracket'.value = '[' :: body ∧ readBody false body = some false)
    (hframes : t'.frames = t.frames) (hclass : t'.inClass = t.inClass)
    (hknown : opensKnown t'.rest = true) : t'.MuteWithin before' bracket' where
  tokens := htokens
  hushed := hhushed
  frames frame hframe := (h.frames frame (hframes ▸ hframe)).keep hkeeps
  inClass := hclass.trans h.inClass
  known := hknown
  kind := hkind.trans h.kind
  source? := hsource.trans h.source?
  body := hbody

theorem taking {c : Char} {rest : List Char} (hrest : t.rest = c :: rest) (hc : c ≠ '\\') :
    (t.taking rest).MuteWithin before bracket :=
  { h with known := opensKnown_tail hc (hrest ▸ h.known) }

theorem appendClass {more : List Char} (hmore : readBody false more = some false) :
    ∃ bracket', (t.appendClass more).MuteWithin before bracket' := by
  obtain ⟨body, hvalue, hbody⟩ := h.body
  refine ⟨{ bracket with value := bracket.value ++ more },
    h.change (tokens_appendClass h.tokens more) h.hushed (fun _ _ hkind _ => hkind) rfl rfl
      ⟨body ++ more, by simp [hvalue], ?_⟩ rfl rfl h.known⟩
  rw [readBody_append, hbody]
  exact hmore

/-- The first token gets another source. -/
theorem setSource_zero (hbos : kindAt before 0 = some .bos) {source : List Char}
    (hsource : Silent source) : ∃ before', (t.setSource 0 source).MuteWithin before' bracket := by
  let give (token : Token) : Token := { token with source? := some source }
  refine ⟨before.modify 0 give, h.change ?_ (h.hushed.modify fun token htoken => ?_)
    (Layout.kindAt_modify fun _ _ _ => rfl) rfl rfl h.body rfl rfl h.known⟩
  · show t.tokens.modify 0 give = _
    rw [h.tokens]
    cases before with
    | nil => exact absurd hbos (by simp [kindAt])
    | cons first before => rfl
  · rw [kindAt, htoken] at hbos
    have hkind : token.kind = .bos := Option.some.inj hbos
    refine ⟨by simp [hkind], fun _ => rfl, ?_⟩
    exact Token.isHushed_of_kind hsource (by simp [give, hkind]) (by simp [give, hkind])

/-- A class name is replaced by its characters. -/
theorem named {name members start : List Char}
    (hfound : lastClassName? t.last.value = some (start, name))
    (hopen : ¬(!(t.last.value.drop 1).contains '[') = true)
    (hclass : posixClass? name = some members) :
    ∃ bracket', (t.named (start ++ members)).MuteWithin before bracket' := by
  obtain ⟨body, hvalue, hbody⟩ := h.body
  rw [h.last_eq, hvalue] at hfound hopen
  obtain ⟨body', rfl, more, rfl⟩ := lastClassName?_before hfound (by simpa using hopen)
  obtain ⟨hides, hhides⟩ : ∃ hides, readBody false body' = some hides := by
    rw [readBody_append] at hbody
    obtain ⟨hides, hhides, -⟩ := Option.bind_eq_some_iff.mp hbody
    exact ⟨hides, hhides⟩
  -- The body was complete with the name in it, so it is a body up to the name as well, though
  -- perhaps one that ends with a backslash.
  let marked : Token := { bracket with isPosix := true }
  let replaced : Token := { marked with value := '[' :: body' ++ members }
  have hmarked : t.markPosix.tokens = before ++ [marked] := tokens_modifyLast h.tokens
  let s := (t.markPosix.modifyLast fun token =>
    { token with value := '[' :: body' ++ members }).needRebuild
  have hs : s.tokens = before ++ [replaced] := tokens_modifyLast hmarked
  have hcomplete : readBody false (body' ++ members) = some false := by
    rw [readBody_append, hhides]
    exact readBody_posixClass hclass hides
  have hwithin (n : Nat) (hknown : opensKnown (s.skip n).rest = true) :
      (s.skip n).MuteWithin before replaced :=
    h.change hs h.hushed (fun _ _ hkind _ => hkind) rfl rfl ⟨_, rfl, hcomplete⟩ rfl rfl hknown
  refine ⟨replaced, ?_⟩
  unfold Tokenizer.named
  dsimp only
  split
  case isTrue hclose => exact hwithin 1 (opensKnown_drop_one hclose (by decide) h.known)
  case isFalse => exact hwithin 0 h.known

theorem posixName (hbos : kindAt before 0 = some .bos) :
    ∃ before' bracket', t.posixName.1.MuteWithin before' bracket' := by
  by_cases hopen : (!(t.last.value.drop 1).contains '[') = true
  · rw [posixName_of_not_opened rfl hopen]
    exact ⟨before, bracket, h⟩
  by_cases hname : (!(t.last.value.drop 1).contains ':') = true ∨
      ∀ start name, lastClassName? t.last.value = some (start, name) → posixClass? name = none
  · rw [posixName_of_not_named h.ne_nil rfl hopen hname]
    exact ⟨before, { bracket with isPosix := true }, h.change (tokens_modifyLast h.tokens) h.hushed
      (fun _ _ hkind _ => hkind) rfl rfl h.body rfl rfl h.known⟩
  obtain ⟨hcolon, hname⟩ := not_or.mp hname
  simp only [not_forall] at hname
  obtain ⟨start, name, hfound, hclass⟩ := hname
  obtain ⟨members, hclass⟩ := Option.ne_none_iff_exists'.mp hclass
  obtain ⟨b, heq⟩ := posixName_of_named h.ne_nil rfl hopen hcolon hfound hclass
  obtain ⟨bracket', hnamed⟩ := h.named hfound hopen hclass
  rw [heq]
  cases b with
  | true =>
    obtain ⟨before', hset⟩ := hnamed.setSource_zero hbos silent_oneChar
    exact ⟨before', bracket', hset⟩
  | false => exact ⟨before, bracket', hnamed⟩

omit h in
theorem readBody_classChar (ctx : Context) (t : Tokenizer) (c : Char) :
    readBody false (t.classChar ctx c) = some false := by
  unfold Tokenizer.classChar
  dsimp only
  repeat' split
  all_goals first | exact readBody_escapeClassChar c | simp [readBody]

/-- A character within brackets. -/
theorem inBracket (ctx : Context) (hbos : kindAt before 0 = some .bos) (c : Char) :
    ∃ before' bracket', (t.inBracket ctx c).MuteWithin before' bracket' := by
  unfold Tokenizer.inBracket
  split
  · obtain ⟨before', bracket', hname⟩ := h.posixName hbos
    dsimp only
    split
    · exact ⟨before', bracket', hname⟩
    · exact ⟨before', hname.appendClass (readBody_classChar ctx _ c)⟩
  · exact ⟨before, h.appendClass (readBody_classChar ctx _ c)⟩

/-- A bracket expression in place of the bracket. -/
theorem closed {value : List Char} (hvalue : Silent value)
    (htokens : ∃ bracket', t'.tokens = before ++ [bracket'] ∧ bracket'.kind = .bracket ∧
      bracket'.source = value)
    (hframes : t'.frames = t.frames) (hclass : t'.inClass = false) (hrest : t'.rest = t.rest) :
    t'.Mute := by
  obtain ⟨bracket', htokens, hkind, rfl⟩ := htokens
  refine ⟨?_, fun frame hframe => ?_, hclass, hrest ▸ h.known⟩
  · rw [htokens]
    exact h.hushed.concat (Token.isHushed_of_kind hvalue (by simp [hkind]) (by simp [hkind]))
  · rw [htokens]
    exact (h.frames frame (hframes ▸ hframe)).keep
      fun place kind hplace _ => Settled.kindAt_append hplace _

/-- A closing bracket. -/
theorem closeBracket (hctx : ctx.IsMute) (hnoBracket : ctx.options.noBracket = false)
    (hok : t.closeBracket ctx = .ok t') : t'.Mute := by
  obtain ⟨body, hvalue, hbody⟩ := h.body
  unfold Tokenizer.closeBracket at hok
  rw [if_neg (by simp [hnoBracket]), if_neg (by simp [h.inClass])] at hok
  dsimp only at hok
  cases hok
  generalize hclosing : (if (!t.last.isPosix && decide ((t.last.value.drop 1).head? = some '^') &&
    !(t.last.value.drop 1).contains '/') = true then Fragment.slashClass ctx.windows ++ [']']
    else [']']) = closing
  have hsilent : Silent (bracket.value ++ closing) := by
    rw [hvalue, ← hclosing]
    split
    · have := silent_class ((uncounted_of_readBody hbody).append (uncounted_slashClass ctx.windows))
      simpa using this
    · exact silent_class (uncounted_of_readBody hbody)
  let s := ({ t with inClass := false } : Tokenizer).appendClass closing
  have hs : s.tokens = before ++ [{ bracket with value := bracket.value ++ closing }] :=
    tokens_appendClass h.tokens closing
  have hlast : s.last.value = bracket.value ++ closing := by rw [last_of_tokens_eq hs]
  have hsource (value : List Char) : ({ bracket with value } : Token).source = value := by
    rw [Token.source, h.source?]
    rfl
  obtain hguard | hkeep | hliteral :=
    finishBracket_cases ctx s (t.last.value.drop 1) t.last.isPosix
  · rw [hguard]
    exact h.closed (ctx.silent_dotGuard.append hsilent)
      ⟨_, tokens_modifyLast hs, h.kind, hsource _⟩ rfl rfl rfl
  · rw [hkeep]
    exact h.closed hsilent ⟨_, hs, h.kind, hsource _⟩ rfl rfl rfl
  · rw [hliteral, hlast]
    refine h.closed (silent_literalBracket hctx hsilent)
      ⟨_, tokens_modifyLast hs, h.kind, hsource _⟩ rfl rfl rfl

end MuteWithin

end Tokenizer

end PathGlob.Pattern
