import PathGlob.Proofs.Language.Literal

/-!
# `PathGlob.Proofs.Language.Globstars`: what patterns with a globstar accept

A globstar stands alone, first, last or between literal texts. `GlobstarPattern` has one
constructor for each place, and `GlobstarPattern.Accepts` says what a pattern of that form
accepts: the literal texts as they are and, for the globstar, a path without line feeds and
without segments that wildcards refuse (`Text.IsClear`), or next to nothing.

The source is different at each place, so each place has its own piece. A piece holds the
globstar together with the separators next to it, which is why the globstar may be missing
along with one of them.
-/

set_option autoImplicit false

namespace PathGlob

open Regex Pattern Text

/-! ### The specification -/

/-- A literal text has no wildcards and no dots, but may have slashes. -/
structure IsLiteral (text : List Char) : Prop where
  ne_nil : text ≠ []
  chars : ∀ c ∈ text, isSpecial c = false ∨ c = '/'

/-- A pattern of literal texts and a globstar. -/
inductive GlobstarPattern where
  /-- `**` -/
  | alone
  /-- `lead/**` -/
  | last (lead : List Char)
  /-- `lead/**/more` -/
  | between (lead more : List Char)
  /-- `**/more` -/
  | first (more : List Char)
  deriving DecidableEq, Repr

namespace GlobstarPattern

/-- The text of the pattern, with so many more globstars next to the one. -/
def text (n : Nat) : GlobstarPattern → List Char
  | alone => globstars n
  | last lead => lead ++ '/' :: globstars n
  | between lead more => lead ++ '/' :: (globstars n ++ '/' :: more)
  | first more => globstars n ++ '/' :: more

/-- The literal texts of the pattern. -/
def literals : GlobstarPattern → List (List Char)
  | alone => []
  | last lead => [lead]
  | between lead more => [lead, more]
  | first more => [more]

/-- The texts that the pattern accepts. -/
def Accepts (dots strictSlashes : Bool) : GlobstarPattern → List Char → Prop
  | alone, text => IsClear dots text
  | last lead, text => (text = lead ∧ strictSlashes = false) ∨
    ∃ path, text = lead ++ '/' :: path ∧ IsClear dots path
  | between lead more, text => text = lead ++ '/' :: more ∨
    ∃ path, text = lead ++ '/' :: (path ++ '/' :: more) ∧ IsClear dots path
  | first more, text => text = more ∨ text = '/' :: more ∨
    ∃ path, text = path ++ '/' :: more ∧ IsClear dots path

end GlobstarPattern

/-! ### The pieces -/

namespace Regex.Piece

variable {dots : Bool} {c d : Cursor}

/-- A globstar that is the first segment, with the separator after it. -/
def firstGlobstar (dots : Bool) : Node :=
  .group (.alt (.ofSequence [.start])
    (.alt (.ofSequence [.char '/']) (.ofSequence [globstar dots, .char '/'])))

/-- A globstar that is the last segment, with the separator before it. -/
def lastGlobstar (dots strictSlashes : Bool) : Node :=
  if strictSlashes then .group (.ofSequence [.char '/', dotGuard dots, globstar dots])
  else .group (.alt (.ofSequence [.char '/', dotGuard dots, globstar dots]) (.ofSequence [.finish]))

/-- A globstar that is a segment between others, with both separators. -/
def innerGlobstar (dots : Bool) : Node :=
  .group (.alt (.ofSequence [.char '/', dotGuard dots, globstar dots, .char '/'])
    (.alt (.ofSequence [.char '/']) (.ofSequence [.finish])))

theorem isSound_globstar (dots : Bool) : (globstar dots).IsSound := by
  cases dots <;> decide

theorem isSound_firstGlobstar (dots : Bool) : (firstGlobstar dots).IsSound := by
  cases dots <;> decide

theorem isSound_lastGlobstar (dots strictSlashes : Bool) :
    (lastGlobstar dots strictSlashes).IsSound := by
  cases dots <;> cases strictSlashes <;> decide

theorem isSound_innerGlobstar (dots : Bool) : (innerGlobstar dots).IsSound := by
  cases dots <;> decide

section
variable {ctx : Context} (hplain : ctx.options.IsPlain)
include hplain

theorem reads_globstar_source : Reads ctx.globstar [globstar ctx.options.dot] := by
  rw [Context.globstar, hplain.windows, hplain.capture]
  exact reads_globstar _

theorem reads_dotGuard_source : Reads ctx.dotGuard [dotGuard ctx.options.dot] := by
  rw [Context.dotGuard, hplain.windows]
  exact reads_dotGuard _

theorem reads_slash_source : Reads (Fragment.slash ctx.windows) [.char '/'] := by
  rw [show ctx.windows = false from hplain.windows]
  exact reads_slash

theorem reads_firstGlobstar : Reads ctx.leadingGlobstar [firstGlobstar ctx.options.dot] := by
  have hstart : Reads ['^'] [.start] := fun _ _ _ _ _ _ _ => ⟨_, rfl⟩
  have hslash := reads_slash_source hplain
  have hbody := hstart.orElse (hslash.orElse ((reads_globstar_source hplain).append hslash).body)
  simpa [Context.leadingGlobstar, firstGlobstar] using hbody.group

theorem reads_lastGlobstar :
    Reads ctx.trailingGlobstar [lastGlobstar ctx.options.dot ctx.options.strictSlashes] := by
  have hfinish : Reads ['$'] [.finish] := fun _ _ _ _ _ _ _ => ⟨_, rfl⟩
  have hpath := ((reads_slash_source hplain).append (reads_dotGuard_source hplain)).append
    (reads_globstar_source hplain)
  cases hstrict : ctx.options.strictSlashes with
  | true => simpa [Context.trailingGlobstar, lastGlobstar, hstrict] using hpath.body.group
  | false =>
    simpa [Context.trailingGlobstar, lastGlobstar, hstrict] using (hpath.orElse hfinish.body).group

theorem reads_innerGlobstar : Reads ctx.innerGlobstar [innerGlobstar ctx.options.dot] := by
  have hfinish : Reads ['$'] [.finish] := fun _ _ _ _ _ _ _ => ⟨_, rfl⟩
  have hslash := reads_slash_source hplain
  have hpath := ((hslash.append (reads_dotGuard_source hplain)).append
    (reads_globstar_source hplain)).append hslash
  simpa [Context.innerGlobstar, innerGlobstar] using
    (hpath.orElse (hslash.orElse hfinish.body)).group

end

/-! ### What they span -/

/-- A guarded globstar and a separator leave a path and the separator. -/
theorem spans_globstar_slash_iff :
    (Node.ofSequence [dotGuard dots, globstar dots, .char '/']).Spans false c d ↔
      ∃ path, IsClear dots path ∧ c.Passes (path ++ ['/']) d := by
  rw [show [dotGuard dots, globstar dots, .char '/'] =
    [dotGuard dots, globstar dots] ++ [.char '/'] from rfl, Node.spans_ofSequence_append]
  simp only [Node.spans_ofSequence_singleton, spans_char_iff, Cursor.passes_append_iff]
  constructor
  · rintro ⟨e, hspans, hslash⟩
    obtain ⟨path, hclear, hpass⟩ :=
      (spans_guarded_globstar_iff (.inr (by rw [hslash.1]; rfl))).mp hspans
    exact ⟨path, hclear, e, hpass, hslash⟩
  · rintro ⟨path, hclear, e, hpass, hslash⟩
    exact ⟨e, (spans_guarded_globstar_iff (.inr (by rw [hslash.1]; rfl))).mpr
      ⟨path, hclear, hpass⟩, hslash⟩

/-- At the end a globstar leaves a path, or with its separator nothing. -/
theorem fills_lastGlobstar_iff {strictSlashes : Bool} :
    Node.Fills [lastGlobstar dots strictSlashes] c ↔ (c.after = [] ∧ strictSlashes = false) ∨
      ∃ path, c.after = '/' :: path ∧ IsClear dots path := by
  have hpath : (∃ d, (Node.ofSequence [.char '/', dotGuard dots, globstar dots]).Spans false c d ∧
      d.after = []) ↔ ∃ path, c.after = '/' :: path ∧ IsClear dots path := by
    simp only [Node.spans_ofSequence_cons (a := .char '/'), spans_char_iff]
    constructor
    · rintro ⟨d, ⟨e, hslash, hspans⟩, hd⟩
      obtain ⟨path, hclear, hpass⟩ := (spans_guarded_globstar_iff (.inl hd)).mp hspans
      exact ⟨path, by simpa [hd] using (hslash.trans hpass).1, hclear⟩
    · rintro ⟨path, hafter, hclear⟩
      have hslash := Cursor.passes_of_after ['/'] hafter
      have hpass := Cursor.passes_of_after (c := ⟨['/'].reverse ++ c.before, path⟩) path
        (List.append_nil path).symm
      exact ⟨_, ⟨_, hslash, (spans_guarded_globstar_iff (.inl rfl)).mpr ⟨path, hclear, hpass⟩⟩, rfl⟩
  rw [Node.Fills, ← hpath]
  simp only [Node.spans_ofSequence_singleton]
  cases strictSlashes with
  | true => simp [lastGlobstar, Node.spans_group_iff]
  | false =>
    simp only [lastGlobstar, Bool.false_eq_true, if_false, Node.spans_group_iff,
      Node.spans_alt_iff, Node.spans_ofSequence_singleton, Node.spans_finish_iff, and_true]
    constructor
    · rintro ⟨d, hspans | ⟨hafter, rfl⟩, hd⟩
      · exact .inr ⟨d, hspans, hd⟩
      · exact .inl hafter
    · rintro (hafter | ⟨d, hspans, hd⟩)
      · exact ⟨c, .inr ⟨hafter, rfl⟩, hafter⟩
      · exact ⟨d, .inl hspans, hd⟩

/-- Before more text a globstar leaves a path between its separators, or a single
separator. -/
theorem spans_innerGlobstar_iff (hmore : d.after ≠ []) :
    (innerGlobstar dots).Spans false c d ↔ c.Passes ['/'] d ∨
      ∃ path, IsClear dots path ∧ c.Passes ('/' :: path ++ ['/']) d := by
  have hpath : (Node.ofSequence [.char '/', dotGuard dots, globstar dots, .char '/']).Spans false
      c d ↔ ∃ path, IsClear dots path ∧ c.Passes ('/' :: path ++ ['/']) d := by
    rw [Node.spans_ofSequence_cons]
    simp only [spans_char_iff, spans_globstar_slash_iff]
    constructor
    · rintro ⟨e, hslash, path, hclear, hpass⟩
      exact ⟨path, hclear, hslash.trans hpass⟩
    · rintro ⟨path, hclear, hpass⟩
      obtain ⟨e, hslash, hpass⟩ := (Cursor.passes_append_iff ['/'] (path ++ ['/'])).mp hpass
      exact ⟨e, hslash, path, hclear, hpass⟩
  -- More text follows, so the globstar cannot end the match.
  have hfinish : ¬ (c.after = [] ∧ d = c) := fun ⟨hafter, heq⟩ => hmore (heq ▸ hafter)
  simp only [innerGlobstar, Node.spans_group_iff, Node.spans_alt_iff, hpath,
    Node.spans_ofSequence_singleton, spans_char_iff, Node.spans_finish_iff, hfinish, or_false]
  exact or_comm

/-- At the start, and behind its guard, a globstar leaves a path and a separator, or a single
separator, or nothing. -/
theorem spans_firstGlobstar_iff (hbefore : c.before = []) :
    (Node.ofSequence [dotGuard dots, firstGlobstar dots]).Spans false c d ↔
      (isDotSegment dots (firstPiece '/' c.after) = false ∧ d = c) ∨ c.Passes ['/'] d ∨
        ∃ path, IsClear dots path ∧ c.Passes (path ++ ['/']) d := by
  have hpath : isDotSegment dots (firstPiece '/' c.after) = false ∧
      (Node.ofSequence [globstar dots, .char '/']).Spans false c d ↔
        ∃ path, IsClear dots path ∧ c.Passes (path ++ ['/']) d := by
    rw [← spans_guarded_iff, spans_globstar_slash_iff]
  -- Before a separator the guard looks at an empty segment and always holds.
  have hslash : isDotSegment dots (firstPiece '/' c.after) = false ∧ c.Passes ['/'] d ↔
      c.Passes ['/'] d := by
    refine and_iff_right_of_imp fun h => ?_
    rw [h.1]
    exact isDotSegment_nil dots
  simp only [spans_guarded_iff, firstGlobstar, Node.spans_ofSequence_singleton,
    Node.spans_group_iff, Node.spans_alt_iff, spans_char_iff, Node.spans_start_iff, hbefore,
    true_and, and_or_left, hslash, hpath]

/-! ### What they accept together with the literal texts -/

section
variable {text lead more : List Char} (strictSlashes : Bool)

theorem fills_alone_iff : Node.Fills [dotGuard dots, globstar dots] ⟨[], text⟩ ↔
    GlobstarPattern.alone.Accepts dots strictSlashes text := by
  constructor
  · rintro ⟨d, hspans, hd⟩
    obtain ⟨path, hclear, hpass⟩ := (spans_guarded_globstar_iff (.inl hd)).mp hspans
    obtain rfl : text = path := by simpa [hd] using hpass.1
    exact hclear
  · intro hclear
    have hpass := Cursor.passes_of_after (c := ⟨[], text⟩) text (List.append_nil text).symm
    exact ⟨_, (spans_guarded_globstar_iff (.inl rfl)).mpr ⟨text, hclear, hpass⟩, rfl⟩

theorem fills_last_iff :
    Node.Fills (lead.map .char ++ [lastGlobstar dots strictSlashes]) ⟨[], text⟩ ↔
      (GlobstarPattern.last lead).Accepts dots strictSlashes text := by
  simp only [Node.fills_append_iff, spans_text_iff, fills_lastGlobstar_iff]
  constructor
  · rintro ⟨d, hpass, ⟨hd, hstrict⟩ | ⟨path, hd, hclear⟩⟩
    · exact .inl ⟨by simpa [hd] using hpass.1, hstrict⟩
    · exact .inr ⟨path, by rw [← hd]; exact hpass.1, hclear⟩
  · rintro (⟨rfl, hstrict⟩ | ⟨path, rfl, hclear⟩)
    · exact ⟨_, Cursor.passes_of_after _ (List.append_nil _).symm, .inl ⟨rfl, hstrict⟩⟩
    · exact ⟨_, Cursor.passes_of_after _ rfl, .inr ⟨path, rfl, hclear⟩⟩

theorem fills_between_iff (hmore : more ≠ []) :
    Node.Fills (lead.map .char ++ innerGlobstar dots :: more.map .char) ⟨[], text⟩ ↔
      (GlobstarPattern.between lead more).Accepts dots strictSlashes text := by
  simp only [Node.fills_append_iff, spans_text_iff, Node.fills_cons_iff, fills_text_iff]
  constructor
  · rintro ⟨d, hlead, e, hspans, he⟩
    rcases (spans_innerGlobstar_iff (he ▸ hmore)).mp hspans with hslash | ⟨path, hclear, hpath⟩
    · have hafter := (hlead.trans hslash).1
      exact .inl (by simpa [he] using hafter)
    · have hafter := (hlead.trans hpath).1
      exact .inr ⟨path, by simpa [he] using hafter, hclear⟩
  · rintro (rfl | ⟨path, rfl, hclear⟩)
    · have hslash := Cursor.passes_of_after (c := ⟨lead.reverse ++ [], '/' :: more⟩) ['/'] rfl
      exact ⟨_, Cursor.passes_of_after _ rfl, _,
        (spans_innerGlobstar_iff hmore).mpr (.inl hslash), rfl⟩
    · have hpath := Cursor.passes_of_after
        (c := ⟨lead.reverse ++ [], '/' :: (path ++ '/' :: more)⟩)
        ('/' :: path ++ ['/']) (show _ = _ ++ more by simp)
      exact ⟨_, Cursor.passes_of_after _ rfl, _,
        (spans_innerGlobstar_iff hmore).mpr (.inr ⟨path, hclear, hpath⟩), rfl⟩

theorem fills_first_iff (hmore : isDotSegment dots (firstPiece '/' more) = false) :
    Node.Fills ([dotGuard dots, firstGlobstar dots] ++ more.map .char) ⟨[], text⟩ ↔
      (GlobstarPattern.first more).Accepts dots strictSlashes text := by
  simp only [Node.fills_append_iff, spans_firstGlobstar_iff, fills_text_iff]
  constructor
  · rintro ⟨d, ⟨-, rfl⟩ | hslash | ⟨path, hclear, hpass⟩, hd⟩
    · exact .inl hd
    · exact .inr (.inl (by simpa [hd] using hslash.1))
    · exact .inr (.inr ⟨path, by simpa [hd] using hpass.1, hclear⟩)
  · -- Only where the globstar leaves nothing does the guard look at the literal text.
    rintro (rfl | rfl | ⟨path, rfl, hclear⟩)
    · exact ⟨_, .inl ⟨hmore, rfl⟩, rfl⟩
    · exact ⟨_, .inr (.inl (Cursor.passes_of_after ['/'] rfl)), rfl⟩
    · have hpass := Cursor.passes_of_after (c := ⟨[], path ++ '/' :: more⟩) (path ++ ['/'])
        (show _ = _ ++ more by simp)
      exact ⟨_, .inr (.inr ⟨path, hclear, hpass⟩), rfl⟩

end

end Regex.Piece

/-! ### Literal texts -/

namespace IsLiteral

variable {text : List Char} (h : IsLiteral text)
include h

theorem notMem {c : Char} (hspecial : isSpecial c = true) (hslash : c ≠ '/') : c ∉ text := by
  intro hmem
  rcases h.chars c hmem with hplain | heq
  · exact absurd (hspecial.symm.trans hplain) (by decide)
  · exact hslash heq

theorem isVerbatim : IsVerbatim text := by
  refine ⟨h.ne_nil, fun c hc =>
    ⟨(h.chars c hc).symm.imp_right isStructural_of_not_isSpecial, ?_, ?_⟩⟩ <;>
    rintro rfl <;> exact h.notMem (by decide) (by decide) hc

theorem head?_ne {c : Char} (hspecial : isSpecial c = true) (hslash : c ≠ '/') (rest : List Char) :
    (text ++ rest).head? ≠ some c := by
  obtain ⟨d, text, rfl⟩ := List.exists_cons_of_ne_nil h.ne_nil
  intro heq
  obtain rfl : d = c := Option.some.inj heq
  exact h.notMem hspecial hslash List.mem_cons_self

theorem beginsPlainly (rest : List Char) : BeginsPlainly (text ++ rest) :=
  ⟨h.head?_ne (by decide) (by decide) rest, fun more heq =>
    h.head?_ne (c := '.') (by decide) (by decide) rest (by rw [heq]; rfl)⟩

/-- No guard refuses a literal text. -/
theorem isDotSegment_firstPiece (dots : Bool) :
    isDotSegment dots (firstPiece '/' text) = false := by
  have hhead : (firstPiece '/' text).head? ≠ some '.' := by
    rw [ne_eq, head?_firstPiece (by decide), ← List.append_nil text]
    exact h.head?_ne (by decide) (by decide) []
  rw [← Bool.not_eq_true, isDotSegment]
  intro hsegment
  split at hsegment
  · rcases Bool.or_eq_true _ _ ▸ hsegment with heq | heq <;>
      exact hhead (by rw [of_decide_eq_true heq]; rfl)
  · exact hhead (of_decide_eq_true hsegment)

end IsLiteral

/-! ### One form after the other -/

/-- Globstars alone have globstars as their simple form. -/
theorem exists_simplify_globstars (n : Nat) : ∃ m, simplify (globstars n) = globstars m := by
  by_cases hn : n ≤ 2
  · exact ⟨0, by decide +revert⟩
  · refine ⟨n, ?_⟩
    -- More globstars than those are longer than every pattern that is simplified.
    have hne (text : List Char) (htext : text.length ≤ 8) : globstars n ≠ text := by
      intro heq
      have := congrArg List.length heq
      simp only [globstars, List.length_cons, length_furtherGlobstars] at this
      omega
    rw [simplify, if_neg (hne _ (by decide)), if_neg (hne _ (by decide)),
      if_neg (hne _ (by decide))]

/-- Only a pattern that begins and ends with a star has a simpler form. -/
theorem simplify_eq_self {pattern : List Char}
    (h : pattern.head? ≠ some '*' ∨ pattern.getLast? ≠ some '*') : simplify pattern = pattern := by
  unfold simplify
  repeat' split
  all_goals first | rfl | (subst pattern; exact absurd h (by decide))

section
variable {options : Options} (hplain : options.IsPlain) (hglobstar : options.noGlobstar = false)
variable {n : Nat} {lead more : List Char}
include hplain

theorem body_of_simple {pattern : List Char} (hsimplify : simplify pattern = pattern)
    (hbegins : BeginsPlainly pattern) : (Context.ofPattern options pattern).body = pattern := by
  rw [body_ofPattern hplain.windows, hsimplify]
  rw [hsimplify]
  exact hbegins.2

include hglobstar

theorem recognizes_alone (hsize : byteSize (globstars n) ≤ options.effectiveMaxLength) :
    Recognizes (globstars n) options
      (GlobstarPattern.alone.Accepts options.dot options.strictSlashes) := by
  let ctx := Context.ofPattern options (globstars n)
  have hctx : ctx.options.IsPlain := hplain
  obtain ⟨m, hm⟩ := exists_simplify_globstars n
  have hbody : ctx.body = globstars m := by
    rw [← hm]
    refine body_ofPattern hplain.windows fun rest heq => ?_
    rw [hm] at heq
    exact absurd (List.cons.inj heq).1 (by decide)
  refine (recognizes_of_reads hplain hsize (by simp [globstars]) (fun tail => ?_)
    ((Piece.reads_dotGuard_source hctx).append (Piece.reads_globstar_source hctx)) ?_).congr
    fun text => ?_
  · obtain ⟨tokens, htokenize⟩ := ctx.tokenize_globstars tail hglobstar hbody
    exact ⟨_, htokenize, rfl, rfl⟩
  · simp [Piece.isSound_dotGuard, Piece.isSound_globstar]
  · exact Piece.fills_alone_iff options.strictSlashes

theorem recognizes_last (hlead : IsVerbatim lead)
    (hbegins : BeginsPlainly (lead ++ '/' :: globstars n))
    (hsize : byteSize (lead ++ '/' :: globstars n) ≤ options.effectiveMaxLength) :
    Recognizes (lead ++ '/' :: globstars n) options
      ((GlobstarPattern.last lead).Accepts options.dot options.strictSlashes) := by
  let ctx := Context.ofPattern options (lead ++ '/' :: globstars n)
  have hctx : ctx.options.IsPlain := hplain
  have hbody : ctx.body = lead ++ '/' :: globstars n :=
    body_of_simple hplain (simplify_eq_self (.inl (hlead.head?_ne_star _))) hbegins
  refine (recognizes_of_reads hplain hsize (by simp) (fun tail => ?_)
    ((reads_textSource hctx rfl .bos lead).append (Piece.reads_lastGlobstar hctx)) ?_).congr
    fun text => ?_
  · obtain ⟨tokens, htokenize⟩ := ctx.tokenize_trailing tail hglobstar hbody
      (hlead.admitsAll fun _ => hbegins) (hlead.foldl_after_notMem _)
    exact ⟨_, htokenize, rfl, rfl⟩
  · exact List.forall_mem_append.mpr
      ⟨Piece.isSound_ofText _ _ _, by simp [Piece.isSound_lastGlobstar]⟩
  · rw [hlead.ofText_eq]
    exact Piece.fills_last_iff options.strictSlashes

theorem recognizes_between (hlead : IsVerbatim lead) (hmore : IsVerbatim more)
    (hbegins : BeginsPlainly (lead ++ '/' :: (globstars n ++ '/' :: more)))
    (hsize : byteSize (lead ++ '/' :: (globstars n ++ '/' :: more)) ≤ options.effectiveMaxLength) :
    Recognizes (lead ++ '/' :: (globstars n ++ '/' :: more)) options
      ((GlobstarPattern.between lead more).Accepts options.dot options.strictSlashes) := by
  let ctx := Context.ofPattern options (lead ++ '/' :: (globstars n ++ '/' :: more))
  have hctx : ctx.options.IsPlain := hplain
  have hbody : ctx.body = lead ++ '/' :: (globstars n ++ '/' :: more) :=
    body_of_simple hplain (simplify_eq_self (.inl (hlead.head?_ne_star _))) hbegins
  refine (recognizes_of_reads hplain hsize (by simp) (fun tail => ?_)
    (((reads_textSource hctx rfl .bos lead).append (Piece.reads_innerGlobstar hctx)).append
      ((reads_textSource hctx rfl .slash more).append
        (reads_closing hctx (show TokenKind.slash ≠ .star by decide) more))) ?_).congr
    fun text => ?_
  · obtain ⟨tokens, htokenize⟩ := ctx.tokenize_between tail hglobstar hbody
      (hlead.admitsAll fun _ => hbegins) (hlead.foldl_after_notMem _) hmore.ne_nil
      (hmore.admitsAll fun h => absurd h (by decide))
    exact ⟨_, htokenize, rfl, rfl⟩
  · simp only [List.forall_mem_append]
    exact ⟨⟨Piece.isSound_ofText _ _ _, by simp [Piece.isSound_innerGlobstar]⟩,
      Piece.isSound_ofText _ _ _, Piece.isSound_closing _ _⟩
  · rw [hlead.ofText_eq, hmore.ofText_eq, hmore.closing_eq_nil, List.append_nil, List.append_assoc]
    exact Piece.fills_between_iff options.strictSlashes hmore.ne_nil

theorem recognizes_first (hmore : IsLiteral more)
    (hsize : byteSize (globstars n ++ '/' :: more) ≤ options.effectiveMaxLength) :
    Recognizes (globstars n ++ '/' :: more) options
      ((GlobstarPattern.first more).Accepts options.dot options.strictSlashes) := by
  let ctx := Context.ofPattern options (globstars n ++ '/' :: more)
  have hctx : ctx.options.IsPlain := hplain
  have hsimplify : simplify (globstars n ++ '/' :: more) = globstars n ++ '/' :: more := by
    refine simplify_eq_self (.inr ?_)
    rw [List.append_cons]
    exact hmore.isVerbatim.getLast?_ne_star _
  have hbody : ctx.body = globstars n ++ '/' :: more :=
    body_of_simple hplain hsimplify ⟨by simp [globstars], by simp [globstars]⟩
  refine (recognizes_of_reads hplain hsize (by simp) (fun tail => ?_)
    (((Piece.reads_dotGuard_source hctx).append (Piece.reads_firstGlobstar hctx)).append
      ((reads_textSource hctx rfl .slash more).append
        (reads_closing hctx (show TokenKind.slash ≠ .star by decide) more))) ?_).congr
    fun text => ?_
  · obtain ⟨tokens, htokenize⟩ := ctx.tokenize_leading tail hglobstar hbody
      (hmore.isVerbatim.admitsAll fun h => absurd h (by decide))
    exact ⟨_, htokenize, rfl, rfl⟩
  · simp only [List.forall_mem_append]
    exact ⟨⟨by simp [Piece.isSound_dotGuard], by simp [Piece.isSound_firstGlobstar]⟩,
      Piece.isSound_ofText _ _ _, Piece.isSound_closing _ _⟩
  · rw [hmore.isVerbatim.ofText_eq, hmore.isVerbatim.closing_eq_nil, List.append_nil]
    exact Piece.fills_first_iff options.strictSlashes (hmore.isDotSegment_firstPiece _)

end

end PathGlob
