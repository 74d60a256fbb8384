import PathGlob.Matcher
import PathGlob.Proofs.Language.Globstars
import PathGlob.Proofs.Language.Segments

/-!
# `PathGlob.Proofs.Matcher.Shortcut`: a shortcut against the compiled pattern

The four patterns that a matcher decides on the text itself are compared with their
programs. The two differ in one point only. A program stops at a line feed where it looks
for one more character of a star or passes over a globstar, and a shortcut does not look
for line feeds at all. `Shortcut.overlooks` says for which texts this matters, and
`Shortcut.isMatch_eq` says that it is the whole difference.
-/

set_option autoImplicit false

namespace PathGlob

open Pattern Text

namespace Shortcut

/-- The text has a line feed at which the program of the pattern stops. -/
def overlooks (glob text : List Char) : Shortcut → Bool
  | .literal => false
  | .star => text.head? = some '\n'
  | .globstar => text.contains '\n'
  | .literalGlobstar =>
    match beforeGlobstar? glob with
    | none => false
    | some lead => (after? (lead ++ ['/']) text).any fun path => path.contains '\n'

theorem isPlain_of_isEnabled {options : Options} (h : isEnabled options = true) :
    options.IsPlain := by
  simp only [isEnabled, Bool.and_eq_true, Bool.not_eq_true', Bool.or_eq_false_iff] at h
  obtain ⟨-, ⟨⟨⟨hwindows, hcase⟩, hcontains⟩, hcapture⟩, hbash⟩ := h
  exact ⟨hwindows, hbash, hcapture, hcase, hcontains⟩

/-! ### Plain text -/

theorem forall_ne_of_after?_isNone {beginning text : List Char}
    (h : (after? beginning text).isNone = true) (rest : List Char) : text ≠ beginning ++ rest := by
  intro heq
  rw [after?_eq_some_iff.mpr heq] at h
  exact absurd h (by simp)

theorem isVerbatim_of_isLiteral {glob : List Char} (h : isLiteral glob = true) (hne : glob ≠ []) :
    IsVerbatim glob := by
  simp only [isLiteral, Bool.and_eq_true, Bool.not_eq_true', List.any_eq_false,
    Bool.not_eq_true] at h
  refine ⟨hne, fun c hc => ?_⟩
  have hreserved := h.2 c hc
  simp only [isReserved, List.contains_eq_mem, decide_eq_false_iff_not, List.mem_cons,
    List.not_mem_nil, or_false, not_or] at hreserved
  refine ⟨?_, hreserved.2.1, hreserved.1⟩
  by_cases hslash : c = '/'
  · exact .inl hslash
  · exact .inr (by simp [isStructural, hslash, hreserved])

theorem beginsPlainly_of_isLiteral {glob : List Char} (h : isLiteral glob = true) :
    BeginsPlainly glob := by
  simp only [isLiteral, Bool.and_eq_true, decide_eq_true_eq] at h
  exact ⟨h.1.1, forall_ne_of_after?_isNone h.1.2⟩

/-! ### A globstar -/

theorem isGlobstarText_eq (dots : Bool) (text : List Char) :
    isGlobstarText dots text = (pieces '/' text).all fun segment => !isDotSegment dots segment := by
  refine congrArg (List.all _) (funext fun segment => ?_)
  unfold isDotSegment
  split <;> simp

theorem isGlobstarText_and_iff {dots : Bool} {text : List Char} :
    (isGlobstarText dots text && !text.contains '\n') = true ↔ IsClear dots text := by
  rw [isGlobstarText_eq, IsClear]
  simp [and_comm]

theorem beforeGlobstar?_eq_some_iff {glob lead : List Char} :
    beforeGlobstar? glob = some lead ↔ glob = lead ++ ['/', '*', '*'] := before?_eq_some_iff

theorem isLiteralGlobstarText_and_iff {options : Options} {glob lead text : List Char}
    (hglob : glob = lead ++ ['/', '*', '*']) :
    (isLiteralGlobstarText options glob text && !overlooks glob text .literalGlobstar) = true ↔
      (GlobstarPattern.last lead).Accepts options.dot options.strictSlashes text := by
  have hbefore := beforeGlobstar?_eq_some_iff.mpr hglob
  unfold isLiteralGlobstarText overlooks
  rw [hbefore]
  dsimp only [GlobstarPattern.Accepts]
  by_cases heq : text = lead
  · subst heq
    -- The text is the literal one, so no separator and path come after it.
    have hnone : after? (text ++ ['/']) text = none := by
      rw [← Option.not_isSome_iff_eq_none, Option.isSome_iff_exists]
      rintro ⟨path, hpath⟩
      have := after?_eq_some_iff.mp hpath
      simp at this
    simp [hnone]
  · rw [if_neg heq]
    cases hafter : after? (lead ++ ['/']) text with
    | none =>
      have hne (path : List Char) : text ≠ lead ++ '/' :: path := by
        intro htext
        have := after?_eq_some_iff.mpr
          (show text = (lead ++ ['/']) ++ path by simpa using htext)
        rw [hafter] at this
        exact absurd this (by simp)
      simp [heq, hne]
    | some path =>
      obtain rfl := after?_eq_some_iff.mp hafter
      simp [← isGlobstarText_and_iff]

/-! ### A star -/

theorem firstPiece_eq_iff_after? {piece : List Char} (text : List Char) (h : '/' ∉ piece) :
    firstPiece '/' text = piece ↔
      text = piece ∨ (after? (piece ++ ['/']) text).isSome = true := by
  rw [firstPiece_eq_iff h, Option.isSome_iff_exists]
  simp only [after?_eq_some_iff, List.append_assoc, List.singleton_append]
  constructor
  · rintro ⟨rest, rfl, rfl | hhead⟩
    · exact .inl (List.append_nil piece)
    · obtain ⟨more, rfl⟩ := List.head?_eq_some_iff.mp hhead
      exact .inr ⟨more, rfl⟩
  · rintro (rfl | ⟨more, rfl⟩)
    · exact ⟨[], (List.append_nil text).symm, .inl rfl⟩
    · exact ⟨'/' :: more, rfl, .inr rfl⟩

theorem beginsWithDot_eq (dots : Bool) (text : List Char) :
    beginsWithDot dots text = isDotSegment dots (firstPiece '/' text) := by
  cases dots with
  | false =>
    have : (firstPiece '/' text).head? = some '.' ↔ text.head? = some '.' :=
      head?_firstPiece (by decide) text
    simp [beginsWithDot, isDotSegment, this]
  | true =>
    have hone := firstPiece_eq_iff_after? text (show '/' ∉ ['.'] by decide)
    have htwo := firstPiece_eq_iff_after? text (show '/' ∉ ['.', '.'] by decide)
    rw [Bool.eq_iff_iff]
    simp only [beginsWithDot, isDotSegment, if_true, Bool.or_eq_true, decide_eq_true_eq, hone, htwo,
      List.cons_append, List.nil_append]
    constructor
    · rintro (((h | h) | h) | h)
      · exact .inl (.inl h)
      · exact .inr (.inl h)
      · exact .inl (.inr h)
      · exact .inr (.inr h)
    · rintro ((h | h) | h | h)
      · exact .inl (.inl (.inl h))
      · exact .inl (.inr h)
      · exact .inl (.inl (.inr h))
      · exact .inr h

/-- Apart from the slash that may be left at the end, there is only one segment. -/
theorem slash_notMem_iff {strictSlashes : Bool} {text : List Char} :
    '/' ∉ (if strictSlashes then text else dropTrailingSlash text) ↔
      ∃ segment behind, '/' ∉ segment ∧ text = segment ++ behind ∧
        (behind = [] ∨ (strictSlashes = false ∧ behind = ['/'])) := by
  constructor
  · intro h
    cases strictSlashes with
    | true => exact ⟨text, [], h, (List.append_nil text).symm, .inl rfl⟩
    | false =>
      rw [if_neg Bool.false_ne_true, dropTrailingSlash] at h
      cases hbefore : before? ['/'] text with
      | none =>
        rw [hbefore] at h
        exact ⟨text, [], h, (List.append_nil text).symm, .inl rfl⟩
      | some body =>
        rw [hbefore] at h
        exact ⟨body, ['/'], h, before?_eq_some_iff.mp hbefore, .inr ⟨rfl, rfl⟩⟩
  · rintro ⟨segment, behind, hsegment, rfl, rfl | ⟨rfl, rfl⟩⟩
    · have hnone : before? ['/'] segment = none := by
        rw [← Option.not_isSome_iff_eq_none, Option.isSome_iff_exists]
        rintro ⟨body, hbody⟩
        rw [before?_eq_some_iff.mp hbody] at hsegment
        exact hsegment (List.mem_append_right body List.mem_cons_self)
      simpa [dropTrailingSlash, hnone] using hsegment
    · have hsome : before? ['/'] (segment ++ ['/']) = some segment := before?_eq_some_iff.mpr rfl
      simpa [dropTrailingSlash, hsome] using hsegment

/-- A star on the text itself, without a line feed at the beginning, is one segment that
admits a star. -/
theorem isStarText_and_iff {options : Options} {text : List Char} :
    (isStarText options text && !overlooks ['*'] text .star) = true ↔
      ∃ segment behind, '/' ∉ segment ∧ text = segment ++ behind ∧
        Wildcard.Admits options.dot ['*'] segment behind ∧
          (behind = [] ∨ (options.strictSlashes = false ∧ behind = ['/'])) := by
  have hfeed : (text ≠ [] ∧ text.head? ≠ some '\n') ↔ ∃ x, text.head? = some x ∧ x ≠ '\n' := by
    cases text <;> simp
  -- The conditions of the shortcut, in the order in which a word admits a segment.
  have hfast : (isStarText options text && !overlooks ['*'] text .star) = true ↔
      isDotSegment options.dot (firstPiece '/' text) = false ∧
        (∃ x, text.head? = some x ∧ x ≠ '\n') ∧
          '/' ∉ (if options.strictSlashes then text else dropTrailingSlash text) := by
    rw [← hfeed, isStarText, overlooks, beginsWithDot_eq]
    simp only [Bool.and_eq_true, Bool.not_eq_true', List.isEmpty_eq_false_iff,
      List.contains_eq_mem, decide_eq_false_iff_not]
    constructor
    · rintro ⟨⟨⟨hne, hdot⟩, hslash⟩, hhead⟩
      exact ⟨hdot, ⟨hne, hhead⟩, hslash⟩
    · rintro ⟨hdot, ⟨hne, hhead⟩, hslash⟩
      exact ⟨⟨⟨hne, hdot⟩, hslash⟩, hhead⟩
  rw [hfast, slash_notMem_iff]
  simp only [Wildcard.Admits, List.head?_cons, or_true, forall_const]
  have hfirst {segment behind : List Char} (hsegment : '/' ∉ segment)
      (hbehind : behind = [] ∨ (options.strictSlashes = false ∧ behind = ['/'])) :
      firstPiece '/' (segment ++ behind) = segment := by
    refine (firstPiece_eq_iff hsegment).mpr ⟨behind, rfl, ?_⟩
    rcases hbehind with rfl | ⟨-, rfl⟩
    · exact .inl rfl
    · exact .inr rfl
  constructor
  · rintro ⟨hdot, hhead, segment, behind, hsegment, rfl, hbehind⟩
    rw [hfirst hsegment hbehind] at hdot
    exact ⟨segment, behind, hsegment, rfl, ⟨hdot, hhead⟩, hbehind⟩
  · rintro ⟨segment, behind, hsegment, rfl, ⟨hdot, hhead⟩, hbehind⟩
    rw [hfirst hsegment hbehind]
    exact ⟨hdot, hhead, segment, behind, hsegment, rfl, hbehind⟩

/-! ### The programs -/

theorem recognizes_star {options : Options} (hplain : options.IsPlain)
    (hsize : byteSize ['*'] ≤ options.effectiveMaxLength) :
    Recognizes ['*'] options fun text =>
      (isStarText options text && !overlooks ['*'] text .star) = true := by
  have hadmits : TokenKind.AdmitsAll [] .bos ['*'] :=
    Wildcard.admitsAll_words (List.forall_mem_singleton.mpr Wildcard.isWord_star) .bos
  refine (recognizes_ungrouped hplain hsize (by decide) hadmits).congr fun text => ?_
  rw [isStarText_and_iff, Regex.Piece.fills_word_iff (P := fun behind =>
      behind = [] ∨ (options.strictSlashes = false ∧ behind = ['/']))
    (fun d => Regex.Piece.fills_closing_iff.trans (by simp))
    (by rintro _ (rfl | ⟨-, rfl⟩) <;> simp) rfl Wildcard.isWord_star]
  have hmatches (segment : List Char) : Wildcard.Matches ['*'] segment :=
    ⟨segment, [], (List.append_nil segment).symm, rfl⟩
  simp only [hmatches, true_and]

/-- What a shortcut is taken for. -/
theorem ofGlob?_cases {options : Options} {glob : List Char} {shortcut : Shortcut}
    (h : ofGlob? options glob = some shortcut) : isEnabled options = true ∧
      ((shortcut = .literal ∧ isLiteral glob = true) ∨
        (shortcut = .star ∧ glob = ['*']) ∨
        (shortcut = .globstar ∧ glob = ['*', '*'] ∧ options.noGlobstar = false) ∨
        (shortcut = .literalGlobstar ∧ options.noGlobstar = false ∧
          (after? ['.', '/'] glob).isNone = true ∧
          ∃ lead, glob = lead ++ ['/', '*', '*'] ∧ lead ≠ [] ∧ isLiteral lead = true)) := by
  unfold ofGlob? at h
  split at h
  · exact absurd h (by simp)
  · rename_i henabled
    refine ⟨by simpa using henabled, ?_⟩
    split at h
    · exact .inl ⟨(Option.some.inj h).symm, ‹_›⟩
    · split at h
      · exact .inr (.inl ⟨(Option.some.inj h).symm, ‹_›⟩)
      · split at h
        · rename_i hglob
          rw [Bool.and_eq_true, decide_eq_true_eq, Bool.not_eq_true'] at hglob
          exact .inr (.inr (.inl ⟨(Option.some.inj h).symm, hglob⟩))
        · split at h
          · rename_i hglob
            simp only [Bool.and_eq_true, Bool.not_eq_true', Option.any_eq_true,
              beforeGlobstar?_eq_some_iff, List.isEmpty_eq_false_iff] at hglob
            obtain ⟨⟨hglobstar, hdotSlash⟩, lead, hlead⟩ := hglob
            exact .inr (.inr (.inr
              ⟨(Option.some.inj h).symm, hglobstar, hdotSlash, lead, hlead⟩))
          · exact absurd h (by simp)

/-- The pattern of a shortcut can be compiled, and the program accepts what the shortcut
does, line feeds apart. -/
theorem recognizes_of_ofGlob? (options : Options) {fastPaths : Bool} {glob : List Char}
    {shortcut : Shortcut} (h : ofGlob? { options with fastPaths } glob = some shortcut)
    (hne : glob ≠ []) (hsize : byteSize glob ≤ options.effectiveMaxLength) :
    Recognizes glob options fun text =>
      (shortcut.accepts options glob text && !shortcut.overlooks glob text) = true := by
  obtain ⟨henabled, hcases⟩ := ofGlob?_cases h
  -- Whether shortcuts are wanted is no part of the plain convention.
  have hplain : options.IsPlain := by
    have := isPlain_of_isEnabled henabled
    exact ⟨this.windows, this.bash, this.capture, this.noCase, this.contains⟩
  rcases hcases with ⟨rfl, hliteral⟩ | ⟨rfl, rfl⟩ | ⟨rfl, rfl, hglobstar⟩ |
    ⟨rfl, hglobstar, hdotSlash, lead, hglob, hlead, hliteral⟩
  · refine (recognizes_verbatim hplain hsize (isVerbatim_of_isLiteral hliteral hne)
      (beginsPlainly_of_isLiteral hliteral)).congr fun text => ?_
    simp [accepts, overlooks, eq_comm]
  · exact recognizes_star hplain hsize
  · refine (recognizes_alone hplain hglobstar (n := 0) hsize).congr fun text => ?_
    exact isGlobstarText_and_iff.symm
  · have hbegins : BeginsPlainly glob := by
      refine ⟨?_, forall_ne_of_after?_isNone hdotSlash⟩
      obtain ⟨c, lead, rfl⟩ := List.exists_cons_of_ne_nil hlead
      rw [hglob]
      exact (beginsPlainly_of_isLiteral hliteral).1
    have hverbatim := isVerbatim_of_isLiteral hliteral hlead
    have hiff (text : List Char) : (GlobstarPattern.last lead).Accepts options.dot
        options.strictSlashes text ↔ (accepts options glob text .literalGlobstar &&
          !overlooks glob text .literalGlobstar) = true :=
      (isLiteralGlobstarText_and_iff hglob).symm
    subst hglob
    exact (recognizes_last hplain hglobstar (n := 0) hverbatim hbegins hsize).congr hiff

end Shortcut

end PathGlob
