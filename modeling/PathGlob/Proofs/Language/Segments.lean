import PathGlob.Proofs.Compile

/-!
# `PathGlob.Proofs.Language.Segments`: what path patterns with single stars accept

A path pattern is a list of words between slashes, and a text is a list of segments between
slashes. `PathMatches` compares the two lists element by element; nothing in it speaks of
sources, tokens or programs.

`recognizes_segments` says that a path pattern recognizes the texts that pass this comparison. The
induction is on the words. Within one word it is on the characters, and the two conditions
on how a segment may begin are split off first (`fills_segment_iff`), because only they look
at the segment as a whole.
-/

set_option autoImplicit false

namespace PathGlob

open Regex Pattern

namespace Wildcard

/-! ### The specification -/

/-- A word stands for one segment: it has plain characters, dots, question marks and stars
only, it does not begin with a dot, and it has no two stars side by side. -/
structure IsWord (word : List Char) : Prop where
  ne_nil : word ≠ []
  chars : ∀ c ∈ word, isSpecial c = false ∨ c = '.' ∨ c = '?' ∨ c = '*'
  no_dot : word.head? ≠ some '.'
  no_globstar : ¬ ['*', '*'] <:+: word

/-- A star matches any run of characters, a question mark any one character, and other
characters match themselves. -/
def Matches : List Char → List Char → Prop
  | [], text => text = []
  | '*' :: word, text => ∃ run rest, text = run ++ rest ∧ Matches word rest
  | '?' :: word, text => ∃ x rest, text = x :: rest ∧ Matches word rest
  | c :: word, text => ∃ rest, text = c :: rest ∧ Matches word rest

/-- The word admits segments that begin like this one, where `behind` is what comes after the
segment. A wildcard at the beginning refuses dot segments, and a star there refuses to be the
last character or to stand before a line feed. -/
def Admits (dots : Bool) (word segment behind : List Char) : Prop :=
  (word.head? = some '?' ∨ word.head? = some '*' → Text.isDotSegment dots segment = false) ∧
    (word.head? = some '*' → ∃ x, (segment ++ behind).head? = some x ∧ x ≠ '\n')

/-- The segments match the words one by one, where `behind` is what comes after the last
segment. -/
def PathMatches (dots : Bool) (behind : List Char) : List (List Char) → List (List Char) → Prop
  | [], [] => True
  | word :: words, segment :: segments =>
    Matches word segment ∧
      Admits dots word segment (segments.flatMap ('/' :: ·) ++ behind) ∧
      PathMatches dots behind words segments
  | _, _ => False

/-- Segments that words are compared with are at least one, so slashes join them. -/
theorem PathMatches.flatMap_eq {dots : Bool} {behind word : List Char}
    {words segments : List (List Char)} (h : PathMatches dots behind (word :: words) segments) :
    segments.flatMap ('/' :: ·) = '/' :: ['/'].intercalate segments := by
  cases segments with
  | nil => exact h.elim
  | cons segment segments =>
    rw [Text.intercalate_cons]
    rfl

/-- The word matches the text up to some place within the segment, and what is left there has
the property. -/
def MatchesUpTo (P : List Char → Prop) (word after : List Char) : Prop :=
  ∃ text rest, '/' ∉ text ∧ after = text ++ rest ∧ Matches word text ∧ P rest

end Wildcard

/-- A star alone is a word. -/
theorem Wildcard.isWord_star : Wildcard.IsWord ['*'] where
  ne_nil := by decide
  chars := List.forall_mem_singleton.mpr (by decide)
  no_dot := by decide
  no_globstar := by decide

open Wildcard

namespace Regex.Piece

variable {dots : Bool} {kind : TokenKind} {pieces : List Node} {P : List Char → Prop} {c : Cursor}

/-! ### One word -/

/-- Pieces behind a piece that passes over one character of a kind. -/
theorem fills_cons_char_iff (hpieces : ∀ d, Node.Fills pieces d ↔ P d.after) {a : Node}
    {Q : Char → Prop} (ha : ∀ d, a.Spans false c d ↔ ∃ x, Q x ∧ c.Passes [x] d) :
    Node.Fills (a :: pieces) c ↔ ∃ x rest, Q x ∧ c.after = x :: rest ∧ P rest := by
  simp only [Node.fills_cons_iff, ha, hpieces]
  constructor
  · rintro ⟨d, ⟨x, hx, hpass⟩, hP⟩
    exact ⟨x, d.after, hx, hpass.1, hP⟩
  · rintro ⟨x, rest, hx, hafter, hP⟩
    exact ⟨_, ⟨x, hx, Cursor.passes_of_after [x] hafter⟩, hP⟩

/-- Behind a star, the word may begin to match after any run of characters of the segment. -/
theorem fills_cons_star_iff {word : List Char}
    (hpieces : ∀ d, Node.Fills pieces d ↔ MatchesUpTo P word d.after) :
    Node.Fills (star :: pieces) c ↔ MatchesUpTo P ('*' :: word) c.after := by
  simp only [Node.fills_cons_iff, spans_star_iff, hpieces, MatchesUpTo, Matches]
  constructor
  · rintro ⟨d, ⟨run, hrun, hpass⟩, text, rest, htext, hafter, hmatch, hP⟩
    exact ⟨run ++ text, rest, by simp [hrun, htext],
      by rw [hpass.1, hafter, List.append_assoc], ⟨run, text, rfl, hmatch⟩, hP⟩
  · rintro ⟨_, rest, hmem, hafter, ⟨run, text, rfl, hmatch⟩, hP⟩
    rw [List.mem_append, not_or] at hmem
    rw [List.append_assoc] at hafter
    have hpass := Cursor.passes_of_after run hafter
    exact ⟨_, ⟨run, hmem.1, hpass⟩, text, rest, hmem.2, rfl, hmatch, hP⟩

/-- Within a segment, whatever is not a star stands for exactly one character. -/
theorem exists_ofChar_eq (dots : Bool) (hbegins : kind.beginsSegment = false) {y : Char}
    (hslash : y ≠ '/') (hstar : y ≠ '*') (word : List Char) :
    ∃ (a : Node) (Q : Char → Prop), ofChar dots kind y = [a] ∧
      (∀ c d, a.Spans false c d ↔ ∃ x, (x ≠ '/' ∧ Q x) ∧ c.Passes [x] d) ∧
      ∀ text, Matches (y :: word) text ↔
        ∃ x more, Q x ∧ text = x :: more ∧ Matches word more := by
  by_cases hqmark : y = '?'
  · subst hqmark
    refine ⟨anyChar, fun _ => True, by simp [ofChar, hbegins], fun c d => ?_, fun text => ?_⟩
    · simp [spans_anyChar_iff]
    · simp [Matches]
  · refine ⟨.char y, (· = y), by simp [ofChar, hslash, hqmark, hstar], fun c d => ?_,
      fun text => ?_⟩
    · rw [spans_char_iff]
      constructor
      · intro hpass
        exact ⟨y, ⟨hslash, rfl⟩, hpass⟩
      · rintro ⟨x, ⟨-, rfl⟩, hpass⟩
        exact hpass
    · rw [Matches.eq_4 _ _ _ hstar hqmark]
      simp

/-- Within a segment a word is read as its characters say. -/
theorem fills_inside_iff (hpieces : ∀ d, Node.Fills pieces d ↔ P d.after)
    (hbegins : kind.beginsSegment = false) (hdot : kind ≠ .dot) {word : List Char}
    (hchars : ∀ c ∈ word, isSpecial c = false ∨ c = '.' ∨ c = '?' ∨ c = '*')
    (hstar : kind = .star → word.head? ≠ some '*') (hstars : ¬ ['*', '*'] <:+: word) :
    Node.Fills (ofText dots kind word ++ pieces) c ↔ MatchesUpTo P word c.after := by
  induction word generalizing kind c with
  | nil =>
    rw [ofText, List.nil_append, hpieces]
    constructor
    · exact fun hP => ⟨[], c.after, List.not_mem_nil, rfl, rfl, hP⟩
    · rintro ⟨_, rest, -, hafter, rfl, hP⟩
      exact hafter ▸ hP
  | cons y word ih =>
    obtain ⟨hy, hword⟩ := List.forall_mem_cons.mp hchars
    have hslash : y ≠ '/' := by
      rintro rfl
      exact absurd hy (by decide)
    -- The token after this character is within the segment too, and no star may follow a star.
    obtain ⟨hbegins', hdot'⟩ := TokenKind.after_inside hbegins hslash
    have hnext : kind.after y = .star → word.head? ≠ some '*' := by
      intro hkind hhead
      obtain rfl := TokenKind.after_eq_star_iff.mp hkind
      obtain ⟨more, rfl⟩ := List.head?_eq_some_iff.mp hhead
      exact hstars (List.prefix_append ['*', '*'] more).isInfix
    have ih (c : Cursor) := ih (c := c) hbegins' hdot' hword hnext
      fun h => hstars (h.trans (List.suffix_cons y word).isInfix)
    rw [ofText, List.append_assoc]
    by_cases hstar' : y = '*'
    · subst hstar'
      have hpiece : ofChar dots kind '*' = [star] := by
        have hneeds : kind.needsGuard = false := by
          rw [TokenKind.needsGuard, hbegins, decide_eq_false hdot]
          rfl
        simp [ofChar, hneeds, show kind ≠ .star from fun h => hstar h rfl]
      rw [hpiece]
      exact fills_cons_star_iff ih
    · obtain ⟨a, Q, hpiece, ha, hmatches⟩ := exists_ofChar_eq dots hbegins hslash hstar' word
      rw [hpiece, List.singleton_append, fills_cons_char_iff ih (ha c)]
      simp only [MatchesUpTo, hmatches]
      constructor
      · rintro ⟨x, _, ⟨hx, hQ⟩, hafter, text, rest, htext, rfl, hmatch, hP⟩
        have htext' : '/' ∉ x :: text := by simp [Ne.symm hx, htext]
        exact ⟨x :: text, rest, htext', hafter, ⟨x, text, hQ, rfl, hmatch⟩, hP⟩
      · rintro ⟨_, rest, hmem, hafter, ⟨x, text, hQ, rfl, hmatch⟩, hP⟩
        rw [List.mem_cons, not_or] at hmem
        exact ⟨x, text ++ rest, ⟨Ne.symm hmem.1, hQ⟩, hafter,
          text, rest, hmem.2, rfl, hmatch, hP⟩

/-- At the start of a segment, a question mark refuses the dot segments. -/
theorem fills_qmark_iff (hbegins : kind.beginsSegment = true) :
    Node.Fills (ofChar dots kind '?' ++ pieces) c ↔
      Text.isDotSegment dots (Text.firstPiece '/' c.after) = false ∧
        Node.Fills (anyChar :: pieces) c := by
  cases dots with
  | true =>
    -- A guard that looks ahead stands before the character.
    have hpiece : ofChar true kind '?' = [dotGuard true, anyChar] := by simp [ofChar, hbegins]
    rw [hpiece]
    simp only [List.cons_append, List.nil_append, Node.fills_cons_iff (a := dotGuard true),
      spans_dotGuard_iff]
    constructor
    · rintro ⟨_, ⟨hguard, rfl⟩, hfills⟩
      exact ⟨hguard, hfills⟩
    · rintro ⟨hguard, hfills⟩
      exact ⟨c, ⟨hguard, rfl⟩, hfills⟩
  | false =>
    -- The character itself may be no dot.
    have hpiece : ofChar false kind '?' = [anyCharNoDot] := by simp [ofChar, hbegins]
    have hguard : Text.isDotSegment false (Text.firstPiece '/' c.after) = false ↔
        c.after.head? ≠ some '.' := by
      rw [Text.isDotSegment, if_neg Bool.false_ne_true, decide_eq_false_iff_not,
        Text.head?_firstPiece (by decide)]
    rw [hpiece, hguard]
    simp only [List.singleton_append, Node.fills_cons_iff, spans_anyChar_iff,
      spans_anyCharNoDot_iff]
    constructor
    · rintro ⟨d, ⟨x, ⟨hx, hx'⟩, hpass⟩, hfills⟩
      refine ⟨fun hhead => hx ?_, d, ⟨x, hx', hpass⟩, hfills⟩
      rw [hpass.1] at hhead
      exact Option.some.inj hhead
    · rintro ⟨hhead, d, ⟨x, hx', hpass⟩, hfills⟩
      refine ⟨d, ⟨x, ⟨fun hx => hhead ?_, hx'⟩, hpass⟩, hfills⟩
      rw [hpass.1, hx]
      rfl

/-- At the start of a segment, a wildcard also asks how the segment begins. -/
theorem fills_start_iff (hbegins : kind.beginsSegment = true) {word : List Char}
    (hword : IsWord word) : Node.Fills (ofText dots kind word ++ pieces) c ↔
      ((word.head? = some '?' ∨ word.head? = some '*' →
          Text.isDotSegment dots (Text.firstPiece '/' c.after) = false) ∧
        (word.head? = some '*' → ∃ x, c.after.head? = some x ∧ x ≠ '\n')) ∧
      Node.Fills (ofText dots .text word ++ pieces) c := by
  obtain ⟨y, word, rfl⟩ := List.exists_cons_of_ne_nil hword.ne_nil
  have hdot : y ≠ '.' := fun h => hword.no_dot (congrArg some h)
  have hslash : y ≠ '/' := by
    rintro rfl
    exact absurd (hword.chars _ List.mem_cons_self) (by decide)
  have hafter : kind.after y = TokenKind.text.after y := by simp [TokenKind.after, hdot]
  rw [ofText, ofText, hafter, List.append_assoc, List.append_assoc]
  by_cases hstar : y = '*'
  · subst hstar
    have hkind : kind ≠ .star ∧ kind ≠ .dot := by
      constructor <;> rintro rfl <;> exact absurd hbegins (by decide)
    have hpiece : ofChar dots kind '*' = dotGuard dots :: oneChar :: ofChar dots .text '*' := by
      simp [ofChar, TokenKind.needsGuard, hbegins, hkind,
        show TokenKind.text.beginsSegment = false from rfl]
    rw [hpiece]
    simp only [List.cons_append, Node.fills_cons_iff, spans_dotGuard_iff, spans_oneChar_iff]
    constructor
    · rintro ⟨_, ⟨hguard, rfl⟩, _, ⟨⟨x, hx, hhead⟩, rfl⟩, hfills⟩
      exact ⟨⟨fun _ => hguard, fun _ => ⟨x, hhead, hx⟩⟩, hfills⟩
    · rintro ⟨⟨hguard, hone⟩, hfills⟩
      obtain ⟨x, hhead, hx⟩ := hone rfl
      exact ⟨c, ⟨hguard (.inr rfl), rfl⟩, c, ⟨⟨x, hx, hhead⟩, rfl⟩, hfills⟩
  · by_cases hqmark : y = '?'
    · subst hqmark
      rw [fills_qmark_iff hbegins]
      have hnot : ('?' :: word).head? ≠ some '*' := by simp
      constructor
      · rintro ⟨hguard, hfills⟩
        exact ⟨⟨fun _ => hguard, fun h => absurd h hnot⟩, hfills⟩
      · rintro ⟨⟨hguard, -⟩, hfills⟩
        exact ⟨hguard (.inl rfl), hfills⟩
    · have hpiece : ofChar dots kind y = ofChar dots .text y := by
        simp [ofChar, hslash, hstar, hqmark]
      simp [hpiece, hstar, hqmark]

/-- At the start of a segment a word is compared with the segment that begins there. -/
theorem fills_word_iff (hpieces : ∀ d, Node.Fills pieces d ↔ P d.after)
    (hend : ∀ rest, P rest → rest = [] ∨ rest.head? = some '/')
    (hbegins : kind.beginsSegment = true) {word : List Char} (hword : IsWord word) :
    Node.Fills (ofText dots kind word ++ pieces) c ↔ ∃ text rest, '/' ∉ text ∧
      c.after = text ++ rest ∧ (Matches word text ∧ Admits dots word text rest) ∧ P rest := by
  rw [fills_start_iff hbegins hword, fills_inside_iff hpieces rfl (by decide) hword.chars
    (fun h => absurd h (by decide)) hword.no_globstar]
  -- What the word matches is the whole segment, since what follows ends it.
  have hfirst {text rest : List Char} (htext : '/' ∉ text) (hafter : c.after = text ++ rest)
      (hP : P rest) : Text.firstPiece '/' c.after = text :=
    (Text.firstPiece_eq_iff htext).mpr ⟨rest, hafter, hend rest hP⟩
  constructor
  · rintro ⟨hadmits, text, rest, htext, hafter, hmatch, hP⟩
    rw [hfirst htext hafter hP, hafter] at hadmits
    exact ⟨text, rest, htext, hafter, ⟨hmatch, hadmits⟩, hP⟩
  · rintro ⟨text, rest, htext, hafter, ⟨hmatch, hadmits⟩, hP⟩
    refine ⟨?_, text, rest, htext, hafter, hmatch, hP⟩
    rw [hfirst htext hafter hP, hafter]
    exact hadmits

/-! ### One word after the other -/

/-- Words between slashes are compared with segments between slashes. -/
theorem fills_words_iff (hpieces : ∀ d, Node.Fills pieces d ↔ P d.after)
    (hend : ∀ rest, P rest → rest = [] ∨ rest.head? = some '/')
    (hbegins : kind.beginsSegment = true) {words : List (List Char)} (hne : words ≠ [])
    (hwords : ∀ word ∈ words, IsWord word) :
    Node.Fills (ofText dots kind (['/'].intercalate words) ++ pieces) c ↔ ∃ segments behind,
      (∀ segment ∈ segments, '/' ∉ segment) ∧ c.after = ['/'].intercalate segments ++ behind ∧
        PathMatches dots behind words segments ∧ P behind := by
  induction words generalizing kind c with
  | nil => exact absurd rfl hne
  | cons word words ih =>
    obtain ⟨hword, hwords⟩ := List.forall_mem_cons.mp hwords
    cases words with
    | nil =>
      rw [List.intercalate_singleton, fills_word_iff hpieces hend hbegins hword]
      constructor
      · rintro ⟨text, rest, htext, hafter, ⟨hmatch, hadmits⟩, hP⟩
        exact ⟨[text], rest, by simpa using htext, by simpa using hafter,
          ⟨hmatch, hadmits, trivial⟩, hP⟩
      · rintro ⟨_ | ⟨text, _ | ⟨_, _⟩⟩, behind, htexts, hafter, hmatches, hP⟩
        · exact hmatches.elim
        · exact ⟨text, behind, by simpa using htexts, by simpa using hafter,
            ⟨hmatches.1, hmatches.2.1⟩, hP⟩
        · exact hmatches.2.2.elim
    | cons next words =>
      have ih (c : Cursor) := ih (c := c) (show TokenKind.slash.beginsSegment = true from rfl)
        (List.cons_ne_nil next words) hwords
      have hsplit : ofText dots kind (['/'].intercalate (word :: next :: words)) ++ pieces =
          ofText dots kind word ++
            (.char '/' :: (ofText dots .slash (['/'].intercalate (next :: words)) ++ pieces)) := by
        rw [List.intercalate_cons_cons, List.append_assoc, ofText_append, List.append_assoc]
        rfl
      -- Behind the first segment come a slash and what the other words match.
      rw [hsplit, fills_word_iff (P := fun after => ∃ x rest, x = '/' ∧ after = x :: rest ∧
          ∃ segments behind, (∀ segment ∈ segments, '/' ∉ segment) ∧
            rest = ['/'].intercalate segments ++ behind ∧
              PathMatches dots behind (next :: words) segments ∧ P behind)
        (fun d => fills_cons_char_iff ih fun e => by simp [spans_char_iff])
        (by rintro _ ⟨_, rest, rfl, rfl, -⟩; exact .inr rfl) hbegins hword]
      constructor
      · rintro ⟨text, _, htext, hafter, ⟨hmatch, hadmits⟩,
          _, _, rfl, rfl, segments, behind, hsegments, rfl, hpath, hP⟩
        refine ⟨text :: segments, behind, List.forall_mem_cons.mpr ⟨htext, hsegments⟩, ?_,
          ⟨hmatch, ?_, hpath⟩, hP⟩
        · rw [Text.intercalate_cons, hpath.flatMap_eq, List.append_assoc]
          exact hafter
        · rw [hpath.flatMap_eq]
          exact hadmits
      · rintro ⟨_ | ⟨text, segments⟩, behind, hsegments, hafter, hmatches, hP⟩
        · exact hmatches.elim
        · obtain ⟨hmatch, hadmits, hpath⟩ := hmatches
          rw [Text.intercalate_cons, hpath.flatMap_eq, List.append_assoc] at hafter
          rw [hpath.flatMap_eq] at hadmits
          obtain ⟨htext, hsegments⟩ := List.forall_mem_cons.mp hsegments
          exact ⟨text, _, htext, hafter, ⟨hmatch, hadmits⟩,
            '/', _, rfl, rfl, segments, behind, hsegments, rfl, hpath, hP⟩

end Regex.Piece

/-! ### The text of a path pattern -/

namespace Wildcard

theorem admitsAll_chars {kind : TokenKind} {word rest : List Char}
    (hchars : ∀ c ∈ word, isSpecial c = false ∨ c = '.' ∨ c = '?' ∨ c = '*')
    (hdot : kind = .bos → word.head? ≠ some '.') (hstars : ¬ ['*', '*'] <:+: word)
    (hrest : rest.head? ≠ some '*') : kind.AdmitsAll rest word := by
  induction word generalizing kind with
  | nil => exact trivial
  | cons c word ih =>
    obtain ⟨hc, hword⟩ := List.forall_mem_cons.mp hchars
    have hbang : c ≠ '!' := by
      rintro rfl
      exact absurd hc (by decide)
    have hstructural : isStructural c = false := by
      rcases hc with hc | rfl | rfl | rfl
      · exact isStructural_of_not_isSpecial hc
      all_goals decide
    have hnext : c = '*' → (word ++ rest).head? ≠ some '*' := by
      rintro rfl hhead
      cases word with
      | nil => exact hrest hhead
      | cons d word =>
        obtain rfl : d = '*' := Option.some.inj hhead
        exact hstars (List.prefix_append ['*', '*'] word).isInfix
    have hafter : kind.after c ≠ .bos := by
      unfold TokenKind.after
      repeat' split
      all_goals decide
    exact ⟨⟨.inr hstructural, fun _ => hbang, fun hbos h => absurd (congrArg some h) (hdot hbos),
      fun _ => hnext⟩, ih hword (fun h => absurd h hafter)
        fun h => hstars (h.trans (List.suffix_cons c word).isInfix)⟩

/-- The characters of words between slashes are admitted. -/
theorem admitsAll_words {words : List (List Char)} (hwords : ∀ word ∈ words, IsWord word)
    (kind : TokenKind) : kind.AdmitsAll [] (['/'].intercalate words) := by
  induction words generalizing kind with
  | nil => exact trivial
  | cons word words ih =>
    obtain ⟨hword, hwords⟩ := List.forall_mem_cons.mp hwords
    have hchars {rest : List Char} (hrest : rest.head? ≠ some '*') : kind.AdmitsAll rest word :=
      admitsAll_chars hword.chars (fun _ => hword.no_dot) hword.no_globstar hrest
    cases words with
    | nil => exact List.intercalate_singleton ▸ hchars (by simp)
    | cons next words =>
      rw [List.intercalate_cons_cons, List.append_assoc]
      refine TokenKind.AdmitsAll.append (hchars (by simp)) ?_
      exact ⟨⟨.inl rfl, fun _ => by decide, fun _ h => absurd h (by decide),
        fun _ h => absurd h (by decide)⟩, ih hwords _⟩

/-- The segments that words are compared with are the pieces of their text. -/
theorem exists_segments_iff {dots : Bool} {behind text : List Char} {words : List (List Char)}
    (hne : words ≠ []) :
    (∃ segments, (∀ segment ∈ segments, '/' ∉ segment) ∧ text = ['/'].intercalate segments ∧
      PathMatches dots behind words segments) ↔
        PathMatches dots behind words (Text.pieces '/' text) := by
  constructor
  · rintro ⟨segments, hsegments, rfl, hpath⟩
    have hne' : segments ≠ [] := by
      rintro rfl
      obtain ⟨word, words, rfl⟩ := List.exists_cons_of_ne_nil hne
      exact hpath
    rwa [Text.pieces_intercalate hne' hsegments]
  · exact fun hpath => ⟨_, fun _ => Text.not_mem_of_mem_pieces,
      (Text.intercalate_pieces '/' text).symm, hpath⟩

end Wildcard

end PathGlob
