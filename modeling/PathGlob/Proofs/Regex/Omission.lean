import PathGlob.Proofs.Regex.Abreast
import PathGlob.Proofs.Regex.Pieces

/-!
# `PathGlob.Proofs.Regex.Omission`: sources in which a condition is left out

A wildcard that begins a segment is translated into a guard, the condition that some character
follows, and what it matches. Behind the beginning of a segment the condition holds of its own
accord on many texts (`HasCharacters`); behind a dot, the guard itself fails where it does not.
There a source may have it or not: two readers stay alike over the one and the other
(`Reader.Alike.read_omitted`).
-/

set_option autoImplicit false

namespace PathGlob.Regex

/-! ### One more character -/

/-- Wherever a segment of the text begins, some character other than a line feed follows. -/
structure HasCharacters (text : List Char) : Prop where
  ne_nil : text ≠ []
  lineFeed : '\n' ∉ text
  slash : text.getLast? ≠ some '/'

namespace Node

variable {text : List Char} {first : Bool}

theorem run_isSome_iff {blind idleRound : Bool} {a : Node} (ha : a.refers = false) {p : Place} :
    (a.run blind idleRound p some).isSome = true ↔ ∃ d, a.Spans blind p.cursor d := by
  rw [run_realizes blind idleRound a ha (K := fun _ => True) fun q _ => by simp]
  simp

/-- The condition that some character follows makes no difference where one does. -/
theorem run_oneChar (hline : '\n' ∉ text) {p : Place} (hp : p.Within text text.length)
    (hafter : p.after ≠ []) (idleRound : Bool) (k : Continuation) :
    Piece.oneChar.run false idleRound p k = k p := by
  obtain ⟨before, after, found, left, left_eq⟩ := p
  cases after with
  | nil => exact absurd rfl hafter
  | cons x after =>
    have hx : x ≠ '\n' := by
      rintro rfl
      exact hline (hp.text_eq ▸ List.mem_append_right _ List.mem_cons_self)
    rw [Piece.oneChar, run_ahead]
    simp [ofSequence, ofPieces, run, Run.one, Place.step?, Place.next?, hx]

/-- What is to be shown of a condition that is left out after other pieces. -/
theorem alike_oneChar {piece : Node} {pieces : List Node}
    (hregular : (ofPieces (piece :: pieces)).beyondRegular = true)
    (hbehind : pieces = [] → piece.canLookBehind = piece.fixedWidth?.isSome)
    (hsubstance : first = false → (ofPieces (piece :: pieces)).substance = .solid)
    (hruns : ∀ idleRound ⦃p : Place⦄ (k : Continuation), p.Within text text.length →
      (first = true → p.before = []) → (ofPieces (piece :: pieces)).run false idleRound p k =
        (ofPieces (piece :: pieces)).run false idleRound p
          fun q => Piece.oneChar.run false idleRound q k) :
    Alike text first (ofPieces (piece :: pieces))
      (ofPieces (Piece.oneChar :: piece :: pieces)) := by
  have hwidth : (ofPieces (Piece.oneChar :: piece :: pieces)).fixedWidth? =
      (ofPieces (piece :: pieces)).fixedWidth? := by
    rw [fixedWidth_ofPieces_cons]
    cases (ofPieces (piece :: pieces)).fixedWidth? <;> rfl
  have hregular' : (ofPieces (Piece.oneChar :: piece :: pieces)).beyondRegular = true := by
    rw [beyondRegular_ofPieces_cons, hregular, Bool.true_or]
  refine ⟨fun idleRound p k k' hp hfirst hk => ?_, ⟨?_, ?_, ?_, ?_, hwidth.symm, ?_⟩,
    fun hfirst => ?_⟩
  · rw [run_ofPieces_cons idleRound Piece.oneChar, ← hruns idleRound k' hp hfirst]
    exact (runsAlike_self text _).weaken first idleRound hp hfirst hk
  · simp [ofPieces_eq_empty_iff]
  · rw [hregular, hregular']
  · rw [isExtended_ofPieces_cons Piece.oneChar, show Piece.oneChar.isExtended = true from rfl,
      Bool.and_true]
  · rw [isLoop_ofPieces, isLoop_ofPieces]
  · rw [canLookBehind_ofPieces_cons (List.cons_ne_nil _ _), hwidth, hregular']
    by_cases hnil : pieces = []
    · subst hnil
      show piece.canLookBehind = _
      rw [hbehind rfl, fixedWidth_ofPieces_cons]
      cases piece.fixedWidth? <;> rfl
    · rw [canLookBehind_ofPieces_cons hnil, hregular]
  · rw [substance_ofPieces_cons Piece.oneChar, hsubstance hfirst]
    rfl

theorem substance_behind (piece : Node) {pieces : List Node}
    (h : (ofPieces pieces).substance = .solid) :
    (ofPieces (piece :: pieces)).substance = .solid := by
  rw [substance_ofPieces_cons, h]
  cases piece.substance <;> rfl

theorem substance_of_piece {piece : Node} (h : piece.substance = .solid) (pieces : List Node) :
    (ofPieces (piece :: pieces)).substance = .solid := by
  rw [substance_ofPieces_cons, h]
  cases (ofPieces pieces).substance <;> rfl

theorem beyondRegular_look (behind negated : Bool) (a : Node) (pieces : List Node) :
    (ofPieces (.look behind negated a :: pieces)).beyondRegular = true := by
  rw [beyondRegular_ofPieces_cons]
  exact Bool.or_true _

/-- A guard hands on the place that it stands at, if any. -/
theorem run_guard_congr {a : Node} {p : Place} {idleRound : Bool} {k k' : Continuation}
    (h : (a.run false idleRound p some).isSome = true ∨ k p = k' p) :
    (look false true a).run false idleRound p k = (look false true a).run false idleRound p k' := by
  rw [run_not_ahead, run_not_ahead]
  obtain hsome | heq := h
  · rw [if_pos hsome, if_pos hsome]
  · rw [heq]

section
variable (h : HasCharacters text)
include h

/-- Some character follows a separator and a guard. -/
theorem alike_oneChar_slash (first : Bool) (a : Node) (pieces : List Node) :
    Alike text first (ofPieces (.look false true a :: .char '/' :: pieces))
      (ofPieces (Piece.oneChar :: .look false true a :: .char '/' :: pieces)) := by
  refine alike_oneChar (beyondRegular_look _ _ _ _) (by simp)
    (fun _ => substance_behind _ (substance_of_piece rfl _)) fun idleRound p k hp hfirst => ?_
  simp only [run_ofPieces_cons]
  refine (runsAlike_self text _).weaken first idleRound hp hfirst fun q hq => ?_
  -- Behind the separator, the place is not the end of the text.
  show (q.step? (sameChar false '/')).bind _ = (q.step? (sameChar false '/')).bind _
  cases hstep : q.step? (sameChar false '/') with
  | none => rfl
  | some r =>
    have hr := (hq.step hstep).1
    show (look false true a).run false idleRound r k = (look false true a).run false idleRound r
      fun q => Piece.oneChar.run false idleRound q k
    refine run_guard_congr (.inr ?_)
    refine (run_oneChar h.lineFeed hr (fun hnil => h.slash ?_) idleRound k).symm
    obtain ⟨before, after, found, left, left_eq⟩ := q
    cases after with
    | nil => exact absurd hstep (by simp [Place.step?, Place.next?])
    | cons x after =>
      simp only [Place.step?, Place.next?, Option.ite_none_right_eq_some] at hstep
      obtain ⟨hx, hstep⟩ := hstep
      cases hstep
      have htext := hr.text_eq
      rw [hnil, List.append_nil, List.reverse_cons] at htext
      rw [← htext, List.getLast?_concat, show x = '/' from ?_]
      simpa [sameChar, eq_comm] using hx

/-- Some character follows at the start of the text. -/
theorem alike_oneChar_start (a : Node) :
    Alike text true (ofPieces [.look false true a])
      (ofPieces [Piece.oneChar, .look false true a]) := by
  refine alike_oneChar (beyondRegular_look _ _ _ _) (fun _ => rfl) (by simp)
    fun idleRound p k hp hfirst => ?_
  show (look false true a).run false idleRound p k = (look false true a).run false idleRound p
    fun q => Piece.oneChar.run false idleRound q k
  refine run_guard_congr (.inr ?_)
  refine (run_oneChar h.lineFeed hp (fun hnil => h.ne_nil ?_) idleRound k).symm
  rw [← hp.text_eq, hnil, hfirst rfl]
  rfl

/-- Some character follows a dot and its guard. -/
theorem alike_oneChar_dot (first : Bool) {piece : Node} (hpiece : piece.substance = .solid)
    (pieces : List Node) :
    Alike text first (ofPieces (Piece.noDotSegment :: piece :: pieces))
      (ofPieces (Piece.oneChar :: Piece.noDotSegment :: piece :: pieces)) := by
  refine alike_oneChar (beyondRegular_look _ _ _ _) (by simp)
    (fun _ => substance_behind _ (substance_of_piece hpiece _)) fun idleRound p k hp hfirst => ?_
  rw [run_ofPieces_cons idleRound Piece.noDotSegment,
    run_ofPieces_cons idleRound Piece.noDotSegment]
  refine (runsAlike_self text _).weaken first idleRound hp hfirst fun q hq => run_guard_congr ?_
  -- At the end of the text, it is the guard that fails.
  by_cases hafter : q.after = []
  · refine .inl ((run_isSome_iff rfl).mpr ⟨q.cursor, ?_⟩)
    rw [spans_ofSequence_cons]
    refine ⟨q.cursor, Piece.spans_optional_iff.mpr (.inl rfl), ?_⟩
    rw [spans_ofSequence_singleton]
    exact .inr (spans_ofSequence_singleton.mpr ⟨hafter, rfl⟩)
  · exact .inr (run_oneChar h.lineFeed hq hafter _ _).symm

end

end Node

/-! ### Leaving out a condition -/

variable {text : List Char} {base : List (Level × GroupKind)}

namespace Reader

/-- Between two pieces, the source is read as one more piece, whatever has been read before. -/
def ReadsPiece (source : List Char) (piece : Node) : Prop :=
  ∀ ⦃reader : Reader⦄ ⦃repeated : Bool⦄, reader.pending = .nothing →
    reader.mode = .pieces repeated → reader.read source = some (reader.push piece)

theorem readsPiece_star : ReadsPiece (Fragment.star false) Piece.star := by
  rintro ⟨_, _, _, _, _, _, _, strayBracket⟩ _ rfl rfl
  cases strayBracket <;> rfl

theorem readsPiece_oneChar : ReadsPiece Fragment.oneChar Piece.oneChar := by
  rintro ⟨_, _, _, _, _, _, _, strayBracket⟩ _ rfl rfl
  rfl

theorem readsPiece_dotGuard (dots : Bool) :
    ReadsPiece (Fragment.dotGuard false dots) (Piece.dotGuard dots) := by
  rintro ⟨_, _, _, _, _, _, _, strayBracket⟩ _ rfl rfl
  cases dots <;> rfl

theorem readsPiece_noDotSegment :
    ReadsPiece (Fragment.noDotSegment false) Piece.noDotSegment := by
  rintro ⟨_, _, _, _, _, _, _, strayBracket⟩ _ rfl rfl
  rfl

/-- Outside of classes, what stands for itself or for any character is one more piece. -/
theorem feed_eq_push {reader reader' : Reader} (hinside : reader.mode.inside? = none)
    {lexeme : Lexeme} {piece : Node}
    (hlexeme : (lexeme = .plain '/' ∧ piece = .char '/') ∨ (lexeme = .plain '.' ∧ piece = .dot) ∨
      ∃ c, lexeme = .literal c ∧ piece = .char c)
    (h : reader.feed lexeme = some reader') :
    ∃ before : Reader, before.pending = reader.pending ∧ reader' = before.push piece := by
  have hpiece (before : Reader) (repeated : Bool)
      (hbefore : before.piece repeated lexeme = some reader') : reader' = before.push piece := by
    obtain ⟨rfl, rfl⟩ | ⟨rfl, rfl⟩ | ⟨c, rfl, rfl⟩ := hlexeme <;>
      exact (Option.some.inj hbefore).symm
  have hslash : Unicode.isAlphanumeric '/' = false := by decide
  have hdot : Unicode.isAlphanumeric '.' = false := by decide
  obtain ⟨pending, mode, level, outer, groups, names, strayBrace, strayBracket⟩ := reader
  cases mode with
  | pieces repeated => exact ⟨_, rfl, hpiece _ _ h⟩
  | opened =>
    refine ⟨Reader.openCapture ⟨pending, .opened, level, outer, groups, names, strayBrace,
      strayBracket⟩, rfl, hpiece _ false ?_⟩
    obtain ⟨rfl, -⟩ | ⟨rfl, -⟩ | ⟨c, rfl, -⟩ := hlexeme <;> exact h
  | question | angle | name =>
    obtain ⟨rfl, -⟩ | ⟨rfl, -⟩ | ⟨c, rfl, -⟩ := hlexeme <;> simp [Reader.feed, hslash, hdot] at h
  | count chars =>
    refine ⟨_, ?_, hpiece (Reader.strayBraceText ⟨pending, .count chars, level, outer, groups,
      names, strayBrace, strayBracket⟩ chars) false ?_⟩
    · rfl
    · obtain ⟨rfl, -⟩ | ⟨rfl, -⟩ | ⟨c, rfl, -⟩ := hlexeme <;> exact h
  | set inside => exact absurd hinside (by simp [Mode.inside?])

/-- Outside of classes, a separator or a dot is one more piece, however it is written. -/
theorem step_eq_push {reader reader' : Reader} {depth : Nat}
    (hwithin : reader.Within base depth none) {c : Char} (hc : c = '/' ∨ c = '.')
    (h : reader.step c = some reader') : ∃ (before : Reader) (piece : Node),
      before.pending = .nothing ∧ reader' = before.push piece ∧ piece.substance = .solid ∧
        (c = '/' → piece = .char '/') := by
  have hplain (reader : Reader) (hinside : reader.mode.inside? = none)
      (hpending : reader.pending = .nothing) (hfeed : reader.feed (.plain c) = some reader') :
      ∃ (before : Reader) (piece : Node), before.pending = .nothing ∧
        reader' = before.push piece ∧ piece.substance = .solid ∧ (c = '/' → piece = .char '/') := by
    obtain rfl | rfl := hc
    · obtain ⟨before, hbefore, rfl⟩ := feed_eq_push hinside (.inl ⟨rfl, rfl⟩) hfeed
      exact ⟨before, _, hbefore.trans hpending, rfl, rfl, fun _ => rfl⟩
    · obtain ⟨before, hbefore, rfl⟩ := feed_eq_push hinside (.inr (.inl ⟨rfl, rfl⟩)) hfeed
      exact ⟨before, _, hbefore.trans hpending, rfl, rfl, fun heq => absurd heq (by decide)⟩
  have hfresh : Pending.fresh c = ([.plain c], .nothing) := by obtain rfl | rfl := hc <;> rfl
  have hhex : hexValue? c = none := by obtain rfl | rfl := hc <;> decide
  have hdigit : c.isDigit = false := by obtain rfl | rfl := hc <;> decide
  have hescape : Pending.next .backslash c = ([.literal c], .nothing) := by
    obtain rfl | rfl := hc <;> rfl
  have hbad : ¬ [Lexeme.bad].foldlM Reader.feed { reader with pending := .nothing } =
      some reader' := by
    rw [foldlM_feed_singleton, feed_eq_none (.inl rfl)]
    simp
  unfold Reader.step at h
  cases hcase : reader.pending with
  | nothing =>
    simp only [hcase, Pending.next, hfresh, foldlM_feed_singleton] at h
    exact hplain { reader with pending := .nothing } hwithin.inside_eq rfl h
  | backslash =>
    simp only [hcase, hescape, foldlM_feed_singleton] at h
    obtain ⟨before, hbefore, rfl⟩ := feed_eq_push (hwithin.withPending .nothing).inside_eq
      (.inr (.inr ⟨c, rfl, rfl⟩)) h
    exact ⟨before, _, hbefore, rfl, rfl, fun heq => heq ▸ rfl⟩
  | hex | hexDigit =>
    simp only [hcase, Pending.next, hhex] at h
    exact absurd h hbad
  | ref index =>
    simp only [hcase, Pending.next, hdigit, Bool.false_eq_true, if_false, hfresh, List.foldlM_cons,
      Option.bind_eq_bind, Option.bind_eq_some_iff] at h
    obtain ⟨middle, hfeed, h⟩ := h
    obtain ⟨hmiddle, hpending⟩ :=
      (hwithin.withPending _).feed_other (by simp) (by simp) (by simp) hfeed
    obtain ⟨last, hlast, hnil⟩ := h
    cases hnil
    exact hplain _ hmiddle.inside_eq hpending hlast

/-- The same source, but for one condition, in front of the same star. -/
theorem Alike.push_omitted {reader reader' : Reader} (h : reader.Alike text base reader')
    (guard : Node)
    (homit : ∀ first, reader.level.Alike text first reader'.level →
      Node.Alike text first (.ofPieces (guard :: reader.level.pieces))
        (.ofPieces (Piece.oneChar :: guard :: reader'.level.pieces))) :
    ((reader.push guard).push Piece.star).Alike text base
      (((reader'.push guard).push Piece.oneChar).push Piece.star) :=
  { h with
    mode := rfl
    levels := h.levels.update fun first hlevel =>
      ⟨hlevel.branches, .cons (homit first hlevel) (.refl _ _ _)⟩
    repeated := fun heq => absurd heq (by simp [Reader.push]) }

theorem readsPiece_append {reader : Reader} {a b : List Char} {piece piece' : Node}
    (ha : ReadsPiece a piece) (hb : ReadsPiece b piece') {repeated : Bool}
    (hpending : reader.pending = .nothing) (hmode : reader.mode = .pieces repeated) :
    reader.read (a ++ b) = some ((reader.push piece).push piece') := by
  rw [read_append, ha hpending hmode, Option.bind_some,
    hb (show (reader.push piece).pending = .nothing from hpending) rfl]

end Reader

/-- The place of the strict reading is not within a class. -/
def Scan.IsOutside (s : Scan) : Prop := ∃ depth, s = .outside depth ∨ s = .escape depth

theorem Scan.Tracks.exists_within {s : Scan} {reader : Reader} (h : s.Tracks base reader)
    (hs : s.IsOutside) : ∃ depth, reader.Within base depth none := by
  obtain ⟨depth, rfl | rfl⟩ := hs <;> exact ⟨depth, h.2⟩

/-- What is put behind a separator or a dot before a star. -/
def IsGuardOf (lead guard : List Char) : Prop :=
  (lead = ['/'] ∧ ∃ dots, guard = Fragment.dotGuard false dots) ∨
    (lead = Fragment.dot ∧ guard = Fragment.noDotSegment false)

theorem IsGuardOf.neutral {lead guard : List Char} (h : IsGuardOf lead guard) : Neutral guard := by
  obtain ⟨-, dots, rfl⟩ | ⟨-, rfl⟩ := h
  · exact Fragment.neutral_dotGuard false dots
  · exact Fragment.neutral_noDotSegment false

theorem neutral_oneChar : Neutral Fragment.oneChar := fun _ => rfl

/-- Within a class, the strict reading does not get past a star. -/
theorem Scan.isOutside_of_scan {s s' : Scan} {lead guard : List Char}
    (hguard : IsGuardOf lead guard)
    (h : scan s (lead ++ (guard ++ Fragment.star false)) = some s') : s.IsOutside := by
  have hclass (s : Scan) (hnone : scan s (lead ++ (guard ++ Fragment.star false)) = none) :
      ¬scan s (lead ++ (guard ++ Fragment.star false)) = some s' := by simp [hnone]
  cases s with
  | outside depth => exact ⟨depth, .inl rfl⟩
  | escape depth => exact ⟨depth, .inr rfl⟩
  | inClass part depth =>
    refine absurd h (hclass _ ?_)
    obtain ⟨rfl, dots, rfl⟩ | ⟨rfl, rfl⟩ := hguard
    · cases part <;> cases dots <;> rfl
    · cases part <;> rfl
  | classEscape depth =>
    refine absurd h (hclass _ ?_)
    obtain ⟨rfl, dots, rfl⟩ | ⟨rfl, rfl⟩ := hguard
    · cases dots <;> rfl
    · rfl

/-- To the strict reading it is all the same whether the condition is left out. -/
theorem scan_omitted {s s' : Scan} {lead guard : List Char} (hguard : IsGuardOf lead guard)
    (h : scan s (lead ++ (guard ++ Fragment.star false)) = some s') :
    scan s (lead ++ (guard ++ (Fragment.oneChar ++ Fragment.star false))) = some s' := by
  have hlead : ∃ depth, scan s lead = some (.outside depth) := by
    obtain ⟨depth, rfl | rfl⟩ := Scan.isOutside_of_scan hguard h <;>
      obtain ⟨rfl, -⟩ | ⟨rfl, -⟩ := hguard <;> exact ⟨depth, rfl⟩
  obtain ⟨depth, hlead⟩ := hlead
  have hneutral {source : List Char} (hsource : Neutral source) :
      scan (.outside depth) source = some (.outside depth) := by
    have := hsource depth
    rwa [Nat.zero_add] at this
  have hstar := Fragment.neutral_star false
  rw [scan_append, hlead, Option.bind_some, hneutral (hguard.neutral.append hstar)] at h
  rw [scan_append, hlead, Option.bind_some,
    hneutral (hguard.neutral.append (neutral_oneChar.append hstar)), h]

namespace Reader

/-- Outside of classes, a separator and a dot without a special meaning are one more piece. -/
theorem read_eq_push {reader reader' : Reader} {s s' : Scan} (htracks : s.Tracks base reader)
    (hs : s.IsOutside) {lead : List Char} (hlead : lead = ['/'] ∨ lead = Fragment.dot)
    (hscan : scan s lead = some s') (h : reader.read lead = some reader') :
    ∃ (before : Reader) (piece : Node), before.pending = .nothing ∧ reader' = before.push piece ∧
      piece.substance = .solid ∧ (lead = ['/'] → piece = .char '/') := by
  obtain rfl | rfl := hlead
  · obtain ⟨depth, hwithin⟩ := htracks.exists_within hs
    have hstep : reader.step '/' = some reader' := by
      simpa [Reader.read] using h
    obtain ⟨before, piece, hbefore, hpush, hsolid, hslash⟩ := step_eq_push hwithin (.inl rfl) hstep
    exact ⟨before, piece, hbefore, hpush, hsolid, fun _ => hslash rfl⟩
  · rw [Fragment.dot, Reader.read, List.foldlM_cons, Option.bind_eq_bind,
      Option.bind_eq_some_iff] at h
    obtain ⟨middle, hbackslash, hdot⟩ := h
    rw [Fragment.dot, scan_cons, Option.bind_eq_some_iff] at hscan
    obtain ⟨t, hnext, -⟩ := hscan
    -- The backslash may itself be escaped.
    have ht : t.IsOutside := by
      obtain ⟨depth, rfl | rfl⟩ := hs
      · cases hnext
        exact ⟨depth, .inr rfl⟩
      · cases hnext
        exact ⟨depth, .inl rfl⟩
    obtain ⟨depth, hwithin⟩ := (htracks.step hnext hbackslash).exists_within ht
    have hstep : middle.step '.' = some reader' := by simpa using hdot
    obtain ⟨before, piece, hbefore, hpush, hsolid, -⟩ := step_eq_push hwithin (.inr rfl) hstep
    exact ⟨before, piece, hbefore, hpush, hsolid, fun heq => absurd heq (by decide)⟩

/-- Behind a separator or a dot, with its guard, the condition that some character follows may be
left out before a star. -/
theorem Alike.read_omitted (htext : HasCharacters text) {reader reader' : Reader}
    (h : reader.Alike text base reader') {s s' : Scan} (htracks : s.Tracks base reader)
    (htracks' : s.Tracks base reader') {lead guard : List Char} (hguard : IsGuardOf lead guard)
    (hscan : scan s (lead ++ (guard ++ Fragment.star false)) = some s') :
    Option.Rel (Reader.Alike text base) (reader.read (lead ++ (guard ++ Fragment.star false)))
      (reader'.read (lead ++ (guard ++ (Fragment.oneChar ++ Fragment.star false)))) := by
  have hs := Scan.isOutside_of_scan hguard hscan
  rw [scan_append, Option.bind_eq_some_iff] at hscan
  obtain ⟨middle, hscan, -⟩ := hscan
  have hlead : lead = ['/'] ∨ lead = Fragment.dot := hguard.imp And.left And.left
  rw [read_append, read_append reader' lead]
  refine rel_bind (h.read htracks hscan) fun next next' hone hother hnext => ?_
  obtain ⟨before, piece, hbefore, rfl, hsolid, hslash⟩ := read_eq_push htracks hs hlead hscan hone
  obtain ⟨before', piece', hbefore', rfl, hsolid', hslash'⟩ :=
    read_eq_push htracks' hs hlead hscan hother
  -- Up to the guard, the two have read the same; there the condition may be left out.
  obtain ⟨node, hnode, homit⟩ : ∃ node, ReadsPiece guard node ∧ ∀ first pieces,
      Node.Alike text first (.ofPieces (node :: piece' :: pieces))
        (.ofPieces (Piece.oneChar :: node :: piece' :: pieces)) := by
    obtain ⟨hslashLead, dots, rfl⟩ | ⟨-, rfl⟩ := hguard
    · refine ⟨_, readsPiece_dotGuard dots, fun first pieces => ?_⟩
      rw [hslash' hslashLead]
      exact Node.alike_oneChar_slash htext first _ pieces
    · exact ⟨_, readsPiece_noDotSegment, fun first pieces =>
        Node.alike_oneChar_dot htext first hsolid' pieces⟩
  have hrest : (before.push piece).pending = .nothing := hbefore
  have hrest' : (before'.push piece').pending = .nothing := hbefore'
  have hrest'' : ((before'.push piece').push node).pending = .nothing := hbefore'
  rw [readsPiece_append hnode readsPiece_star hrest rfl, read_append, hnode hrest' rfl,
    Option.bind_some, readsPiece_append readsPiece_oneChar readsPiece_star hrest'' rfl]
  refine .some (hnext.push_omitted node fun first hlevel => ?_)
  exact (hlevel.pieces.node.push (.refl text false node)).trans (homit first _)

/-- At the beginning of what is read, the condition that some character follows may be left out
before a star. -/
theorem alike_start (htext : HasCharacters text) {reader : Reader} {repeated : Bool}
    (hpending : reader.pending = .nothing) (hmode : reader.mode = .pieces repeated)
    (hlevel : reader.level = {}) (houter : reader.outer = base) (dots : Bool) :
    Option.Rel (Reader.Alike text base)
      (reader.read (Fragment.dotGuard false dots ++ Fragment.star false))
      (reader.read
        (Fragment.dotGuard false dots ++ (Fragment.oneChar ++ Fragment.star false))) := by
  rw [readsPiece_append (readsPiece_dotGuard dots) readsPiece_star hpending hmode, read_append,
    readsPiece_dotGuard dots hpending hmode, Option.bind_some,
    readsPiece_append readsPiece_oneChar readsPiece_star
      (show (reader.push (Piece.dotGuard dots)).pending = .nothing from hpending) rfl]
  obtain ⟨pending, mode, level, outer, groups, names, strayBrace, strayBracket⟩ := reader
  obtain rfl : level = {} := hlevel
  obtain rfl : outer = base := houter
  exact .some ⟨rfl, rfl, rfl, rfl, rfl, rfl,
    .outermost ⟨.nil, .cons (Node.alike_oneChar_start htext _) (.refl _ _ _)⟩,
    fun heq => absurd heq (by simp [Reader.push])⟩

end Reader

end PathGlob.Regex
