import PathGlob.Proofs.Regex.Alike
import PathGlob.Proofs.Regex.Anchors

/-!
# `PathGlob.Proofs.Regex.Abreast`: two sources read side by side

Two readers are alike on a text if the trees of the groups that they have open are, one by one,
and whatever else they know is the same (`Reader.Alike`). What they both read from there on does
the same to either, so they stay alike (`Reader.Alike.read`), and they refuse the same.

The groups around the beginning are the same for both readers and stay open. Directly within
them, matching begins at the start of the text. So where two translations are read alike, the
programs of their sources find the same in the text, capturing groups included
(`find?_eq_of_sourcesAlike`).
-/

set_option autoImplicit false

namespace PathGlob.Regex

/-- Two computations that fail together go on together. -/
theorem rel_bind {α β : Type} {r : α → α → Prop} {s : β → β → Prop} {a a' : Option α}
    {f f' : α → Option β} (h : Option.Rel r a a')
    (hnext : ∀ x x', a = some x → a' = some x' → r x x' → Option.Rel s (f x) (f' x')) :
    Option.Rel s (a.bind f) (a'.bind f') := by
  cases h with
  | none => exact .none
  | some h => exact hnext _ _ rfl rfl h

theorem rel_imp {α : Type} {r s : α → α → Prop} {a a' : Option α} (h : Option.Rel r a a')
    (himp : ∀ x x', r x x' → s x x') : Option.Rel s a a' := by
  cases h with
  | none => exact .none
  | some h => exact .some (himp _ _ h)

/-! ### Groups that are being read -/

section
variable (text : List Char) (first : Bool)

/-- The pieces, last one first, are alike one by one, and so is what stands before each. -/
inductive PiecesAlike : List Node → List Node → Prop where
  | nil : PiecesAlike [] []
  | cons {a b : Node} {pieces pieces' : List Node}
      (hbefore : Node.Alike text first (.ofPieces pieces) (.ofPieces pieces'))
      (hpiece : Node.Alike text false a b) : PiecesAlike (a :: pieces) (b :: pieces')

/-- The alternatives are alike one by one. -/
inductive BranchesAlike : List Node → List Node → Prop where
  | nil : BranchesAlike [] []
  | cons {a b : Node} {branches branches' : List Node} (hbranch : Node.Alike text first a b)
      (hearlier : BranchesAlike branches branches') : BranchesAlike (a :: branches) (b :: branches')

/-- What has been read of a group is alike. -/
structure Level.Alike (level level' : Level) : Prop where
  branches : BranchesAlike text first level.branches level'.branches
  pieces : PiecesAlike text first level.pieces level'.pieces

end

variable {text : List Char} {first : Bool} {base : List (Level × GroupKind)}

theorem PiecesAlike.node {pieces pieces' : List Node} (h : PiecesAlike text first pieces pieces') :
    Node.Alike text first (.ofPieces pieces) (.ofPieces pieces') := by
  cases h with
  | nil => exact .refl _ _ _
  | cons hbefore hpiece => exact hbefore.push hpiece

theorem BranchesAlike.node {branches branches' : List Node}
    (h : BranchesAlike text first branches branches') {a b : Node}
    (hlast : Node.Alike text first a b) :
    Node.Alike text first (.ofBranches branches a) (.ofBranches branches' b) := by
  induction h generalizing a b with
  | nil => exact hlast
  | cons hbranch _ ih => exact ih (hbranch.alt hlast)

namespace Level

variable {level level' : Level}

theorem alike_empty (text : List Char) (first : Bool) : Level.Alike text first {} {} := ⟨.nil, .nil⟩

theorem Alike.node (h : level.Alike text first level') :
    Node.Alike text first level.node level'.node := h.branches.node h.pieces.node

theorem Alike.push (h : level.Alike text first level') {a b : Node}
    (hpiece : Node.Alike text false a b) : (level.push a).Alike text first (level'.push b) :=
  ⟨h.branches, .cons h.pieces.node hpiece⟩

theorem Alike.branch (h : level.Alike text first level') :
    level.branch.Alike text first level'.branch := ⟨.cons h.pieces.node h.branches, .nil⟩

end Level

namespace Reader

/-- The groups that are open within the given ones are alike, from the innermost one. -/
inductive LevelsAlike (text : List Char) (base : List (Level × GroupKind)) :
    Level → List (Level × GroupKind) → Level → List (Level × GroupKind) → Prop where
  | outermost {level level' : Level} (hlevel : level.Alike text true level') :
      LevelsAlike text base level base level' base
  | inner {level level' around around' : Level} {outer outer' : List (Level × GroupKind)}
      {kind : GroupKind} (hlevel : level.Alike text false level')
      (hlevels : LevelsAlike text base around outer around' outer') :
      LevelsAlike text base level ((around, kind) :: outer) level' ((around', kind) :: outer')

theorem LevelsAlike.length_eq {level level' : Level} {outer outer' : List (Level × GroupKind)}
    (h : LevelsAlike text base level outer level' outer') : outer'.length = outer.length := by
  induction h with
  | outermost => rfl
  | inner _ _ ih => simp [ih]

/-- The innermost group goes on. -/
theorem LevelsAlike.update {level level' : Level} {outer outer' : List (Level × GroupKind)}
    (h : LevelsAlike text base level outer level' outer') {next next' : Level}
    (hnext : ∀ first, level.Alike text first level' → next.Alike text first next') :
    LevelsAlike text base next outer next' outer' := by
  cases h with
  | outermost hlevel => exact .outermost (hnext _ hlevel)
  | inner hlevel hlevels => exact .inner (hnext _ hlevel) hlevels

/-- Two readers that differ only in what they have read, and there a text does not tell the
difference. -/
structure Alike (text : List Char) (base : List (Level × GroupKind)) (reader reader' : Reader) :
    Prop where
  pending : reader'.pending = reader.pending
  mode : reader'.mode = reader.mode
  groups : reader'.groups = reader.groups
  names : reader'.names = reader.names
  strayBrace : reader'.strayBrace = reader.strayBrace
  strayBracket : reader'.strayBracket = reader.strayBracket
  levels : LevelsAlike text base reader.level reader.outer reader'.level reader'.outer
  /-- A quantifier that may become reluctant repeats pieces that are alike. -/
  repeated : reader.mode = .pieces true → ∃ a b least most reluctant pieces pieces',
    reader.level.pieces = .loop a least most reluctant :: pieces ∧
      reader'.level.pieces = .loop b least most reluctant :: pieces' ∧ Node.Alike text false a b

section
variable {reader reader' : Reader} (h : reader.Alike text base reader')
include h

theorem Alike.push {a b : Node} (hpiece : Node.Alike text false a b) :
    (reader.push a).Alike text base (reader'.push b) where
  pending := h.pending
  mode := rfl
  groups := h.groups
  names := h.names
  strayBrace := h.strayBrace
  strayBracket := h.strayBracket
  levels := h.levels.update fun _ hlevel => hlevel.push hpiece
  repeated hmode := absurd hmode (by simp [Reader.push])

theorem Alike.withMode {mode : Mode} (hmode : mode ≠ .pieces true) :
    { reader with mode }.Alike text base { reader' with mode } :=
  { h with mode := rfl, repeated := fun heq => absurd heq hmode }

theorem Alike.openGroup (kind : GroupKind) :
    (reader.openGroup kind).Alike text base (reader'.openGroup kind) :=
  { h with
    mode := rfl
    levels := .inner (Level.alike_empty _ _) h.levels
    repeated := fun heq => absurd heq (by simp [Reader.openGroup]) }

theorem Alike.openCapture : reader.openCapture.Alike text base reader'.openCapture := by
  have hgroup := h.openGroup (.capture (reader.groups + 1))
  have hgroups := h.groups
  rw [Reader.openCapture, Reader.openCapture, hgroups]
  exact { hgroup with groups := rfl }

theorem Alike.closeGroup (hopen : base.length < reader.outer.length) :
    Option.Rel (Reader.Alike text base) reader.closeGroup reader'.closeGroup := by
  obtain ⟨pending, mode, level, outer, groups, names, strayBrace, strayBracket⟩ := reader
  obtain ⟨pending', mode', level', outer', groups', names', strayBrace', strayBracket'⟩ := reader'
  have hlevels : LevelsAlike text base level outer level' outer' := h.levels
  cases hlevels with
  | outermost => exact absurd hopen (Nat.lt_irrefl _)
  | inner hlevel hlevels =>
    exact .some { h with
      mode := rfl
      levels := hlevels.update fun _ haround => haround.push (hlevel.node.wrap _)
      repeated := fun heq => absurd heq (by simp) }

theorem Alike.repeatLast (least : Nat) (most : Option Nat) :
    Option.Rel (Reader.Alike text base) (reader.repeatLast least most)
      (reader'.repeatLast least most) := by
  obtain ⟨pending, mode, ⟨branches, pieces⟩, outer, groups, names, strayBrace,
    strayBracket⟩ := reader
  obtain ⟨pending', mode', ⟨branches', pieces'⟩, outer', groups', names', strayBrace',
    strayBracket'⟩ := reader'
  have hlevels : LevelsAlike text base ⟨branches, pieces⟩ outer ⟨branches', pieces'⟩ outer' :=
    h.levels
  obtain ⟨first, hpieces⟩ : ∃ first, PiecesAlike text first pieces pieces' := by
    cases hlevels with
    | outermost hlevel => exact ⟨_, hlevel.pieces⟩
    | inner hlevel => exact ⟨_, hlevel.pieces⟩
  cases hpieces with
  | nil => exact .none
  | cons hbefore hpiece =>
    refine .some { h with
      mode := rfl
      levels := hlevels.update fun _ hlevel => ⟨hlevel.branches, ?_⟩
      repeated := fun _ => ⟨_, _, _, _, _, _, _, rfl, rfl, hpiece⟩ }
    cases hlevel.pieces with
    | cons hbefore hpiece => exact .cons hbefore (hpiece.loop least most false)

theorem Alike.makeReluctant (hmode : reader.mode = .pieces true) :
    reader.makeReluctant.Alike text base reader'.makeReluctant := by
  obtain ⟨a, b, least, most, reluctant, pieces, pieces', hpieces, hpieces', hpiece⟩ :=
    h.repeated hmode
  unfold Reader.makeReluctant
  rw [hpieces, hpieces']
  refine { h with mode := rfl, levels := h.levels.update fun _ hlevel => ⟨hlevel.branches, ?_⟩,
                  repeated := fun heq => absurd heq (by simp) }
  have hall := hlevel.pieces
  rw [hpieces, hpieces'] at hall
  cases hall with
  | cons hbefore => exact .cons hbefore (hpiece.loop least most true)

theorem Alike.strayBraceText (chars : List Char) :
    (reader.strayBraceText chars).Alike text base (reader'.strayBraceText chars) := by
  refine { h with mode := rfl, strayBrace := rfl, levels := h.levels.update fun _ hlevel => ?_,
                  repeated := fun heq => absurd heq (by simp [Reader.strayBraceText]) }
  have hbrace := hlevel.push (.refl text false (.char '{'))
  induction chars with
  | nil => exact hbrace
  | cons c chars ih => exact ih.push (.refl text false (.char c))

theorem Alike.piece {repeated : Bool} (hrepeated : repeated = true → reader.mode = .pieces true)
    {lexeme : Lexeme} (hclose : lexeme = .plain ')' → base.length < reader.outer.length) :
    Option.Rel (Reader.Alike text base) (reader.piece repeated lexeme)
      (reader'.piece repeated lexeme) := by
  have hpush (a : Node) : Option.Rel (Reader.Alike text base) (some (reader.push a))
      (some (reader'.push a)) := .some (h.push (.refl text false a))
  unfold Reader.piece
  split
  case h_1 => exact .some (h.withMode (by simp))
  case h_2 => exact h.closeGroup (hclose rfl)
  case h_3 => exact .some { h with
      mode := rfl
      levels := h.levels.update fun _ hlevel => hlevel.branch
      repeated := fun heq => absurd heq (by simp) }
  case h_4 => exact h.repeatLast 0 none
  case h_5 => exact h.repeatLast 1 none
  case h_6 =>
    split
    case isTrue htrue => exact .some (h.makeReluctant (hrepeated htrue))
    case isFalse => exact h.repeatLast 0 (some 1)
  case h_7 => exact .some (h.withMode (by simp))
  case h_8 => exact .some (h.withMode (by simp))
  case h_16 index =>
    rw [h.groups]
    split
    · exact hpush _
    · exact .none
  case h_17 => exact .none
  all_goals exact hpush _

theorem Alike.count {chars : List Char} {lexeme : Lexeme}
    (hclose : lexeme = .plain ')' → base.length < reader.outer.length) :
    Option.Rel (Reader.Alike text base) (reader.count chars lexeme)
      (reader'.count chars lexeme) := by
  have hstray := h.strayBraceText chars
  have hpiece : Option.Rel (Reader.Alike text base)
      ((reader.strayBraceText chars).piece false lexeme)
      ((reader'.strayBraceText chars).piece false lexeme) := hstray.piece (by simp) hclose
  unfold Reader.count
  split
  case h_1 =>
    split
    case h_1 least most _ => exact h.repeatLast least most
    case h_2 => exact .some (hstray.push (.refl text false (.char '}')))
  case h_2 =>
    split
    case isTrue => exact .some (h.withMode (by simp))
    case isFalse => exact hpiece
  case h_3 => exact hpiece

theorem Alike.feed {lexeme : Lexeme} (hclose : lexeme = .plain ')' → reader.mode.inside? = none →
    base.length < reader.outer.length + reader.mode.opening) :
    Option.Rel (Reader.Alike text base) (reader.feed lexeme) (reader'.feed lexeme) := by
  have hmode := h.mode
  unfold Reader.feed
  rw [hmode]
  split
  case h_1 repeated heq =>
    refine h.piece (fun htrue => htrue ▸ heq) fun hparen => ?_
    simpa [heq, Mode.opening, Mode.inside?] using hclose hparen
  case h_2 heq =>
    split
    · exact .some (h.withMode (by simp))
    · refine h.openCapture.piece (by simp) fun hparen => ?_
      have := hclose hparen (by simp [heq, Mode.inside?])
      simpa [heq, Mode.opening, Reader.openCapture, Reader.openGroup] using this
  case h_3 =>
    repeat' split
    · exact .some (h.openGroup .bare)
    · exact .some (h.openGroup (.look false false))
    · exact .some (h.openGroup (.look false true))
    · exact .some (h.withMode (by simp))
    · exact .none
  case h_4 =>
    repeat' split
    · exact .some (h.openGroup (.look true false))
    · exact .some (h.openGroup (.look true true))
    · exact .some (h.withMode (by simp))
    · exact .none
    · exact .none
  case h_5 =>
    repeat' split
    · exact .some { h.openCapture with names := congrArg (List.cons _) h.names }
    · exact .some (h.withMode (by simp))
    · exact .none
    · exact .none
  case h_6 chars heq =>
    refine h.count fun hparen => ?_
    simpa [heq, Mode.opening, Mode.inside?] using hclose hparen
  case h_7 inside _ =>
    split
    · exact .some (h.withMode (by simp))
    · exact .some { h.push (.refl text false _) with
        strayBracket := congrArg (· || _) h.strayBracket }
    · exact .none

theorem Alike.withPending (pending : Pending) :
    { reader with pending }.Alike text base { reader' with pending } := { h with pending := rfl }

/-- A character that continues no escape. -/
theorem Alike.fresh {c : Char} (hclose : c = ')' → reader.mode.inside? = none →
    base.length < reader.outer.length + reader.mode.opening) :
    Option.Rel (Reader.Alike text base) ((Pending.fresh c).1.foldlM Reader.feed reader)
      ((Pending.fresh c).1.foldlM Reader.feed reader') := by
  unfold Pending.fresh
  split
  case isTrue => exact .some h
  case isFalse =>
    rw [foldlM_feed_singleton, foldlM_feed_singleton]
    exact h.feed fun hlexeme => hclose (by simpa using hlexeme)

end

/-- Where a parenthesis closes a group for the strict reading, there is one that the reader has
opened. -/
theorem exists_within_of_tracks {s s' : Scan} {reader : Reader} (h : s.Tracks base reader)
    (hnext : s.next ')' = some s') (hpending : reader.pending ≠ .backslash)
    (hinside : reader.mode.inside? = none) : ∃ depth, reader.Within base (depth + 1) none := by
  cases s with
  | outside depth =>
    cases depth with
    | zero => exact absurd hnext (by simp [Scan.next])
    | succ depth => exact ⟨depth, h.2⟩
  | escape | classEscape => exact absurd h.1 hpending
  | inClass =>
    obtain ⟨inside, -, -, hwithin⟩ := h
    exact absurd (hwithin.inside_eq.symm.trans hinside) (by simp)

theorem Within.lt_length {reader : Reader} {depth : Nat}
    (h : reader.Within base (depth + 1) none) :
    base.length < reader.outer.length + reader.mode.opening := by
  have := h.depth_eq
  omega

/-- Readers that are alike stay so over a character, unless it would close one of the groups
around. -/
theorem Alike.step {reader reader' : Reader} (h : reader.Alike text base reader') {s s' : Scan}
    (htracks : s.Tracks base reader) {c : Char} (hnext : s.next c = some s') :
    Option.Rel (Reader.Alike text base) (reader.step c) (reader'.step c) := by
  have hwithin (hc : c = ')') (hpending : reader.pending ≠ .backslash)
      (hinside : reader.mode.inside? = none) : ∃ depth, reader.Within base (depth + 1) none :=
    exists_within_of_tracks htracks (hc ▸ hnext) hpending hinside
  have hfeed (lexeme : Lexeme) (hlexeme : lexeme ≠ .plain ')') (pending : Pending) :
      Option.Rel (Reader.Alike text base) (({ reader with pending } : Reader).feed lexeme)
        (({ reader' with pending } : Reader).feed lexeme) :=
    (h.withPending pending).feed fun heq => absurd heq hlexeme
  unfold Reader.step
  rw [h.pending]
  cases hcase : reader.pending with
  | nothing =>
    refine (h.withPending _).fresh fun hc hinside => ?_
    obtain ⟨depth, hdepth⟩ := hwithin hc (by simp [hcase]) hinside
    exact hdepth.lt_length
  | backslash =>
    simp only [Pending.next]
    repeat' split
    · exact .some (h.withPending _)
    · exact .some (h.withPending _)
    · simp only [foldlM_feed_singleton]
      exact hfeed _ (Lexeme.ofEscape_ne_plain c _) _
  | hex =>
    simp only [Pending.next]
    split
    · exact .some (h.withPending _)
    · simp only [foldlM_feed_singleton]
      exact hfeed _ (by simp) _
  | hexDigit high =>
    simp only [Pending.next]
    split
    · simp only [foldlM_feed_singleton]
      exact hfeed _ (by simp) _
    · simp only [foldlM_feed_singleton]
      exact hfeed _ (by simp) _
  | ref index =>
    simp only [Pending.next]
    split
    · exact .some (h.withPending _)
    · simp only [List.foldlM_cons, Option.bind_eq_bind]
      -- The back-reference comes first, and opens or closes nothing.
      refine rel_bind (hfeed (.ref index) (by simp) _) fun middle _ hmiddle _ halike =>
        halike.fresh fun hc _ => ?_
      have hinside : reader.mode.inside? = none := by
        cases hset : reader.mode.inside? with
        | none => rfl
        | some inside =>
          have hnone : ({ reader with pending := (Pending.fresh c).2 } : Reader).feed
              (.ref index) = none :=
            feed_eq_none (.inr ⟨inside, index, Mode.inside?_eq_some_iff.mp hset, rfl⟩)
          exact absurd (hmiddle.symm.trans hnone) (by simp)
      obtain ⟨depth, hdepth⟩ := hwithin hc (by simp [hcase]) hinside
      exact ((hdepth.withPending _).feed_other (by simp) (by simp) (by simp) hmiddle).1.lt_length

/-- Readers that are alike stay so over a source that closes none of the groups around. -/
theorem Alike.read {reader reader' : Reader} (h : reader.Alike text base reader') {s s' : Scan}
    (htracks : s.Tracks base reader) {source : List Char} (hscan : scan s source = some s') :
    Option.Rel (Reader.Alike text base) (reader.read source) (reader'.read source) := by
  induction source generalizing s reader reader' with
  | nil => exact .some h
  | cons c source ih =>
    rw [scan_cons, Option.bind_eq_some_iff] at hscan
    obtain ⟨middle, hnext, hscan⟩ := hscan
    simp only [Reader.read, List.foldlM_cons, Option.bind_eq_bind]
    exact rel_bind (h.step htracks hnext) fun next _ hone _ halike =>
      ih halike (htracks.step hnext hone) hscan

/-- Sources are alike if one part of them is and then the other, from where the strict reading of
the one part leads to. -/
theorem rel_read_append {reader reader' : Reader} {s middle : Scan} {source source' : List Char}
    (htracks : s.Tracks base reader) (htracks' : s.Tracks base reader')
    (hscan : scan s source = some middle) (hscan' : scan s source' = some middle)
    (hread : Option.Rel (Reader.Alike text base) (reader.read source) (reader'.read source'))
    {rest rest' : List Char} (hrest : ∀ next next', next.Alike text base next' →
      middle.Tracks base next → middle.Tracks base next' →
        Option.Rel (Reader.Alike text base) (next.read rest) (next'.read rest')) :
    Option.Rel (Reader.Alike text base) (reader.read (source ++ rest))
      (reader'.read (source' ++ rest')) := by
  rw [Reader.read_append, Reader.read_append]
  exact rel_bind hread fun next next' hnext hnext' halike =>
    hrest next next' halike (htracks.read hscan hnext) (htracks'.read hscan' hnext')

theorem LevelsAlike.suffix {level level' : Level} {outer outer' : List (Level × GroupKind)}
    (h : LevelsAlike text base level outer level' outer') : base <:+ outer' := by
  induction h with
  | outermost => exact List.suffix_refl _
  | inner _ _ ih => exact ih.trans (List.suffix_cons _ _)

/-- A reader is like itself where a group begins. -/
theorem alike_self (text : List Char) {reader : Reader} (hmode : reader.mode ≠ .pieces true)
    (hlevel : reader.level = {}) (houter : reader.outer = base) :
    reader.Alike text base reader := by
  obtain ⟨pending, mode, level, outer, groups, names, strayBrace, strayBracket⟩ := reader
  obtain rfl : level = {} := hlevel
  obtain rfl : outer = base := houter
  exact ⟨rfl, rfl, rfl, rfl, rfl, rfl, .outermost (Level.alike_empty _ _),
    fun heq => absurd heq hmode⟩

/-! ### Between anchors -/

/-- A group has been closed in the one reader and in the other, and what they have read of it is
alike at the start of the text. Everything else is the same. -/
def ClosesAlike (text : List Char) (level : Level) (kind : GroupKind)
    (outer : List (Level × GroupKind)) (reader reader' : Reader) : Prop :=
  ∃ a b, Node.Alike text true a b ∧ reader.Rests (level.push (kind.wrap a)) outer ∧
    reader' = { reader with level := level.push (kind.wrap b) }

section
variable {level : Level} {kind : GroupKind} {outer : List (Level × GroupKind)}
  {reader reader' : Reader}

theorem Alike.closeOutermost (h : reader.Alike text ((level, kind) :: outer) reader')
    (houter : reader.outer = (level, kind) :: outer) (hpending : reader.pending = .nothing) :
    Option.Rel (ClosesAlike text level kind outer) reader.closeGroup reader'.closeGroup := by
  obtain ⟨pending, mode, inner, outer₁, groups, names, strayBrace, strayBracket⟩ := reader
  obtain ⟨pending', mode', inner', outer₁', groups', names', strayBrace', strayBracket'⟩ := reader'
  obtain rfl : outer₁ = (level, kind) :: outer := houter
  obtain rfl : pending = .nothing := hpending
  obtain rfl : pending' = .nothing := h.pending
  obtain rfl : groups' = groups := h.groups
  obtain rfl : names' = names := h.names
  obtain rfl : strayBrace' = strayBrace := h.strayBrace
  obtain rfl : strayBracket' = strayBracket := h.strayBracket
  have hlevels : LevelsAlike text ((level, kind) :: outer) inner ((level, kind) :: outer) inner'
      outer₁' := h.levels
  cases hlevels with
  | outermost hlevel => exact .some ⟨_, _, hlevel.node, ⟨rfl, rfl, rfl, rfl⟩, rfl⟩
  | inner _ hlevels =>
    have hlength := hlevels.suffix.length_le
    have hsame := hlevels.length_eq
    simp only [List.length_cons] at hlength
    omega

theorem Alike.feedClose (h : reader.Alike text ((level, kind) :: outer) reader')
    (hwithin : reader.Within ((level, kind) :: outer) 0 none)
    (hpending : reader.pending = .nothing) :
    Option.Rel (ClosesAlike text level kind outer) (reader.feed (.plain ')'))
      (reader'.feed (.plain ')')) := by
  have hdepth := hwithin.depth_eq
  have hlength := hwithin.suffix.length_le
  have houter : reader.outer = (level, kind) :: outer :=
    (hwithin.suffix.eq_of_length (by omega)).symm
  have hopening : reader.mode.opening = 0 := by omega
  have hinside := hwithin.inside_eq
  have hmode := h.mode
  unfold Reader.feed
  rw [hmode]
  cases hcase : reader.mode with
  | pieces repeated => exact h.closeOutermost houter hpending
  | count chars => exact (h.strayBraceText chars).closeOutermost houter hpending
  | opened | question | angle | name | set =>
    simp [hcase, Mode.opening, Mode.inside?] at hopening hinside

/-- The parenthesis that closes the innermost of the groups around. -/
theorem Alike.stepClose (h : reader.Alike text ((level, kind) :: outer) reader')
    (htracks : (Scan.outside 0).Tracks ((level, kind) :: outer) reader) :
    Option.Rel (ClosesAlike text level kind outer) (reader.step ')') (reader'.step ')') := by
  obtain ⟨hpending, hwithin⟩ := htracks
  have hbad : Option.Rel (ClosesAlike text level kind outer)
      ([Lexeme.bad].foldlM Reader.feed { reader with pending := .nothing })
      ([Lexeme.bad].foldlM Reader.feed { reader' with pending := .nothing }) := by
    rw [foldlM_feed_singleton, foldlM_feed_singleton, feed_eq_none (.inl rfl),
      feed_eq_none (.inl rfl)]
    exact .none
  have hdigit : ')'.isDigit = false := rfl
  have hfresh : Pending.fresh ')' = ([.plain ')'], .nothing) := rfl
  unfold Reader.step
  rw [h.pending]
  cases hcase : reader.pending with
  | nothing =>
    simp only [Pending.next, hfresh, foldlM_feed_singleton]
    exact (h.withPending .nothing).feedClose (hwithin.withPending _) rfl
  | backslash => exact absurd hcase hpending
  | hex | hexDigit => exact hbad
  | ref index =>
    simp only [Pending.next, hdigit, Bool.false_eq_true, if_false, hfresh, List.foldlM_cons,
      List.foldlM_nil, Option.bind_eq_bind, Option.pure_def, Option.bind_fun_some]
    refine rel_bind ((h.withPending .nothing).feed (by simp)) fun middle _ hmiddle _ halike => ?_
    obtain ⟨hwithin', hpending'⟩ :=
      (hwithin.withPending _).feed_other (by simp) (by simp) (by simp) hmiddle
    exact halike.feedClose hwithin' hpending'

end

end Reader

/-- Where a group begins, one source may stand for the other. -/
def SourcesAlike (text source source' : List Char) : Prop :=
  ∀ ⦃outer : List (Level × GroupKind)⦄ ⦃reader : Reader⦄, reader.Rests {} outer →
    Option.Rel (Reader.Alike text outer) (reader.read source) (reader.read source')

/-- What a source between anchors has been read as. -/
def Level.anchored (a : Node) : Level := ⟨[], [.finish, .group a, .start]⟩

/-- A tree between anchors only ever begins at the start of the text. -/
theorem Level.node_anchored_alike {text : List Char} {a b : Node}
    (h : Node.Alike text true a b) :
    Node.Alike text false (anchored a).node (anchored b).node where
  runs idleRound p k k' hp _ hk := by
    show (if p.before.isEmpty then (Node.ofSequence [.group a, .finish]).run false idleRound p k
        else none) =
      if p.before.isEmpty then (Node.ofSequence [.group b, .finish]).run false idleRound p k'
        else none
    split
    case isTrue hbefore =>
      refine h.runs idleRound hp (fun _ => List.isEmpty_iff.mp hbefore) fun q hq => ?_
      exact Node.runsAlike_self text (.ofSequence [.finish]) idleRound hq (by simp) hk
    case isFalse => rfl
  resembles :=
    ((Node.Resembles.refl (.ofPieces [.start])).push h.group.resembles).push (.refl .finish)
  substance _ := by
    have hsolid (a : Node) : (anchored a).node.substance = .solid := by
      show (Node.ofPieces [.finish, .group a, .start]).substance = .solid
      simp only [Node.substance_ofPieces_cons]
      show ((Substance.followedBy .condition a.substance).followedBy .condition) = .solid
      cases a.substance <;> rfl
    rw [hsolid, hsolid]

/-- Both readers rest behind a source between anchors. -/
def AnchorsAlike (text : List Char) (outer : List (Level × GroupKind)) (reader reader' : Reader) :
    Prop :=
  ∃ a b, Node.Alike text true a b ∧ reader.Rests (.anchored a) outer ∧
    reader' = { reader with level := .anchored b }

section
variable {text output output' : List Char}

theorem SourcesAlike.anchored (halike : SourcesAlike text output output')
    (hneutral : Neutral output) {outer : List (Level × GroupKind)} {reader : Reader}
    (h : reader.Rests {} outer) :
    Option.Rel (AnchorsAlike text outer)
      (reader.read ('^' :: (['(', '?', ':'] ++ output ++ [')']) ++ ['$']))
      (reader.read ('^' :: (['(', '?', ':'] ++ output' ++ [')']) ++ ['$'])) := by
  obtain ⟨pending, mode, level, outer', groups, names, strayBrace, strayBracket⟩ := reader
  obtain ⟨rfl, rfl, rfl, rfl⟩ := h
  have hsplit (output : List Char) : '^' :: (['(', '?', ':'] ++ output ++ [')']) ++ ['$'] =
      ['^', '(', '?', ':'] ++ (output ++ [')', '$']) := by simp
  let opened : Reader :=
    { level := {}, outer := (⟨[], [.start]⟩, .bare) :: outer', groups, names, strayBrace,
      strayBracket }
  have hopen (output : List Char) :
      ({ level := {}, outer := outer', groups, names, strayBrace, strayBracket } : Reader).read
        (['^', '(', '?', ':'] ++ (output ++ [')', '$'])) =
          (opened.read output).bind fun inner => inner.read [')', '$'] := by
    rw [Reader.read_append, ← Reader.read_append opened]
    rfl
  have hbegin : (Scan.outside 0).Tracks ((⟨[], [.start]⟩, .bare) :: outer') opened :=
    ⟨by simp [opened], List.suffix_refl _, rfl, rfl⟩
  rw [hsplit, hsplit, hopen, hopen]
  refine rel_bind (halike ⟨rfl, rfl, rfl, rfl⟩) fun inner inner' hinner _ hinside => ?_
  rw [Reader.read, Reader.read, List.foldlM_cons, List.foldlM_cons, Option.bind_eq_bind]
  refine rel_bind (hinside.stepClose (hbegin.read (hneutral 0) hinner))
    fun closed closed' _ _ hcloses => ?_
  obtain ⟨a, b, hab, hrests, rfl⟩ := hcloses
  obtain ⟨pending, mode, level, outer, groups, names, strayBrace, strayBracket⟩ := closed
  obtain ⟨rfl, rfl, rfl, rfl⟩ := hrests
  exact .some ⟨a, b, hab, ⟨rfl, rfl, rfl, rfl⟩, rfl⟩

/-- Both readers rest behind a whole source. -/
def ReadsAlike (text : List Char) (reader reader' : Reader) : Prop :=
  ∃ level level' : Level, Node.Alike text false level.node level'.node ∧ reader.Rests level [] ∧
    reader' = { reader with level := level' }

theorem SourcesAlike.positive (halike : SourcesAlike text output output')
    (hneutral : Neutral output) : Option.Rel (ReadsAlike text)
      (({} : Reader).read ('^' :: (['(', '?', ':'] ++ output ++ [')']) ++ ['$']))
      (({} : Reader).read ('^' :: (['(', '?', ':'] ++ output' ++ [')']) ++ ['$'])) := by
  have hbegin : ({} : Reader).Rests {} [] := ⟨rfl, rfl, rfl, rfl⟩
  refine rel_imp (halike.anchored hneutral hbegin) ?_
  rintro _ _ ⟨a, b, hab, hrests, rfl⟩
  exact ⟨_, _, Level.node_anchored_alike hab, hrests, rfl⟩

theorem SourcesAlike.negative (halike : SourcesAlike text output output')
    (hneutral : Neutral output) : Option.Rel (ReadsAlike text)
      (({} : Reader).read (['^', '(', '?', '!'] ++
        ('^' :: (['(', '?', ':'] ++ output ++ [')']) ++ ['$']) ++ [')', '.', '*', '$']))
      (({} : Reader).read (['^', '(', '?', '!'] ++
        ('^' :: (['(', '?', ':'] ++ output' ++ [')']) ++ ['$']) ++ [')', '.', '*', '$'])) := by
  have hopen : ({} : Reader).read ['^', '(', '?', '!'] =
      some { level := {}, outer := [(⟨[], [.start]⟩, .look false true)] } := rfl
  have hbegin : ({ level := {}, outer := [(⟨[], [.start]⟩, .look false true)] } : Reader).Rests {}
      [(⟨[], [.start]⟩, .look false true)] := ⟨rfl, rfl, rfl, rfl⟩
  simp only [Reader.read_append {}, hopen, Option.bind_some]
  refine rel_bind (halike.anchored hneutral hbegin)
    fun inner inner' _ _ halike => ?_
  obtain ⟨a, b, hab, hrests, rfl⟩ := halike
  obtain ⟨pending, mode, level, outer, groups, names, strayBrace, strayBracket⟩ := inner
  obtain ⟨rfl, rfl, rfl, rfl⟩ := hrests
  have hlook := (Level.node_anchored_alike hab).wrap (.look false true)
  refine .some ⟨⟨[], [.finish, .loop .dot 0 none false, _, .start]⟩,
    ⟨[], [.finish, .loop .dot 0 none false, _, .start]⟩, ?_, ⟨rfl, rfl, rfl, rfl⟩, rfl⟩
  exact (((Node.Alike.refl text false (.ofPieces [.start])).push hlook).push (.refl _ _ _)).push
    (.refl _ _ _)

end

/-- The sources are the same for every dialect, and the text does not tell their trees apart. -/
structure Source.Alike (text : List Char) (source source' : Source) : Prop where
  tree : source.tree.Alike text false source'.tree
  groups : source'.groups = source.groups
  names : source'.names = source.names
  strayBrace : source'.strayBrace = source.strayBrace
  strayBracket : source'.strayBracket = source.strayBracket
  blind : source.blind = false
  blind' : source'.blind = false

theorem Source.rel_ofText? {text body body' : List Char}
    (hplain : Text.after? ['(', '?', 'i', ')'] body = none)
    (hplain' : Text.after? ['(', '?', 'i', ')'] body' = none)
    (h : Option.Rel (ReadsAlike text) (({} : Reader).read body) (({} : Reader).read body')) :
    Option.Rel (Source.Alike text) (ofText? body) (ofText? body') := by
  rw [ofText?, ofText?, hplain, hplain']
  refine rel_bind h fun reader reader' _ _ halike => ?_
  obtain ⟨level, level', hlevels, hrests, rfl⟩ := halike
  obtain ⟨pending, mode, level, outer, groups, names, strayBrace, strayBracket⟩ := reader
  obtain ⟨rfl, rfl, rfl, rfl⟩ := hrests
  exact .some ⟨hlevels, rfl, rfl, rfl, rfl, rfl, rfl⟩

theorem Source.Alike.isAccepted_eq {text : List Char} {source source' : Source}
    (h : source.Alike text source') : source'.isAccepted = source.isAccepted := by
  simp only [isAccepted, isPlain, isExtended, h.names, h.strayBrace, h.strayBracket,
    h.tree.resembles.beyondRegular, h.tree.resembles.isExtended]

/-- Programs of sources that are alike find the same in the text. -/
theorem Program.find?_eq_of_rel {text body body' : List Char}
    (h : Option.Rel (Source.Alike text) (Source.ofText? body) (Source.ofText? body')) :
    ((ofSource? body).bind fun program => program.find? text) =
      (ofSource? body').bind fun program => program.find? text := by
  unfold ofSource?
  revert h
  generalize Source.ofText? body = read, Source.ofText? body' = read'
  intro h
  cases h with
  | none => rfl
  | @some source source' h =>
    simp only [Option.bind_eq_bind, Option.bind_some, h.isAccepted_eq]
    split
    case isFalse => rfl
    case isTrue =>
      have hlocate : (Program.mk source.tree source.groups source.blind).locate? text =
          (Program.mk source'.tree source'.groups source'.blind).locate? text :=
        locate?_eq_of_alike h.blind h.blind' h.tree
      simp only [Option.bind_some, find?, hlocate, h.groups]

end PathGlob.Regex

namespace PathGlob

open Regex

/-- Where one translation may stand for the other on a text, what is found in the text is the
same. -/
theorem find?_eq_of_sourcesAlike {translation translation' : Pattern.Translation}
    {options : Options} (hcontains : options.contains = false) (hnoCase : options.noCase = false)
    (hnegated : translation'.negated = translation.negated)
    (hneutral : Neutral translation.output) {text : List Char}
    (halike : SourcesAlike text translation.output translation'.output) :
    ((Program.ofSource? (sourceOf translation options)).bind fun program => program.find? text) =
      (Program.ofSource? (sourceOf translation' options)).bind
        fun program => program.find? text := by
  refine Program.find?_eq_of_rel ?_
  simp only [sourceOf, hcontains, hnoCase, hnegated, Bool.false_eq_true, if_false]
  split
  case isTrue => exact Source.rel_ofText? rfl rfl (halike.negative hneutral)
  case isFalse => exact Source.rel_ofText? rfl rfl (halike.positive hneutral)

end PathGlob
