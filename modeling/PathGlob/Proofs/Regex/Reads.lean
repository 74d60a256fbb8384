import PathGlob.Compile
import PathGlob.Proofs.Regex.Spans

/-!
# `PathGlob.Proofs.Regex.Reads`: reading emitted sources piece by piece

A source is emitted as a concatenation of fragments, and `Reads source pieces` says that a
reader between two pieces takes the fragment for exactly the given pieces, whatever it has
read before and whichever groups are open. Such fragments compose (`Reads.append`).

`compile_of_reads` is what the composition is for: once the output of a translation reads
as sound pieces, its source makes a program, and that program accepts a text exactly if the
pieces fill it (`Node.Fills`).
-/

set_option autoImplicit false

namespace PathGlob.Regex

namespace Node

/-- The pieces, first one first, in sequence. -/
def ofSequence (pieces : List Node) : Node := .ofPieces pieces.reverse

theorem ofSequence_cons (piece : Node) (pieces : List Node) :
    ofSequence (piece :: pieces) = .seq piece (ofSequence pieces) := by
  simp [ofSequence, ofPieces, List.foldl_reverse]

theorem spans_ofSequence_nil {blind : Bool} {c d : Cursor} :
    (ofSequence []).Spans blind c d ↔ d = c := Iff.rfl

theorem spans_ofSequence_cons {blind : Bool} {a : Node} {pieces : List Node} {c d : Cursor} :
    (ofSequence (a :: pieces)).Spans blind c d ↔
      ∃ e, a.Spans blind c e ∧ (ofSequence pieces).Spans blind e d := by
  rw [ofSequence_cons]
  rfl

theorem spans_ofSequence_singleton {blind : Bool} {a : Node} {c d : Cursor} :
    (ofSequence [a]).Spans blind c d ↔ a.Spans blind c d := by
  rw [spans_ofSequence_cons]
  exact ⟨fun ⟨_, h, hd⟩ => hd ▸ h, fun h => ⟨d, h, rfl⟩⟩

theorem spans_ofSequence_append {blind : Bool} (a b : List Node) {c d : Cursor} :
    (ofSequence (a ++ b)).Spans blind c d ↔
      ∃ e, (ofSequence a).Spans blind c e ∧ (ofSequence b).Spans blind e d := by
  induction a generalizing c with
  | nil => simp [spans_ofSequence_nil]
  | cons piece a ih =>
    simp only [List.cons_append, spans_ofSequence_cons, ih]
    constructor
    · rintro ⟨e, he, f, hf, hd⟩
      exact ⟨f, ⟨e, he, hf⟩, hd⟩
    · rintro ⟨f, ⟨e, he, hf⟩, hd⟩
      exact ⟨e, he, f, hf, hd⟩

/-- The pieces, one after the other, span everything from the cursor to the end. -/
def Fills (pieces : List Node) (c : Cursor) : Prop :=
  ∃ d, (ofSequence pieces).Spans false c d ∧ d.after = []

theorem fills_nil_iff {c : Cursor} : Fills [] c ↔ c.after = [] :=
  ⟨fun ⟨_, hd, h⟩ => hd ▸ h, fun h => ⟨c, rfl, h⟩⟩

theorem fills_append_iff (a b : List Node) {c : Cursor} :
    Fills (a ++ b) c ↔ ∃ d, (ofSequence a).Spans false c d ∧ Fills b d := by
  simp only [Fills, spans_ofSequence_append]
  constructor
  · rintro ⟨e, ⟨d, hd, he⟩, h⟩
    exact ⟨d, hd, e, he, h⟩
  · rintro ⟨d, hd, e, he, h⟩
    exact ⟨e, ⟨d, hd, he⟩, h⟩

theorem fills_cons_iff {a : Node} {pieces : List Node} {c : Cursor} :
    Fills (a :: pieces) c ↔ ∃ d, a.Spans false c d ∧ Fills pieces d := by
  refine (fills_append_iff [a] pieces).trans ?_
  simp only [spans_ofSequence_singleton]

/-- The extended dialect accepts the tree, and the tree refers back to no group. -/
def IsSound (a : Node) : Prop := a.isExtended = true ∧ a.refers = false

instance (a : Node) : Decidable a.IsSound := inferInstanceAs (Decidable (_ ∧ _))

theorem isSound_ofSequence {pieces : List Node} (h : ∀ a ∈ pieces, a.IsSound) :
    (ofSequence pieces).IsSound := by
  induction pieces with
  | nil => decide
  | cons a pieces ih =>
    obtain ⟨hextended, hrefers⟩ := h a List.mem_cons_self
    obtain ⟨hextended', hrefers'⟩ := ih fun b hb => h b (List.mem_cons_of_mem _ hb)
    rw [ofSequence_cons]
    exact ⟨by rw [isExtended, hextended, hextended']; rfl, by rw [refers, hrefers, hrefers']; rfl⟩

end Node

/-- A reader between two pieces that has met no span ending in an opening bracket. -/
def Reader.resting (repeated : Bool) (level : Level) (outer : List (Level × GroupKind))
    (groups : Nat) (names : List (List Char)) (strayBrace : Bool) : Reader :=
  { mode := .pieces repeated, level, outer, groups, names, strayBrace }

/-- Between two pieces, the source is read as the given pieces and nothing else. -/
def Reads (source : List Char) (pieces : List Node) : Prop :=
  ∀ repeated branches before outer groups names strayBrace, ∃ repeated',
    (Reader.resting repeated ⟨branches, before⟩ outer groups names strayBrace).read source =
      some (.resting repeated' ⟨branches, pieces.reverse ++ before⟩ outer groups names strayBrace)

theorem Reads.nil : Reads [] [] := fun repeated _ _ _ _ _ _ => ⟨repeated, rfl⟩

theorem Reads.append {a b : List Char} {p q : List Node} (ha : Reads a p) (hb : Reads b q) :
    Reads (a ++ b) (p ++ q) := by
  intro repeated branches before outer groups names strayBrace
  obtain ⟨r, hr⟩ := ha repeated branches before outer groups names strayBrace
  obtain ⟨s, hs⟩ := hb r branches (p.reverse ++ before) outer groups names strayBrace
  refine ⟨s, ?_⟩
  rw [Reader.read_append, hr, Option.bind_some, hs, List.reverse_append, List.append_assoc]

/-- Inside a group, the source is read as the given alternatives of the group. -/
def ReadsBody (source : List Char) (a : Node) : Prop :=
  ∀ branches outer groups names strayBrace, ∃ repeated level,
    (Reader.resting false ⟨branches, []⟩ outer groups names strayBrace).read source =
      some (.resting repeated level outer groups names strayBrace) ∧
        level.node = .ofBranches branches a

theorem Reads.body {source : List Char} {pieces : List Node} (h : Reads source pieces) :
    ReadsBody source (.ofSequence pieces) := by
  intro branches outer groups names strayBrace
  obtain ⟨r, hr⟩ := h false branches [] outer groups names strayBrace
  exact ⟨r, _, hr, by rw [List.append_nil]; rfl⟩

/-- An alternative before others. -/
theorem Reads.orElse {source more : List Char} {pieces : List Node} {a : Node}
    (h : Reads source pieces) (hmore : ReadsBody more a) :
    ReadsBody (source ++ '|' :: more) (.alt (.ofSequence pieces) a) := by
  intro branches outer groups names strayBrace
  obtain ⟨r, hr⟩ := h false branches [] outer groups names strayBrace
  obtain ⟨s, level, hs, hlevel⟩ :=
    hmore (.ofSequence pieces :: branches) outer groups names strayBrace
  -- A bar closes the alternative and opens the next one.
  have hbar : (Reader.resting r ⟨branches, pieces.reverse ++ []⟩ outer groups names strayBrace).read
      ['|'] = some (.resting false ⟨.ofSequence pieces :: branches, []⟩ outer groups names
        strayBrace) := by
    rw [List.append_nil]
    rfl
  refine ⟨s, level, ?_, hlevel⟩
  rw [← List.singleton_append, Reader.read_append, hr, Option.bind_some, Reader.read_append, hbar,
    Option.bind_some, hs]

/-- A group that does not capture around a source. -/
theorem ReadsBody.group {source : List Char} {a : Node} (h : ReadsBody source a) :
    Reads (['(', '?', ':'] ++ source ++ [')']) [.group a] := by
  intro repeated branches before outer groups names strayBrace
  obtain ⟨r, level, hr, hlevel⟩ :=
    h [] ((⟨branches, before⟩, .bare) :: outer) groups names strayBrace
  refine ⟨false, ?_⟩
  -- The group keeps the level around it until it is closed.
  have hopen : (Reader.resting repeated ⟨branches, before⟩ outer groups names strayBrace).read
      ['(', '?', ':'] = some
        (.resting false ⟨[], []⟩ ((⟨branches, before⟩, .bare) :: outer) groups names strayBrace) :=
    rfl
  have hclose : (Reader.resting r level ((⟨branches, before⟩, .bare) :: outer) groups names
      strayBrace).read [')'] =
        some (.resting false ⟨branches, .group level.node :: before⟩ outer groups names
          strayBrace) :=
    rfl
  rw [Reader.read_append, Reader.read_append, hopen, Option.bind_some, hr, Option.bind_some, hclose,
    hlevel]
  rfl

/-- A condition that a source does not match what follows. -/
theorem ReadsBody.notAhead {source : List Char} {a : Node} (h : ReadsBody source a) :
    Reads (['(', '?', '!'] ++ source ++ [')']) [.look false true a] := by
  intro repeated branches before outer groups names strayBrace
  obtain ⟨r, level, hr, hlevel⟩ :=
    h [] ((⟨branches, before⟩, .look false true) :: outer) groups names strayBrace
  refine ⟨false, ?_⟩
  have hopen : (Reader.resting repeated ⟨branches, before⟩ outer groups names strayBrace).read
      ['(', '?', '!'] = some (.resting false ⟨[], []⟩ ((⟨branches, before⟩, .look false true) ::
        outer) groups names strayBrace) :=
    rfl
  have hclose : (Reader.resting r level ((⟨branches, before⟩, .look false true) :: outer) groups
      names strayBrace).read [')'] = some (.resting false
        ⟨branches, .look false true level.node :: before⟩ outer groups names strayBrace) :=
    rfl
  rw [Reader.read_append, Reader.read_append, hopen, Option.bind_some, hr, Option.bind_some, hclose,
    hlevel]
  rfl

/-- Between two pieces, a character without a meaning is a piece. -/
theorem Reader.piece_plain {c : Char} (h : isMeta c = false) (reader : Reader) (repeated : Bool) :
    reader.piece repeated (.plain c) = some (reader.push (.char c)) := by
  unfold Reader.piece
  split <;> first | rfl | simp_all [isMeta]

/-- A character without a meaning in sources stands for itself. -/
theorem reads_plain {c : Char} (h : isMeta c = false) : Reads [c] [.char c] := by
  intro repeated branches before outer groups names strayBrace
  refine ⟨false, ?_⟩
  have hne : c ≠ '\\' := by
    rintro rfl
    exact absurd h (by decide)
  simp only [Reader.read, List.foldlM_cons, List.foldlM_nil, Reader.step, Reader.resting,
    Pending.next, Pending.fresh, if_neg hne, Reader.feed, Reader.piece_plain h]
  rfl

/-- The source of a single character is read as that character. -/
theorem reads_escapeChar (c : Char) : Reads (escapeChar c) [.char c] := by
  unfold escapeChar
  split
  · rename_i h
    simp only [isMeta, List.contains_iff_mem, List.mem_cons, List.not_mem_nil, or_false] at h
    -- Each character with a meaning is read behind its backslash.
    rcases h with
      rfl | rfl | rfl | rfl | rfl | rfl | rfl | rfl | rfl | rfl | rfl | rfl | rfl | rfl <;>
      exact fun _ _ _ _ _ _ _ => ⟨_, rfl⟩
  · rename_i h
    exact reads_plain (Bool.not_eq_true _ ▸ h)

/-- The source that matches a text is read as its characters. -/
theorem reads_escape (text : List Char) : Reads (escape text) (text.map .char) := by
  induction text with
  | nil => exact .nil
  | cons c text ih => exact (reads_escapeChar c).append ih

/-- The level of the group that stands between the anchors of a whole source. -/
def Reader.anchorLevel : List (Level × GroupKind) := [(⟨[], [.start]⟩, .bare)]

section
variable {output : List Char} {repeated : Bool} {level : Level} {groups : Nat}
  (h : (Reader.resting false {} Reader.anchorLevel 0 [] false).read output =
    some (.resting repeated level Reader.anchorLevel groups [] false))
include h

/-- A source that is read within the group between the anchors. -/
theorem Reader.read_anchored :
    ({} : Reader).read ('^' :: (['(', '?', ':'] ++ output ++ [')']) ++ ['$']) =
      some (.resting false ⟨[], [.finish, .group level.node, .start]⟩ [] groups [] false) := by
  have hopen : ({} : Reader).read ['^', '(', '?', ':'] =
      some (.resting false {} Reader.anchorLevel 0 [] false) := rfl
  have hclose : (Reader.resting repeated level Reader.anchorLevel groups [] false).read
      [')', '$'] =
        some (.resting false ⟨[], [.finish, .group level.node, .start]⟩ [] groups [] false) := rfl
  have hsplit : '^' :: (['(', '?', ':'] ++ output ++ [')']) ++ ['$'] =
      ['^', '(', '?', ':'] ++ (output ++ [')', '$']) := by simp
  rw [hsplit, Reader.read_append, hopen, Option.bind_some, Reader.read_append, h,
    Option.bind_some, hclose]

/-- A source that is read to its end within the group between the anchors makes a program. -/
theorem Program.ofSource?_anchored (hextended : level.node.isExtended = true) :
    ofSource? ('^' :: (['(', '?', ':'] ++ output ++ [')']) ++ ['$']) =
      some ⟨.anchored (.group level.node), groups, false⟩ := by
  have hflag : Text.after? ['(', '?', 'i', ')']
      ('^' :: (['(', '?', ':'] ++ output ++ [')']) ++ ['$']) = none := rfl
  -- Nothing is pending and no group is open at the end.
  have hsource : Source.ofText? ('^' :: (['(', '?', ':'] ++ output ++ [')']) ++ ['$']) = some
      { tree := .anchored (.group level.node), groups, names := [], strayBrace := false,
        strayBracket := false, blind := false } := by
    rw [Source.ofText?, hflag]
    simp only [Reader.read_anchored h, Option.bind_eq_bind, Option.bind_some]
    rfl
  have haccepted : (Node.group level.node).anchored.isExtended = true := by
    simp [Node.anchored, Node.isExtended, hextended]
  rw [ofSource?, hsource]
  simp [Source.isAccepted, Source.isExtended, haccepted]

end

end PathGlob.Regex

namespace PathGlob

open Regex

/-- A translation whose output is read to its end can be compiled, and it accepts the texts
that the tree spans from the start to the end. -/
theorem compile_of_read {translation : Pattern.Translation} {options : Options}
    {repeated : Bool} {level : Level} {groups : Nat}
    (h : (Reader.resting false {} Reader.anchorLevel 0 [] false).read translation.output =
      some (.resting repeated level Reader.anchorLevel groups [] false))
    (hsound : level.node.IsSound) (hnegated : translation.negated = false)
    (hcontains : options.contains = false) (hcase : options.noCase = false) :
    ∃ compiled, compile translation options = .ok compiled ∧ ∀ text,
      compiled.isMatch text = true ↔
        ∃ d, level.node.Spans false ⟨[], text⟩ d ∧ d.after = [] := by
  have hsource : sourceOf translation options =
      '^' :: (['(', '?', ':'] ++ translation.output ++ [')']) ++ ['$'] := by
    simp [sourceOf, hnegated, hcontains, hcase]
  have hprogram := Program.ofSource?_anchored h hsound.1
  rw [← hsource] at hprogram
  refine ⟨_, by rw [compile, hprogram]; rfl, fun text => ?_⟩
  exact Program.isMatch_iff_of_anchored ⟨.anchored (.group level.node), groups, false⟩ rfl
    hsound.2 text

/-- A translation whose output is read as sound pieces can be compiled, and what it accepts
are the texts that the pieces fill. -/
theorem compile_of_reads {translation : Pattern.Translation} {options : Options}
    {pieces : List Node} (hreads : Reads translation.output pieces)
    (hsound : ∀ a ∈ pieces, a.IsSound) (hnegated : translation.negated = false)
    (hcontains : options.contains = false) (hcase : options.noCase = false) :
    ∃ compiled, compile translation options = .ok compiled ∧ ∀ text,
      compiled.isMatch text = true ↔ Node.Fills pieces ⟨[], text⟩ := by
  obtain ⟨repeated, hread⟩ := hreads false [] [] Reader.anchorLevel 0 [] false
  rw [List.append_nil] at hread
  exact compile_of_read hread (Node.isSound_ofSequence hsound) hnegated hcontains hcase

end PathGlob
