import PathGlob.Compile
import PathGlob.Proofs.Regex.Reads
import PathGlob.Proofs.Regex.Tracks

/-!
# `PathGlob.Proofs.Regex.Anchors`: sources between anchors

The anchors of a pattern are put around its translation as text. If the translation closes what
it opens, they end up where they were meant to: the tree of the whole source begins with the
start of the text and ends with its end, and nothing of the translation stands beside them
(`exists_tree_eq`). Whatever stands between them, back-references and lookaround included, such
a tree only ever matches the whole text (`Program.whole_of_find?`).
-/

set_option autoImplicit false

namespace PathGlob.Regex

/-! ### Matching between anchors -/

/-- Behind any pieces, the end of the text is where a match ends. -/
theorem Node.run_finish {text : List Char} {size : Nat} {blind idleRound : Bool}
    (middle : List Node) {p r : Place} (hp : p.Within text size)
    (h : (ofSequence (middle ++ [.finish])).run blind idleRound p some = some r) :
    r.Within text size ∧ r.after = [] := by
  induction middle generalizing p with
  | nil =>
    rw [List.nil_append, ofSequence_cons] at h
    simp only [run] at h
    split at h
    case isTrue hend =>
      cases h
      exact ⟨hp, List.isEmpty_iff.mp hend⟩
    case isFalse => exact absurd h (by simp)
  | cons piece middle ih =>
    rw [List.cons_append, ofSequence_cons] at h
    -- Whatever the piece is, it hands a place of the text to what comes after it.
    obtain ⟨q, hq, hlead⟩ := leads_of_run blind idleRound piece hp h
    exact ih hlead.1 hq

/-- Between the start and the end of the text, everything is matched or nothing. -/
theorem Program.whole_of_find? {program : Program} {middle : List Node}
    (htree : program.tree = .ofSequence (.start :: middle ++ [.finish])) {text : List Char}
    {found : Found} (h : program.find? text = some found) : found.whole = text := by
  obtain ⟨⟨p, q⟩, hlocate, rfl⟩ := Option.map_eq_some_iff.mp h
  rw [locate?_eq_search, htree] at hlocate
  have hbegin : (Place.ofText text).Within text text.length := ⟨rfl, Nat.le_refl _⟩
  obtain ⟨hp, hrun⟩ := Node.run_of_search _ hbegin hlocate
  rw [List.cons_append, Node.ofSequence_cons] at hrun
  simp only [Node.run] at hrun
  split at hrun
  case isFalse => exact absurd hrun (by simp)
  case isTrue hstart =>
    obtain ⟨-, hend⟩ := Node.run_finish middle hp hrun
    have hafter : p.after = text := by
      have := hp.text_eq
      rwa [List.isEmpty_iff.mp hstart] at this
    show p.after.take (p.left - q.left) = text
    rw [p.left_eq, q.left_eq, hend, hafter]
    exact List.take_length

/-! ### Reading between anchors -/

namespace Reader

/-- Nothing is half read. -/
structure Rests (level : Level) (outer : List (Level × GroupKind)) (reader : Reader) : Prop where
  pending_eq : reader.pending = .nothing
  mode_eq : reader.mode = .pieces false
  level_eq : reader.level = level
  outer_eq : reader.outer = outer

variable {level : Level} {outer : List (Level × GroupKind)} {reader reader' : Reader}

/-- At rest, nothing is open but the groups around. -/
theorem Rests.tracks (h : reader.Rests level outer) : (Scan.outside 0).Tracks outer reader := by
  obtain ⟨pending, mode, level', outer', groups, names, strayBrace, strayBracket⟩ := reader
  obtain ⟨rfl, rfl, rfl, rfl⟩ := h
  exact ⟨by simp, List.suffix_refl _, rfl, rfl⟩

/-- Where the strict reading has no parenthesis open, the next one closes the group around. -/
theorem rests_of_tracks {kind : GroupKind}
    (h : (Scan.outside 0).Tracks ((level, kind) :: outer) reader)
    (hstep : reader.step ')' = some reader') :
    ∃ a, reader'.Rests (level.push (kind.wrap a)) outer := by
  have close {reader : Reader} (hwithin : reader.Within ((level, kind) :: outer) 0 none)
      (hpending : reader.pending = .nothing)
      (hfold : (Pending.fresh ')').1.foldlM feed reader = some reader') :
      ∃ a, reader'.Rests (level.push (kind.wrap a)) outer := by
    obtain ⟨a, hlevel, houter, hmode, hpending'⟩ :=
      hwithin.feed_close_base ((foldlM_feed_singleton _ _).symm.trans hfold)
    exact ⟨a, hpending'.trans hpending, hmode, hlevel, houter⟩
  obtain ⟨hpending, hwithin⟩ := h
  obtain ⟨-, hfresh⟩ | ⟨index, middle, hfeed, hfresh⟩ | ⟨-, hheeds, -⟩ :=
    step_cases hpending hstep
  · exact close (hwithin.withPending _) rfl hfresh
  · obtain ⟨hwithin', hpending'⟩ :=
      (hwithin.withPending _).feed_other (by simp) (by simp) (by simp) hfeed
    exact close hwithin' hpending' hfresh
  · exact absurd hheeds (by decide)

/-- A neutral source between anchors adds three pieces, whatever is around it. -/
theorem rests_anchored {output : List Char} (hneutral : Neutral output)
    (h : reader.Rests {} outer)
    (hread : reader.read ('^' :: (['(', '?', ':'] ++ output ++ [')']) ++ ['$']) = some reader') :
    ∃ a, reader'.Rests ⟨[], [.finish, .group a, .start]⟩ outer := by
  obtain ⟨pending, mode, level, outer', groups, names, strayBrace, strayBracket⟩ := reader
  obtain ⟨rfl, rfl, rfl, rfl⟩ := h
  have hsplit : '^' :: (['(', '?', ':'] ++ output ++ [')']) ++ ['$'] =
      ['^', '(', '?', ':'] ++ (output ++ [')', '$']) := by simp
  rw [hsplit, read_append, Option.bind_eq_some_iff] at hread
  obtain ⟨opened, hopen, hread⟩ := hread
  cases hopen
  rw [read_append, Option.bind_eq_some_iff] at hread
  obtain ⟨inner, houtput, hread⟩ := hread
  have hbegin : (Scan.outside 0).Tracks ((⟨[], [.start]⟩, .bare) :: outer')
      { level := {}, outer := (⟨[], [.start]⟩, .bare) :: outer', groups, names, strayBrace,
        strayBracket } :=
    ⟨by simp, List.suffix_refl _, rfl, rfl⟩
  have htracks := hbegin.read (hneutral 0) houtput
  rw [read, List.foldlM_cons, Option.bind_eq_bind, Option.bind_eq_some_iff] at hread
  obtain ⟨closed, hclose, hread⟩ := hread
  obtain ⟨a, hrests⟩ := rests_of_tracks htracks hclose
  obtain ⟨pending, mode, level, outer, groups, names, strayBrace, strayBracket⟩ := closed
  obtain ⟨rfl, rfl, rfl, rfl⟩ := hrests
  cases hread
  exact ⟨a, rfl, rfl, rfl, rfl⟩

end Reader

/-- What is read is the source, but for the flag for ignoring case. -/
theorem Source.exists_read {body : List Char}
    (hplain : Text.after? ['(', '?', 'i', ')'] body = none) {blind : Bool} {source : Source}
    (h : ofText? (if blind then ['(', '?', 'i', ')'] ++ body else body) = some source) :
    source.blind = blind ∧ ∃ reader reader' : Reader, ({} : Reader).read body = some reader ∧
      reader.atEnd = some reader' ∧ source.tree = reader'.level.node ∧
      source.groups = reader'.groups := by
  have hflag : Text.after? ['(', '?', 'i', ')'] (['(', '?', 'i', ')'] ++ body) = some body :=
    Text.after?_eq_some_iff.mpr rfl
  cases blind with
  | false =>
    rw [if_neg Bool.false_ne_true, ofText?, hplain] at h
    simp only [Option.bind_eq_bind, Option.bind_eq_some_iff] at h
    obtain ⟨reader, hread, reader', hend, hsource⟩ := h
    cases hsource
    exact ⟨rfl, reader, reader', hread, hend, rfl, rfl⟩
  | true =>
    rw [if_pos rfl, ofText?, hflag] at h
    simp only [Option.bind_eq_bind, Option.bind_eq_some_iff] at h
    obtain ⟨reader, hread, reader', hend, hsource⟩ := h
    cases hsource
    exact ⟨rfl, reader, reader', hread, hend, rfl, rfl⟩

/-- At the end of a source, the tree of the outermost group is the tree of the source. -/
theorem Reader.Rests.atEnd_eq {reader : Reader} {level : Level} (h : reader.Rests level []) :
    reader.atEnd = some reader := by
  obtain ⟨pending, mode, level, outer, groups, names, strayBrace, strayBracket⟩ := reader
  obtain ⟨rfl, rfl, rfl, rfl⟩ := h
  rfl

/-- A negated source looks ahead for what it refuses, and then takes the whole text. -/
theorem Reader.rests_negated {output : List Char} (hneutral : Neutral output) {reader : Reader}
    (hread : ({} : Reader).read (['^', '(', '?', '!'] ++
      ('^' :: (['(', '?', ':'] ++ output ++ [')']) ++ ['$']) ++ [')', '.', '*', '$']) =
        some reader) :
    ∃ a, reader.Rests ⟨[], [.finish, .loop .dot 0 none false, .look false true a, .start]⟩ [] := by
  rw [read_append, read_append, Option.bind_assoc, Option.bind_eq_some_iff] at hread
  obtain ⟨opened, hopen, hread⟩ := hread
  cases hopen
  rw [Option.bind_eq_some_iff] at hread
  obtain ⟨inner, hinner, hread⟩ := hread
  have hrests : ({ level := {}, outer := [(⟨[], [.start]⟩, .look false true)] } : Reader).Rests {}
      [(⟨[], [.start]⟩, .look false true)] := ⟨rfl, rfl, rfl, rfl⟩
  obtain ⟨a, hrests'⟩ := rests_anchored hneutral hrests hinner
  obtain ⟨pending, mode, level, outer, groups, names, strayBrace, strayBracket⟩ := inner
  obtain ⟨rfl, rfl, rfl, rfl⟩ := hrests'
  cases hread
  exact ⟨_, rfl, rfl, rfl, rfl⟩

end PathGlob.Regex

namespace PathGlob

open Regex

/-- In the whole source of a translation that closes what it opens, the anchors stand where the
tree begins and ends. -/
theorem exists_tree_eq {translation : Pattern.Translation} {options : Options}
    (hcontains : options.contains = false) (hneutral : Neutral translation.output)
    {program : Program} (h : Program.ofSource? (sourceOf translation options) = some program) :
    ∃ middle, program.tree = .ofSequence (.start :: middle ++ [.finish]) := by
  obtain ⟨source, hsource, haccepted⟩ := Option.bind_eq_some_iff.mp h
  split at haccepted
  case isFalse => exact absurd haccepted (by simp)
  cases haccepted
  show ∃ middle, source.tree = _
  unfold sourceOf at hsource
  simp only [hcontains, Bool.false_eq_true, if_false] at hsource
  by_cases hnegated : (translation.negated && !options.noNegate) = true
  · rw [if_pos hnegated] at hsource
    obtain ⟨-, reader, reader', hread, hend, htree, -⟩ := Source.exists_read rfl hsource
    obtain ⟨a, hrests⟩ := Reader.rests_negated hneutral hread
    rw [hrests.atEnd_eq] at hend
    cases hend
    refine ⟨[.look false true a, .loop .dot 0 none false], ?_⟩
    rw [htree, hrests.level_eq]
    rfl
  · rw [if_neg hnegated] at hsource
    obtain ⟨-, reader, reader', hread, hend, htree, -⟩ := Source.exists_read rfl hsource
    obtain ⟨a, hrests⟩ := Reader.rests_anchored hneutral ⟨rfl, rfl, rfl, rfl⟩ hread
    rw [hrests.atEnd_eq] at hend
    cases hend
    refine ⟨[.group a], ?_⟩
    rw [htree, hrests.level_eq]
    rfl

end PathGlob
