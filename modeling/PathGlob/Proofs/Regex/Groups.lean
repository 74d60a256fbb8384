import Mathlib.Algebra.GroupWithZero.Nat
import PathGlob.Regex.Program

/-!
# `PathGlob.Proofs.Regex.Groups`: the groups of a tree

The reader numbers the capturing groups as they open, and they end up in the tree as they close. At
every place of a source, those in the pieces that have been read and those that are still open are
as many as have been numbered (`Reader.Counted.read`), so the number that a source reports is that
of the capturing groups of its tree (`Source.groups_eq`).
-/

set_option autoImplicit false

namespace PathGlob.Regex

namespace Node

theorem captures_ofPieces (pieces : List Node) :
    (ofPieces pieces).captures = (pieces.map captures).sum := by
  have hfold (rest : Node) : (pieces.foldl (fun rest piece => .seq piece rest) rest).captures =
      (pieces.map captures).sum + rest.captures := by
    induction pieces generalizing rest with
    | nil => simp
    | cons piece pieces ih =>
      rw [List.foldl_cons, ih, List.map_cons, List.sum_cons, captures]
      omega
  exact hfold .empty

theorem captures_ofBranches (earlier : List Node) (last : Node) :
    (ofBranches earlier last).captures = (earlier.map captures).sum + last.captures := by
  unfold ofBranches
  induction earlier generalizing last with
  | nil => simp
  | cons branch earlier ih =>
    rw [List.foldl_cons, ih, List.map_cons, List.sum_cons, captures]
    omega

end Node

/-- Whether a group captures, as a number. -/
def GroupKind.captures : GroupKind → Nat
  | .capture _ => 1
  | _ => 0

theorem GroupKind.captures_wrap (kind : GroupKind) (a : Node) :
    (kind.wrap a).captures = kind.captures + a.captures := by
  cases kind <;> simp [wrap, Node.captures, captures, Nat.add_comm]

namespace Level

theorem captures_node (level : Level) :
    level.node.captures = (level.branches.map Node.captures).sum +
      (level.pieces.map Node.captures).sum := by
  rw [node, Node.captures_ofBranches, Node.captures_ofPieces]

@[simp] theorem captures_push (level : Level) (piece : Node) :
    (level.push piece).node.captures = piece.captures + level.node.captures := by
  rw [captures_node, captures_node, push, List.map_cons, List.sum_cons]
  dsimp only
  omega

@[simp] theorem captures_branch (level : Level) :
    level.branch.node.captures = level.node.captures := by
  rw [captures_node, captures_node, branch, List.map_cons, List.sum_cons, Node.captures_ofPieces,
    List.map_nil, List.sum_nil]
  omega

end Level

namespace Reader

/-- The number of capturing groups that have been read or are open. -/
def captures (reader : Reader) : Nat :=
  reader.level.node.captures +
    (reader.outer.map fun (level, kind) => kind.captures + level.node.captures).sum

/-- All the groups that have been numbered are there. -/
def Counted (reader : Reader) : Prop := reader.captures = reader.groups

variable {reader reader' : Reader} {lexeme : Lexeme}

namespace Counted

theorem push (h : reader.Counted) {piece : Node} (hpiece : piece.captures = 0) :
    (reader.push piece).Counted := by
  unfold Counted captures Reader.push at *
  dsimp only
  rw [Level.captures_push, hpiece, Nat.zero_add]
  exact h

theorem openGroup (h : reader.Counted) {kind : GroupKind} (hkind : kind.captures = 0) :
    (reader.openGroup kind).Counted := by
  unfold Counted captures Reader.openGroup at *
  dsimp only
  rw [List.map_cons, List.sum_cons, hkind, Nat.zero_add, h]
  exact Nat.zero_add _

theorem openCapture (h : reader.Counted) : reader.openCapture.Counted := by
  unfold Counted captures Reader.openCapture Reader.openGroup at *
  dsimp only
  rw [List.map_cons, List.sum_cons, GroupKind.captures, ← h, Level.captures_node]
  simp only [List.map_nil, List.sum_nil]
  omega

theorem closeGroup (h : reader.Counted) (hclose : reader.closeGroup = some reader') :
    reader'.Counted := by
  unfold Counted captures at h
  unfold Reader.closeGroup at hclose
  split at hclose
  case h_1 => cases hclose
  case h_2 level kind outer houter =>
    cases hclose
    unfold Counted captures
    rw [houter, List.map_cons, List.sum_cons] at h
    dsimp only at h ⊢
    rw [Level.captures_push, GroupKind.captures_wrap]
    omega

/-- The last piece keeps its groups if it is repeated. -/
theorem repeatLast (h : reader.Counted) {least : Nat} {most : Option Nat}
    (hrepeat : reader.repeatLast least most = some reader') : reader'.Counted := by
  unfold Counted captures at h
  unfold Reader.repeatLast at hrepeat
  split at hrepeat
  case h_1 => cases hrepeat
  case h_2 piece pieces hpieces =>
    cases hrepeat
    unfold Counted captures
    rw [Level.captures_node, hpieces] at h
    rw [Level.captures_node]
    exact h

theorem makeReluctant (h : reader.Counted) : reader.makeReluctant.Counted := by
  unfold Reader.makeReluctant
  split
  case h_1 a least most reluctant pieces hpieces =>
    unfold Counted captures at *
    rw [Level.captures_node, hpieces] at h
    rw [Level.captures_node]
    exact h
  case h_2 => exact h

theorem strayBraceText (h : reader.Counted) (chars : List Char) :
    (reader.strayBraceText chars).Counted := by
  have hlevel (level : Level) :
      (chars.foldr (fun c level => level.push (.char c)) level).node.captures =
        level.node.captures := by
    induction chars with
    | nil => rfl
    | cons c chars ih =>
      rw [List.foldr_cons, Level.captures_push, ih]
      exact Nat.zero_add _
  unfold Counted captures Reader.strayBraceText at *
  dsimp only
  rw [hlevel, Level.captures_push]
  exact (congrArg (· + _) (Nat.zero_add _)).trans h

theorem piece {repeated : Bool} (h : reader.Counted)
    (hpiece : reader.piece repeated lexeme = some reader') : reader'.Counted := by
  unfold Reader.piece at hpiece
  split at hpiece
  case h_2 => exact h.closeGroup hpiece
  case h_3 =>
    cases hpiece
    unfold Counted captures at *
    dsimp only
    rw [Level.captures_branch]
    exact h
  case h_4 | h_5 => exact h.repeatLast hpiece
  case h_6 =>
    split at hpiece
    · cases hpiece
      exact h.makeReluctant
    · exact h.repeatLast hpiece
  case h_16 =>
    split at hpiece <;> cases hpiece
    exact h.push rfl
  case h_17 => cases hpiece
  case h_1 | h_7 | h_8 =>
    cases hpiece
    exact h
  all_goals
    cases hpiece
    exact h.push rfl

theorem feed (h : reader.Counted) (hfeed : reader.feed lexeme = some reader') :
    reader'.Counted := by
  unfold Reader.feed at hfeed
  split at hfeed
  case h_1 => exact h.piece hfeed
  case h_2 =>
    split at hfeed
    · cases hfeed
      exact h
    · exact h.openCapture.piece hfeed
  case h_3 | h_4 =>
    repeat' split at hfeed
    all_goals cases hfeed
    all_goals first | exact h | exact h.openGroup rfl
  case h_5 =>
    repeat' split at hfeed
    all_goals cases hfeed
    · exact h.openCapture
    · exact h
  case h_6 chars _ =>
    unfold Reader.count at hfeed
    repeat' split at hfeed
    · exact h.repeatLast hfeed
    · cases hfeed
      exact (h.strayBraceText chars).push rfl
    · cases hfeed
      exact h
    · exact (h.strayBraceText chars).piece hfeed
    · exact (h.strayBraceText chars).piece hfeed
  case h_7 =>
    split at hfeed
    case h_1 =>
      cases hfeed
      exact h
    case h_2 members _ _ =>
      cases hfeed
      exact @Counted.push reader h (.set members) rfl
    case h_3 => cases hfeed

theorem feeds {lexemes : List Lexeme} (h : reader.Counted)
    (hfeeds : lexemes.foldlM Reader.feed reader = some reader') : reader'.Counted := by
  induction lexemes generalizing reader with
  | nil =>
    cases hfeeds
    exact h
  | cons lexeme lexemes ih =>
    rw [List.foldlM_cons, Option.bind_eq_bind, Option.bind_eq_some_iff] at hfeeds
    obtain ⟨middle, hfeed, hfeeds⟩ := hfeeds
    exact ih (h.feed hfeed) hfeeds

theorem read {source : List Char} (h : reader.Counted) (hread : reader.read source = some reader') :
    reader'.Counted := by
  induction source generalizing reader with
  | nil =>
    cases hread
    exact h
  | cons c source ih =>
    rw [Reader.read, List.foldlM_cons, Option.bind_eq_bind, Option.bind_eq_some_iff] at hread
    obtain ⟨middle, hstep, hread⟩ := hread
    have hpending : ({ reader with pending := (reader.pending.next c).2 } : Reader).Counted := h
    exact ih (hpending.feeds hstep) hread

/-- At the end of a source no group is open, so all of them are in the tree. -/
theorem atEnd (h : reader.Counted) (hend : reader.atEnd = some reader') :
    reader'.level.node.captures = reader'.groups := by
  obtain ⟨last, hlast, hend⟩ := Option.bind_eq_some_iff.mp hend
  have hpending : ({ reader with pending := .nothing } : Reader).Counted := h
  have hcounted := hpending.feeds hlast
  have hclosed {reader : Reader} (h : reader.Counted) (houter : reader.outer.isEmpty = true) :
      reader.level.node.captures = reader.groups := by
    rw [← h, captures, List.isEmpty_iff.mp houter]
    rfl
  split at hend
  · split at hend <;> cases hend
    exact hclosed hcounted ‹_›
  · split at hend <;> cases hend
    exact hclosed (hcounted.strayBraceText _) ‹_›
  · cases hend

end Counted

end Reader

/-- A source has as many groups as its tree. -/
theorem Source.groups_eq {text : List Char} {source : Source} (h : ofText? text = some source) :
    source.groups = source.tree.captures := by
  unfold ofText? at h
  split at h
  simp only [Option.bind_eq_bind, Option.bind_eq_some_iff] at h
  obtain ⟨reader, hread, reader', hend, hsource⟩ := h
  cases hsource
  have hbegin : ({} : Reader).Counted := rfl
  exact ((hbegin.read hread).atEnd hend).symm

theorem Program.groups_eq {text : List Char} {program : Program}
    (h : ofSource? text = some program) : program.groups = program.tree.captures := by
  obtain ⟨source, hsource, haccepted⟩ := Option.bind_eq_some_iff.mp h
  split at haccepted <;> cases haccepted
  exact Source.groups_eq hsource

end PathGlob.Regex
