import PathGlob.Proofs.Regex.Anchors
import PathGlob.Proofs.Regex.Pieces

/-!
# `PathGlob.Proofs.Regex.Negation`: sources behind a negation

A negated source looks ahead for what it refuses, from the start of the text, and then takes
the whole text. Reading it is reading the refused source with one group around
(`Reader.read_framed`), so nothing has to be known about that source but that it is accepted on its
own. Its program accepts the texts without line feeds in which no match of the refused program
begins at the start of the text (`Program.isMatch_negated_iff`).
-/

set_option autoImplicit false

namespace PathGlob.Regex

/-! ### Matching -/

namespace Node

variable {blind idleRound : Bool} {a : Node}

theorem refers_of_beyondRegular_eq_false (h : a.beyondRegular = false) : a.refers = false := by
  induction a with
  | seq a b iha ihb | alt a b iha ihb =>
    rw [beyondRegular, Bool.or_eq_false_iff] at h
    rw [refers, iha h.1, ihb h.2]
    rfl
  | group a ih | capture _ a ih | loop a _ _ _ ih => exact ih h
  | look | ref => exact absurd h (by simp [beyondRegular])
  | _ => rfl

/-- Whether idle rounds are allowed decides no match. -/
theorem run_isSome_idle (blind : Bool) (a : Node) (p : Place) :
    (a.run blind false p some).isSome = (a.run blind (!a.beyondRegular) p some).isSome := by
  cases h : a.beyondRegular with
  | true => rfl
  | false =>
    have hrefers := refers_of_beyondRegular_eq_false h
    have hspans (idleRound : Bool) := run_realizes blind idleRound a hrefers
      (p := p) (k := some) (K := fun _ => True) fun q _ => by simp
    rw [Bool.eq_iff_iff, hspans, hspans]

/-- The search stops at the place it begins with, or it goes on behind it. -/
theorem search_cases {n : Nat} {p s q : Place}
    (h : a.search blind idleRound n p = some (s, q)) :
    (s = p ∧ a.run blind idleRound p some = some q) ∨
      (a.run blind idleRound p some = none ∧ s.before ≠ []) := by
  induction n generalizing p with
  | zero =>
    obtain ⟨r, hrun, heq⟩ := Option.map_eq_some_iff.mp h
    cases heq
    exact .inl ⟨rfl, hrun⟩
  | succ n ih =>
    rw [search] at h
    cases hrun : a.run blind idleRound p some with
    | some r =>
      rw [hrun] at h
      cases h
      exact .inl ⟨rfl, rfl⟩
    | none =>
      rw [hrun] at h
      obtain ⟨before, after, found, left, left_eq⟩ := p
      cases after with
      | nil => exact absurd h (by simp [Place.next?])
      | cons c after =>
        obtain ⟨rfl, -⟩ | ⟨-, hbefore⟩ := ih h
        · exact .inr ⟨rfl, List.cons_ne_nil c before⟩
        · exact .inr ⟨rfl, hbefore⟩

theorem search_of_run {n : Nat} {p q : Place} (h : a.run blind idleRound p some = some q) :
    a.search blind idleRound n p = some (p, q) := by
  cases n <;> simp [search, h]

/-- What takes the whole text takes no line feed. -/
theorem exists_spans_rest_iff {c : Cursor} :
    (∃ d, (ofSequence [.loop .dot 0 none false, .finish]).Spans blind c d) ↔ '\n' ∉ c.after := by
  have hdot (c d : Cursor) :
      Node.dot.Spans blind c d ↔ ∃ x, x ≠ '\n' ∧ c.Passes [x] d := by
    simp [Spans, Cursor.Steps]
  simp only [spans_ofSequence_cons, spans_ofSequence_nil, spans_finish_iff, Piece.spans_unbounded_iff,
    Piece.exists_rounds_iff (Q := fun x _ => x ≠ '\n') hdot]
  constructor
  · rintro ⟨_, e, ⟨text, hpass, htext⟩, _, ⟨hend, rfl⟩, rfl⟩ hmem
    rw [hpass.1, hend, List.append_nil] at hmem
    obtain ⟨u, v, rfl⟩ := List.append_of_mem hmem
    exact htext u '\n' v rfl rfl
  · intro hmem
    have hpass := Cursor.passes_of_after c.after (List.append_nil c.after).symm
    refine ⟨_, _, ⟨c.after, hpass, fun u x v heq hx => hmem ?_⟩, _, ⟨rfl, rfl⟩, rfl⟩
    rw [heq, hx]
    exact List.mem_append_right u List.mem_cons_self

/-- What a negated source is read as. -/
def negated (a : Node) : Node :=
  ofSequence [.start, .look false true a, .loop .dot 0 none false, .finish]

/-- A negated tree matches at the start of the text only, where the tree does not. -/
theorem run_negated_isSome_iff (blind idleRound : Bool) (a : Node) (p : Place) :
    (a.negated.run blind idleRound p some).isSome = true ↔
      p.before = [] ∧ (a.run blind idleRound p some).isSome = false ∧ '\n' ∉ p.after := by
  have hrest := run_realizes blind idleRound (ofSequence [.loop .dot 0 none false, .finish]) rfl
    (p := p) (k := some) (K := fun _ => True) fun q _ => by simp
  simp only [and_true, exists_spans_rest_iff] at hrest
  have hsplit : a.negated.run blind idleRound p some =
      if p.before.isEmpty then
        if (a.run blind idleRound p some).isSome then none
        else (ofSequence [.loop .dot 0 none false, .finish]).run blind idleRound p some
      else none := by
    have hahead := run_not_ahead blind idleRound a p fun q =>
      (ofSequence [.loop .dot 0 none false, .finish]).run blind idleRound q some
    rw [negated, ofSequence_cons, ofSequence_cons]
    exact congrArg (fun result => if p.before.isEmpty then result else none) hahead
  rw [hsplit]
  split
  case isFalse h => simp_all
  case isTrue h =>
    split
    case isTrue hmatch => simp [hmatch]
    case isFalse hmatch => simp_all [Place.cursor]

end Node

namespace Program

/-- The leftmost match begins at the start of the text. -/
def MatchesAtStart (program : Program) (text : List Char) : Prop :=
  ∃ p q, program.locate? text = some (p, q) ∧ p.before = []

theorem matchesAtStart_iff {program : Program} {text : List Char} :
    program.MatchesAtStart text ↔ (program.tree.run program.blind (!program.tree.beyondRegular)
      (.ofText text) some).isSome = true := by
  rw [MatchesAtStart, locate?_eq_search, Option.isSome_iff_exists]
  constructor
  · rintro ⟨p, q, hsearch, hbefore⟩
    obtain ⟨rfl, hrun⟩ | ⟨-, hlater⟩ := Node.search_cases hsearch
    · exact ⟨q, hrun⟩
    · exact absurd hbefore hlater
  · rintro ⟨q, hrun⟩
    exact ⟨_, q, Node.search_of_run hrun, rfl⟩

/-- Between anchors, a match begins at the start of the text. -/
theorem matchesAtStart_iff_isMatch {program : Program} {middle : List Node}
    (htree : program.tree = .ofSequence (.start :: middle ++ [.finish])) {text : List Char} :
    program.MatchesAtStart text ↔ program.isMatch text = true := by
  rw [MatchesAtStart, isMatch, Option.isSome_iff_exists]
  constructor
  · rintro ⟨p, q, hlocate, -⟩
    exact ⟨_, hlocate⟩
  · rintro ⟨⟨p, q⟩, hlocate⟩
    refine ⟨p, q, hlocate, ?_⟩
    rw [locate?_eq_search] at hlocate
    have hrun := (Node.run_of_search _ ⟨rfl, Nat.le_refl _⟩ hlocate).2
    rw [htree, List.cons_append, Node.ofSequence_cons] at hrun
    obtain ⟨hstart, -⟩ := Option.ite_none_right_eq_some.mp hrun
    exact List.isEmpty_iff.mp hstart

/-- A negated program accepts a text without line feeds, unless a match begins at its start. -/
theorem isMatch_negated_iff {program program' : Program}
    (htree : program'.tree = program.tree.negated) (hblind : program'.blind = program.blind)
    {text : List Char} :
    program'.isMatch text = true ↔ '\n' ∉ text ∧ ¬ program.MatchesAtStart text := by
  -- The lookahead keeps idle rounds out of the negated program.
  have hbeyond : program'.tree.beyondRegular = true := by
    rw [htree]
    rfl
  have hrun := Node.run_negated_isSome_iff program.blind false program.tree (.ofText text)
  have hstart : (Place.ofText text).before = [] := rfl
  have hanchored : program'.tree = .ofSequence
      (.start :: [.look false true program.tree, .loop .dot 0 none false] ++ [.finish]) := htree
  rw [← matchesAtStart_iff_isMatch hanchored, matchesAtStart_iff, matchesAtStart_iff, hbeyond,
    htree, hblind, Bool.not_true, hrun, Node.run_isSome_idle, Bool.eq_false_iff, and_iff_right hstart, and_comm]
  rfl

end Program

/-! ### Reading -/

namespace Reader

variable (base : List (Level × GroupKind)) {reader reader' : Reader} {lexeme : Lexeme}

/-- The same with further groups around. -/
def framed (reader : Reader) : Reader := { reader with outer := reader.outer ++ base }

theorem repeatLast_framed {least : Nat} {most : Option Nat}
    (h : reader.repeatLast least most = some reader') :
    (reader.framed base).repeatLast least most = some (reader'.framed base) := by
  have hlevel : (reader.framed base).level = reader.level := rfl
  unfold repeatLast at h ⊢
  rw [hlevel]
  cases hpieces : reader.level.pieces with
  | nil =>
    rw [hpieces] at h
    cases h
  | cons piece pieces =>
    rw [hpieces] at h
    cases h
    rfl

theorem makeReluctant_framed (reader : Reader) :
    (reader.framed base).makeReluctant = reader.makeReluctant.framed base := by
  have hlevel : (reader.framed base).level = reader.level := rfl
  unfold makeReluctant
  rw [hlevel]
  split <;> rfl

theorem piece_framed {repeated : Bool} (h : reader.piece repeated lexeme = some reader') :
    (reader.framed base).piece repeated lexeme = some (reader'.framed base) := by
  have hok {result result' : Reader} (hresult : some result = some reader')
      (hframed : result' = result.framed base) : some result' = some (reader'.framed base) := by
    cases hresult
    exact congrArg some hframed
  unfold piece at h
  split at h
  case h_2 =>
    unfold closeGroup at h
    split at h
    case h_1 => cases h
    case h_2 level kind outer heq =>
      cases h
      unfold piece closeGroup
      rw [show (reader.framed base).outer = (level, kind) :: (outer ++ base) from
        congrArg (· ++ base) heq]
      rfl
  case h_4 | h_5 => exact repeatLast_framed base h
  case h_6 =>
    unfold piece
    split at h
    case isTrue hrepeated => exact (if_pos hrepeated).trans (hok h (makeReluctant_framed base reader))
    case isFalse hrepeated => exact (if_neg hrepeated).trans (repeatLast_framed base h)
  case h_16 index =>
    split at h
    case isTrue hindex => exact (if_pos hindex).trans (hok h rfl)
    case isFalse => cases h
  case h_17 => cases h
  case h_12 =>
    cases h
    unfold piece
    split <;> simp_all [framed, push]
  all_goals exact hok h rfl

theorem count_framed {chars : List Char} (h : reader.count chars lexeme = some reader') :
    (reader.framed base).count chars lexeme = some (reader'.framed base) := by
  have hstray : (reader.framed base).strayBraceText chars =
      (reader.strayBraceText chars).framed base := rfl
  unfold count at h ⊢
  rw [hstray]
  split at h
  case h_1 =>
    split at h
    case h_1 => exact repeatLast_framed base h
    case h_2 =>
      cases h
      rfl
  case h_2 c _ =>
    split at h
    case isTrue hcount =>
      cases h
      exact if_pos hcount
    case isFalse hcount => exact (if_neg hcount).trans (piece_framed base h)
  case h_3 => exact piece_framed base h

theorem feed_framed (h : reader.feed lexeme = some reader') :
    (reader.framed base).feed lexeme = some (reader'.framed base) := by
  have hok {result result' : Reader} (hresult : some result = some reader')
      (hframed : result' = result.framed base) : some result' = some (reader'.framed base) := by
    cases hresult
    exact congrArg some hframed
  obtain ⟨pending, mode, level, outer, groups, names, strayBrace, strayBracket⟩ := reader
  cases mode with
  | pieces repeated => exact piece_framed base h
  | opened =>
    unfold feed at h
    dsimp only at h
    split at h
    case isTrue hc => exact (if_pos hc).trans (hok h rfl)
    case isFalse hc => exact (if_neg hc).trans (piece_framed base h)
  | question =>
    unfold feed at h
    dsimp only at h
    split at h
    case isTrue hc => exact (if_pos hc).trans (hok h rfl)
    case isFalse hc =>
      refine (if_neg hc).trans ?_
      split at h
      case isTrue hc => exact (if_pos hc).trans (hok h rfl)
      case isFalse hc =>
        refine (if_neg hc).trans ?_
        split at h
        case isTrue hc => exact (if_pos hc).trans (hok h rfl)
        case isFalse hc =>
          refine (if_neg hc).trans ?_
          split at h
          case isTrue hc => exact (if_pos hc).trans (hok h rfl)
          case isFalse => cases h
  | angle =>
    unfold feed at h
    dsimp only at h
    split at h
    case isTrue hc => exact (if_pos hc).trans (hok h rfl)
    case isFalse hc =>
      refine (if_neg hc).trans ?_
      split at h
      case isTrue hc => exact (if_pos hc).trans (hok h rfl)
      case isFalse hc =>
        refine (if_neg hc).trans ?_
        split at h
        case h_1 c _ =>
          split at h
          case isTrue hname => exact (if_pos hname).trans (hok h rfl)
          case isFalse => cases h
        case h_2 => cases h
  | name chars =>
    unfold feed at h
    dsimp only at h
    split at h
    case h_1 c _ =>
      split at h
      case isTrue hend => exact (if_pos hend).trans (hok h rfl)
      case isFalse hend =>
        refine (if_neg hend).trans ?_
        split at h
        case isTrue hname => exact (if_pos hname).trans (hok h rfl)
        case isFalse => cases h
    case h_2 => cases h
  | count chars => exact count_framed base h
  | set inside =>
    unfold feed at h ⊢
    dsimp only [framed] at h ⊢
    cases hnext : inside.next lexeme with
    | more | done =>
      rw [hnext] at h
      exact hok h rfl
    | refused =>
      rw [hnext] at h
      cases h

theorem step_framed {c : Char} (h : reader.step c = some reader') :
    (reader.framed base).step c = some (reader'.framed base) := by
  have hfold (lexemes : List Lexeme) {reader : Reader}
      (h : lexemes.foldlM feed reader = some reader') :
      lexemes.foldlM feed (reader.framed base) = some (reader'.framed base) := by
    induction lexemes generalizing reader with
    | nil =>
      cases h
      rfl
    | cons lexeme lexemes ih =>
      rw [List.foldlM_cons, Option.bind_eq_bind, Option.bind_eq_some_iff] at h ⊢
      obtain ⟨middle, hfeed, h⟩ := h
      exact ⟨_, feed_framed base hfeed, ih h⟩
  exact hfold _ h

/-- What can be read can be read with further groups around. -/
theorem read_framed {source : List Char} (h : reader.read source = some reader') :
    (reader.framed base).read source = some (reader'.framed base) := by
  induction source generalizing reader with
  | nil =>
    cases h
    rfl
  | cons c source ih =>
    rw [read, List.foldlM_cons, Option.bind_eq_bind, Option.bind_eq_some_iff] at h ⊢
    obtain ⟨middle, hstep, h⟩ := h
    exact ⟨_, step_framed base hstep, ih h⟩

/-- What the end of the source makes of a reader with nothing pending. -/
def settle? (reader : Reader) : Option Reader :=
  match reader.mode with
  | .pieces _ => if reader.outer.isEmpty then some reader else none
  | .count chars => if reader.outer.isEmpty then some (reader.strayBraceText chars) else none
  | _ => none

theorem atEnd_eq (reader : Reader) : reader.atEnd =
    (reader.pending.atEnd.foldlM feed { reader with pending := .nothing }).bind settle? := rfl

variable (level : Level) (kind : GroupKind) (outer : List (Level × GroupKind))

theorem feed_close_of_settle? (h : reader.settle? = some reader') :
    (reader.framed ((level, kind) :: outer)).feed (.plain ')') = some { reader' with
      level := level.push (kind.wrap reader'.level.node), outer, mode := .pieces false } := by
  obtain ⟨pending, mode, inner, outer', groups, names, strayBrace, strayBracket⟩ := reader
  cases mode with
  | opened | question | angle | name | set => cases h
  | pieces | count =>
    obtain ⟨houter, hsettled⟩ := Option.ite_none_right_eq_some.mp h
    obtain rfl : outer' = [] := List.isEmpty_iff.mp houter
    cases hsettled
    rfl

theorem pending_of_settle? (h : reader.settle? = some reader') :
    reader'.pending = reader.pending := by
  unfold settle? at h
  split at h
  case h_3 => cases h
  all_goals
    obtain ⟨-, hsettled⟩ := Option.ite_none_right_eq_some.mp h
    cases hsettled
    rfl

theorem pending_of_feed_ref {index : Nat} (h : reader.feed (.ref index) = some reader') :
    reader'.pending = reader.pending := by
  have hpiece (reader : Reader) (repeated : Bool)
      (h : reader.piece repeated (.ref index) = some reader') :
      reader'.pending = reader.pending := by
    obtain ⟨-, hpush⟩ := Option.ite_none_right_eq_some.mp h
    cases hpush
    rfl
  obtain ⟨pending, mode, level, outer, groups, names, strayBrace, strayBracket⟩ := reader
  cases mode with
  | pieces repeated => exact hpiece _ repeated h
  | opened | count => exact (hpiece _ false h).trans rfl
  | question | angle | name => cases h
  | set inside =>
    rw [feed_eq_none (.inr ⟨inside, index, rfl, rfl⟩)] at h
    cases h

/-- Where a source may end, a parenthesis closes the group around it. -/
theorem step_close_of_atEnd (h : reader.atEnd = some reader') :
    (reader.framed ((level, kind) :: outer)).step ')' = some { reader' with
      pending := .nothing, level := level.push (kind.wrap reader'.level.node), outer
      mode := .pieces false } := by
  -- The end of the source and the parenthesis both complete what is pending.
  rw [atEnd_eq, Option.bind_eq_some_iff] at h
  obtain ⟨settled, hfold, hsettle⟩ := h
  have hbad (h : [Lexeme.bad].foldlM feed { reader with pending := .nothing } = some settled) :
      False := by
    rw [foldlM_feed_singleton, feed_eq_none (.inl rfl)] at h
    cases h
  have hclose (hpending : settled.pending = .nothing) :
      [Lexeme.plain ')'].foldlM feed (settled.framed ((level, kind) :: outer)) = some { reader' with
        pending := .nothing, level := level.push (kind.wrap reader'.level.node), outer
        mode := .pieces false } := by
    have hpending' := (pending_of_settle? hsettle).trans hpending
    rw [foldlM_feed_singleton, feed_close_of_settle? level kind outer hsettle, hpending']
  obtain ⟨pending, mode, inner, outer', groups, names, strayBrace, strayBracket⟩ := reader
  cases pending with
  | backslash | hex | hexDigit => exact (hbad hfold).elim
  | nothing =>
    cases hfold
    exact hclose rfl
  | ref index =>
    rw [Pending.atEnd, foldlM_feed_singleton] at hfold
    show List.foldlM feed _ [.ref index, .plain ')'] = _
    rw [List.foldlM_cons, Option.bind_eq_bind, Option.bind_eq_some_iff]
    exact ⟨_, feed_framed ((level, kind) :: outer) hfold, hclose (pending_of_feed_ref hfold)⟩

/-- A negated source is read as the negation of what the source is read as. -/
theorem read_negated {source : List Char} (hread : ({} : Reader).read source = some reader)
    (hend : reader.atEnd = some reader') :
    ({} : Reader).read (['^', '(', '?', '!'] ++ source ++ [')', '.', '*', '$']) = some { reader' with
      pending := .nothing, mode := .pieces false, outer := []
      level := ⟨[], [.finish, .loop .dot 0 none false, .look false true reader'.level.node,
        .start]⟩ } := by
  have hopen : ({} : Reader).read ['^', '(', '?', '!'] =
      some (({} : Reader).framed [(⟨[], [.start]⟩, .look false true)]) := rfl
  rw [read_append, read_append, hopen, Option.bind_some, read_framed _ hread, Option.bind_some, read,
    List.foldlM_cons, step_close_of_atEnd ⟨[], [.start]⟩ (.look false true) [] hend]
  rfl

end Reader

/-- A negated source makes the negation of the program that the source makes. -/
theorem Program.tree_negated {source : List Char} (blind : Bool)
    (hplain : Text.after? ['(', '?', 'i', ')'] source = none) {program program' : Program}
    (h : ofSource? (if blind then ['(', '?', 'i', ')'] ++ source else source) = some program)
    (h' : ofSource? (if blind then ['(', '?', 'i', ')'] ++
        (['^', '(', '?', '!'] ++ source ++ [')', '.', '*', '$'])
      else ['^', '(', '?', '!'] ++ source ++ [')', '.', '*', '$']) = some program') :
    program'.tree = program.tree.negated ∧ program'.blind = program.blind := by
  have hok {text : List Char} {program : Program} (h : ofSource? text = some program) :
      ∃ source, Source.ofText? text = some source ∧ program.tree = source.tree ∧
        program.blind = source.blind := by
    obtain ⟨source, hsource, haccepted⟩ := Option.bind_eq_some_iff.mp h
    obtain ⟨-, hprogram⟩ := Option.ite_none_right_eq_some.mp haccepted
    cases hprogram
    exact ⟨source, hsource, rfl, rfl⟩
  obtain ⟨read, hsource, htree, hblind⟩ := hok h
  obtain ⟨read', hsource', htree', hblind'⟩ := hok h'
  obtain ⟨hflag, reader, ended, hread, hend, hnode, -⟩ := Source.exists_read hplain hsource
  obtain ⟨hflag', reader', ended', hread', hend', hnode', -⟩ := Source.exists_read rfl hsource'
  refine ⟨?_, by rw [hblind', hflag', hblind, hflag]⟩
  rw [htree', hnode', htree, hnode]
  -- Nothing is pending and no group is open behind the negated source.
  cases hread'.symm.trans (Reader.read_negated hread hend)
  cases hend'
  rfl

end PathGlob.Regex
