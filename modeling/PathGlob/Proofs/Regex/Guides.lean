import PathGlob.Proofs.Regex.Denotes

/-!
# `PathGlob.Proofs.Regex.Guides`: sources that lead past no leading dot

A segment that begins with a dot is hidden. A cursor is clear if nothing it has passed begins a
hidden segment (`Cursor.Clear`), and safe if nothing does that it may pass next either
(`Cursor.Safe`). A separator leads from safe cursors to clear ones, a guard back from clear ones to
safe ones, and what matches no separator stays among the safe ones.

`Node.Takes` is this for trees, as a triple of a condition before, a tree and a condition after.
`Guides` is the same for a source between pieces, `GuidesPiece` for one that is a single piece, and
`GuidesBody` for the inside of a group as far as it has been read. Case may be ignored, and either
convention of separators may be in use.
-/

set_option autoImplicit false

namespace PathGlob.Unicode

/-- Nothing but the character itself folds to a character that no run leads to. -/
theorem eq_of_fold_eq {x target : Char}
    (htarget : foldRuns.all (fun run => !run.has ((target.toNat : Int) - run.shift).toNat) = true)
    (hzero : target.toNat ≠ 0) (h : fold x = target) : x = target := by
  unfold fold at h
  split at h
  case h_2 => exact h
  case h_1 run hrun =>
    -- A run that holds the character would lead to the target.
    have hhas : run.has x.toNat = true := by simpa using List.find?_some hrun
    have hmem : run ∈ foldRuns := List.mem_of_find?_eq_some hrun
    have hnat : ((x.toNat : Int) + run.shift).toNat = target.toNat := by
      rw [← h]
      by_cases hvalid : ((x.toNat : Int) + run.shift).toNat.isValidChar
      · rw [Char.ofNat, dif_pos hvalid]
        rfl
      · rw [Char.ofNat, dif_neg hvalid] at h
        exact absurd (congrArg Char.toNat h).symm hzero
    have hback : ((target.toNat : Int) - run.shift).toNat = x.toNat := by omega
    have := List.all_eq_true.mp htarget run hmem
    rw [hback, hhas] at this
    exact absurd this (by simp)

end PathGlob.Unicode

namespace PathGlob.Regex

/-- Dots and slashes have no case. -/
theorem sameChar_eq_false {blind : Bool} {x y : Char} (hy : y = '/' ∨ y = '.') (hne : x ≠ y) :
    sameChar blind x y = false := by
  have hfold : Unicode.fold y = y := by
    obtain rfl | rfl := hy <;> decide +kernel
  have hback (h : Unicode.fold x = y) : x = y := by
    refine Unicode.eq_of_fold_eq ?_ ?_ h
    · obtain rfl | rfl := hy <;> decide +kernel
    · obtain rfl | rfl := hy <;> decide
  unfold sameChar
  rw [hfold]
  simp only [Bool.or_eq_false_iff, decide_eq_false_iff_not, Bool.and_eq_false_imp]
  exact ⟨fun h => hne h.symm, fun _ h => hne (hback h.symm)⟩

/-! ### Cursors -/

namespace Cursor

/-- A segment begins behind these characters, nearest first. -/
def BeginsSegment (before : List Char) : Prop := before = [] ∨ before.head? = some '/'

/-- No hidden segment begins before the cursor. -/
def Clear (c : Cursor) : Prop :=
  ∀ later earlier, c.before = later ++ '.' :: earlier → ¬ BeginsSegment earlier

/-- No hidden segment begins before the cursor or at it. -/
def Safe (c : Cursor) : Prop :=
  c.Clear ∧ (BeginsSegment c.before → c.after.head? ≠ some '.')

variable {test : Char → Bool} {c d : Cursor}

theorem Clear.of_steps (hc : c.Clear) (h : c.Steps test d)
    (hdot : c.after.head? = some '.' → test '.' = true → ¬ BeginsSegment c.before) : d.Clear := by
  obtain ⟨x, hx, hafter, hbefore⟩ := h
  intro later earlier heq
  rw [hbefore] at heq
  cases later with
  | nil =>
    obtain ⟨rfl, rfl⟩ : x = '.' ∧ c.before = earlier := by simpa using heq
    exact hdot (by rw [hafter]; rfl) hx
  | cons y later =>
    have hlater : c.before = later ++ '.' :: earlier := by
      have := (List.cons.inj heq).2
      simpa using this
    exact hc later earlier hlater

/-- Behind a character that is no separator no segment begins. -/
theorem Clear.safe_of_steps (hd : d.Clear) (h : c.Steps test d) (hslash : test '/' = false) :
    d.Safe := by
  obtain ⟨x, hx, -, hbefore⟩ := h
  refine ⟨hd, fun hbegins => ?_⟩
  have hhead : d.before.head? = some x := by rw [hbefore]; rfl
  obtain hnil | hhead' := hbegins
  · rw [hnil] at hhead
    exact absurd hhead (by simp)
  · obtain rfl : x = '/' := Option.some.inj (hhead.symm.trans hhead')
    exact absurd (hslash.symm.trans hx) (by simp)

theorem Safe.clear_of_steps (hc : c.Safe) (h : c.Steps test d) : d.Clear :=
  hc.1.of_steps h fun hhead _ hbegins => hc.2 hbegins hhead

theorem Clear.clear_of_steps (hc : c.Clear) (h : c.Steps test d) (hdot : test '.' = false) :
    d.Clear :=
  hc.of_steps h fun _ htest => absurd (hdot.symm.trans htest) (by simp)

/-- From the start of a text, a cursor that is clear has passed no hidden segment. -/
theorem Clear.head?_ne (hc : c.Clear) {text : List Char} (hbefore : c.before = text.reverse) :
    ∀ segment ∈ Text.pieces '/' text, segment.head? ≠ some '.' := by
  -- A dot that begins a segment would have been passed there.
  have hat (u v : List Char) (htext : text = u ++ v) (hbegins : BeginsSegment u.reverse) :
      v.head? ≠ some '.' := by
    intro hhead
    obtain ⟨v, rfl⟩ := List.head?_eq_some_iff.mp hhead
    refine hc v.reverse u.reverse ?_ hbegins
    rw [hbefore, htext]
    simp
  rw [Text.forall_mem_pieces_iff (P := fun segment => segment.head? ≠ some '.')]
  refine ⟨?_, fun u v htext => ?_⟩
  · rw [ne_eq, Text.head?_firstPiece (by decide)]
    exact hat [] text rfl (.inl rfl)
  · rw [ne_eq, Text.head?_firstPiece (by decide)]
    refine hat (u ++ ['/']) v (by simp [htext]) (.inr ?_)
    simp

end Cursor

open Cursor

/-! ### Trees -/

/-- Matching the tree leads from cursors of one kind to cursors of another. -/
structure Node.Takes (blind : Bool) (P : Cursor → Prop) (a : Node) (Q : Cursor → Prop) : Prop where
  regular : a.refers = false
  leads : ∀ {c d}, P c → a.Spans blind c d → Q d

namespace Node.Takes

variable {blind : Bool} {P Q R : Cursor → Prop} {a b : Node} {test : Char → Bool}

theorem mono {P' Q' : Cursor → Prop} (h : a.Takes blind P Q) (hP : ∀ c, P' c → P c)
    (hQ : ∀ c, Q c → Q' c) : a.Takes blind P' Q' :=
  ⟨h.regular, fun hc hspans => hQ _ (h.leads (hP _ hc) hspans)⟩

theorem alt (ha : a.Takes blind P Q) (hb : b.Takes blind P Q) : (alt a b).Takes blind P Q := by
  refine ⟨by rw [refers, ha.regular, hb.regular]; rfl, fun hc hspans => ?_⟩
  obtain hspans | hspans := hspans
  · exact ha.leads hc hspans
  · exact hb.leads hc hspans

theorem group (h : a.Takes blind P Q) : (group a).Takes blind P Q := ⟨h.regular, h.leads⟩

theorem capture (h : a.Takes blind P Q) (index : Nat) : (capture index a).Takes blind P Q :=
  ⟨h.regular, h.leads⟩

/-- What looks around stays where it is. -/
theorem look (hregular : a.refers = false) (behind negated : Bool) :
    (look behind negated a).Takes blind P P := by
  refine ⟨hregular, fun hc hspans => ?_⟩
  cases behind with
  | false => exact hspans.2 ▸ hc
  | true => exact hspans.2 ▸ hc

theorem loop (h : a.Takes blind P P) (least : Nat) (most : Option Nat) (reluctant : Bool) :
    (loop a least most reluctant).Takes blind P P := by
  have hrounds (n : Nat) {c d : Cursor} (hc : P c) (hd : Rounds (a.Spans blind) n c d) : P d := by
    induction n generalizing c with
    | zero =>
      obtain rfl : d = c := hd
      exact hc
    | succ n ih =>
      obtain ⟨e, he, hd⟩ := hd
      exact ih (h.leads hc he) hd
  refine ⟨h.regular, fun hc hspans => ?_⟩
  obtain ⟨e, he, n, -, hd⟩ := hspans
  exact hrounds n (hrounds least hc he) hd

theorem ofSequence_nil : (ofSequence []).Takes blind P P := by
  refine ⟨rfl, fun hc hspans => ?_⟩
  obtain rfl := spans_ofSequence_nil.mp hspans
  exact hc

theorem ofSequence_append {p q : List Node} (hp : (ofSequence p).Takes blind P Q)
    (hq : (ofSequence q).Takes blind Q R) : (ofSequence (p ++ q)).Takes blind P R := by
  refine ⟨?_, fun hc hspans => ?_⟩
  · have hregular := hp.regular
    clear hp
    induction p with
    | nil => exact hq.regular
    | cons piece p ih =>
      rw [List.cons_append, ofSequence_cons, refers, Bool.or_eq_false_iff]
      rw [ofSequence_cons, refers, Bool.or_eq_false_iff] at hregular
      exact ⟨hregular.1, ih hregular.2⟩
  · obtain ⟨e, he, hd⟩ := (spans_ofSequence_append p q).mp hspans
    exact hq.leads (hp.leads hc he) hd

theorem ofSequence_singleton (h : a.Takes blind P Q) : (ofSequence [a]).Takes blind P Q := by
  refine ⟨?_, fun hc hspans => h.leads hc (spans_ofSequence_singleton.mp hspans)⟩
  rw [ofSequence_cons, refers, h.regular]
  rfl

theorem ofBranches {earlier : List Node} (hearlier : ∀ b ∈ earlier, b.Takes blind P Q)
    (h : a.Takes blind P Q) : (ofBranches earlier a).Takes blind P Q := by
  unfold Node.ofBranches
  induction earlier generalizing a with
  | nil => exact h
  | cons b earlier ih =>
    rw [List.forall_mem_cons] at hearlier
    exact ih hearlier.2 (hearlier.1.alt h)

/-! What a single character leads to depends on whether it may be a dot or a separator. -/

section
variable (hregular : a.refers = false) (hspans : ∀ c d, a.Spans blind c d → c.Steps test d)
include hregular hspans

theorem clear_clear (hdot : test '.' = false) : a.Takes blind Clear Clear :=
  ⟨hregular, fun hc h => hc.clear_of_steps (hspans _ _ h) hdot⟩

theorem safe_safe (hslash : test '/' = false) : a.Takes blind Safe Safe :=
  ⟨hregular, fun hc h =>
    (hc.clear_of_steps (hspans _ _ h)).safe_of_steps (hspans _ _ h) hslash⟩

theorem clear_safe (hdot : test '.' = false) (hslash : test '/' = false) :
    a.Takes blind Clear Safe :=
  ⟨hregular, fun hc h =>
    (hc.clear_of_steps (hspans _ _ h) hdot).safe_of_steps (hspans _ _ h) hslash⟩

end

/-- A character that is neither a dot nor a separator. -/
theorem char {x : Char} (hdot : x ≠ '.') (hslash : x ≠ '/') :
    (Node.char x).Takes blind Clear Safe :=
  clear_safe rfl (fun _ _ h => h) (sameChar_eq_false (.inr rfl) hdot)
    (sameChar_eq_false (.inl rfl) hslash)

end Node.Takes

/-! ### Sources -/

/-- Between two pieces, the source is read as pieces that lead from cursors of one kind to cursors
of another. -/
def Guides (blind : Bool) (P : Cursor → Prop) (source : List Char) (Q : Cursor → Prop) : Prop :=
  ∀ repeated branches before outer groups names strayBrace, ∃ repeated' pieces groups',
    (Reader.resting repeated ⟨branches, before⟩ outer groups names strayBrace).read source =
      some (.resting repeated' ⟨branches, pieces.reverse ++ before⟩ outer groups' names
        strayBrace) ∧
    (Node.ofSequence pieces).Takes blind P Q

/-- The source is read as a single piece that does so. -/
def GuidesPiece (blind : Bool) (P : Cursor → Prop) (source : List Char) (Q : Cursor → Prop) :
    Prop :=
  ∀ repeated branches before outer groups names strayBrace, ∃ repeated' piece groups',
    (Reader.resting repeated ⟨branches, before⟩ outer groups names strayBrace).read source =
      some (.resting repeated' ⟨branches, piece :: before⟩ outer groups' names strayBrace) ∧
    piece.Takes blind P Q

/-- Inside a group, the source is read as alternatives of which the last one, still unfinished,
leads from cursors of the first kind to cursors of the last kind. The finished ones lead to those
of the second kind. -/
def GuidesBody (blind : Bool) (P R : Cursor → Prop) (source : List Char) (Q : Cursor → Prop) :
    Prop :=
  ∀ outer groups names strayBrace, ∃ repeated level groups',
    (Reader.resting false {} outer groups names strayBrace).read source =
      some (.resting repeated level outer groups' names strayBrace) ∧
    (∀ branch ∈ level.branches, branch.Takes blind P R) ∧
    (Node.ofPieces level.pieces).Takes blind P Q

section
variable {blind : Bool} {P Q R S : Cursor → Prop} {source more : List Char}

theorem Guides.of_reads {pieces : List Node} (h : Reads source pieces)
    (hpieces : (Node.ofSequence pieces).Takes blind P Q) : Guides blind P source Q := by
  intro repeated branches before outer groups names strayBrace
  obtain ⟨r, hr⟩ := h repeated branches before outer groups names strayBrace
  exact ⟨r, pieces, groups, hr, hpieces⟩

theorem Guides.of_reads_piece {a : Node} (h : Reads source [a]) (ha : a.Takes blind P Q) :
    Guides blind P source Q :=
  .of_reads h ha.ofSequence_singleton

theorem Guides.nil : Guides blind P [] P := .of_reads .nil .ofSequence_nil

theorem Guides.mono {P' Q' : Cursor → Prop} (h : Guides blind P source Q)
    (hP : ∀ c, P' c → P c) (hQ : ∀ c, Q c → Q' c) : Guides blind P' source Q' := by
  intro repeated branches before outer groups names strayBrace
  obtain ⟨r, pieces, groups', hr, hpieces⟩ :=
    h repeated branches before outer groups names strayBrace
  exact ⟨r, pieces, groups', hr, hpieces.mono hP hQ⟩

/-- Safe cursors are clear. -/
theorem Guides.of_safe (h : Guides blind Clear source Q) : Guides blind Safe source Q :=
  h.mono (fun _ => And.left) fun _ => id

theorem Guides.append (h : Guides blind P source Q) (hmore : Guides blind Q more R) :
    Guides blind P (source ++ more) R := by
  intro repeated branches before outer groups names strayBrace
  obtain ⟨r, p, groups₁, hr, hp⟩ := h repeated branches before outer groups names strayBrace
  obtain ⟨s, q, groups₂, hs, hq⟩ :=
    hmore r branches (p.reverse ++ before) outer groups₁ names strayBrace
  refine ⟨s, p ++ q, groups₂, ?_, hp.ofSequence_append hq⟩
  rw [Reader.read_append, hr, Option.bind_some, hs, List.reverse_append, List.append_assoc]

theorem GuidesPiece.guides (h : GuidesPiece blind P source Q) : Guides blind P source Q := by
  intro repeated branches before outer groups names strayBrace
  obtain ⟨r, piece, groups', hr, hpiece⟩ :=
    h repeated branches before outer groups names strayBrace
  exact ⟨r, [piece], groups', hr, hpiece.ofSequence_singleton⟩

theorem GuidesBody.nil : GuidesBody blind P R [] P :=
  fun _ groups _ _ => ⟨false, {}, groups, rfl, by simp, Node.Takes.ofSequence_nil⟩

theorem GuidesBody.mono {Q' : Cursor → Prop} (h : GuidesBody blind P R source Q)
    (hQ : ∀ c, Q c → Q' c) : GuidesBody blind P R source Q' := by
  intro outer groups names strayBrace
  obtain ⟨r, level, groups', hr, hbranches, hpieces⟩ := h outer groups names strayBrace
  exact ⟨r, level, groups', hr, hbranches, hpieces.mono (fun _ => id) hQ⟩

theorem GuidesBody.append (h : GuidesBody blind P R source Q) (hmore : Guides blind Q more S) :
    GuidesBody blind P R (source ++ more) S := by
  intro outer groups names strayBrace
  obtain ⟨r, ⟨branches, before⟩, groups₁, hr, hbranches, hbefore⟩ :=
    h outer groups names strayBrace
  obtain ⟨s, pieces, groups₂, hs, hpieces⟩ := hmore r branches before outer groups₁ names strayBrace
  refine ⟨s, ⟨branches, pieces.reverse ++ before⟩, groups₂, ?_, hbranches, ?_⟩
  · rw [Reader.read_append, hr, Option.bind_some, hs]
  have hsequence : Node.ofPieces (pieces.reverse ++ before) =
      Node.ofSequence (before.reverse ++ pieces) := by
    rw [Node.ofSequence, List.reverse_append, List.reverse_reverse]
  show (Node.ofPieces (pieces.reverse ++ before)).Takes blind P S
  rw [hsequence]
  refine Node.Takes.ofSequence_append ?_ hpieces
  rwa [Node.ofSequence, List.reverse_reverse]

/-- A bar finishes an alternative. -/
theorem GuidesBody.bar (h : GuidesBody blind P R source R) :
    GuidesBody blind P R (source ++ ['|']) P := by
  intro outer groups names strayBrace
  obtain ⟨r, level, groups', hr, hbranches, hpieces⟩ := h outer groups names strayBrace
  refine ⟨false, level.branch, groups', ?_, ?_, Node.Takes.ofSequence_nil⟩
  · rw [Reader.read_append, hr, Option.bind_some]
    rfl
  · exact List.forall_mem_cons.mpr ⟨hpieces, hbranches⟩

/-- A group around a source. -/
theorem GuidesBody.group (h : GuidesBody blind P R source R) :
    GuidesPiece blind P (['(', '?', ':'] ++ source ++ [')']) R := by
  intro repeated branches before outer groups names strayBrace
  obtain ⟨r, level, groups', hr, hbranches, hpieces⟩ :=
    h ((⟨branches, before⟩, .bare) :: outer) groups names strayBrace
  refine ⟨false, .group level.node, groups', ?_, (hpieces.ofBranches hbranches).group⟩
  have hopen : (Reader.resting repeated ⟨branches, before⟩ outer groups names strayBrace).read
      ['(', '?', ':'] = some (.resting false {} ((⟨branches, before⟩, .bare) :: outer) groups
        names strayBrace) := rfl
  have hclose : (Reader.resting r level ((⟨branches, before⟩, .bare) :: outer) groups' names
      strayBrace).read [')'] = some (.resting false ⟨branches, .group level.node :: before⟩ outer
        groups' names strayBrace) := rfl
  rw [Reader.read_append, Reader.read_append, hopen, Option.bind_some, hr, Option.bind_some, hclose]

/-- A group that captures. Its inside may not begin with a question mark. -/
theorem GuidesBody.capture (h : GuidesBody blind P R source R)
    (hquestion : source.head? ≠ some '?') : GuidesPiece blind P ('(' :: source ++ [')']) R := by
  intro repeated branches before outer groups names strayBrace
  obtain ⟨r, level, groups', hr, hbranches, hpieces⟩ :=
    h ((⟨branches, before⟩, .capture (groups + 1)) :: outer) (groups + 1) names strayBrace
  refine ⟨false, .capture (groups + 1) level.node, groups', ?_,
    (hpieces.ofBranches hbranches).capture _⟩
  let opened : Reader :=
    { mode := .opened, level := ⟨branches, before⟩, outer, groups, names, strayBrace }
  have hopen : (Reader.resting repeated ⟨branches, before⟩ outer groups names strayBrace).read
      ('(' :: source ++ [')']) = opened.read (source ++ [')']) := rfl
  have hcapture : opened.openCapture = .resting false {}
      ((⟨branches, before⟩, .capture (groups + 1)) :: outer) (groups + 1) names strayBrace := rfl
  have hclose : (Reader.resting r level ((⟨branches, before⟩, .capture (groups + 1)) :: outer)
      groups' names strayBrace).read [')'] = some (.resting false
        ⟨branches, .capture (groups + 1) level.node :: before⟩ outer groups' names strayBrace) :=
    rfl
  rw [hopen, Reader.read_opened rfl fun _ => hquestion, hcapture, Reader.read_append, hr,
    Option.bind_some, hclose]

theorem Guides.body (h : Guides blind P source Q) : GuidesBody blind P R source Q :=
  GuidesBody.nil.append h

/-- A quantifier behind a piece. -/
theorem GuidesPiece.quantified (h : GuidesPiece blind P source P) {quantifier : Char}
    (hquantifier : quantifier ∈ ['?', '*', '+']) :
    GuidesPiece blind P (source ++ [quantifier]) P := by
  intro repeated branches before outer groups names strayBrace
  obtain ⟨r, piece, groups', hr, hpiece⟩ :=
    h repeated branches before outer groups names strayBrace
  simp only [Reader.read_append, hr, Option.bind_some]
  simp only [List.mem_cons, List.not_mem_nil, or_false] at hquantifier
  obtain rfl | rfl | rfl := hquantifier
  · cases r with
    | false => exact ⟨true, _, groups', rfl, hpiece.loop 0 (some 1) false⟩
    | true =>
      -- Behind a quantifier, a question mark only changes what is tried first.
      cases hpiece' : piece with
      | loop a least most reluctant =>
        rw [hpiece'] at hpiece
        exact ⟨false, .loop a least most true, groups', rfl, hpiece.regular, hpiece.leads⟩
      | _ =>
        rw [hpiece'] at hpiece
        exact ⟨true, _, groups', rfl, hpiece⟩
  · exact ⟨true, _, groups', rfl, hpiece.loop 0 none false⟩
  · exact ⟨true, _, groups', rfl, hpiece.loop 1 none false⟩

end

end PathGlob.Regex
