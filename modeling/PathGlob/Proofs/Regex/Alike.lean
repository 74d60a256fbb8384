import PathGlob.Proofs.Regex.Reads

/-!
# `PathGlob.Proofs.Regex.Alike`: trees that a text does not tell apart

Two trees are alike on a text if, from every place of that text, the searches for them hand the
same places to what comes next, in the same order (`Node.Alike`). Where they are put into the same
tree around them, the two larger trees are alike as well. So a condition that holds wherever it is
asked for on this text may be left out of a tree, however deep in it, and neither what is matched
nor what the groups capture changes (`Program.locate?_eq_of_alike`).

A tree that only ever begins at the start of the text need only be alike there. Besides the
searches, the trees agree on whatever decides if a source is accepted (`Node.Resembles`): the
extended dialect asks what a repeated piece amounts to, and how wide a piece is that is looked for
behind a place.
-/

set_option autoImplicit false

namespace PathGlob.Regex

/-! ### Searches -/

namespace Run

/-- From the places of the text, or with `first` from its start alone, the two bodies do the same
with continuations that do the same on places of the text. -/
def Alike (text : List Char) (first : Bool) (body body' : Place → Continuation → Option Place) :
    Prop :=
  ∀ ⦃p : Place⦄ ⦃k k' : Continuation⦄, p.Within text text.length →
    (first = true → p.before = []) → (∀ q : Place, q.Within text text.length → k q = k' q) →
    body p k = body' p k'

variable {text : List Char} {first : Bool} {body body' : Place → Continuation → Option Place}

theorem Alike.weaken (h : Alike text false body body') (first : Bool) :
    Alike text first body body' :=
  fun _ _ _ hp _ hk => h hp (fun hfalse => absurd hfalse (by simp)) hk

theorem alike_one (test : Char → Bool) : Alike text false (one test) (one test) := by
  intro p k k' hp _ hk
  cases hstep : p.step? test with
  | none => simp [one, hstep]
  | some q => simpa [one, hstep] using hk q (hp.step hstep).1

/-- A condition on the place. -/
theorem alike_test (test : Place → Bool) :
    Alike text false (fun p k => if test p then k p else none)
      (fun p k => if test p then k p else none) := by
  intro p k k' hp _ hk
  simp only [hk p hp]

section
variable (hbody : Alike text false body body')
include hbody

theorem Alike.times (n : Nat) : Alike text false (times body n) (times body' n) := by
  induction n with
  | zero => exact fun p _ _ hp _ hk => hk p hp
  | succ n ih =>
    intro p k k' hp hfirst hk
    exact hbody hp hfirst fun q hq => ih hq (by simp) hk

theorem Alike.upTo (reluctant : Bool) (n : Nat) :
    Alike text false (upTo body reluctant n) (upTo body' reluctant n) := by
  induction n with
  | zero => exact fun p _ _ hp _ hk => hk p hp
  | succ n ih =>
    intro p k k' hp hfirst hk
    have hround : (body p fun q => Run.upTo body reluctant n q k) =
        body' p fun q => Run.upTo body' reluctant n q k' :=
      hbody hp hfirst fun q hq => ih hq (by simp) hk
    simp only [Run.upTo, hround, hk p hp]

theorem Alike.star (reluctant : Bool) (n : Nat) (idleRound : Bool) :
    Alike text false (star body reluctant n idleRound) (star body' reluctant n idleRound) := by
  induction n generalizing idleRound with
  | zero => exact fun p _ _ hp _ hk => hk p hp
  | succ n ih =>
    intro p k k' hp hfirst hk
    have hround : (body p fun q => if q.left = p.left then (if idleRound then k q else none)
          else Run.star body reluctant n false q k) =
        body' p fun q => if q.left = p.left then (if idleRound then k' q else none)
          else Run.star body' reluctant n false q k' := by
      refine hbody hp hfirst fun q hq => ?_
      simp only [hk q hq, ih false hq (by simp) hk]
    simp only [Run.star, hround, hk p hp]

end

/-- Looking back only tries places of the text. -/
theorem back_congr {attempt attempt' : Place → Option Place}
    (h : ∀ s : Place, s.Within text text.length → attempt s = attempt' s) {before : List Char}
    {p : Place} (hp : p.before.reverse ++ p.after = text) (hbefore : p.before = before) :
    back attempt before p = back attempt' before p := by
  have hwithin : p.Within text text.length := ⟨hp, by rw [p.left_eq, ← hp]; simp⟩
  induction before generalizing p with
  | nil => exact h p hwithin
  | cons c before ih =>
    have hp' : before.reverse ++ c :: p.after = text := by
      rw [hbefore] at hp
      simpa using hp
    simp only [back, h p hwithin]
    rw [ih hp' rfl ⟨hp', by rw [← hp']; simp [p.left_eq]⟩]

end Run

/-- What a piece amounts to together with one after it. -/
def Substance.followedBy : Substance → Substance → Substance
  | .nothing, s => s
  | s, .nothing => s
  | _, _ => .solid

theorem Substance.nothing_followedBy (x : Substance) : nothing.followedBy x = x := rfl

theorem Substance.followedBy_nothing (x : Substance) : x.followedBy .nothing = x := by
  cases x <;> rfl

theorem Substance.followedBy_assoc (x y z : Substance) :
    (x.followedBy y).followedBy z = x.followedBy (y.followedBy z) := by
  cases x <;> cases y <;> cases z <;> rfl

namespace Node

/-- The searches for the two trees are alike, whether or not idle rounds are allowed. -/
def RunsAlike (text : List Char) (first : Bool) (a b : Node) : Prop :=
  ∀ idleRound, Run.Alike text first (a.run false idleRound) (b.run false idleRound)

section
variable {text : List Char} {first : Bool} {a a' b b' : Node}

theorem RunsAlike.weaken (h : RunsAlike text false a b) (first : Bool) :
    RunsAlike text first a b := fun idleRound => (h idleRound).weaken first

theorem RunsAlike.seq (h : RunsAlike text first a a') (h' : RunsAlike text false b b') :
    RunsAlike text first (.seq a b) (.seq a' b') := fun idleRound _ _ _ hp hfirst hk =>
  h idleRound hp hfirst fun _ hq => h' idleRound hq (by simp) hk

theorem RunsAlike.alt (h : RunsAlike text first a a') (h' : RunsAlike text first b b') :
    RunsAlike text first (.alt a b) (.alt a' b') := by
  intro idleRound p k k' hp hfirst hk
  simp only [run, h idleRound hp hfirst hk, h' idleRound hp hfirst hk]

theorem RunsAlike.capture (h : RunsAlike text first a b) (index : Nat) :
    RunsAlike text first (.capture index a) (.capture index b) :=
  fun idleRound p _ _ hp hfirst hk => h idleRound hp hfirst fun q hq =>
    hk { q with found := (index, p.textTo q) :: q.found } ⟨hq.text_eq, hq.left_le⟩

theorem RunsAlike.look (h : RunsAlike text false a b) (behind negated : Bool) :
    RunsAlike text false (.look behind negated a) (.look behind negated b) := by
  intro idleRound p k k' hp _ hk
  have hahead {l l' : Continuation} (hl : ∀ q : Place, q.Within text text.length → l q = l' q)
      {s : Place} (hs : s.Within text text.length) :
      a.run false idleRound s l = b.run false idleRound s l' := h idleRound hs (by simp) hl
  have hfound (found : List (Nat × List Char)) : k { p with found } = k' { p with found } :=
    hk _ ⟨hp.text_eq, hp.left_le⟩
  cases behind <;> cases negated
  · simp only [run_ahead, hfound, hahead (fun _ _ => rfl) hp]
  · simp only [run_not_ahead, hahead (fun _ _ => rfl) hp, hk p hp]
  · simp only [run]
    refine Run.back_congr (fun s hs => hahead (fun q _ => ?_) hs) hp.text_eq rfl
    rw [hfound]
  · have hback : Run.back (fun s => a.run false idleRound s fun q =>
          if q.left = p.left then some q else none) p.before p =
        Run.back (fun s => b.run false idleRound s fun q =>
          if q.left = p.left then some q else none) p.before p :=
      Run.back_congr (fun s hs => hahead (fun _ _ => rfl) hs) hp.text_eq rfl
    simp only [run, hback, hk p hp]

theorem RunsAlike.loop (h : RunsAlike text false a b) (least : Nat) (most : Option Nat)
    (reluctant : Bool) :
    RunsAlike text false (.loop a least most reluctant) (.loop b least most reluctant) := by
  intro idleRound p k k' hp hfirst hk
  refine (h idleRound).times least hp hfirst fun q hq => ?_
  cases most with
  | none => exact (h idleRound).star _ _ _ hq (by simp) hk
  | some most => exact (h idleRound).upTo _ _ hq (by simp) hk

/-- What a continuation does on other places makes no difference. -/
theorem runsAlike_self (text : List Char) (a : Node) : RunsAlike text false a a := by
  induction a with
  | empty => exact fun _ p _ _ hp _ hk => hk p hp
  | char | dot | set => exact fun _ => Run.alike_one _
  | start | finish | edge => exact fun _ => Run.alike_test _
  | seq a b iha ihb => exact iha.seq ihb
  | alt a b iha ihb => exact iha.alt ihb
  | group a ih => exact ih
  | capture index a ih => exact ih.capture index
  | look behind negated a ih => exact ih.look behind negated
  | ref index =>
    intro _ p k k' hp _ hk
    simp only [run]
    split
    · rfl
    · split
      · rfl
      · rename_i hskip
        exact hk _ (hp.skip hskip).1
  | loop a least most reluctant ih => exact ih.loop least most reluctant

end

/-! ### What decides if a source is accepted -/

/-- No dialect tells the trees apart, but for what they amount to. -/
structure Resembles (a b : Node) : Prop where
  empty : a = .empty ↔ b = .empty
  beyondRegular : a.beyondRegular = b.beyondRegular
  isExtended : a.isExtended = b.isExtended
  isLoop : a.isLoop = b.isLoop
  fixedWidth : a.fixedWidth? = b.fixedWidth?
  canLookBehind : a.canLookBehind = b.canLookBehind

/-- The text does not tell the trees apart, and neither does a dialect. With `first`, the trees
need only be alike at the start of the text, and are not repeated. -/
structure Alike (text : List Char) (first : Bool) (a b : Node) : Prop where
  runs : RunsAlike text first a b
  resembles : Resembles a b
  substance : first = false → a.substance = b.substance

section
variable {text : List Char} {first : Bool} {a a' b b' : Node}

theorem Resembles.refl (a : Node) : Resembles a a := ⟨Iff.rfl, rfl, rfl, rfl, rfl, rfl⟩

theorem Alike.refl (text : List Char) (first : Bool) (a : Node) : Alike text first a a :=
  ⟨(runsAlike_self text a).weaken first, .refl a, fun _ => rfl⟩

theorem Alike.trans {c : Node} (h : Alike text first a b) (h' : Alike text first b c) :
    Alike text first a c where
  runs idleRound _ _ _ hp hfirst hk :=
    (h.runs idleRound hp hfirst hk).trans (h'.runs idleRound hp hfirst fun _ _ => rfl)
  resembles := ⟨h.resembles.empty.trans h'.resembles.empty,
    h.resembles.beyondRegular.trans h'.resembles.beyondRegular,
    h.resembles.isExtended.trans h'.resembles.isExtended,
    h.resembles.isLoop.trans h'.resembles.isLoop,
    h.resembles.fixedWidth.trans h'.resembles.fixedWidth,
    h.resembles.canLookBehind.trans h'.resembles.canLookBehind⟩
  substance hfirst := (h.substance hfirst).trans (h'.substance hfirst)

theorem Alike.alt (h : Alike text first a a') (h' : Alike text first b b') :
    Alike text first (.alt a b) (.alt a' b') where
  runs := h.runs.alt h'.runs
  resembles := by
    constructor
    · simp
    · simp only [beyondRegular, h.resembles.beyondRegular, h'.resembles.beyondRegular]
    · simp only [isExtended, h.resembles.isExtended, h'.resembles.isExtended]
    · rfl
    · simp only [fixedWidth?, h.resembles.fixedWidth, h'.resembles.fixedWidth]
    · simp only [canLookBehind, h.resembles.canLookBehind, h'.resembles.canLookBehind]
  substance _ := rfl

/-- A group around trees that are alike, of whichever kind it is. -/
theorem Alike.wrap (h : Alike text false a b) (kind : GroupKind) :
    Alike text false (kind.wrap a) (kind.wrap b) := by
  obtain ⟨hruns, hresembles, hsubstance⟩ := h
  obtain ⟨-, hregular, hextended, -, hwidth, hbehind⟩ := hresembles
  cases kind with
  | bare =>
    exact ⟨hruns, ⟨by simp [GroupKind.wrap], hregular, hextended, rfl, hwidth, hbehind⟩, hsubstance⟩
  | capture index =>
    refine ⟨hruns.capture index, ⟨by simp [GroupKind.wrap], hregular, hextended, rfl, hwidth, ?_⟩,
      fun _ => rfl⟩
    simp only [GroupKind.wrap, canLookBehind, fixedWidth?, beyondRegular, hregular, hwidth]
  | look behind negated =>
    refine ⟨hruns.look behind negated, ⟨by simp [GroupKind.wrap], rfl, ?_, rfl, rfl, rfl⟩,
      fun _ => rfl⟩
    simp only [GroupKind.wrap, isExtended, hextended, hbehind]

/-- At the start of the text, a group that captures nothing. -/
theorem Alike.group (h : Alike text first a b) : Alike text first (.group a) (.group b) :=
  ⟨h.runs, ⟨by simp, h.resembles.beyondRegular, h.resembles.isExtended, rfl,
    h.resembles.fixedWidth, h.resembles.canLookBehind⟩, h.substance⟩

theorem Alike.loop (h : Alike text false a b) (least : Nat) (most : Option Nat)
    (reluctant : Bool) :
    Alike text false (.loop a least most reluctant) (.loop b least most reluctant) := by
  obtain ⟨hruns, hresembles, hsubstance⟩ := h
  obtain ⟨-, hregular, hextended, hloop, hwidth, -⟩ := hresembles
  refine ⟨hruns.loop least most reluctant, ⟨by simp, hregular, ?_, rfl, ?_, ?_⟩, fun _ => rfl⟩
  · simp only [isExtended, hextended, hloop, hsubstance rfl]
  · simp only [fixedWidth?, hwidth]
  · simp only [canLookBehind, fixedWidth?, beyondRegular, hregular, hwidth]

end

/-! ### Sequences -/

/-- What can be put together along a sequence can be put together from its last piece and what
stands before it. -/
theorem map_ofPieces_cons {α : Type} {g : α → α → α} {f : Node → α}
    (hseq : ∀ a b, f (.seq a b) = g (f a) (f b)) (hassoc : ∀ x y z, g (g x y) z = g x (g y z))
    (hleft : ∀ x, g (f .empty) x = x) (hright : ∀ x, g x (f .empty) = x) (piece : Node)
    (pieces : List Node) : f (ofPieces (piece :: pieces)) = g (f (ofPieces pieces)) (f piece) := by
  have hfold (rest : Node) : f (pieces.foldl (fun rest piece => .seq piece rest) rest) =
      g (f (ofPieces pieces)) (f rest) := by
    induction pieces generalizing rest with
    | nil => exact (hleft _).symm
    | cons first pieces ih =>
      show f (pieces.foldl _ (.seq first rest)) =
        g (f (pieces.foldl _ (.seq first .empty))) (f rest)
      rw [ih, ih, hseq, hseq, hright, hassoc]
  show f (pieces.foldl _ (.seq piece .empty)) = _
  rw [hfold, hseq, hright]

theorem run_ofPieces_cons (idleRound : Bool) (piece : Node) (pieces : List Node) (p : Place)
    (k : Continuation) : (ofPieces (piece :: pieces)).run false idleRound p k =
      (ofPieces pieces).run false idleRound p fun q => piece.run false idleRound q k :=
  congrFun (congrFun (map_ofPieces_cons (f := run false idleRound)
    (g := fun body body' p k => body p fun q => body' q k) (fun _ _ => rfl) (fun _ _ _ => rfl)
    (fun _ => rfl) (fun _ => rfl) piece pieces) p) k

theorem beyondRegular_ofPieces_cons (piece : Node) (pieces : List Node) :
    (ofPieces (piece :: pieces)).beyondRegular =
      ((ofPieces pieces).beyondRegular || piece.beyondRegular) :=
  map_ofPieces_cons (fun _ _ => rfl) Bool.or_assoc Bool.false_or Bool.or_false piece pieces

theorem isExtended_ofPieces_cons (piece : Node) (pieces : List Node) :
    (ofPieces (piece :: pieces)).isExtended = ((ofPieces pieces).isExtended && piece.isExtended) :=
  map_ofPieces_cons (fun _ _ => rfl) Bool.and_assoc Bool.true_and Bool.and_true piece pieces

theorem substance_ofPieces_cons (piece : Node) (pieces : List Node) :
    (ofPieces (piece :: pieces)).substance =
      (ofPieces pieces).substance.followedBy piece.substance :=
  map_ofPieces_cons (fun _ _ => rfl) Substance.followedBy_assoc Substance.nothing_followedBy
    Substance.followedBy_nothing piece pieces

theorem fixedWidth_ofPieces_cons (piece : Node) (pieces : List Node) :
    (ofPieces (piece :: pieces)).fixedWidth? =
      (ofPieces pieces).fixedWidth?.bind fun m => piece.fixedWidth?.map (m + ·) := by
  refine map_ofPieces_cons (f := fixedWidth?) (g := fun x y => x.bind fun m => y.map (m + ·))
    (fun a b => ?_) (fun x y z => ?_) (fun x => ?_) (fun x => ?_) piece pieces
  · cases ha : a.fixedWidth? <;> cases hb : b.fixedWidth? <;> simp [fixedWidth?, ha, hb]
  · cases x <;> cases y <;> cases z <;> simp [Nat.add_assoc]
  · cases x <;> simp [fixedWidth?]
  · cases x <;> simp [fixedWidth?]

theorem ofPieces_of_reverse_eq {pieces others : List Node} {front : Node}
    (h : pieces.reverse = front :: others) : ofPieces pieces = .seq front (ofSequence others) := by
  rw [← ofSequence_cons, ofSequence, ← h, List.reverse_reverse]

theorem isLoop_ofPieces (pieces : List Node) : (ofPieces pieces).isLoop = false := by
  cases hreverse : pieces.reverse with
  | nil => rw [List.reverse_eq_nil_iff.mp hreverse]; rfl
  | cons front others => rw [ofPieces_of_reverse_eq hreverse]; rfl

theorem ofPieces_eq_empty_iff {pieces : List Node} : ofPieces pieces = .empty ↔ pieces = [] := by
  refine ⟨fun h => ?_, fun h => h ▸ rfl⟩
  cases hreverse : pieces.reverse with
  | nil => exact List.reverse_eq_nil_iff.mp hreverse
  | cons front others =>
    rw [ofPieces_of_reverse_eq hreverse] at h
    exact absurd h (by simp)

/-- Behind other pieces, only the width counts and whether the pieces are regular. -/
theorem canLookBehind_ofPieces_cons {piece : Node} {pieces : List Node} (h : pieces ≠ []) :
    (ofPieces (piece :: pieces)).canLookBehind =
      ((ofPieces (piece :: pieces)).fixedWidth?.isSome ||
        !(ofPieces (piece :: pieces)).beyondRegular) := by
  cases hreverse : pieces.reverse with
  | nil => exact absurd (List.reverse_eq_nil_iff.mp hreverse) h
  | cons front others =>
    have hothers : ofSequence (others ++ [piece]) ≠ .empty := by
      simp [ofSequence, ofPieces_eq_empty_iff]
    have hall : (piece :: pieces).reverse = front :: (others ++ [piece]) := by
      rw [List.reverse_cons, hreverse, List.cons_append]
    rw [ofPieces_of_reverse_eq hall]
    cases hrest : ofSequence (others ++ [piece]) with
    | empty => exact absurd hrest hothers
    | _ => rfl

section
variable {text : List Char} {first : Bool} {a b : Node} {pieces pieces' : List Node}

theorem RunsAlike.push (h : RunsAlike text first (ofPieces pieces) (ofPieces pieces'))
    (hpiece : RunsAlike text false a b) :
    RunsAlike text first (ofPieces (a :: pieces)) (ofPieces (b :: pieces')) := by
  intro idleRound p k k' hp hfirst hk
  rw [run_ofPieces_cons, run_ofPieces_cons]
  exact h idleRound hp hfirst fun q hq => hpiece idleRound hq (by simp) hk

theorem Resembles.push (h : Resembles (ofPieces pieces) (ofPieces pieces'))
    (hpiece : Resembles a b) : Resembles (ofPieces (a :: pieces)) (ofPieces (b :: pieces')) := by
  have hnil : pieces = [] ↔ pieces' = [] := by
    rw [← ofPieces_eq_empty_iff, ← ofPieces_eq_empty_iff]
    exact h.empty
  have hregular : (ofPieces (a :: pieces)).beyondRegular =
      (ofPieces (b :: pieces')).beyondRegular := by
    rw [beyondRegular_ofPieces_cons, beyondRegular_ofPieces_cons, h.beyondRegular,
      hpiece.beyondRegular]
  have hwidth : (ofPieces (a :: pieces)).fixedWidth? = (ofPieces (b :: pieces')).fixedWidth? := by
    rw [fixedWidth_ofPieces_cons, fixedWidth_ofPieces_cons, h.fixedWidth, hpiece.fixedWidth]
  refine ⟨by simp [ofPieces_eq_empty_iff], hregular, ?_, ?_, hwidth, ?_⟩
  · rw [isExtended_ofPieces_cons, isExtended_ofPieces_cons, h.isExtended, hpiece.isExtended]
  · rw [isLoop_ofPieces, isLoop_ofPieces]
  · by_cases hempty : pieces = []
    · obtain rfl := hempty
      obtain rfl := hnil.mp rfl
      exact hpiece.canLookBehind
    · rw [canLookBehind_ofPieces_cons hempty, canLookBehind_ofPieces_cons (mt hnil.mpr hempty),
        hwidth, hregular]

/-- One more piece. -/
theorem Alike.push (h : Alike text first (ofPieces pieces) (ofPieces pieces'))
    (hpiece : Alike text false a b) :
    Alike text first (ofPieces (a :: pieces)) (ofPieces (b :: pieces')) :=
  ⟨h.runs.push hpiece.runs, h.resembles.push hpiece.resembles, fun hfirst => by
    rw [substance_ofPieces_cons, substance_ofPieces_cons, h.substance hfirst, hpiece.substance rfl]⟩

end

/-! ### Programs -/

/-- From a place of the text, the leftmost match is the same. -/
theorem RunsAlike.search_eq {text : List Char} {a b : Node} (h : RunsAlike text false a b)
    (idleRound : Bool) (n : Nat) {p : Place} (hp : p.Within text text.length) :
    a.search false idleRound n p = b.search false idleRound n p := by
  have hrun {p : Place} (hp : p.Within text text.length) :
      a.run false idleRound p some = b.run false idleRound p some :=
    h idleRound hp (by simp) fun _ _ => rfl
  induction n generalizing p with
  | zero => simp only [search, hrun hp]
  | succ n ih =>
    simp only [search, hrun hp]
    split
    · rfl
    · split
      · rename_i hnext
        exact ih (hp.next hnext).1
      · rfl

end Node

/-- Programs whose trees are alike on a text find the same match in it. -/
theorem Program.locate?_eq_of_alike {text : List Char} {program program' : Program}
    (hblind : program.blind = false) (hblind' : program'.blind = false)
    (h : program.tree.Alike text false program'.tree) :
    program.locate? text = program'.locate? text := by
  rw [locate?_eq_search, locate?_eq_search, hblind, hblind', h.resembles.beyondRegular]
  exact h.runs.search_eq _ _ ⟨rfl, Nat.le_refl _⟩

end PathGlob.Regex
