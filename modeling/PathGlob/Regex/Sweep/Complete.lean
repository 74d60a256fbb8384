import PathGlob.Regex.Program
import PathGlob.Regex.Sweep.Covers

/-!
# `PathGlob.Regex.Sweep.Complete`: a sweep misses nothing

Wherever a search can hand a place to its continuation, the sweep of the same tree has
that place (`Node.leads_of_run`). So asking a sweep first never changes a result: the two
conditions on the text ahead are what they would be without it (`Node.run_ahead`,
`Node.run_not_ahead`), and so is the leftmost match (`Program.locate?_eq_search`).
-/

set_option autoImplicit false

namespace PathGlob.Regex

open Sweep

/-! ### Loops -/

namespace Run

variable {text : List Char} {size : Nat} {round : List Place → List Place}
  {body : Place → Continuation → Option Place}

/-- Whatever the body hands to its continuation, the sweep of the body leads to. -/
def Follows (text : List Char) (size : Nat) (round : List Place → List Place)
    (body : Place → Continuation → Option Place) : Prop :=
  ∀ ⦃p : Place⦄ ⦃k : Continuation⦄ ⦃r : Place⦄, p.Within text size → body p k = some r →
    ∃ q, k q = some r ∧ Leads text size round p q

/-- What the first of two attempts yields, or else the second, one of them yields. -/
theorem eq_some_or_eq_some {x y : Option Place} {r : Place}
    (h : (match x with
      | some r => some r
      | none => y) = some r) : x = some r ∨ y = some r := by
  cases x with
  | none => exact .inr h
  | some _ => exact .inl h

theorem chain_of_times (hbody : Follows text size round body) (n : Nat) {p r : Place}
    {k : Continuation} (hp : p.Within text size) (h : times body n p k = some r) :
    ∃ q, k q = some r ∧ Chain (Leads text size round) n p q := by
  induction n generalizing p with
  | zero => exact ⟨p, h, rfl⟩
  | succ n ih =>
    obtain ⟨s, hs, hlead⟩ := hbody hp h
    obtain ⟨q, hq, hchain⟩ := ih hlead.1 hs
    exact ⟨q, hq, s, hlead, hchain⟩

theorem chain_of_upTo (hbody : Follows text size round body) (reluctant : Bool) (n : Nat)
    {p r : Place} {k : Continuation} (hp : p.Within text size)
    (h : upTo body reluctant n p k = some r) :
    ∃ q, k q = some r ∧ ∃ m, m ≤ n ∧ Chain (Leads text size round) m p q := by
  induction n generalizing p with
  | zero => exact ⟨p, h, 0, Nat.le_refl 0, rfl⟩
  | succ n ih =>
    have here (h : k p = some r) :
        ∃ q, k q = some r ∧ ∃ m, m ≤ n + 1 ∧ Chain (Leads text size round) m p q :=
      ⟨p, h, 0, Nat.zero_le _, rfl⟩
    have again (h : body p (fun q => upTo body reluctant n q k) = some r) :
        ∃ q, k q = some r ∧ ∃ m, m ≤ n + 1 ∧ Chain (Leads text size round) m p q := by
      obtain ⟨s, hs, hlead⟩ := hbody hp h
      obtain ⟨q, hq, m, hm, hchain⟩ := ih hlead.1 hs
      exact ⟨q, hq, m + 1, by omega, s, hlead, hchain⟩
    simp only [upTo] at h
    split at h
    · exact (eq_some_or_eq_some h).elim here again
    · exact (eq_some_or_eq_some h).elim again here

theorem chain_of_star (hbody : Follows text size round body) (reluctant : Bool) (n : Nat)
    (idleRound : Bool) {p r : Place} {k : Continuation} (hp : p.Within text size)
    (h : star body reluctant n idleRound p k = some r) :
    ∃ q, k q = some r ∧ ∃ m, m ≤ n ∧ Chain (Leads text size round) m p q := by
  induction n generalizing p idleRound with
  | zero => exact ⟨p, h, 0, Nat.le_refl 0, rfl⟩
  | succ n ih =>
    have here (h : k p = some r) :
        ∃ q, k q = some r ∧ ∃ m, m ≤ n + 1 ∧ Chain (Leads text size round) m p q :=
      ⟨p, h, 0, Nat.zero_le _, rfl⟩
    have again (h : body p (fun q =>
          if q.left = p.left then (if idleRound then k q else none)
          else star body reluctant n false q k) = some r) :
        ∃ q, k q = some r ∧ ∃ m, m ≤ n + 1 ∧ Chain (Leads text size round) m p q := by
      obtain ⟨s, hs, hlead⟩ := hbody hp h
      split at hs
      · -- An idle round ends the loop, if it is allowed.
        split at hs
        · exact ⟨s, hs, 1, by omega, s, hlead, rfl⟩
        · exact absurd hs (by simp)
      · obtain ⟨q, hq, m, hm, hchain⟩ := ih false hlead.1 hs
        exact ⟨q, hq, m + 1, by omega, s, hlead, hchain⟩
    simp only [star] at h
    split at h
    · exact (eq_some_or_eq_some h).elim here again
    · exact (eq_some_or_eq_some h).elim again here

/-- Looking back only tries places of the text. -/
theorem exists_of_back {attempt : Place → Option Place} {before : List Char} {p r : Place}
    (hp : p.before.reverse ++ p.after = text) (hbefore : p.before = before)
    (h : back attempt before p = some r) :
    ∃ s, s.Within text text.length ∧ attempt s = some r := by
  have hwithin : p.Within text text.length := ⟨hp, by rw [p.left_eq, ← hp]; simp⟩
  induction before generalizing p with
  | nil => exact ⟨p, hwithin, h⟩
  | cons c before ih =>
    rcases eq_some_or_eq_some h with h | h
    · exact ⟨p, hwithin, h⟩
    · have hp' : before.reverse ++ c :: p.after = text := by
        rw [hbefore] at hp
        simpa using hp
      exact ih hp' rfl h ⟨hp', by rw [← hp']; simp [p.left_eq]⟩

end Run

/-! ### Searching and sweeping -/

namespace Node

variable {text : List Char} {size : Nat}

theorem allWithin_filterMap_step {test : Char → Bool} {places : List Place}
    (h : AllWithin text size places) :
    AllWithin text size (places.filterMap (Place.step? test)) := by
  intro q hq
  obtain ⟨p, hp, hstep⟩ := List.mem_filterMap.mp hq
  exact ((h p hp).step hstep).1

theorem allWithin_filter {test : Place → Bool} {places : List Place}
    (h : AllWithin text size places) : AllWithin text size (places.filter test) :=
  fun q hq => h q (List.mem_filter.mp hq).1

/-- A sweep keeps to the text. -/
theorem keeps_sweep (blind : Bool) (a : Node) : Keeps text size (a.sweep blind size) := by
  induction a with
  | empty => exact fun _ h => h
  | look => exact fun _ h => h
  | char c => exact fun _ h => allWithin_filterMap_step h
  | dot => exact fun _ h => allWithin_filterMap_step h
  | set members => exact fun _ h => allWithin_filterMap_step h
  | start => exact fun _ h => allWithin_filter h
  | finish => exact fun _ h => allWithin_filter h
  | edge negated => exact fun _ h => allWithin_filter h
  | seq a b iha ihb => exact fun _ h => ihb _ (iha _ h)
  | alt a b iha ihb => exact fun _ h => allWithin_join (iha _ h) (ihb _ h)
  | group a ih => exact ih
  | capture index a ih => exact ih
  | ref index =>
    intro places h
    simp only [sweep]
    induction places with
    | nil => exact fun _ h => absurd h List.not_mem_nil
    | cons p places ih =>
      exact allWithin_join
        (allWithin_onwards _ (h p List.mem_cons_self) fun _ h => absurd h List.not_mem_nil)
        (ih fun q hq => h q (List.mem_cons_of_mem _ hq))
  | loop a least most reluctant ih =>
    intro places h
    have := allWithin_times ih least h
    exact allWithin_upTo ih _ this this

theorem leads_filterMap_step {test : Char → Bool} {p q : Place} (hp : p.Within text size)
    (h : p.step? test = some q) :
    Leads text size (fun places => places.filterMap (Place.step? test)) p q := by
  refine ⟨(hp.step h).1, fun places hplaces ⟨s, hs, hleft⟩ => ?_⟩
  obtain ⟨hb, ha⟩ := hp.eq_of_left_eq (hplaces s hs) hleft.symm
  obtain ⟨q', hq', hleft'⟩ := Place.step?_congr hb ha h
  exact ⟨q', List.mem_filterMap.mpr ⟨s, hs, hq'⟩, hleft'⟩

theorem leads_filter {test : Place → Bool} {p : Place} (hp : p.Within text size)
    (h : ∀ s : Place, p.before = s.before → p.after = s.after → test s) :
    Leads text size (fun places => places.filter test) p p := by
  refine ⟨hp, fun places hplaces ⟨s, hs, hleft⟩ => ?_⟩
  obtain ⟨hb, ha⟩ := hp.eq_of_left_eq (hplaces s hs) hleft.symm
  exact ⟨s, List.mem_filter.mpr ⟨hs, h s hb ha⟩, hleft⟩

/-- What has been captured does not count. -/
theorem leads_withFound {round : List Place → List Place} {p q : Place}
    (h : Leads text size round p q) (found : List (Nat × List Char)) :
    Leads text size round p { q with found } :=
  ⟨⟨h.1.text_eq, h.1.left_le⟩, h.2⟩

theorem leads_stay {p : Place} (hp : p.Within text size) : Leads text size id p p :=
  ⟨hp, fun _ _ h => h⟩

/-- One character ahead, the search goes where the sweep goes. -/
theorem follows_one (test : Char → Bool) :
    Run.Follows text size (fun places => places.filterMap (Place.step? test)) (Run.one test) := by
  intro p k r hp h
  obtain ⟨q, hstep, hq⟩ := Option.bind_eq_some_iff.mp h
  exact ⟨q, hq, leads_filterMap_step hp hstep⟩

/-- A condition on the text around a place keeps the place for both. -/
theorem follows_filter {test : Place → Bool}
    (htest : ∀ p s : Place, p.before = s.before → p.after = s.after → test s = test p) :
    Run.Follows text size (fun places => places.filter test)
      (fun p k => if test p then k p else none) := by
  intro p k r hp h
  dsimp only at h
  split at h
  · rename_i hholds
    exact ⟨p, h, leads_filter hp fun s hb ha => (htest p s hb ha).trans hholds⟩
  · exact absurd h (by simp)

section
variable {blind idleRound : Bool} {a : Node}

/-- A condition on the text ahead or behind hands on the place it holds at. -/
theorem follows_look (ih : ∀ size, Run.Follows text size (a.sweep blind size)
    (a.run blind idleRound)) (behind negated : Bool) :
    Run.Follows text size ((look behind negated a).sweep blind size)
      ((look behind negated a).run blind idleRound) := by
  intro p k r hp h
  cases behind with
  | false =>
    cases negated with
    | false =>
      simp only [run] at h
      split at h
      · obtain ⟨q, hq, _⟩ := ih _ hp h
        exact ⟨_, hq, leads_withFound (leads_stay hp) _⟩
      · exact absurd h (by simp)
    | true =>
      simp only [run] at h
      split at h
      · exact absurd h (by simp)
      · exact ⟨p, h, leads_stay hp⟩
  | true =>
    cases negated with
    | false =>
      obtain ⟨s, hs, h⟩ := Run.exists_of_back hp.text_eq rfl h
      -- The place looked back from may lie further from the end than the sweep allows for.
      obtain ⟨q, hq, _⟩ := ih _ hs h
      split at hq
      · exact ⟨_, hq, leads_withFound (leads_stay hp) _⟩
      · exact absurd hq (by simp)
    | true =>
      simp only [run] at h
      split at h
      · exact absurd h (by simp)
      · exact ⟨p, h, leads_stay hp⟩

/-- A back-reference skips what its group holds, and the sweep keeps all places ahead. -/
theorem follows_ref (index : Nat) :
    Run.Follows text size ((ref index).sweep blind size) ((ref index).run blind idleRound) := by
  intro p k r hp h
  simp only [run] at h
  split at h
  · exact absurd h (by simp)
  · split at h
    · exact absurd h (by simp)
    · rename_i q hskip
      obtain ⟨hq, hle⟩ := hp.skip hskip
      refine ⟨q, h, hq, fun places hplaces hcov => ?_⟩
      simp only [sweep]
      induction places with
      | nil =>
        obtain ⟨_, hs, _⟩ := hcov
        exact absurd hs List.not_mem_nil
      | cons o places ih =>
        refine covers_join ?_
        obtain ⟨s, hs, hleft⟩ := hcov
        rcases List.mem_cons.mp hs with rfl | hs
        · have := (hplaces s List.mem_cons_self).left_le
          exact .inl (covers_onwards _ this (by omega) _)
        · exact .inr (ih (fun x hx => hplaces x (List.mem_cons_of_mem _ hx)) ⟨s, hs, hleft⟩)

/-- The rounds of a loop are the rounds of its sweep. -/
theorem follows_loop (ih : Run.Follows text size (a.sweep blind size) (a.run blind idleRound))
    (least : Nat) (most : Option Nat) (reluctant : Bool) :
    Run.Follows text size ((loop a least most reluctant).sweep blind size)
      ((loop a least most reluctant).run blind idleRound) := by
  intro p k r hp h
  obtain ⟨s, hs, hchain⟩ := Run.chain_of_times ih least hp h
  have hwithin := Chain.within least hp hchain
  have finish (n : Nat) {q : Place} {m : Nat} (hm : m ≤ n)
      (hchain' : Chain (Leads text size (a.sweep blind size)) m s q) (places : List Place)
      (hplaces : AllWithin text size places) (hcov : Covers places p) :
      Covers (Sweep.upTo (a.sweep blind size) n
        (Sweep.times (a.sweep blind size) least places)
        (Sweep.times (a.sweep blind size) least places)) q :=
    covers_upTo (keeps_sweep blind a) n (allWithin_times (keeps_sweep blind a) least hplaces)
      (fun _ _ hs _ => .inl hs) hm (covers_times (keeps_sweep blind a) least hplaces hcov hchain)
      hchain'
  cases most with
  | some most =>
    obtain ⟨q, hq, m, hm, hchain'⟩ := Run.chain_of_upTo ih reluctant _ hwithin hs
    exact ⟨q, hq, Chain.within m hwithin hchain', fun places hplaces hcov =>
      finish _ hm hchain' places hplaces hcov⟩
  | none =>
    obtain ⟨q, hq, m, hm, hchain'⟩ := Run.chain_of_star ih reluctant _ _ hwithin hs
    have hle := hwithin.left_le
    exact ⟨q, hq, Chain.within m hwithin hchain', fun places hplaces hcov =>
      finish (size + 1) (by omega) hchain' places hplaces hcov⟩

end

/-- Whatever matching hands to its continuation, the sweep of the tree has. -/
theorem leads_of_run (blind idleRound : Bool) (a : Node) :
    Run.Follows text size (a.sweep blind size) (a.run blind idleRound) := by
  induction a generalizing size with
  | empty => exact fun p k r hp h => ⟨p, h, leads_stay hp⟩
  | char c => exact follows_one (sameChar blind c)
  | dot => exact follows_one (· ≠ '\n')
  | set members => exact follows_one (members.has blind)
  | start => exact follows_filter fun p s hb _ => by rw [hb]
  | finish => exact follows_filter fun p s _ ha => by rw [ha]
  | edge negated => exact follows_filter fun p s hb ha => by simp only [Place.isEdge, hb, ha]
  | seq a b iha ihb =>
    intro p k r hp h
    obtain ⟨s, hs, hlead⟩ := iha hp h
    obtain ⟨q, hq, hlead'⟩ := ihb hlead.1 hs
    exact ⟨q, hq, hlead'.1, fun places hplaces hcov =>
      hlead'.2 _ (keeps_sweep blind a _ hplaces) (hlead.2 _ hplaces hcov)⟩
  | alt a b iha ihb =>
    intro p k r hp h
    rcases Run.eq_some_or_eq_some h with h | h
    · obtain ⟨q, hq, hlead⟩ := iha hp h
      exact ⟨q, hq, hlead.1, fun places hplaces hcov =>
        covers_join (.inl (hlead.2 _ hplaces hcov))⟩
    · obtain ⟨q, hq, hlead⟩ := ihb hp h
      exact ⟨q, hq, hlead.1, fun places hplaces hcov =>
        covers_join (.inr (hlead.2 _ hplaces hcov))⟩
  | group a ih => exact ih
  | capture index a ih =>
    intro p k r hp h
    obtain ⟨q, hq, hlead⟩ := ih hp h
    exact ⟨_, hq, leads_withFound hlead _⟩
  | look behind negated a ih => exact follows_look (fun _ => ih) behind negated
  | ref index => exact follows_ref index
  | loop a least most reluctant ih => exact follows_loop ih least most reluctant

theorem mayMatch_of_run {blind idleRound : Bool} {a : Node} {p r : Place} {k : Continuation}
    (h : a.run blind idleRound p k = some r) : a.mayMatch blind p := by
  have hp : p.Within (p.before.reverse ++ p.after) p.left := ⟨rfl, Nat.le_refl _⟩
  obtain ⟨q, _, _, hcov⟩ := leads_of_run blind idleRound a hp h
  obtain ⟨s, hs, _⟩ := hcov [p]
    (fun s hs => by rw [List.mem_singleton.mp hs]; exact hp) ⟨p, List.mem_singleton_self p, rfl⟩
  simpa [mayMatch] using List.ne_nil_of_mem hs

/-- A condition on the text ahead, without a sweep. -/
theorem run_ahead (blind idleRound : Bool) (a : Node) (p : Place) (k : Continuation) :
    run blind idleRound (.look false false a) p k =
      a.run blind idleRound p fun q => k { p with found := q.found } := by
  simp only [run]
  split
  · rfl
  · rename_i hnot
    refine (Option.eq_none_iff_forall_ne_some.mpr fun r h => ?_).symm
    exact hnot (mayMatch_of_run h)

/-- The absence of a condition on the text ahead, without a sweep. -/
theorem run_not_ahead (blind idleRound : Bool) (a : Node) (p : Place) (k : Continuation) :
    run blind idleRound (.look false true a) p k =
      if (a.run blind idleRound p some).isSome then none else k p := by
  simp only [run]
  cases h : a.run blind idleRound p some with
  | none => simp
  | some r => simp [mayMatch_of_run h]

/-- A search finds a place of the text and a match from it. -/
theorem run_of_search {blind idleRound : Bool} {a : Node} (n : Nat) {p : Place}
    (hp : p.Within text size) {r : Place × Place}
    (h : a.search blind idleRound n p = some r) :
    r.1.Within text size ∧ a.run blind idleRound r.1 some = some r.2 := by
  induction n generalizing p with
  | zero =>
    obtain ⟨q, hq, rfl⟩ := Option.map_eq_some_iff.mp h
    exact ⟨hp, hq⟩
  | succ n ih =>
    simp only [search] at h
    split at h
    · rename_i q heq
      cases h
      exact ⟨hp, heq⟩
    · split at h
      · rename_i c s heq
        exact ih (hp.next heq).1 h
      · exact absurd h (by simp)

theorem mayMatchOnwards_of_search {blind idleRound : Bool} {a : Node} {p : Place} {n : Nat}
    {r : Place × Place} (h : a.search blind idleRound n p = some r) :
    a.mayMatchOnwards blind p := by
  have hp : p.Within (p.before.reverse ++ p.after) p.left := ⟨rfl, Nat.le_refl _⟩
  obtain ⟨hs, hrun⟩ := run_of_search n hp h
  obtain ⟨o, _, _, hcov⟩ := leads_of_run blind idleRound a hs hrun
  obtain ⟨x, hx, _⟩ := hcov (p.onwards p.left [])
    (allWithin_onwards _ hp fun _ h => absurd h List.not_mem_nil)
    (covers_onwards _ (Nat.le_refl _) hs.left_le _)
  simpa [mayMatchOnwards] using List.ne_nil_of_mem hx

end Node

/-- The leftmost match is found by searching; the sweep before it only saves time. -/
theorem Program.locate?_eq_search (program : Program) (text : List Char) :
    program.locate? text =
      program.tree.search program.blind (!program.tree.beyondRegular) text.length
        (.ofText text) := by
  simp only [locate?]
  split
  · rfl
  · rename_i hnot
    refine (Option.eq_none_iff_forall_ne_some.mpr fun r h => ?_).symm
    exact hnot (Node.mayMatchOnwards_of_search h)

end PathGlob.Regex
