import PathGlob.Regex.Sweep

/-!
# `PathGlob.Regex.Sweep.Covers`: what sets of places have

A set covers a place if it lists that place, whatever has been captured on the way to it.
All places are places of one text, so the number of characters left decides. Joining sets
covers what either one covers (`covers_join`), and rounds that stop when nothing new turns
up cover whatever rounds lead to (`covers_upTo`).
-/

set_option autoImplicit false

namespace PathGlob.Regex

namespace Place

/-- The place is one of the text, with at most the given number of characters after it. -/
structure Within (text : List Char) (size : Nat) (p : Place) : Prop where
  text_eq : p.before.reverse ++ p.after = text
  left_le : p.left ≤ size

variable {text : List Char} {size : Nat}

/-- In one text, the number of characters after a place determines it. -/
theorem Within.eq_of_left_eq {p q : Place} (hp : p.Within text size) (hq : q.Within text size)
    (h : p.left = q.left) : p.before = q.before ∧ p.after = q.after := by
  have hlen : p.after.length = q.after.length := by rw [← p.left_eq, ← q.left_eq, h]
  have heq := hp.text_eq.trans hq.text_eq.symm
  obtain ⟨hb, ha⟩ := List.append_inj' heq hlen
  exact ⟨List.reverse_inj.mp hb, ha⟩

theorem Within.next {p q : Place} {c : Char} (hp : p.Within text size)
    (h : p.next? = some (c, q)) : q.Within text size ∧ q.left < p.left := by
  obtain ⟨before, after, found, left, left_eq⟩ := p
  cases after with
  | nil => simp [next?] at h
  | cons d after =>
    simp only [next?, Option.some.injEq, Prod.mk.injEq] at h
    obtain ⟨rfl, rfl⟩ := h
    have hle : left ≤ size := hp.left_le
    simp only [List.length_cons] at left_eq
    exact ⟨⟨by simpa using hp.text_eq, by simp only; omega⟩, by simp only; omega⟩

/-- Places that differ only in what has been captured have the same next place, again but
for what has been captured. -/
theorem next?_congr {p q p' : Place} {c : Char} (hb : p.before = q.before)
    (ha : p.after = q.after) (h : p.next? = some (c, p')) :
    ∃ q', q.next? = some (c, q') ∧ q'.left = p'.left := by
  obtain ⟨before, after, found, left, left_eq⟩ := p
  obtain ⟨before', after', found', left', left_eq'⟩ := q
  obtain rfl : before = before' := hb
  obtain rfl : after = after' := ha
  cases after with
  | nil => simp [next?] at h
  | cons d after =>
    simp only [next?, Option.some.injEq, Prod.mk.injEq] at h
    obtain ⟨rfl, rfl⟩ := h
    exact ⟨_, rfl, by simp [left_eq, left_eq']⟩

theorem Within.step {p q : Place} {test : Char → Bool} (hp : p.Within text size)
    (h : p.step? test = some q) : q.Within text size ∧ q.left < p.left := by
  simp only [step?] at h
  split at h
  · rename_i c s heq
    split at h
    · exact Option.some.inj h ▸ hp.next heq
    · exact absurd h (by simp)
  · exact absurd h (by simp)

theorem Within.skip {p q : Place} {blind : Bool} {word : List Char} (hp : p.Within text size)
    (h : p.skip? blind word = some q) : q.Within text size ∧ q.left ≤ p.left := by
  induction word generalizing p with
  | nil => exact Option.some.inj h ▸ ⟨hp, Nat.le_refl _⟩
  | cons w word ih =>
    simp only [skip?] at h
    split at h
    · exact absurd h (by simp)
    · rename_i s heq
      obtain ⟨hs, hlt⟩ := hp.step heq
      obtain ⟨hq, hle⟩ := ih hs h
      exact ⟨hq, by omega⟩

theorem step?_congr {p q p' : Place} {test : Char → Bool} (hb : p.before = q.before)
    (ha : p.after = q.after) (h : p.step? test = some p') :
    ∃ q', q.step? test = some q' ∧ q'.left = p'.left := by
  simp only [step?] at h
  split at h
  · rename_i c s heq
    split at h
    · rename_i htest
      cases h
      obtain ⟨q', hq', hleft⟩ := next?_congr hb ha heq
      exact ⟨q', by simp [step?, hq', htest], hleft⟩
    · exact absurd h (by simp)
  · exact absurd h (by simp)

end Place

namespace Sweep

variable {text : List Char} {size : Nat}

/-- The set has the place, whatever has been captured on the way to it. -/
def Covers (places : List Place) (p : Place) : Prop := ∃ q ∈ places, q.left = p.left

/-- All places of the set are places of the text. -/
def AllWithin (text : List Char) (size : Nat) (places : List Place) : Prop :=
  ∀ p ∈ places, p.Within text size

theorem mem_of_mem_insertInto {p q : Place} {rest : List Place → List Place}
    {places others : List Place} (hrest : ∀ others q, q ∈ rest others → q ∈ places ∨ q ∈ others)
    (h : q ∈ insertInto p rest others) : q ∈ p :: places ∨ q ∈ others := by
  induction others with
  | nil =>
    rcases List.mem_cons.mp h with rfl | h
    · exact .inl List.mem_cons_self
    · exact (hrest _ _ h).imp (List.mem_cons_of_mem _) id
  | cons o others ih =>
    simp only [insertInto] at h
    split at h
    · rcases List.mem_cons.mp h with rfl | h
      · exact .inr List.mem_cons_self
      · exact (ih h).imp id (List.mem_cons_of_mem _)
    · split at h
      all_goals
        rcases List.mem_cons.mp h with rfl | h
        · exact .inl List.mem_cons_self
        · exact (hrest _ _ h).imp (List.mem_cons_of_mem _) fun h => by simp_all

/-- A joined set has only places of the two sets. -/
theorem mem_of_mem_join {places others : List Place} {q : Place} (h : q ∈ join places others) :
    q ∈ places ∨ q ∈ others := by
  induction places generalizing others q with
  | nil => exact .inr h
  | cons p places ih => exact mem_of_mem_insertInto (fun _ _ h => ih h) h

theorem covers_cons_iff {p q : Place} {places : List Place} :
    Covers (p :: places) q ↔ p.left = q.left ∨ Covers places q := by
  simp [Covers]

theorem covers_insertInto {p q : Place} {rest : List Place → List Place}
    {places others : List Place}
    (hrest : ∀ others, Covers places q ∨ Covers others q → Covers (rest others) q)
    (h : Covers (p :: places) q ∨ Covers others q) : Covers (insertInto p rest others) q := by
  rw [covers_cons_iff, or_assoc] at h
  induction others with
  | nil => exact covers_cons_iff.mpr (h.imp id (hrest _))
  | cons o others ih =>
    simp only [insertInto]
    split
    · rw [covers_cons_iff] at h ⊢
      rcases h with h | h | h | h
      · exact .inr (ih (.inl h))
      · exact .inr (ih (.inr (.inl h)))
      · exact .inl h
      · exact .inr (ih (.inr (.inr h)))
    · split
      · rename_i heq
        rw [covers_cons_iff] at h ⊢
        rcases h with h | h | h | h
        · exact .inl h
        · exact .inr (hrest _ (.inl h))
        · exact .inl (heq.symm.trans h)
        · exact .inr (hrest _ (.inr h))
      · exact covers_cons_iff.mpr (h.imp id (hrest _))

/-- A joined set has the places of both sets. -/
theorem covers_join {places others : List Place} {q : Place}
    (h : Covers places q ∨ Covers others q) : Covers (join places others) q := by
  induction places generalizing others with
  | nil =>
    rcases h with ⟨_, h, _⟩ | h
    · exact absurd h List.not_mem_nil
    · exact h
  | cons p places ih => exact covers_insertInto (fun _ h => ih h) h

theorem mem_of_mem_keepUnless {p q : Place} {rest : List Place → List Place}
    {places others : List Place} (hrest : ∀ others q, q ∈ rest others → q ∈ places)
    (h : q ∈ keepUnless p rest others) : q ∈ p :: places := by
  have keep {l : List Place} (h : q ∈ p :: rest l) : q ∈ p :: places := by
    rcases List.mem_cons.mp h with rfl | h
    · exact List.mem_cons_self
    · exact List.mem_cons_of_mem _ (hrest _ _ h)
  induction others with
  | nil => exact keep h
  | cons o others ih =>
    simp only [keepUnless] at h
    split at h
    · exact ih h
    · split at h
      · exact List.mem_cons_of_mem _ (hrest _ _ h)
      · exact keep h

/-- What is left of a set is a part of it. -/
theorem mem_of_mem_minus {places others : List Place} {q : Place} (h : q ∈ minus places others) :
    q ∈ places := by
  induction places generalizing others q with
  | nil => exact absurd h List.not_mem_nil
  | cons p places ih => exact mem_of_mem_keepUnless (fun _ _ h => ih h) h

theorem covers_keepUnless {p q : Place} {rest : List Place → List Place}
    {places others : List Place}
    (hrest : ∀ others, Covers places q → Covers others q ∨ Covers (rest others) q)
    (h : Covers (p :: places) q) : Covers others q ∨ Covers (keepUnless p rest others) q := by
  have keep (others : List Place) : Covers others q ∨ Covers (p :: rest others) q := by
    rw [covers_cons_iff] at h ⊢
    exact h.elim (fun h => .inr (.inl h)) fun h => (hrest others h).imp id .inr
  induction others with
  | nil => exact keep []
  | cons o others ih =>
    simp only [keepUnless]
    split
    · exact ih.imp (fun h => covers_cons_iff.mpr (.inr h)) id
    · split
      · rename_i heq
        rw [covers_cons_iff] at h ⊢
        rcases h with h | h
        · exact .inl (.inl (heq.trans h))
        · exact (hrest others h).imp .inr id
      · exact keep _

/-- A place of a set is one of the others or is left over. -/
theorem covers_minus {places others : List Place} {q : Place} (h : Covers places q) :
    Covers others q ∨ Covers (minus places others) q := by
  induction places generalizing others with
  | nil =>
    obtain ⟨_, h, _⟩ := h
    exact absurd h List.not_mem_nil
  | cons p places ih => exact covers_keepUnless (fun _ h => ih h) h

/-! ### Rounds -/

/-- The second place is one of the text, and every set that has the first place leads to a
set that has the second. -/
def Leads (text : List Char) (size : Nat) (round : List Place → List Place) (p q : Place) :
    Prop :=
  q.Within text size ∧ ∀ places, AllWithin text size places → Covers places p →
    Covers (round places) q

/-- The second place is the given number of rounds from the first. -/
def Chain (step : Place → Place → Prop) : Nat → Place → Place → Prop
  | 0, p, q => p = q
  | n + 1, p, q => ∃ s, step p s ∧ Chain step n s q

variable {round : List Place → List Place}

theorem Chain.within {p q : Place} (n : Nat) (hp : p.Within text size)
    (h : Chain (Leads text size round) n p q) : q.Within text size := by
  induction n generalizing p with
  | zero => exact h ▸ hp
  | succ n ih =>
    obtain ⟨s, hs, h⟩ := h
    exact ih hs.1 h

/-- Rounds keep to the text. -/
def Keeps (text : List Char) (size : Nat) (round : List Place → List Place) : Prop :=
  ∀ places, AllWithin text size places → AllWithin text size (round places)

theorem allWithin_times (hround : Keeps text size round) (n : Nat) {places : List Place}
    (h : AllWithin text size places) : AllWithin text size (times round n places) := by
  induction n generalizing places with
  | zero => exact h
  | succ n ih => exact ih (hround _ h)

theorem allWithin_join {places others : List Place} (h : AllWithin text size places)
    (h' : AllWithin text size others) : AllWithin text size (join places others) :=
  fun q hq => (mem_of_mem_join hq).elim (h q) (h' q)

theorem allWithin_upTo (hround : Keeps text size round) (n : Nat) {latest seen : List Place}
    (hlatest : AllWithin text size latest) (hseen : AllWithin text size seen) :
    AllWithin text size (upTo round n latest seen) := by
  induction n generalizing latest seen with
  | zero => exact hseen
  | succ n ih =>
    simp only [upTo]
    split
    · exact hseen
    · rename_i p places heq
      have hnew : AllWithin text size (p :: places) := fun q hq =>
        hround _ hlatest q (mem_of_mem_minus (heq ▸ hq))
      exact ih hnew (allWithin_join hnew hseen)

theorem covers_times (hround : Keeps text size round) (n : Nat) {p q : Place}
    {places : List Place} (hplaces : AllWithin text size places) (hp : Covers places p)
    (h : Chain (Leads text size round) n p q) : Covers (times round n places) q := by
  induction n generalizing p places with
  | zero => exact h ▸ hp
  | succ n ih =>
    obtain ⟨s, hs, h⟩ := h
    exact ih (hround _ hplaces) (hs.2 _ hplaces hp) h

/-- A set from which no round leads out has all places that its places lead to. -/
theorem covers_of_closed {seen : List Place}
    (hclosed : ∀ s t, Covers seen s → Leads text size round s t → Covers seen t) (n : Nat)
    {p q : Place} (hp : Covers seen p) (h : Chain (Leads text size round) n p q) :
    Covers seen q := by
  induction n generalizing p with
  | zero => exact h ▸ hp
  | succ n ih =>
    obtain ⟨s, hs, h⟩ := h
    exact ih (hclosed _ _ hp hs) h

/-- Rounds that go on from the latest places reach whatever the seen places lead to,
provided that the rounds from all other seen places have been seen. -/
theorem covers_upTo (hround : Keeps text size round) (n : Nat) {latest seen : List Place}
    (hlatest : AllWithin text size latest)
    (hdone : ∀ s t, Covers seen s → Leads text size round s t → Covers latest s ∨ Covers seen t)
    {m : Nat} (hm : m ≤ n) {p q : Place} (hp : Covers seen p)
    (h : Chain (Leads text size round) m p q) : Covers (upTo round n latest seen) q := by
  induction n generalizing latest seen m p with
  | zero =>
    obtain rfl : m = 0 := by omega
    exact h ▸ hp
  | succ n ih =>
    have hstep (s t : Place) (hs : Covers seen s) (ht : Leads text size round s t) :
        Covers seen t ∨ Covers (minus (round latest) seen) t :=
      (hdone s t hs ht).elim (fun hs => covers_minus (ht.2 _ hlatest hs)) .inl
    simp only [upTo]
    split
    · rename_i heq
      refine covers_of_closed (fun s t hs ht => (hstep s t hs ht).elim id fun ht => ?_) m hp h
      obtain ⟨_, ht, _⟩ := heq ▸ ht
      exact absurd ht List.not_mem_nil
    · rename_i o places heq
      have hnew : AllWithin text size (o :: places) := fun q hq =>
        hround _ hlatest q (mem_of_mem_minus (heq ▸ hq))
      have hdone' (s t : Place) (hs : Covers (join (o :: places) seen) s)
          (ht : Leads text size round s t) :
          Covers (o :: places) s ∨ Covers (join (o :: places) seen) t := by
        by_cases hnew : Covers (o :: places) s
        · exact .inl hnew
        · refine .inr (covers_join ?_)
          have hs : Covers seen s := by
            obtain ⟨x, hx, hl⟩ := hs
            rcases mem_of_mem_join hx with hx | hx
            · exact absurd ⟨x, hx, hl⟩ hnew
            · exact ⟨x, hx, hl⟩
          exact (hstep s t hs ht).symm.imp (fun h => heq ▸ h) id
      cases m with
      | zero =>
        obtain rfl : p = q := h
        exact ih (m := 0) hnew hdone' (Nat.zero_le _) (covers_join (.inr hp)) rfl
      | succ m =>
        obtain ⟨s, hs, h⟩ := h
        refine ih hnew hdone' (by omega) (covers_join ?_) h
        exact (hstep p s hp hs).symm.imp (fun h => heq ▸ h) id

/-! ### Later places -/

theorem mem_onwards_of_mem {p q : Place} (n : Nat) {earlier : List Place} (h : q ∈ p :: earlier) :
    q ∈ p.onwards n earlier := by
  induction n generalizing p earlier with
  | zero => exact h
  | succ n ih =>
    simp only [Place.onwards]
    split
    · exact ih (List.mem_cons_of_mem _ h)
    · exact h

/-- Every number of characters up to that after the place is left at some later place. -/
theorem covers_onwards {p q : Place} (n : Nat) (hn : p.left ≤ n) (hq : q.left ≤ p.left)
    (earlier : List Place) : Covers (p.onwards n earlier) q := by
  induction n generalizing p earlier with
  | zero => exact ⟨p, List.mem_cons_self, by omega⟩
  | succ n ih =>
    by_cases heq : p.left = q.left
    · exact ⟨p, mem_onwards_of_mem _ List.mem_cons_self, heq⟩
    · obtain ⟨before, after, found, left, left_eq⟩ := p
      simp only at hn hq heq
      cases after with
      | nil => simp only [List.length_nil] at left_eq; omega
      | cons c after =>
        simp only [Place.onwards, Place.next?]
        exact ih (by simp only; omega) (by simp only; omega) _

theorem allWithin_onwards {p : Place} (n : Nat) (hp : p.Within text size) {earlier : List Place}
    (h : AllWithin text size earlier) : AllWithin text size (p.onwards n earlier) := by
  have hall : AllWithin text size (p :: earlier) := fun q hq =>
    (List.mem_cons.mp hq).elim (fun h => h ▸ hp) (h q)
  induction n generalizing p earlier with
  | zero => exact hall
  | succ n ih =>
    simp only [Place.onwards]
    split
    · rename_i c q heq
      have hq := (hp.next heq).1
      exact ih hq hall fun s hs => (List.mem_cons.mp hs).elim (fun h => h ▸ hq) (hall s)
    · exact hall

end Sweep

end PathGlob.Regex
