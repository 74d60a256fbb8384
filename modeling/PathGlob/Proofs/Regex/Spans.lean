import PathGlob.Regex.Sweep.Complete

/-!
# `PathGlob.Proofs.Regex.Spans`: what a tree matches, without a search

`Node.run` tries the ways a tree can match in an order of preference. Whether a text
matches does not depend on that order, nor on what groups have captured, as long as
nothing refers back to a group. `Node.Spans` is the relation that remains: matching the
tree from one cursor can end at another one.

`Node.run_realizes` is the main statement: for a tree without back-references the search
succeeds exactly if some cursor that the tree spans satisfies the continuation. The loops
carry the proof. A round that consumes nothing leads nowhere new, so the rounds that the
search refuses (`Run.star`) can be left out, and the bound on the number of rounds is
never reached.

`Program.isMatch_iff_of_anchored` reads the verdict of a program off the relation when the
tree is anchored at both ends.
-/

set_option autoImplicit false

namespace PathGlob.Regex

/-- A place in a text, without what has been captured on the way to it. -/
structure Cursor where
  /-- The characters before the cursor, nearest first. -/
  before : List Char
  /-- The characters after the cursor. -/
  after : List Char
  deriving DecidableEq, Repr

/-- The cursor at a place. -/
def Place.cursor (p : Place) : Cursor := ⟨p.before, p.after⟩

namespace Cursor

/-- The second cursor is the first one after reading the text. -/
def Passes (c : Cursor) (text : List Char) (d : Cursor) : Prop :=
  c.after = text ++ d.after ∧ d.before = text.reverse ++ c.before

/-- The second cursor is the first one after one character that passes the test. -/
def Steps (test : Char → Bool) (c d : Cursor) : Prop :=
  ∃ x, test x = true ∧ c.Passes [x] d

/-- A word character stands on exactly one side of the cursor. -/
def isEdge (c : Cursor) : Bool :=
  (c.before.head?.any Unicode.isWord) != (c.after.head?.any Unicode.isWord)

/-- The second cursor is the given number of rounds from the first. -/
def Rounds (round : Cursor → Cursor → Prop) : Nat → Cursor → Cursor → Prop
  | 0, c, d => d = c
  | n + 1, c, d => ∃ e, round c e ∧ Rounds round n e d

theorem passes_nil_iff {c d : Cursor} : c.Passes [] d ↔ d = c := by
  cases c
  cases d
  simp only [Passes, List.nil_append, List.reverse_nil, mk.injEq]
  exact ⟨fun ⟨ha, hb⟩ => ⟨hb, ha.symm⟩, fun ⟨hb, ha⟩ => ⟨ha.symm, hb⟩⟩

theorem Passes.refl (c : Cursor) : c.Passes [] c := passes_nil_iff.mpr rfl

theorem Passes.trans {c d e : Cursor} {v w : List Char} (h : c.Passes v d) (h' : d.Passes w e) :
    c.Passes (v ++ w) e :=
  ⟨by rw [h.1, h'.1, List.append_assoc], by rw [h'.2, h.2, List.reverse_append, List.append_assoc]⟩

theorem passes_append_iff {c d : Cursor} (v w : List Char) :
    c.Passes (v ++ w) d ↔ ∃ e, c.Passes v e ∧ e.Passes w d := by
  refine ⟨fun h => ⟨⟨v.reverse ++ c.before, w ++ d.after⟩, ⟨?_, rfl⟩, rfl, ?_⟩,
    fun ⟨_, hv, hw⟩ => hv.trans hw⟩
  · rw [h.1, List.append_assoc]
  · rw [h.2, List.reverse_append, List.append_assoc]

/-- A cursor that is as far from the end as the one it was reached from is that cursor. -/
theorem Passes.eq_of_length_eq {c d : Cursor} {text : List Char} (h : c.Passes text d)
    (hlen : d.after.length = c.after.length) : d = c := by
  have hnil : text = [] := by
    have hsum := congrArg List.length h.1
    rw [List.length_append] at hsum
    exact List.length_eq_zero_iff.mp (by omega)
  exact passes_nil_iff.mp (hnil ▸ h)

/-- The cursor after a text that comes next. -/
theorem passes_of_after {c : Cursor} (text : List Char) {rest : List Char}
    (h : c.after = text ++ rest) : c.Passes text ⟨text.reverse ++ c.before, rest⟩ := ⟨h, rfl⟩

theorem exists_passes_iff {c : Cursor} {text : List Char} {P : List Char → Prop} :
    (∃ d, c.Passes text d ∧ P d.after) ↔ ∃ rest, c.after = text ++ rest ∧ P rest :=
  ⟨fun ⟨d, h, hP⟩ => ⟨d.after, h.1, hP⟩, fun ⟨_, h, hP⟩ => ⟨_, passes_of_after _ h, hP⟩⟩

theorem passes_iff_of_after {before after : List Char} {text : List Char} {d : Cursor} :
    Passes ⟨before, after⟩ text d ↔
      ∃ rest, after = text ++ rest ∧ d = ⟨text.reverse ++ before, rest⟩ := by
  constructor
  · rintro ⟨ha, hb⟩
    exact ⟨d.after, ha, by cases d; exact congrArg (mk · _) hb⟩
  · rintro ⟨rest, ha, rfl⟩
    exact ⟨ha, rfl⟩

theorem steps_iff {test : Char → Bool} {before after : List Char} {d : Cursor} :
    Steps test ⟨before, after⟩ d ↔
      ∃ x rest, after = x :: rest ∧ test x = true ∧ d = ⟨x :: before, rest⟩ := by
  simp only [Steps, passes_iff_of_after]
  constructor
  · rintro ⟨x, hx, rest, ha, hd⟩
    exact ⟨x, rest, ha, hx, hd⟩
  · rintro ⟨x, rest, ha, hx, hd⟩
    exact ⟨x, hx, rest, ha, hd⟩

/-- Stepping at a place is stepping at its cursor. -/
theorem step?_isSome_bind_iff {test : Char → Bool} {p : Place} {k : Continuation}
    {K : Cursor → Prop}
    (hk : ∀ q : Place, p.cursor.Steps test q.cursor → ((k q).isSome = true ↔ K q.cursor)) :
    ((p.step? test).bind k).isSome = true ↔ ∃ d, p.cursor.Steps test d ∧ K d := by
  obtain ⟨before, after, found, left, left_eq⟩ := p
  cases after with
  | nil => simp [Place.step?, Place.next?, Place.cursor, steps_iff]
  | cons x after =>
    by_cases hx : test x = true
    · have hstep : Steps test ⟨before, x :: after⟩ ⟨x :: before, after⟩ :=
        steps_iff.mpr ⟨x, after, rfl, hx, rfl⟩
      have := hk ⟨x :: before, after, found, left - 1, by simp [left_eq]⟩ hstep
      simp only [Place.step?, Place.next?, if_pos hx, Option.bind_some]
      rw [this]
      constructor
      · exact fun h => ⟨_, hstep, h⟩
      · rintro ⟨d, hd, hK⟩
        obtain ⟨y, rest, heq, _, rfl⟩ := steps_iff.mp hd
        cases heq
        exact hK
    · simp only [Place.step?, Place.next?, if_neg hx, Option.bind_none, Option.isSome_none,
        Bool.false_eq_true, false_iff]
      rintro ⟨d, hd, _⟩
      obtain ⟨y, rest, heq, hy, _⟩ := steps_iff.mp hd
      cases heq
      exact hx hy

end Cursor

namespace Node

open Cursor

/-- The tree refers back to a group. -/
def refers : Node → Bool
  | .ref _ => true
  | .seq a b | .alt a b => a.refers || b.refers
  | .group a | .capture _ a | .look _ _ a | .loop a _ _ _ => a.refers
  | _ => false

/-- Matching the tree from one cursor can end at another one. Back-references have no
place in this relation. -/
def Spans (blind : Bool) : Node → Cursor → Cursor → Prop
  | .empty, c, d => d = c
  | .char x, c, d => c.Steps (sameChar blind x) d
  | .dot, c, d => c.Steps (· ≠ '\n') d
  | .set members, c, d => c.Steps (members.has blind) d
  | .start, c, d => c.before = [] ∧ d = c
  | .finish, c, d => c.after = [] ∧ d = c
  | .edge negated, c, d => c.isEdge ≠ negated ∧ d = c
  | .seq a b, c, d => ∃ e, a.Spans blind c e ∧ b.Spans blind e d
  | .alt a b, c, d => a.Spans blind c d ∨ b.Spans blind c d
  | .group a, c, d | .capture _ a, c, d => a.Spans blind c d
  | .look false negated a, c, d => ((∃ e, a.Spans blind c e) ↔ negated = false) ∧ d = c
  | .look true negated a, c, d =>
    ((∃ text e, e.Passes text c ∧ a.Spans blind e c) ↔ negated = false) ∧ d = c
  | .ref _, _, _ => False
  | .loop a least most _, c, d => ∃ e, Rounds (a.Spans blind) least c e ∧
    ∃ n, (∀ m, most = some m → n ≤ m - least) ∧ Rounds (a.Spans blind) n e d

variable {blind : Bool} {a b : Node} {c d : Cursor}

theorem spans_alt_iff : (alt a b).Spans blind c d ↔ a.Spans blind c d ∨ b.Spans blind c d :=
  Iff.rfl

theorem spans_group_iff : (group a).Spans blind c d ↔ a.Spans blind c d := Iff.rfl

theorem spans_start_iff : start.Spans blind c d ↔ c.before = [] ∧ d = c := Iff.rfl

theorem spans_finish_iff : finish.Spans blind c d ↔ c.after = [] ∧ d = c := Iff.rfl

theorem spans_ahead_iff :
    (look false false a).Spans blind c d ↔ (∃ e, a.Spans blind c e) ∧ d = c := by
  simp [Spans]

theorem spans_not_ahead_iff :
    (look false true a).Spans blind c d ↔ (¬ ∃ e, a.Spans blind c e) ∧ d = c := by
  simp [Spans]

end Node

/-! ### Loops -/

namespace Run

/-- The body succeeds exactly if some cursor one round ahead satisfies the continuation. -/
def Realizes (body : Place → Continuation → Option Place) (round : Cursor → Cursor → Prop) :
    Prop :=
  ∀ ⦃p : Place⦄ ⦃k : Continuation⦄ ⦃K : Cursor → Prop⦄,
    (∀ q : Place, round p.cursor q.cursor → ((k q).isSome = true ↔ K q.cursor)) →
    ((body p k).isSome = true ↔ ∃ d, round p.cursor d ∧ K d)

/-- A round only moves ahead in the text. -/
def Advances (round : Cursor → Cursor → Prop) : Prop :=
  ∀ ⦃c d : Cursor⦄, round c d → ∃ text, c.Passes text d

/-- One of two attempts succeeds. -/
theorem isSome_orElse_iff {x y : Option Place} :
    (match x with
      | some r => some r
      | none => y).isSome = true ↔ x.isSome = true ∨ y.isSome = true := by
  cases x <;> simp

variable {body : Place → Continuation → Option Place} {round : Cursor → Cursor → Prop}
  {k : Continuation} {K : Cursor → Prop}

/-- A condition holds at a place or not, and the place stays. -/
theorem stay_isSome_iff {p : Place} {holds : Bool} {P : Prop} (hP : holds = true ↔ P)
    (hk : P → ((k p).isSome = true ↔ K p.cursor)) :
    (if holds then k p else none).isSome = true ↔ ∃ d, (P ∧ d = p.cursor) ∧ K d := by
  by_cases h : P
  · rw [if_pos (hP.mpr h), hk h]
    constructor
    · intro hK
      exact ⟨p.cursor, ⟨h, rfl⟩, hK⟩
    · rintro ⟨d, ⟨-, rfl⟩, hK⟩
      exact hK
  · rw [if_neg fun hh => h (hP.mp hh)]
    constructor
    · intro hK
      exact absurd hK (by simp)
    · rintro ⟨d, ⟨hh, -⟩, -⟩
      exact absurd hh h

theorem times_isSome_iff (hbody : Realizes body round) (n : Nat) {p : Place}
    (hk : ∀ q : Place, Cursor.Rounds round n p.cursor q.cursor →
      ((k q).isSome = true ↔ K q.cursor)) :
    (times body n p k).isSome = true ↔ ∃ d, Cursor.Rounds round n p.cursor d ∧ K d := by
  induction n generalizing p with
  | zero =>
    rw [times, hk p rfl]
    simp [Cursor.Rounds]
  | succ n ih =>
    -- The first round has to reach a cursor from which the others reach a good one.
    rw [times, hbody (K := fun e => ∃ d, Cursor.Rounds round n e d ∧ K d)
      fun q hq => ih fun r hr => hk r ⟨q.cursor, hq, hr⟩]
    constructor
    · rintro ⟨e, he, d, hd, hK⟩
      exact ⟨d, ⟨e, he, hd⟩, hK⟩
    · rintro ⟨d, ⟨e, he, hd⟩, hK⟩
      exact ⟨e, he, d, hd, hK⟩

theorem upTo_isSome_iff (hbody : Realizes body round) (reluctant : Bool) (n : Nat) {p : Place}
    (hk : ∀ q : Place, (∃ m, m ≤ n ∧ Cursor.Rounds round m p.cursor q.cursor) →
      ((k q).isSome = true ↔ K q.cursor)) :
    (upTo body reluctant n p k).isSome = true ↔
      ∃ d, (∃ m, m ≤ n ∧ Cursor.Rounds round m p.cursor d) ∧ K d := by
  induction n generalizing p with
  | zero =>
    rw [upTo, hk p ⟨0, Nat.le_refl 0, rfl⟩]
    simp [Cursor.Rounds]
  | succ n ih =>
    -- What lies within so many rounds of the next place lies within one more of this one.
    have hlater (q : Place) (hq : round p.cursor q.cursor) (r : Place)
        (hr : ∃ m, m ≤ n ∧ Cursor.Rounds round m q.cursor r.cursor) :
        (k r).isSome = true ↔ K r.cursor := by
      obtain ⟨m, hm, hr⟩ := hr
      exact hk r ⟨m + 1, by omega, q.cursor, hq, hr⟩
    have hround := hbody (p := p)
      (K := fun e => ∃ d, (∃ m, m ≤ n ∧ Cursor.Rounds round m e d) ∧ K d)
      fun q hq => ih (hlater q hq)
    have hsplit : (upTo body reluctant (n + 1) p k).isSome = true ↔
        (k p).isSome = true ∨ (body p fun q => upTo body reluctant n q k).isSome = true := by
      rw [upTo]
      cases reluctant with
      | true => exact isSome_orElse_iff
      | false => exact isSome_orElse_iff.trans Or.comm
    rw [hsplit, hround, hk p ⟨0, Nat.zero_le _, rfl⟩]
    constructor
    · rintro (hK | ⟨e, he, d, ⟨m, hm, hd⟩, hK⟩)
      · exact ⟨p.cursor, ⟨0, Nat.zero_le _, rfl⟩, hK⟩
      · exact ⟨d, ⟨m + 1, by omega, e, he, hd⟩, hK⟩
    · rintro ⟨d, ⟨m, hm, hd⟩, hK⟩
      cases m with
      | zero =>
        obtain rfl : d = p.cursor := hd
        exact .inl hK
      | succ m =>
        obtain ⟨e, he, hd⟩ := hd
        exact .inr ⟨e, he, d, ⟨m, by omega, hd⟩, hK⟩

/-- Every number of rounds is within reach of an unbounded loop. An idle round stays where
it is, so it can be left out, and each other round uses up a character of the text. -/
theorem star_isSome_iff (hbody : Realizes body round) (hround : Advances round)
    (reluctant : Bool) (n : Nat) (idleRound : Bool) {p : Place} (hn : p.left < n)
    (hk : ∀ q : Place, (∃ m, Cursor.Rounds round m p.cursor q.cursor) →
      ((k q).isSome = true ↔ K q.cursor)) :
    (star body reluctant n idleRound p k).isSome = true ↔
      ∃ d, (∃ m, Cursor.Rounds round m p.cursor d) ∧ K d := by
  induction n generalizing p idleRound with
  | zero => omega
  | succ n ih =>
    have hp := p.left_eq
    -- What the place after one round has to satisfy, by whether that round was idle.
    let K' (e : Cursor) : Prop :=
      if e.after.length = p.left then idleRound = true ∧ K e
      else ∃ d, (∃ m, Cursor.Rounds round m e d) ∧ K d
    have hround' := hbody (p := p) (K := K') (k := fun q =>
        if q.left = p.left then (if idleRound then k q else none)
        else star body reluctant n false q k) fun q hq => by
      have hq' := q.left_eq
      obtain ⟨text, htext⟩ := hround hq
      have hle : q.left ≤ p.left := by
        have hsum := congrArg List.length htext.1
        simp only [Place.cursor, List.length_append] at hsum
        omega
      by_cases hidle : q.left = p.left
      · have hidle' : q.cursor.after.length = p.left := hq'.symm.trans hidle
        simp only [K', if_pos hidle, if_pos hidle']
        cases idleRound with
        | true => simpa using hk q ⟨1, q.cursor, hq, rfl⟩
        | false => simp
      · have hidle' : q.cursor.after.length ≠ p.left := fun h => hidle (hq'.trans h)
        simp only [K', if_neg hidle, if_neg hidle']
        exact ih false (by omega) fun r ⟨m, hr⟩ => hk r ⟨m + 1, q.cursor, hq, hr⟩
    -- The order in which stopping and going on are tried does not matter.
    have hsplit : (star body reluctant (n + 1) idleRound p k).isSome = true ↔
        (k p).isSome = true ∨ (body p fun q =>
          if q.left = p.left then (if idleRound then k q else none)
          else star body reluctant n false q k).isSome = true := by
      rw [star]
      cases reluctant with
      | true => exact isSome_orElse_iff
      | false => exact isSome_orElse_iff.trans Or.comm
    rw [hsplit, hround', hk p ⟨0, rfl⟩]
    constructor
    · rintro (hK | ⟨e, he, hK⟩)
      · exact ⟨p.cursor, ⟨0, rfl⟩, hK⟩
      · simp only [K'] at hK
        split at hK
        · exact ⟨e, ⟨1, e, he, rfl⟩, hK.2⟩
        · obtain ⟨d, ⟨m, hd⟩, hK⟩ := hK
          exact ⟨d, ⟨m + 1, e, he, hd⟩, hK⟩
    · rintro ⟨d, ⟨m, hd⟩, hK⟩
      -- The induction skips the idle rounds, since only the first round that is not idle
      -- leads to a place from which the search goes on.
      induction m with
      | zero =>
        obtain rfl : d = p.cursor := hd
        exact .inl hK
      | succ m ihm =>
        obtain ⟨e, he, hd⟩ := hd
        by_cases hidle : e.after.length = p.left
        · obtain ⟨text, htext⟩ := hround he
          obtain rfl : e = p.cursor := htext.eq_of_length_eq (hidle.trans hp)
          exact ihm hd
        · refine .inr ⟨e, he, ?_⟩
          simp only [K', if_neg hidle]
          exact ⟨d, ⟨m, hd⟩, hK⟩

/-- Looking back tries every place before. -/
theorem back_isSome_iff {attempt : Place → Option Place} {A : Cursor → Prop}
    {before : List Char} {p : Place} (hbefore : p.before = before)
    (hattempt : ∀ s : Place, (∃ text, s.cursor.Passes text p.cursor) →
      ((attempt s).isSome = true ↔ A s.cursor)) :
    (back attempt before p).isSome = true ↔ ∃ text e, e.Passes text p.cursor ∧ A e := by
  have here : (attempt p).isSome = true ↔ A p.cursor := hattempt p ⟨[], .refl _⟩
  induction before generalizing p with
  | nil =>
    rw [back, here]
    constructor
    · exact fun h => ⟨[], p.cursor, .refl _, h⟩
    · rintro ⟨text, e, he, hA⟩
      have hnil : text = [] ∧ e.before = [] := by
        have := he.2
        simp only [Place.cursor, hbefore] at this
        simpa using this.symm
      obtain rfl : p.cursor = e := Cursor.passes_nil_iff.mp (hnil.1 ▸ he)
      exact hA
  | cons c before ih =>
    -- The place one character back, from which the rest of the search starts.
    let q : Place := ⟨before, c :: p.after, p.found, p.left + 1, by simp [p.left_eq]⟩
    have hq : q.cursor.Passes [c] p.cursor := ⟨rfl, by simp [Place.cursor, q, hbefore]⟩
    have hrec := ih (p := q) rfl
      (fun s ⟨text, hs⟩ => hattempt s ⟨text ++ [c], hs.trans hq⟩) (hattempt q ⟨[c], hq⟩)
    have hsplit : (back attempt (c :: before) p).isSome = true ↔
        (attempt p).isSome = true ∨ (back attempt before q).isSome = true := isSome_orElse_iff
    refine (hsplit.trans (or_congr here hrec)).trans ⟨?_, ?_⟩
    · rintro (hA | ⟨text, e, he, hA⟩)
      · exact ⟨[], p.cursor, .refl _, hA⟩
      · exact ⟨text ++ [c], e, he.trans hq, hA⟩
    · rintro ⟨text, e, he, hA⟩
      rcases List.eq_nil_or_concat text with rfl | ⟨init, x, rfl⟩
      · obtain rfl : p.cursor = e := Cursor.passes_nil_iff.mp he
        exact .inl hA
      · obtain ⟨ha, hb⟩ := he
        simp only [Place.cursor, hbefore, List.concat_eq_append, List.reverse_append,
          List.reverse_singleton, List.cons_append, List.cons.injEq] at hb
        obtain ⟨rfl, hb⟩ := hb
        exact .inr ⟨init, e, ⟨by simpa [Place.cursor, q] using ha, hb⟩, hA⟩

end Run

namespace Node

open Cursor

variable {blind : Bool}

theorem advances_rounds {round : Cursor → Cursor → Prop} (h : Run.Advances round) (n : Nat) :
    Run.Advances (Rounds round n) := by
  induction n with
  | zero => exact fun c d hd => ⟨[], passes_nil_iff.mpr hd⟩
  | succ n ih =>
    intro c d ⟨e, he, hd⟩
    obtain ⟨v, hv⟩ := h he
    obtain ⟨w, hw⟩ := ih hd
    exact ⟨v ++ w, hv.trans hw⟩

/-- Matching only moves ahead in the text. -/
theorem advances_spans (a : Node) : Run.Advances (a.Spans blind) := by
  have still {c d : Cursor} (h : d = c) : ∃ text, c.Passes text d :=
    ⟨[], passes_nil_iff.mpr h⟩
  have one {test : Char → Bool} {c d : Cursor} (h : c.Steps test d) : ∃ text, c.Passes text d :=
    let ⟨x, _, h⟩ := h
    ⟨[x], h⟩
  induction a with
  | empty => exact fun _ _ h => still h
  | char | dot | set => exact fun _ _ h => one h
  | start | finish | edge => exact fun _ _ h => still h.2
  | look behind => cases behind <;> exact fun _ _ h => still h.2
  | ref => exact fun _ _ h => h.elim
  | group a ih | capture _ a ih => exact ih
  | seq a b iha ihb =>
    intro c d ⟨e, he, hd⟩
    obtain ⟨v, hv⟩ := iha he
    obtain ⟨w, hw⟩ := ihb hd
    exact ⟨v ++ w, hv.trans hw⟩
  | alt a b iha ihb => exact fun _ _ h => h.elim (fun h => iha h) (fun h => ihb h)
  | loop a least most reluctant ih =>
    intro c d ⟨e, he, n, _, hd⟩
    obtain ⟨v, hv⟩ := advances_rounds ih least he
    obtain ⟨w, hw⟩ := advances_rounds ih n hd
    exact ⟨v ++ w, hv.trans hw⟩

/-- Two cursors ahead of a third that are as far from the end are the same. -/
theorem eq_of_passes {c d e : Cursor} {v w : List Char} (hd : c.Passes v d) (he : c.Passes w e)
    (hlen : d.after.length = e.after.length) : d = e := by
  obtain ⟨hv, ha⟩ := List.append_inj' (hd.1.symm.trans he.1) hlen
  have hb : d.before = e.before := by rw [hd.2, he.2, hv]
  cases d
  cases e
  exact congr (congrArg mk hb) ha

/-- Looking back for a way from some place before to exactly this one. -/
theorem back_run_isSome_iff {idleRound : Bool} {a : Node}
    (ih : Run.Realizes (a.run blind idleRound) (a.Spans blind)) {p : Place} {k : Continuation}
    {P : Prop} (hk : ∀ q : Place, q.cursor = p.cursor →
      (∃ text e, e.Passes text p.cursor ∧ a.Spans blind e p.cursor) → ((k q).isSome = true ↔ P)) :
    (Run.back (fun s => a.run blind idleRound s fun q => if q.left = p.left then k q else none)
      p.before p).isSome = true ↔
        (∃ text e, e.Passes text p.cursor ∧ a.Spans blind e p.cursor) ∧ P := by
  rw [Run.back_isSome_iff (A := fun e => a.Spans blind e p.cursor ∧ P) rfl]
  · exact ⟨fun ⟨text, e, he, hspan, hP⟩ => ⟨⟨text, e, he, hspan⟩, hP⟩,
      fun ⟨⟨text, e, he, hspan⟩, hP⟩ => ⟨text, e, he, hspan, hP⟩⟩
  · intro s ⟨text, hs⟩
    rw [ih (K := fun d => d = p.cursor ∧ P)]
    · exact ⟨fun ⟨d, hd, heq, hP⟩ => ⟨heq ▸ hd, hP⟩, fun ⟨hd, hP⟩ => ⟨_, hd, rfl, hP⟩⟩
    · intro q hq
      obtain ⟨w, hw⟩ := advances_spans a hq
      -- The match must end exactly where it was looked back from, which `left` alone tells.
      by_cases hleft : q.left = p.left
      · have heq : q.cursor = p.cursor :=
          eq_of_passes hw hs (by simp only [Place.cursor, ← q.left_eq, ← p.left_eq, hleft])
        rw [if_pos hleft, hk q heq ⟨text, s.cursor, hs, heq ▸ hq⟩]
        exact ⟨fun hP => ⟨heq, hP⟩, fun h => h.2⟩
      · rw [if_neg hleft]
        refine ⟨fun h => absurd h (by simp), fun h => absurd ?_ hleft⟩
        rw [q.left_eq, p.left_eq]
        exact congrArg (fun c : Cursor => c.after.length) h.1

/-- Looking ahead or back stays at the place, whether or not it is negated. -/
theorem realizes_look {idleRound : Bool} {a : Node}
    (ih : Run.Realizes (a.run blind idleRound) (a.Spans blind)) (behind negated : Bool) :
    Run.Realizes ((look behind negated a).run blind idleRound)
      ((look behind negated a).Spans blind) := by
  intro p k K hk
  have absent {x : Bool} : (if x then none else k p) = if !x then k p else none := by
    cases x <;> rfl
  cases behind with
  | false =>
    cases negated with
    | false =>
      rw [run_ahead, ih (K := fun _ => K p.cursor) fun q hq =>
        hk { p with found := q.found } ⟨iff_of_true ⟨_, hq⟩ rfl, rfl⟩]
      constructor
      · rintro ⟨e, he, hK⟩
        exact ⟨_, ⟨iff_of_true ⟨e, he⟩ rfl, rfl⟩, hK⟩
      · rintro ⟨d, ⟨⟨_, hd⟩, rfl⟩, hK⟩
        obtain ⟨e, he⟩ := hd rfl
        exact ⟨e, he, hK⟩
    | true =>
      have hsome := ih (p := p) (k := some) (K := fun _ => True) fun q _ => by simp
      rw [run_not_ahead, absent]
      refine Run.stay_isSome_iff ?_ fun h => hk p ⟨h, rfl⟩
      rw [Bool.not_eq_true', ← Bool.not_eq_true, hsome]
      simp
  | true =>
    cases negated with
    | false =>
      rw [run, back_run_isSome_iff ih (k := fun q => k { p with found := q.found })
        (P := K p.cursor) fun q _ h => hk { p with found := q.found } ⟨iff_of_true h rfl, rfl⟩]
      constructor
      · rintro ⟨h, hK⟩
        exact ⟨p.cursor, ⟨iff_of_true h rfl, rfl⟩, hK⟩
      · rintro ⟨d, ⟨h, rfl⟩, hK⟩
        exact ⟨h.mpr rfl, hK⟩
    | true =>
      have hsome := back_run_isSome_iff ih (p := p) (k := some) (P := True)
        fun q _ _ => by simp
      rw [run, absent]
      refine Run.stay_isSome_iff ?_ fun h => hk p ⟨h, rfl⟩
      rw [Bool.not_eq_true', ← Bool.not_eq_true, hsome]
      simp

/-- A loop makes the rounds that it must and then as many more as it may. -/
theorem realizes_loop {idleRound : Bool} {a : Node}
    (ih : Run.Realizes (a.run blind idleRound) (a.Spans blind)) (least : Nat) (most : Option Nat)
    (reluctant : Bool) :
    Run.Realizes ((loop a least most reluctant).run blind idleRound)
      ((loop a least most reluctant).Spans blind) := by
  intro p k K hk
  rw [run, Run.times_isSome_iff ih least (K := fun e => ∃ d,
    (∃ n, (∀ m, most = some m → n ≤ m - least) ∧ Rounds (a.Spans blind) n e d) ∧ K d)]
  · constructor
    · rintro ⟨e, he, d, hd, hK⟩
      exact ⟨d, ⟨e, he, hd⟩, hK⟩
    · rintro ⟨d, ⟨e, he, hd⟩, hK⟩
      exact ⟨e, he, d, hd, hK⟩
  · intro q hq
    cases most with
    | some most =>
      simp only [Option.some.injEq, forall_eq'] at hk ⊢
      refine Run.upTo_isSome_iff ih reluctant _ fun r hr => ?_
      exact hk r ⟨q.cursor, hq, by simpa using hr⟩
    | none =>
      simp only [reduceCtorEq, false_implies, implies_true, true_and]
      refine Run.star_isSome_iff ih (advances_spans a) reluctant _ _ (Nat.lt_succ_self _) ?_
      rintro r ⟨n, hr⟩
      exact hk r ⟨q.cursor, hq, n, by simp, hr⟩

/-- The search from a place succeeds exactly if some cursor that the tree spans from there
satisfies the continuation. -/
theorem run_realizes (blind idleRound : Bool) (a : Node) (ha : a.refers = false) :
    Run.Realizes (a.run blind idleRound) (a.Spans blind) := by
  induction a with
  | empty =>
    intro p k K hk
    rw [run, hk p rfl]
    constructor
    · intro hK
      exact ⟨p.cursor, rfl, hK⟩
    · rintro ⟨d, rfl, hK⟩
      exact hK
  | char | dot | set => exact fun p k K hk => step?_isSome_bind_iff hk
  | start =>
    intro p k K hk
    exact Run.stay_isSome_iff (by simp [Place.cursor]) fun h => hk p ⟨h, rfl⟩
  | finish =>
    intro p k K hk
    exact Run.stay_isSome_iff (by simp [Place.cursor]) fun h => hk p ⟨h, rfl⟩
  | edge negated =>
    intro p k K hk
    exact Run.stay_isSome_iff bne_iff_ne fun h => hk p ⟨h, rfl⟩
  | seq a b iha ihb =>
    intro p k K hk
    simp only [refers, Bool.or_eq_false_iff] at ha
    -- What the first part has to reach is a cursor from which the second reaches a good one.
    rw [run, iha ha.1 (K := fun e => ∃ d, b.Spans blind e d ∧ K d)
      fun q hq => ihb ha.2 fun r hr => hk r ⟨q.cursor, hq, hr⟩]
    constructor
    · rintro ⟨e, he, d, hd, hK⟩
      exact ⟨d, ⟨e, he, hd⟩, hK⟩
    · rintro ⟨d, ⟨e, he, hd⟩, hK⟩
      exact ⟨e, he, d, hd, hK⟩
  | alt a b iha ihb =>
    intro p k K hk
    simp only [refers, Bool.or_eq_false_iff] at ha
    refine Run.isSome_orElse_iff.trans ?_
    rw [iha ha.1 fun q hq => hk q (.inl hq), ihb ha.2 fun q hq => hk q (.inr hq), ← exists_or]
    simp only [Spans, or_and_right]
  | group a ih => exact ih ha
  | capture index a ih =>
    -- What is captured changes the place but not its cursor.
    intro p k K hk
    exact ih ha fun q hq => hk { q with found := (index, p.textTo q) :: q.found } hq
  | look behind negated a ih => exact realizes_look (ih ha) behind negated
  | ref index => exact absurd ha (by simp [refers])
  | loop a least most reluctant ih => exact realizes_loop (ih ha) least most reluctant

/-! ### Anchored trees -/

/-- A tree between the start and the very end of the text. -/
def anchored (a : Node) : Node := .seq .start (.seq a (.seq .finish .empty))

/-- An anchored tree matches from no place but the start of the text. -/
theorem run_anchored_isSome_iff (blind idleRound : Bool) {a : Node} (ha : a.refers = false)
    (p : Place) :
    ((anchored a).run blind idleRound p some).isSome = true ↔
      p.before = [] ∧ ∃ d, a.Spans blind p.cursor d ∧ d.after = [] := by
  -- Every continuation is good here, so only the tree itself decides.
  have hrefers : (anchored a).refers = false := by simp [anchored, refers, ha]
  rw [run_realizes blind idleRound _ hrefers (K := fun _ => True) fun q _ => by simp]
  constructor
  · rintro ⟨d, ⟨e, ⟨hstart, rfl⟩, f, hspan, g, ⟨hend, rfl⟩, rfl⟩, -⟩
    exact ⟨hstart, _, hspan, hend⟩
  · rintro ⟨hstart, d, hspan, hend⟩
    exact ⟨d, ⟨p.cursor, ⟨hstart, rfl⟩, d, hspan, d, ⟨hend, rfl⟩, rfl⟩, trivial⟩

/-- Passing over the start of the text, the search finds no match of an anchored tree. -/
theorem search_anchored_eq_none (blind idleRound : Bool) {a : Node} (ha : a.refers = false)
    (n : Nat) {p : Place} (hp : p.before ≠ []) :
    (anchored a).search blind idleRound n p = none := by
  have hrun : (anchored a).run blind idleRound p some = none := by
    rw [← Option.not_isSome_iff_eq_none, run_anchored_isSome_iff blind idleRound ha]
    exact fun h => hp h.1
  induction n generalizing p with
  | zero => rw [search, hrun, Option.map_none]
  | succ n ih =>
    obtain ⟨before, after, found, left, left_eq⟩ := p
    rw [search, hrun]
    cases after with
    | nil => rfl
    | cons c after =>
      have hnext : ((c :: before : List Char)) ≠ [] := List.cons_ne_nil c before
      refine ih (p := ⟨c :: before, after, found, left - 1, by simp [left_eq]⟩) hnext ?_
      rw [← Option.not_isSome_iff_eq_none, run_anchored_isSome_iff blind idleRound ha]
      exact fun h => hnext h.1

end Node

/-- A program whose tree is anchored accepts a text exactly if the tree between the anchors
spans all of it. -/
theorem Program.isMatch_iff_of_anchored (program : Program) {a : Node}
    (htree : program.tree = a.anchored) (ha : a.refers = false) (text : List Char) :
    program.isMatch text = true ↔
      ∃ d, a.Spans program.blind ⟨[], text⟩ d ∧ d.after = [] := by
  rw [isMatch, locate?_eq_search, htree]
  have hrun := Node.run_anchored_isSome_iff program.blind (!a.anchored.beyondRegular) ha
    (.ofText text)
  have hstart : (Place.ofText text).before = [] := rfl
  refine Iff.trans ?_ (hrun.trans (and_iff_right hstart))
  -- After the first place the search goes on, but an anchored tree matches nowhere else.
  cases text with
  | nil => simp only [List.length_nil, Node.search, Option.isSome_map]
  | cons c text =>
    simp only [List.length_cons, Node.search, Place.ofText, Place.next?]
    split
    · rename_i q hq
      simp only [hq, Option.isSome_some]
    · rename_i hq
      have hlater := Node.search_anchored_eq_none program.blind (!a.anchored.beyondRegular) ha
        text.length (p := ⟨[c], text, [], text.length, rfl⟩) (List.cons_ne_nil c [])
      simp only [Nat.add_sub_cancel, hlater, hq, Option.isSome_none]

end PathGlob.Regex
