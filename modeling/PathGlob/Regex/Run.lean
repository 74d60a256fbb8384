import PathGlob.Regex.Sweep

/-!
# `PathGlob.Regex.Run`: matching a tree against a text

`Node.run` tries the ways a tree can match from a place in order of preference and hands
each resulting place to a continuation, until the continuation succeeds. So the first
success in that order is the result, as in backtracking search. Conditions on the text
ahead are tried only where a sweep shows that they may hold; that saves time and changes no
result.

A loop without an upper bound does not repeat a round that consumed nothing: such a
round fails. The one exception is `idleRound`: then the first round of a loop that may
have none is allowed to be idle, and it ends the loop. This shows only in what groups
capture, never in whether a text matches.
-/

set_option autoImplicit false

namespace PathGlob.Regex

/-- What remains to be done from a place. -/
abbrev Continuation := Place → Option Place

namespace Run

/-- Consumes one character that passes a test. -/
def one (test : Char → Bool) (p : Place) (k : Continuation) : Option Place :=
  (p.step? test).bind k

/-- Exactly the given number of rounds. -/
def times (body : Place → Continuation → Option Place) :
    Nat → Place → Continuation → Option Place
  | 0, p, k => k p
  | n + 1, p, k => body p fun q => times body n q k

/-- At most the given number of rounds. -/
def upTo (body : Place → Continuation → Option Place) (reluctant : Bool) :
    Nat → Place → Continuation → Option Place
  | 0, p, k => k p
  | n + 1, p, k =>
    if reluctant then
      match k p with
      | some r => some r
      | none => body p fun q => upTo body reluctant n q k
    else
      match body p fun q => upTo body reluctant n q k with
      | some r => some r
      | none => k p

/-- Any number of rounds, of which the first argument bounds those that consume
something. An idle round fails, or ends the loop if `idleRound` holds. -/
def star (body : Place → Continuation → Option Place) (reluctant : Bool) :
    Nat → Bool → Place → Continuation → Option Place
  | 0, _, p, k => k p
  | n + 1, idleRound, p, k =>
    let round := fun q : Place =>
      if q.left = p.left then (if idleRound then k q else none)
      else star body reluctant n false q k
    if reluctant then
      match k p with
      | some r => some r
      | none => body p round
    else
      match body p round with
      | some r => some r
      | none => k p

/-- Tries the place itself and then each earlier one. The list holds the characters
before the place. -/
def back (attempt : Place → Option Place) : List Char → Place → Option Place
  | [], p => attempt p
  | c :: before, p =>
    match attempt p with
    | some r => some r
    | none =>
      back attempt before
        ⟨before, c :: p.after, p.found, p.left + 1, by simp [p.left_eq]⟩

end Run

namespace Node

open Run

/-- Matches the tree from a place and goes on with the continuation. -/
def run (blind idleRound : Bool) : Node → Place → Continuation → Option Place
  | .empty, p, k => k p
  | .char c, p, k => one (sameChar blind c) p k
  | .dot, p, k => one (· ≠ '\n') p k
  | .set members, p, k => one (members.has blind) p k
  | .start, p, k => if p.before.isEmpty then k p else none
  | .finish, p, k => if p.after.isEmpty then k p else none
  | .edge negated, p, k => if p.isEdge != negated then k p else none
  | .seq a b, p, k => a.run blind idleRound p fun q => b.run blind idleRound q k
  | .alt a b, p, k =>
    match a.run blind idleRound p k with
    | some r => some r
    | none => b.run blind idleRound p k
  | .group a, p, k => a.run blind idleRound p k
  | .capture index a, p, k =>
    a.run blind idleRound p fun q => k { q with found := (index, p.textTo q) :: q.found }
  | .look false false a, p, k =>
    if a.mayMatch blind p then
      a.run blind idleRound p fun q => k { p with found := q.found }
    else none
  | .look false true a, p, k =>
    if a.mayMatch blind p && (a.run blind idleRound p some).isSome then none else k p
  | .look true false a, p, k =>
    back (fun s => a.run blind idleRound s fun q =>
      if q.left = p.left then k { p with found := q.found } else none) p.before p
  | .look true true a, p, k =>
    let found := back (fun s => a.run blind idleRound s fun q =>
      if q.left = p.left then some q else none) p.before p
    if found.isSome then none else k p
  | .ref index, p, k =>
    match p.group? index with
    | none => none
    | some text =>
      match p.skip? blind text with
      | none => none
      | some q => k q
  | .loop a least most reluctant, p, k =>
    times (a.run blind idleRound) least p fun q =>
      match most with
      | some most => upTo (a.run blind idleRound) reluctant (most - least) q k
      | none => star (a.run blind idleRound) reluctant (q.left + 1) (idleRound && least = 0) q k

/-- The leftmost match: the place it begins at and the place it ends at. The first argument
bounds the number of places that are passed over. -/
def search (blind idleRound : Bool) (a : Node) : Nat → Place → Option (Place × Place)
  | 0, p => (a.run blind idleRound p some).map (p, ·)
  | n + 1, p =>
    match a.run blind idleRound p some with
    | some q => some (p, q)
    | none =>
      match p.next? with
      | some (_, next) => search blind idleRound a n next
      | none => none

end Node

end PathGlob.Regex
