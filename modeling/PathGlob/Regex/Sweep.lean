import PathGlob.Regex.Node
import PathGlob.Regex.Place

/-!
# `PathGlob.Regex.Sweep`: many places at once

A search that tries one way after the other can meet the same place over and over before
it gives up. A sweep moves a whole set of places through a tree at once instead. It takes
lookaround for granted and lets a back-reference lead anywhere, so it arrives at least
wherever the search can arrive; where it arrives nowhere, there is nothing to search for.

All places of a sweep are places of one text, so the number of characters after a place
tells it from the others. A set of places lists each one once, the latest place first,
which makes it cheap to add places that lie ahead of all others.
-/

set_option autoImplicit false

namespace PathGlob.Regex

namespace Sweep

/-- Puts a place into its position among others. The last places are joined by the given
function. -/
def insertInto (p : Place) (join : List Place → List Place) : List Place → List Place
  | [] => p :: join []
  | q :: others =>
    if q.left < p.left then q :: insertInto p join others
    else if q.left = p.left then p :: join others
    else p :: join (q :: others)

/-- The places of two sets. -/
def join : List Place → List Place → List Place
  | [], others => others
  | p :: places, others => insertInto p (join places) others

/-- Keeps a place unless it is among others. The last places are compared by the given
function. -/
def keepUnless (p : Place) (minus : List Place → List Place) : List Place → List Place
  | [] => p :: minus []
  | q :: others =>
    if q.left < p.left then keepUnless p minus others
    else if q.left = p.left then minus others
    else p :: minus (q :: others)

/-- The places of one set that are not in the other. -/
def minus : List Place → List Place → List Place
  | [], _ => []
  | p :: places, others => keepUnless p (minus places) others

/-- What exactly the given number of rounds lead to. -/
def times (round : List Place → List Place) : Nat → List Place → List Place
  | 0, places => places
  | n + 1, places => times round n (round places)

/-- What at most the given number of rounds from the latest of the seen places lead to,
together with all seen places. -/
def upTo (round : List Place → List Place) : Nat → List Place → List Place → List Place
  | 0, _, seen => seen
  | n + 1, latest, seen =>
    match minus (round latest) seen with
    | [] => seen
    | p :: places => upTo round n (p :: places) (join (p :: places) seen)

end Sweep

open Sweep

/-- The places that matching the tree from the given places may lead to, in a text of at
most the given length. -/
def Node.sweep (blind : Bool) (size : Nat) : Node → List Place → List Place
  | .empty, places | .look _ _ _, places => places
  | .char c, places => places.filterMap (Place.step? (sameChar blind c))
  | .dot, places => places.filterMap (Place.step? (· ≠ '\n'))
  | .set members, places => places.filterMap (Place.step? (members.has blind))
  | .start, places => places.filter fun p => p.before.isEmpty
  | .finish, places => places.filter fun p => p.after.isEmpty
  | .edge negated, places => places.filter fun p => p.isEdge != negated
  | .seq a b, places => b.sweep blind size (a.sweep blind size places)
  | .alt a b, places => join (a.sweep blind size places) (b.sweep blind size places)
  | .group a, places | .capture _ a, places => a.sweep blind size places
  | .ref _, places => places.foldr (fun p others => join (p.onwards size []) others) []
  | .loop a least most _, places =>
    let more := match most with
      | some most => most - least
      | none => size + 1
    let first := times (a.sweep blind size) least places
    upTo (a.sweep blind size) more first first

namespace Node

/-- A match from the place is not out of the question. -/
def mayMatch (blind : Bool) (a : Node) (p : Place) : Bool :=
  !(a.sweep blind p.left [p]).isEmpty

/-- A match from the place or a later one is not out of the question. -/
def mayMatchOnwards (blind : Bool) (a : Node) (p : Place) : Bool :=
  !(a.sweep blind p.left (p.onwards p.left [])).isEmpty

end Node

end PathGlob.Regex
