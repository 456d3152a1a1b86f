import Recalc.Collection.SortedSet

/-!
# Adjacency lists

A map from keys to the lists of their neighbours. A list is never stored empty. Neighbours are
appended at the end, and taking one out puts the last one into its place, so the order inside a list
depends on the history; everything that shows it says so.
-/

namespace Recalc

universe u

/-- The list without `key`, whose place the last element takes. -/
def swapErase {K : Type u} [DecidableEq K] (key : K) (keys : List K) : List K :=
  match keys.getLast? with
  | none => []
  | some last =>
    if key ∈ keys.dropLast then keys.dropLast.replace key last
    else if last = key then keys.dropLast
    else keys

/-- Neighbour lists by key. -/
abbrev Adjacency (K : Type u) [Ord K] := SortedMap K (List K)

namespace Adjacency

variable {K : Type u} [Ord K] [DecidableEq K]

/-- The neighbours of `key`. -/
def of (m : Adjacency K) (key : K) : List K := m.getD key []

/-- The number of pairs of a key and a neighbour. -/
def total (m : Adjacency K) : Nat := m.values.flatten.length

variable [Std.LawfulEqOrd K] [Std.TransOrd K]

/-- Appends `neighbour` to the list of `key`. -/
def link (m : Adjacency K) (key neighbour : K) : Adjacency K :=
  m.insert key (m.of key ++ [neighbour])

/-- Takes `neighbour` out of the list of `key`, and the list away if it was the last one. -/
def unlink (m : Adjacency K) (key neighbour : K) : Adjacency K :=
  match m.get? key with
  | none => m
  | some keys =>
    match swapErase neighbour keys with
    | [] => m.erase key
    | rest => m.insert key rest

end Adjacency

end Recalc
