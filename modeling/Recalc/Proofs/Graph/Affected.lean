import Recalc.Graph.Scratch
import Recalc.Proofs.Graph.Cycles

/-!
# The affected keys, in order

What a change of roots affects is listed in the order of the graph, each key once: the roots that
are ordered, and the keys that depend on one of them (`Built.affected_exact`). The list can be read
off the order or sorted by place, and is the same either way (`readOff_eq_sortByPlace`). A walk that
reuses buffers of earlier walks goes the way of one that starts with none
(`Scratch.visited_spread`).
-/

namespace Recalc

universe u

variable {K : Type u} [Ord K] [DecidableEq K]

namespace DependencyGraph

/-- Affected by a key are the key itself and what depends on it. -/
theorem Sound.affects_iff {g : DependencyGraph K} (h : g.Sound) {root key : K} :
    g.Affects root key ↔ key = root ∨ g.DependsOn key root := by
  have hmirror : (fun a b => a ∈ g.dependents b) = fun a b => b ∈ g.dependencies a := by
    funext a b
    exact propext h.mirror.symm
  rw [Affects, ← Relation.reflTransGen_swap, Relation.reflTransGen_iff_eq_or_transGen, DependsOn,
    ← hmirror, eq_comm]

end DependencyGraph

open DependencyGraph

variable [Std.LawfulEqOrd K] [Std.TransOrd K]

/-! ### Walks in buffers -/

namespace Scratch

/-- Marking keys puts those on the stack that were not visited. -/
theorem markAll_eq (stack : List K) (visited : SortedSet K) (keys : List K) :
    markAll ⟨stack, visited⟩ keys =
      ⟨push (unvisited visited keys).1 stack, (unvisited visited keys).2⟩ := by
  suffices ∀ found visited, keys.foldl mark ⟨push found stack, visited⟩ =
      ⟨push (keys.foldl sortOut (found, visited)).1 stack,
        (keys.foldl sortOut (found, visited)).2⟩ from this [] visited
  induction keys with
  | nil => exact fun _ _ => rfl
  | cons key keys ih =>
    intro found visited
    rw [List.foldl_cons, List.foldl_cons, mark, sortOut]
    by_cases hk : key ∈ visited
    · rw [if_pos hk, if_pos hk, ih]
    · rw [if_neg hk, if_neg hk, ← ih]
      simp [push]

theorem visited_drain (g : DependencyGraph K) (fuel : Nat) (stack : List K)
    (visited : SortedSet K) :
    (drain g fuel ⟨stack, visited⟩).visited = g.closureFrom fuel visited stack := by
  induction fuel generalizing stack visited with
  | zero => rfl
  | succ fuel ih =>
    cases stack with
    | nil => rfl
    | cons key stack =>
      rw [drain, closureFrom]
      simp only [markAll_eq]
      exact ih _ _

/-- **A walk in buffers** visits the closure of its roots, whatever was in the buffers. -/
theorem visited_spread (s : Scratch K) (g : DependencyGraph K) (roots : List K) :
    ((s.reset.markAll roots).spread g).visited = g.closure roots := by
  rw [reset, empty, markAll_eq, spread, visited_drain, DependencyGraph.closure]
  simp [push]

end Scratch

/-! ### Listing a set in the order -/

namespace EvaluationOrder

/-- A set can be read off the order or sorted by place. -/
theorem readOff_eq_sortByPlace {g : DependencyGraph K} (h : g.Sound) (set : SortedSet K) :
    (compute g).readOff set = (compute g).sortByPlace set := (sorted_by_place h set).symm

theorem affectedIn_fst (o : EvaluationOrder K) (g : DependencyGraph K) (roots : List K)
    (s : Scratch K) : (o.affectedIn g roots s).1 = o.affected g roots := by
  rw [affectedIn, affected, Scratch.visited_spread]

/-- The list holds what the roots affect, in the order `o`. -/
structure Lists (o : EvaluationOrder K) (g : DependencyGraph K) (roots keys : List K) : Prop where
  /-- Listed are the roots that are ordered and the keys that depend on one of them. -/
  mem : ∀ key, key ∈ keys ↔
    ∃ root ∈ roots, o.contains root = true ∧ (key = root ∨ g.DependsOn key root)
  /-- No key is listed twice. -/
  nodup : keys.Nodup
  /-- The keys stand as they stand in the order. -/
  sublist : keys.Sublist o.order

theorem lists_affected {g : DependencyGraph K} (h : g.Sound) (roots : List K) :
    (compute g).Lists g roots ((compute g).affected g roots) where
  mem key := by
    simp only [mem_affected_compute h, contains_compute h, h.affects_iff]
  nodup := nodup_affected_compute h roots
  sublist := by
    rw [affected_compute h]
    exact List.filter_sublist

end EvaluationOrder

/-- **What roots affect**, for a built graph and its order: whatever the buffers of the walk hold
before, the list has the roots that are ordered and the keys that depend on one of them, each once
and in the order. It is the list of a walk without buffers, and it makes no difference whether a set
is read off the order or sorted by place. -/
theorem DependencyGraph.Built.affected_exact {g : DependencyGraph K} (h : g.Built)
    (roots : List K) (s : Scratch K) :
    (EvaluationOrder.compute g).Lists g roots
        ((EvaluationOrder.compute g).affectedIn g roots s).1 ∧
      ((EvaluationOrder.compute g).affectedIn g roots s).1 =
        (EvaluationOrder.compute g).affected g roots ∧
      ∀ set : SortedSet K, (EvaluationOrder.compute g).readOff set =
        (EvaluationOrder.compute g).sortByPlace set := by
  rw [EvaluationOrder.affectedIn_fst]
  exact ⟨EvaluationOrder.lists_affected h.sound roots, rfl,
    EvaluationOrder.readOff_eq_sortByPlace h.sound⟩

namespace EvaluationOrder

/-- A root on a cycle, one that is no node and a repetition, in buffers with keys in them. The set
is large and read off the order, and sorting it by place lists the same keys. -/
theorem affected_exact_tangled :
    tangled.Built ∧ (compute tangled).Lists tangled [2, 9, 2] [1, 2, 3] ∧
      ((compute tangled).affectedIn tangled [2, 9, 2] ⟨[4, 6], .ofList [1, 3]⟩).1 = [1, 2, 3] ∧
      (compute tangled).sortByPlace (.ofList [3, 9, 1, 2]) = [1, 2, 3] := by
  obtain ⟨hlists, -, hsame⟩ :=
    built_tangled.affected_exact [2, 9, 2] ⟨[4, 6], SortedSet.ofList [1, 3]⟩
  have hlisted : ((compute tangled).affectedIn tangled [2, 9, 2] ⟨[4, 6], .ofList [1, 3]⟩).1 =
      [1, 2, 3] := by decide
  exact ⟨built_tangled, hlisted ▸ hlists, hlisted, (hsame _).symm.trans (by decide)⟩

end EvaluationOrder

end Recalc
