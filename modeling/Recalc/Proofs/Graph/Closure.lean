import Recalc.Proofs.Graph.Edges
import Recalc.Proofs.Graph.Walk

/-!
# What a set of roots affects

`DependencyGraph.Affects g a b` says that `b` is `a` or depends on it through other keys. The
closure that the walk along dependents computes is exactly this relation (`mem_closure_iff`): the
walk visits only what is affected, and the fuel it is given is enough for it to come to an end.
-/

namespace Recalc.DependencyGraph

universe u

variable {K : Type u} [Ord K] [DecidableEq K]

/-- `b` is `a`, or depends on it through other keys. -/
def Affects (g : DependencyGraph K) (a b : K) : Prop :=
  Relation.ReflTransGen (fun a b => b ∈ g.dependents a) a b

/-- All keys that depend on something, listed once for each dependency. -/
def allDependents (g : DependencyGraph K) : List K := g.reverse.values.flatten

theorem mem_allDependents [Std.LawfulEqOrd K] {g : DependencyGraph K} {key q : K}
    (h : q ∈ g.dependents key) : q ∈ g.allDependents := by
  rw [dependents, Adjacency.of, SortedMap.getD] at h
  cases hk : g.reverse.get? key with
  | none => simp [hk] at h
  | some keys =>
    rw [hk, Option.getD_some] at h
    rw [allDependents, SortedMap.values]
    exact List.mem_flatten.2 ⟨keys, List.mem_map.2 ⟨(key, keys),
      g.reverse.get?_eq_some_iff.1 hk, rfl⟩, h⟩

variable [Std.LawfulEqOrd K] [Std.TransOrd K]

/-- **The closure of roots** holds exactly what one of the roots affects. -/
theorem mem_closure_iff {g : DependencyGraph K} {roots : List K} {q : K} :
    q ∈ g.closure roots ↔ ∃ root ∈ roots, g.Affects root q := by
  obtain ⟨hn, hf, ha⟩ := unvisited_spec SortedSet.empty roots
  rw [closure]
  generalize unvisited SortedSet.empty roots = r at hn hf ha ⊢
  obtain ⟨found, visited⟩ := r
  simp only [closureFrom_eq_walk] at hn hf ha ⊢
  have hmem : ∀ q, q ∈ visited ↔ q ∈ roots := fun q => by simp [ha]
  have hfound : ∀ q, q ∈ found ↔ q ∈ roots := fun q => by simp [hf]
  constructor
  · have hstep : ∀ a, (∃ root ∈ roots, g.Affects root a) → ∀ b ∈ g.dependents a,
        ∃ root ∈ roots, g.Affects root b := by
      rintro a ⟨root, hr, hab⟩ b hb
      exact ⟨root, hr, hab.tail hb⟩
    intro hq
    refine forall_mem_walk hstep (fun _ h => h) ?_ ?_ q hq
    · exact fun q hq => ⟨q, (hmem q).1 hq, .refl⟩
    · intro q hq
      rw [mem_push] at hq
      exact ⟨q, (hfound q).1 (hq.resolve_right List.not_mem_nil), .refl⟩
  · rintro ⟨root, hr, hq⟩
    have hall : ∀ a, ∀ b ∈ g.dependents a, b ∈ g.allDependents := fun _ _ => mem_allDependents
    obtain ⟨hin, hclosed⟩ := walk_closed hall (found.length + g.edgeTotal + 1) visited
      (push found [])
      (by have : waiting g.allDependents visited ≤ g.edgeTotal := waiting_le _ visited
          simp [push]
          omega)
      (fun a ha hna => absurd (mem_push.2 (.inl ((hfound a).2 ((hmem a).1 ha)))) hna)
    induction hq with
    | refl => exact hin root ((hmem root).2 hr)
    | tail _ hb ih => exact hclosed _ (.inl ih) _ hb

end Recalc.DependencyGraph
