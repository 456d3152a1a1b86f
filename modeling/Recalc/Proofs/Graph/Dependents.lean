import Recalc.Graph.Scratch
import Recalc.Proofs.Graph.Closure
import Recalc.Proofs.Graph.Count
import Mathlib.Data.List.Chain

/-!
# The transitive dependents of a key

What depends on a key through one or more dependencies can be asked for in two ways: a cursor yields
the keys one at a time, and a walk in buffers calls back for each. Both take a key off a stack, pass
over it if it was visited before, and otherwise visit it and put what depends on it on the stack. So
a key can be on the stack several times. `Visits` is this walk as a relation that knows no fuel; the
cursor follows it (`Visits.yields`), and so does the walk in buffers (`Visits.visitEach_eq`).

The walk ends (`Sound.exists_visits`): each step takes one key off the stack, and what a visit puts
on it no longer lies `ahead`. Both ways find each key that depends on the given one once, in the
same order, and no other (`Built.traverses`).
-/

namespace Recalc

universe u v

variable {K : Type u} [Ord K] [DecidableEq K]

namespace DependencyGraph

/-! ### Cycles -/

/-- A walk along dependencies leads from the key back to it. -/
def OnCycle (g : DependencyGraph K) (key : K) : Prop :=
  ∃ walk, (key :: (walk ++ [key])).IsChain fun a b => b ∈ g.dependencies a

/-- A key depends on another one if a walk along dependencies leads there. -/
theorem dependsOn_iff_exists_walk {g : DependencyGraph K} {key other : K} :
    g.DependsOn key other ↔
      ∃ walk, (key :: (walk ++ [other])).IsChain fun a b => b ∈ g.dependencies a := by
  constructor
  · intro h
    induction h using Relation.TransGen.head_induction_on with
    | single hd => exact ⟨[], List.isChain_pair.2 hd⟩
    | head hd _ ih =>
      obtain ⟨walk, hw⟩ := ih
      exact ⟨_ :: walk, List.isChain_cons_cons.2 ⟨hd, hw⟩⟩
  · rintro ⟨walk, hw⟩
    induction walk generalizing key with
    | nil => exact .single (List.isChain_pair.1 hw)
    | cons next walk ih =>
      obtain ⟨hd, hw⟩ := List.isChain_cons_cons.1 hw
      exact .head hd (ih hw)

/-- What a key leads to along dependents depends on it. -/
theorem Sound.dependsOn_iff {g : DependencyGraph K} (h : g.Sound) {key other : K} :
    g.DependsOn other key ↔ Relation.TransGen (fun a b => b ∈ g.dependents a) key other := by
  have hmirror : (fun a b => b ∈ g.dependencies a) = fun a b => a ∈ g.dependents b := by
    funext a b
    exact propext h.mirror
  rw [DependsOn, hmirror, ← Relation.transGen_swap]

variable [Std.LawfulEqOrd K] [Std.TransOrd K]

/-! ### The walk as a relation -/

/-- A walk that visited the keys of a set empties a stack, and visits the listed keys on the way. -/
inductive Visits (g : DependencyGraph K) : SortedSet K → List K → List K → Prop where
  /-- The stack is empty. -/
  | done {visited : SortedSet K} : Visits g visited [] []
  /-- The key on top was visited before. -/
  | pass {visited : SortedSet K} {key : K} {stack keys : List K} (hkey : key ∈ visited)
      (hrest : Visits g visited stack keys) : Visits g visited (key :: stack) keys
  /-- The key on top is visited, and what depends on it is put on the stack. -/
  | visit {visited : SortedSet K} {key : K} {stack keys : List K} (hkey : key ∉ visited)
      (hrest : Visits g (visited.insert key) (push (g.dependents key) stack) keys) :
      Visits g visited (key :: stack) (key :: keys)

namespace Visits

variable {g : DependencyGraph K} {visited : SortedSet K} {stack keys : List K}

/-- No key is visited twice, and none that was visited before. -/
theorem nodup (h : g.Visits visited stack keys) : keys.Nodup ∧ ∀ q ∈ keys, q ∉ visited := by
  induction h with
  | done => exact ⟨List.nodup_nil, fun q hq => absurd hq List.not_mem_nil⟩
  | pass _ _ ih => exact ih
  | visit hkey _ ih =>
    obtain ⟨hn, hnew⟩ := ih
    have hold : ∀ q, q ∈ _ → q ≠ _ ∧ q ∉ _ := fun q hq =>
      not_or.1 fun he => hnew q hq (SortedSet.mem_insert.2 he)
    refine ⟨List.nodup_cons.2 ⟨fun hk => (hold _ hk).1 rfl, hn⟩, ?_⟩
    exact List.forall_mem_cons.2 ⟨hkey, fun q hq => (hold q hq).2⟩

/-- A property of the keys on the stack that passes on to dependents holds of all visited keys. -/
theorem forall_mem {P : K → Prop} (h : g.Visits visited stack keys)
    (hP : ∀ a, P a → ∀ b ∈ g.dependents a, P b) (hs : ∀ q ∈ stack, P q) : ∀ q ∈ keys, P q := by
  induction h with
  | done => exact hs
  | pass _ _ ih => exact ih fun q hq => hs q (List.mem_cons_of_mem _ hq)
  | visit _ _ ih =>
    obtain ⟨hkey, hs⟩ := List.forall_mem_cons.1 hs
    refine List.forall_mem_cons.2 ⟨hkey, ih fun q hq => ?_⟩
    exact (mem_push.1 hq).elim (hP _ hkey q) (hs q)

/-- All keys on the stack and all dependents of visited keys are visited in the end. -/
theorem closed (h : g.Visits visited stack keys) : (∀ q ∈ stack, q ∈ visited ∨ q ∈ keys) ∧
    ∀ a ∈ keys, ∀ b ∈ g.dependents a, b ∈ visited ∨ b ∈ keys := by
  induction h with
  | done => simp
  | pass hkey _ ih => exact ⟨List.forall_mem_cons.2 ⟨.inl hkey, ih.1⟩, ih.2⟩
  | visit _ _ ih =>
    obtain ⟨hstack, hclosed⟩ := ih
    -- The key itself counts as visited behind it, and as listed before it.
    simp only [SortedSet.mem_insert, mem_push, List.mem_cons] at hstack hclosed ⊢
    grind

/-- **What a walk visits** from the dependents of a key on is what the key leads to. -/
theorem mem_iff {key : K} (h : g.Visits .empty (push (g.dependents key) []) keys) {q : K} :
    q ∈ keys ↔ Relation.TransGen (fun a b => b ∈ g.dependents a) key q := by
  have hpush : ∀ q, q ∈ push (g.dependents key) [] ↔ q ∈ g.dependents key := fun q => by
    rw [mem_push, or_iff_left List.not_mem_nil]
  constructor
  · exact fun hq => h.forall_mem (fun a ha b hb => ha.tail hb)
      (fun q hq => .single ((hpush q).1 hq)) q hq
  · obtain ⟨hstack, hclosed⟩ := h.closed
    have hlisted : ∀ {q}, q ∈ SortedSet.empty ∨ q ∈ keys → q ∈ keys :=
      fun h => h.resolve_left (SortedSet.not_mem_empty _)
    intro hq
    induction hq with
    | single hb => exact hlisted (hstack _ ((hpush _).2 hb))
    | tail _ hb ih => exact hlisted (hclosed _ ih _ hb)

end Visits

/-! ### The walk ends -/

/-- The dependencies on keys that were not visited, counted. -/
def ahead (g : DependencyGraph K) (visited : SortedSet K) : Nat :=
  Adjacency.total (g.reverse.filter fun key _ => key ∉ visited)

theorem ahead_empty (g : DependencyGraph K) : g.ahead .empty = g.edgeTotal := by
  rw [ahead, edgeTotal]
  congr 1
  refine SortedMap.ext_get? fun q => ?_
  rw [SortedMap.get?_filter]
  cases g.reverse.get? q <;> simp

/-- What depends on a key lies ahead until the key is visited. -/
theorem Sound.ahead_insert {g : DependencyGraph K} (h : g.Sound) {visited : SortedSet K} {key : K}
    (hkey : key ∉ visited) :
    g.ahead visited = (g.dependents key).length + g.ahead (visited.insert key) := by
  have hproper : Adjacency.Proper (g.reverse.filter fun key _ => key ∉ visited) := by
    intro q keys hq
    rw [SortedMap.get?_filter, Option.filter_eq_some_iff] at hq
    exact h.reverse q keys hq.1
  have hof : Adjacency.of (g.reverse.filter fun key _ => key ∉ visited) key = g.dependents key := by
    rw [dependents, Adjacency.of, Adjacency.of, SortedMap.getD, SortedMap.getD,
      SortedMap.get?_filter]
    cases g.reverse.get? key <;> simp [hkey, Option.filter]
  have herase : SortedMap.erase (g.reverse.filter fun key _ => key ∉ visited) key =
      g.reverse.filter fun q _ => q ∉ visited.insert key := by
    refine SortedMap.ext_get? fun q => ?_
    rw [SortedMap.get?_erase, SortedMap.get?_filter, SortedMap.get?_filter]
    by_cases hq : q = key
    · simp [hq]
    · simp [hq]
  rw [ahead, hproper.total_erase key, hof, herase, ahead]

/-- **A walk ends**, whatever is on the stack. -/
theorem Sound.exists_visits {g : DependencyGraph K} (h : g.Sound) (visited : SortedSet K)
    (stack : List K) : ∃ keys, g.Visits visited stack keys := by
  induction hn : stack.length + g.ahead visited using Nat.strong_induction_on
    generalizing visited stack with
  | _ n ih =>
    subst hn
    cases stack with
    | nil => exact ⟨[], .done⟩
    | cons key stack =>
      by_cases hkey : key ∈ visited
      · obtain ⟨keys, hkeys⟩ := ih _ (by simp) visited stack rfl
        exact ⟨keys, .pass hkey hkeys⟩
      · have hahead := h.ahead_insert hkey
        obtain ⟨keys, hkeys⟩ := ih _ (by simp [push]; omega) (visited.insert key)
          (push (g.dependents key) stack) rfl
        exact ⟨key :: keys, .visit hkey hkeys⟩

/-! ### Both ways follow the walk -/

/-- A cursor yields the listed keys, one after another, and then nothing more. -/
inductive Cursor.Yields (g : DependencyGraph K) : Cursor K → List K → Prop where
  /-- There is no next key. -/
  | done {c : Cursor K} (h : c.next? g = none) : Yields g c []
  /-- There is a next key, and the cursor goes on from there. -/
  | next {c c' : Cursor K} {key : K} {keys : List K} (h : c.next? g = some (key, c'))
      (hrest : Yields g c' keys) : Yields g c (key :: keys)

variable {g : DependencyGraph K} {visited : SortedSet K} {stack keys : List K}

theorem Cursor.Yields.congr {c c' : Cursor K} (h : c.Yields g keys)
    (he : c'.next? g = c.next? g) : c'.Yields g keys := by
  cases h with
  | done h => exact .done (he.trans h)
  | next h hrest => exact .next (he.trans h) hrest

/-- Draining a cursor lists what it yields. -/
theorem Cursor.Yields.drain_eq {c : Cursor K} (h : c.Yields g keys) {fuel : Nat}
    (hf : keys.length < fuel) : c.drain g fuel = keys := by
  induction h generalizing fuel with
  | done h =>
    obtain ⟨fuel, rfl⟩ := Nat.exists_eq_succ_of_ne_zero (Nat.ne_of_gt hf)
    rw [Cursor.drain, h]
  | next h _ ih =>
    obtain ⟨fuel, rfl⟩ := Nat.exists_eq_succ_of_ne_zero (Nat.ne_of_gt (Nat.zero_lt_of_lt hf))
    rw [Cursor.drain, h]
    exact congrArg _ (ih (Nat.lt_of_succ_lt_succ hf))

/-- A cursor yields what the walk visits. -/
theorem Visits.yields (h : g.Visits visited stack keys) :
    Cursor.Yields g ⟨visited, stack⟩ keys := by
  induction h with
  | done => exact .done rfl
  | pass hkey _ ih =>
    refine ih.congr ?_
    rw [Cursor.next?, Cursor.next?, advance?, if_pos hkey]
  | visit hkey _ ih =>
    refine .next ?_ ih
    rw [Cursor.next?, advance?, if_neg hkey]

/-- A walk in buffers calls back for what the walk visits, and leaves the stack empty. -/
theorem Visits.visitEach_eq {S : Type v} (hg : g.Sound) (h : g.Visits visited stack keys)
    {fuel : Nat} (hf : stack.length + g.ahead visited ≤ fuel) (visit : S → K → S) (state : S) :
    Scratch.visitEach g visit fuel state ⟨stack, visited⟩ =
      (keys.foldl visit state, ⟨[], keys.foldl SortedSet.insert visited⟩) := by
  induction h generalizing fuel state with
  | done => cases fuel <;> rfl
  | pass hkey _ ih =>
    obtain ⟨fuel, rfl⟩ := Nat.exists_eq_add_of_le' (show 1 ≤ fuel by simp at hf; omega)
    rw [Scratch.visitEach]
    simp only [if_pos hkey]
    exact ih (by simp at hf; omega) state
  | visit hkey _ ih =>
    obtain ⟨fuel, rfl⟩ := Nat.exists_eq_add_of_le' (show 1 ≤ fuel by simp at hf; omega)
    have hahead := hg.ahead_insert hkey
    rw [Scratch.visitEach]
    simp only [if_neg hkey]
    exact ih (by simp [push] at hf ⊢; omega) _

/-- The listed keys are what depends on `key`, as both ways find it. -/
structure Traverses (g : DependencyGraph K) (key : K) (keys : List K) : Prop where
  /-- A cursor yields them one after another and comes to an end. -/
  yields : (g.cursor key).Yields g keys
  /-- A walk in buffers calls back for them in the same order and ends with an empty stack, whatever
  was in the buffers. -/
  visits : ∀ {S : Type v} (visit : S → K → S) (state : S) (s : Scratch K),
    (g.foldDependents key visit state s).1 = keys.foldl visit state ∧
      (g.foldDependents key visit state s).2.stack = []
  /-- No key is listed twice. -/
  nodup : keys.Nodup
  /-- Listed are the keys that depend on `key`, through one or more dependencies. -/
  mem : ∀ q, q ∈ keys ↔ g.DependsOn q key
  /-- The key itself is listed if it lies on a cycle. -/
  self : key ∈ keys ↔ g.OnCycle key

end DependencyGraph

open DependencyGraph

variable [Std.LawfulEqOrd K] [Std.TransOrd K]

/-- **The transitive dependents of a key**, in a graph that was built by any operations: the cursor
and the walk in buffers both come to an end, with the same keys in the same order. These are the
keys that depend on the given one, each once; the key itself is one of them if it lies on a
cycle. -/
theorem DependencyGraph.Built.traverses {g : DependencyGraph K} (h : g.Built) (key : K) :
    Traverses.{u, v} g key (g.transitiveDependents key) := by
  obtain ⟨keys, hkeys⟩ := h.sound.exists_visits .empty (push (g.dependents key) [])
  have hmem : ∀ q, q ∈ keys ↔ g.DependsOn q key := fun q => by
    rw [hkeys.mem_iff, h.sound.dependsOn_iff]
  have hlength : keys.length ≤ g.edgeTotal := by
    have hsub : keys ⊆ g.allDependents := fun q hq => by
      obtain ⟨a, -, ha⟩ := Relation.TransGen.tail'_iff.1 (hkeys.mem_iff.1 hq)
      exact mem_allDependents ha
    exact (hkeys.nodup.1.subperm hsub).length_le
  have hyields : (g.cursor key).Yields g keys := hkeys.yields
  rw [transitiveDependents, hyields.drain_eq (Nat.lt_succ_of_le hlength)]
  refine ⟨hyields, fun visit state s => ?_, hkeys.nodup.1, hmem, ?_⟩
  · have hdegree : (push (g.dependents key) []).length ≤ g.edgeTotal := by
      have hahead := h.sound.ahead_insert (SortedSet.not_mem_empty key)
      rw [ahead_empty] at hahead
      simp [push]
      omega
    rw [foldDependents, Scratch.reset, Scratch.empty,
      hkeys.visitEach_eq h.sound (by rw [ahead_empty]; omega) visit state]
    exact ⟨rfl, rfl⟩
  · rw [hmem, OnCycle, dependsOn_iff_exists_walk]

/-- From a key on a cycle, in buffers with keys in them. -/
theorem EvaluationOrder.traverses_tangled : tangled.Built ∧
    Traverses.{0, 0} tangled 2 [3, 1, 2] ∧ tangled.OnCycle 2 ∧
    (tangled.foldDependents 2 (fun keys q => keys ++ [q]) [] ⟨[4, 6], .ofList [1, 3]⟩).1 =
      [3, 1, 2] := by
  have hlisted : tangled.transitiveDependents 2 = [3, 1, 2] := by decide
  have h : Traverses.{0, 0} tangled 2 [3, 1, 2] := hlisted ▸ built_tangled.traverses 2
  exact ⟨built_tangled, h, h.self.1 (by decide), (h.visits _ _ _).1⟩

end Recalc
