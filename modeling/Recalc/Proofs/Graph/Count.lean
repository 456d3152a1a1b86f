import Recalc.Proofs.Graph.Edits
import Mathlib.Data.List.Nodup

/-!
# The representation of a graph

In a graph that was built by any operations the two indices mirror each other, no list is stored
empty or names a key twice, only nodes occur in them, and the count of dependencies is the total
length of the lists of either index (`DependencyGraph.Consistent`).

The count goes up and down by one inside the operations, one dependency after another. `Edit.course`
lists the graphs that an operation passes through; in none of them is the count below zero, so no
step of an operation counts below zero (`Built.represented`). While a key is taken away the two
indices do not mirror each other. What carries the count over these states is the index of the
dependencies alone: first it is ahead of the total length of its lists by the number of targets
still to be left, then it is that length.
-/

namespace Recalc

universe u

/-! ### Pairs listed by an index -/

namespace Adjacency

variable {K : Type u} [Ord K] [DecidableEq K]

/-- The pairs of a key and a neighbour. -/
def pairs (m : Adjacency K) : List (K × K) :=
  m.entries.flatMap fun entry => entry.2.map fun neighbour => (entry.1, neighbour)

omit [DecidableEq K] in
theorem length_pairs (m : Adjacency K) : m.pairs.length = m.total := by
  rw [pairs, total, SortedMap.values, ← List.flatMap_def, List.length_flatMap, List.length_flatMap]
  simp

theorem mem_of_iff {m : Adjacency K} {key neighbour : K} :
    neighbour ∈ m.of key ↔ ∃ keys, m.get? key = some keys ∧ neighbour ∈ keys := by
  rw [of, SortedMap.getD]
  cases m.get? key <;> simp

variable [Std.LawfulEqOrd K]

theorem mem_pairs {m : Adjacency K} {key neighbour : K} :
    (key, neighbour) ∈ m.pairs ↔ neighbour ∈ m.of key := by
  simp only [pairs, List.mem_flatMap, List.mem_map, Prod.mk.injEq, mem_of_iff,
    SortedMap.get?_eq_some_iff]
  constructor
  · rintro ⟨⟨key, keys⟩, he, neighbour, hn, rfl, rfl⟩
    exact ⟨keys, he, hn⟩
  · rintro ⟨keys, he, hn⟩
    exact ⟨(key, keys), he, neighbour, hn, rfl, rfl⟩

/-- A proper index names no pair twice. -/
theorem Proper.nodup_pairs {m : Adjacency K} (h : m.Proper) : m.pairs.Nodup := by
  rw [pairs, List.nodup_flatMap]
  constructor
  · rintro ⟨key, keys⟩ he
    exact ((h key keys (m.get?_eq_some_iff.2 he)).2).map fun a b hab => (Prod.mk.inj hab).2
  · refine (List.pairwise_map.1 m.nodup_keys).imp ?_
    rintro ⟨a, as⟩ ⟨b, bs⟩ hne p hpa hpb
    obtain ⟨_, -, rfl⟩ := List.mem_map.1 hpa
    obtain ⟨_, -, hp⟩ := List.mem_map.1 hpb
    exact hne (Prod.mk.inj hp).1.symm

/-- The total length of the lists is the length of any list that names each pair once. -/
theorem Proper.total_eq {m : Adjacency K} (h : m.Proper) {list : List (K × K)} (hn : list.Nodup)
    (hm : ∀ key neighbour, (key, neighbour) ∈ list ↔ neighbour ∈ m.of key) :
    m.total = list.length := by
  rw [← length_pairs]
  refine ((List.perm_ext_iff_of_nodup h.nodup_pairs hn).2 ?_).length_eq
  rintro ⟨key, neighbour⟩
  rw [mem_pairs, hm]

/-- An index and its mirror image have the same total length. -/
theorem Proper.total_mirror {m n : Adjacency K} (hm : m.Proper) (hn : n.Proper)
    (h : ∀ a b, b ∈ m.of a ↔ a ∈ n.of b) : m.total = n.total := by
  rw [← length_pairs n, ← List.length_map Prod.swap]
  refine hm.total_eq (hn.nodup_pairs.map Prod.swap_injective) fun key neighbour => ?_
  rw [h, ← mem_pairs, List.mem_map]
  exact ⟨fun ⟨p, hp, he⟩ => by rwa [← Prod.swap_swap p, he] at hp, fun hp => ⟨_, hp, rfl⟩⟩

/-- Without the list of a key, the lists are shorter by its length. -/
theorem Proper.total_erase {m : Adjacency K} (h : m.Proper) (key : K) :
    m.total = (m.of key).length + total (m.erase key) := by
  rw [← length_pairs (m.erase key), ← List.length_map (fun neighbour => (key, neighbour)),
    ← List.length_append]
  refine h.total_eq (List.nodup_append.2 ⟨?_, (h.erase key).nodup_pairs, ?_⟩) fun q neighbour => ?_
  · exact (h.nodup_of key).map fun a b hab => (Prod.mk.inj hab).2
  · rintro p hp ⟨q, neighbour⟩ hq rfl
    obtain ⟨_, -, he⟩ := List.mem_map.1 hp
    rw [mem_pairs, of_erase, if_pos (Prod.mk.inj he).1.symm] at hq
    exact List.not_mem_nil hq
  · rw [List.mem_append, mem_pairs, of_erase, List.mem_map]
    by_cases hq : q = key
    · subst hq
      simp
    · simp [hq, Ne.symm hq]

variable [Std.TransOrd K]

theorem Proper.total_link {m : Adjacency K} (h : m.Proper) {key neighbour : K}
    (hn : neighbour ∉ m.of key) : (m.link key neighbour).total = m.total + 1 := by
  rw [← length_pairs m, ← List.length_cons (a := (key, neighbour))]
  refine (h.link hn).total_eq (List.nodup_cons.2 ⟨?_, h.nodup_pairs⟩) fun q a => ?_
  · rwa [mem_pairs]
  · rw [List.mem_cons, mem_pairs, of_link, Prod.mk.injEq]
    by_cases hq : q = key
    · subst hq
      simp [or_comm]
    · simp [hq]

theorem Proper.total_unlink {m : Adjacency K} (h : m.Proper) {key neighbour : K}
    (hn : neighbour ∈ m.of key) : m.total = (m.unlink key neighbour).total + 1 := by
  rw [← length_pairs (m.unlink key neighbour), ← List.length_cons (a := (key, neighbour))]
  refine h.total_eq (List.nodup_cons.2 ⟨?_, (h.unlink key neighbour).nodup_pairs⟩) fun q a => ?_
  · rw [mem_pairs, h.mem_unlink]
    exact fun hm => hm.2 ⟨rfl, rfl⟩
  · rw [List.mem_cons, mem_pairs, h.mem_unlink, Prod.mk.injEq]
    constructor
    · rintro (⟨rfl, rfl⟩ | ha)
      · exact hn
      · exact ha.1
    · intro ha
      by_cases hqa : q = key ∧ a = neighbour
      · exact .inl hqa
      · exact .inr ⟨ha, hqa⟩

end Adjacency

/-- What holds at the start of a fold, and passes from what is left of the list to what is left
after one more step, holds of every state that the fold passes through. -/
theorem forall_mem_scanl {A : Type u} {S : Type u} {P : S → List A → Prop} {step : S → A → S}
    (hstep : ∀ s a rest, P s (a :: rest) → P (step s a) rest) {s : S} {l : List A}
    (h : P s l) : (∀ t ∈ l.scanl step s, ∃ rest, P t rest) ∧ P (l.foldl step s) [] := by
  induction l generalizing s with
  | nil => exact ⟨fun t ht => ⟨[], List.mem_singleton.1 ht ▸ h⟩, h⟩
  | cons a l ih =>
    obtain ⟨hmem, hlast⟩ := ih (hstep s a l h)
    refine ⟨fun t ht => ?_, hlast⟩
    rw [List.scanl_cons, List.mem_cons] at ht
    rcases ht with rfl | ht
    · exact ⟨_, h⟩
    · exact hmem t ht

variable {K : Type u} [Ord K] [DecidableEq K]

/-! ### What an operation passes through -/

namespace Edit

variable [Std.LawfulEqOrd K] [Std.TransOrd K]

open DependencyGraph

/-- The graphs that replacing the dependencies of `source` passes through: while stale ones are
taken away, and then while fresh ones are added. -/
def replacementCourse (g : DependencyGraph K) (source : K) (targets : List K) :
    List (DependencyGraph K) :=
  let g := { g with nodes := g.nodes.insert source }
  let new := distinct targets
  let old := g.dependencies source
  if old.length = new.length && old.all fun key => key ∈ new then [g]
  else
    let stale := old.filter fun key => key ∉ new
    let fresh := new.filter fun key => key ∉ old
    stale.scanl (fun g key => (g.removeDependency source key).2) g ++
      fresh.scanl (fun g key => (g.addDependency source key).2)
        (stale.foldl (fun g key => (g.removeDependency source key).2) g)

/-- The graphs that taking `key` away passes through: while its targets are left, and then while
its dependents are. -/
def removalCourse (g : DependencyGraph K) (key : K) : List (DependencyGraph K) :=
  let targets := g.dependencies key
  let g := { g with forward := g.forward.erase key }
  let left := targets.foldl (leaveTarget key) g
  targets.scanl (leaveTarget key) g ++
    (left.dependents key).scanl (leaveDependent key) { left with reverse := left.reverse.erase key }

/-- The graphs that an operation passes through, the last of which is its result. -/
def course (g : DependencyGraph K) : Edit K → List (DependencyGraph K)
  | .addNode key => [(g.addNode key).2]
  | .addDependency source target => [(g.addDependency source target).2]
  | .removeDependency source target => [(g.removeDependency source target).2]
  | .replaceDependencies source targets => replacementCourse g source targets
  | .removeKey key => removalCourse g key ++ [(g.removeKey key).2]

theorem getLast?_replacementCourse (g : DependencyGraph K) (source : K) (targets : List K) :
    (replacementCourse g source targets).getLast? =
      some (g.replaceDependencies source targets).2 := by
  rw [replacementCourse, DependencyGraph.replaceDependencies]
  simp only
  split
  · rfl
  · rw [List.getLast?_append, List.getLast?_scanl]
    rfl

theorem getLast?_course (g : DependencyGraph K) (edit : Edit K) :
    (edit.course g).getLast? = some (edit.apply g).2 := by
  cases edit with
  | replaceDependencies source targets => exact getLast?_replacementCourse g source targets
  | removeKey key => exact List.getLast?_concat
  | _ => rfl

end Edit

namespace DependencyGraph

/-- What holds of the two indices, the nodes and the count of a graph. -/
structure Consistent (g : DependencyGraph K) : Prop where
  /-- The indices mirror each other. -/
  mirror : ∀ a b, b ∈ g.dependencies a ↔ a ∈ g.dependents b
  /-- No list of dependencies is stored empty or names a key twice. -/
  forward : g.forward.Proper
  /-- No list of dependents is stored empty or names a key twice. -/
  reverse : g.reverse.Proper
  /-- Only nodes occur in the index of the dependencies. -/
  forward_nodes : ∀ key keys, g.forward.get? key = some keys →
    key ∈ g.nodes ∧ ∀ q ∈ keys, q ∈ g.nodes
  /-- Only nodes occur in the index of the dependents. -/
  reverse_nodes : ∀ key keys, g.reverse.get? key = some keys →
    key ∈ g.nodes ∧ ∀ q ∈ keys, q ∈ g.nodes
  /-- The count is the total length of the lists of dependencies. -/
  count_forward : g.edgeCount = g.forward.total
  /-- The count is the total length of the lists of dependents. -/
  count_reverse : g.edgeCount = g.reverse.total

/-- The indices describe one relation, and the count is the number of its pairs. -/
structure Counted (g : DependencyGraph K) : Prop extends g.Sound where
  /-- The count is the total length of the lists of dependencies. -/
  count : g.edgeCount = g.forward.total

theorem Counted.nonneg {g : DependencyGraph K} (h : g.Counted) : 0 ≤ g.edgeCount := by
  rw [h.count]
  exact Int.natCast_nonneg _

/-- A list that is stored has an element, so that its key is at an end of a dependency. -/
theorem Counted.consistent [Std.LawfulEqOrd K] {g : DependencyGraph K} (h : g.Counted) :
    g.Consistent where
  mirror _ _ := h.mirror
  forward := h.forward
  reverse := h.reverse
  forward_nodes key keys hk := by
    have hmem : ∀ q ∈ keys, q ∈ g.dependencies key := fun q hq => Adjacency.mem_of_iff.2 ⟨_, hk, hq⟩
    obtain ⟨q, hq⟩ := List.exists_mem_of_ne_nil _ (h.forward key keys hk).1
    exact ⟨h.source (hmem q hq), fun q hq => h.target (hmem q hq)⟩
  reverse_nodes key keys hk := by
    have hmem : ∀ q ∈ keys, key ∈ g.dependencies q := fun q hq =>
      h.mirror.2 (Adjacency.mem_of_iff.2 ⟨_, hk, hq⟩)
    obtain ⟨q, hq⟩ := List.exists_mem_of_ne_nil _ (h.reverse key keys hk).1
    exact ⟨h.target (hmem q hq), fun q hq => h.source (hmem q hq)⟩
  count_forward := h.count
  count_reverse := by rw [h.count, h.forward.total_mirror h.reverse fun _ _ => h.mirror]

theorem counted_empty : (empty : DependencyGraph K).Counted := ⟨sound_empty, rfl⟩

variable [Std.LawfulEqOrd K] [Std.TransOrd K]

/-! ### One dependency more or less -/

theorem Counted.addNode {g : DependencyGraph K} (h : g.Counted) (key : K) :
    (g.addNode key).2.Counted := ⟨h.toSound.addNode key, h.count⟩

theorem Counted.addDependency {g : DependencyGraph K} (h : g.Counted) (source target : K) :
    (g.addDependency source target).2.Counted := by
  refine ⟨h.toSound.addDependency source target, ?_⟩
  by_cases ht : target ∈ g.dependencies source
  · rw [addDependency_of_mem ht]
    exact h.count
  · rw [addDependency_of_not_mem ht]
    simp only [h.forward.total_link ht, h.count]
    omega

theorem Counted.removeDependency {g : DependencyGraph K} (h : g.Counted) (source target : K) :
    (g.removeDependency source target).2.Counted := by
  refine ⟨h.toSound.removeDependency source target, ?_⟩
  rw [DependencyGraph.removeDependency]
  split
  · rename_i ht
    have := h.forward.total_unlink ht
    simp only [h.count]
    omega
  · exact h.count

/-- Every graph on the way to other dependencies is counted. -/
theorem Counted.replacementCourse {g : DependencyGraph K} (h : g.Counted) (source : K)
    (targets : List K) : ∀ passed ∈ Edit.replacementCourse g source targets, passed.Counted := by
  have hadd : ({ g with nodes := g.nodes.insert source } : DependencyGraph K).Counted :=
    h.addNode source
  intro passed hp
  rw [Edit.replacementCourse] at hp
  simp only at hp
  split at hp
  · exact List.mem_singleton.1 hp ▸ hadd
  · obtain ⟨hstale, hkept⟩ := forall_mem_scanl (P := fun (g : DependencyGraph K) _ => g.Counted)
      (fun _ key _ hg => hg.removeDependency source key) hadd
    obtain ⟨hfresh, -⟩ := forall_mem_scanl (P := fun (g : DependencyGraph K) _ => g.Counted)
      (fun _ key _ hg => hg.addDependency source key) hkept
    rcases List.mem_append.1 hp with hp | hp
    · exact (hstale passed hp).elim fun _ hc => hc
    · exact (hfresh passed hp).elim fun _ hc => hc

theorem Counted.replaceDependencies {g : DependencyGraph K} (h : g.Counted) (source : K)
    (targets : List K) : (g.replaceDependencies source targets).2.Counted :=
  h.replacementCourse source targets _
    (List.mem_of_getLast? (Edit.getLast?_replacementCourse g source targets))

/-! ### Taking a key away -/

/-- The count is ahead of the total length of the lists of dependencies by the number of targets
still to be left. -/
def Ahead (g : DependencyGraph K) (targets : List K) : Prop :=
  g.forward.Proper ∧ g.edgeCount = g.forward.total + targets.length

theorem Ahead.leaveTarget {g : DependencyGraph K} {key target : K} {rest : List K}
    (h : g.Ahead (target :: rest)) : (leaveTarget key g target).Ahead rest := by
  obtain ⟨hp, hc⟩ := h
  refine ⟨hp, ?_⟩
  rw [List.length_cons] at hc
  simp only [DependencyGraph.leaveTarget]
  omega

theorem Ahead.leaveDependent {g : DependencyGraph K} {key : K} (h : g.Ahead []) (dependent : K) :
    (leaveDependent key g dependent).Ahead [] := by
  obtain ⟨hp, hc⟩ := h
  refine ⟨forward_leaveDependent hp dependent, ?_⟩
  rw [DependencyGraph.leaveDependent]
  split
  · rename_i hk
    have := hp.total_unlink hk
    simp only [List.length_nil] at hc ⊢
    omega
  · exact hc

/-- Every graph on the way to one without `key` is ahead by some number of targets, and the last one
by none. -/
theorem Counted.removalCourse {g : DependencyGraph K} (h : g.Counted) (key : K) :
    (∀ passed ∈ Edit.removalCourse g key, ∃ rest, passed.Ahead rest) ∧
      (g.removeKey key).2.Ahead [] := by
  have hstart : DependencyGraph.Ahead { g with forward := g.forward.erase key }
      (g.dependencies key) := by
    refine ⟨h.forward.erase key, ?_⟩
    have := h.forward.total_erase key
    simp only [h.count, dependencies]
    omega
  have htarget : ∀ (g : DependencyGraph K) target rest, g.Ahead (target :: rest) →
      (DependencyGraph.leaveTarget key g target).Ahead rest := fun _ _ _ => Ahead.leaveTarget
  obtain ⟨htargets, hleft⟩ := forall_mem_scanl htarget hstart
  rw [Edit.removalCourse, removeKey]
  simp only
  generalize (g.dependencies key).foldl (leaveTarget key) _ = left at hleft ⊢
  have hturn : DependencyGraph.Ahead { left with reverse := left.reverse.erase key } [] := hleft
  have hdependent : ∀ (g : DependencyGraph K) dependent (_ : List K), g.Ahead [] →
      (DependencyGraph.leaveDependent key g dependent).Ahead [] := fun _ dependent _ ha =>
    ha.leaveDependent dependent
  obtain ⟨hdependents, hlast⟩ := forall_mem_scanl (P := fun (g : DependencyGraph K) _ => g.Ahead [])
    (l := left.dependents key) hdependent hturn
  refine ⟨fun passed hp => ?_, hlast⟩
  rcases List.mem_append.1 hp with hp | hp
  · exact htargets passed hp
  · exact ⟨[], (hdependents passed hp).elim fun _ ha => ha⟩

theorem Counted.removeKey {g : DependencyGraph K} (h : g.Counted) (key : K) :
    (g.removeKey key).2.Counted :=
  ⟨h.toSound.removeKey key, (h.removalCourse key).2.2⟩

/-! ### Built graphs -/

theorem Built.counted {g : DependencyGraph K} (h : g.Built) : g.Counted := by
  induction h with
  | empty => exact counted_empty
  | addNode _ key ih => exact ih.addNode key
  | addDependency _ source target ih => exact ih.addDependency source target
  | removeDependency _ source target ih => exact ih.removeDependency source target
  | replaceDependencies _ source targets ih => exact ih.replaceDependencies source targets
  | removeKey _ key ih => exact ih.removeKey key

/-- No graph that an operation passes through has a count below zero. -/
theorem Counted.course_nonneg {g : DependencyGraph K} (h : g.Counted) (edit : Edit K) :
    ∀ passed ∈ edit.course g, 0 ≤ passed.edgeCount := by
  intro passed hp
  cases edit with
  | addNode key => exact List.mem_singleton.1 hp ▸ (h.addNode key).nonneg
  | addDependency source target =>
    exact List.mem_singleton.1 hp ▸ (h.addDependency source target).nonneg
  | removeDependency source target =>
    exact List.mem_singleton.1 hp ▸ (h.removeDependency source target).nonneg
  | replaceDependencies source targets =>
    exact (h.replacementCourse source targets passed hp).nonneg
  | removeKey key =>
    rcases List.mem_append.1 hp with hp | hp
    · obtain ⟨rest, -, hc⟩ := (h.removalCourse key).1 passed hp
      omega
    · exact List.mem_singleton.1 hp ▸ (h.removeKey key).nonneg

/-- **The representation of a built graph** is consistent, and no operation on it counts below
zero, in the middle of its steps as little as at their end. -/
theorem Built.represented {g : DependencyGraph K} (h : g.Built) :
    g.Consistent ∧ ∀ edit : Edit K, (edit.course g).getLast? = some (edit.apply g).2 ∧
      ∀ passed ∈ edit.course g, 0 ≤ passed.edgeCount :=
  ⟨h.counted.consistent, fun edit => ⟨Edit.getLast?_course g edit, h.counted.course_nonneg edit⟩⟩

open EvaluationOrder (tangled built_tangled)

/-- Taking away a key with one target and two dependents counts down by one for each of them. -/
theorem represented_tangled :
    tangled.Built ∧ tangled.Consistent ∧
      ((Edit.removeKey 2).course tangled).map edgeCount = [5, 4, 4, 3, 2, 2] :=
  ⟨built_tangled, built_tangled.represented.1, by decide⟩

end DependencyGraph

end Recalc
