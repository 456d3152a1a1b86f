import Recalc.Graph.Basic
import Recalc.Proofs.Collection.Sorted
import Mathlib.Data.List.Perm.Subperm

/-!
# A graph is a set of nodes with a relation

`DependencyGraph.Sound` says that the two indices of a graph describe one relation between its
nodes: `b` is among the dependencies of `a` exactly if `a` is among the dependents of `b`, no list
names a key twice, and whatever a list mentions is a node.

Every operation keeps a graph sound. What it does is said by two laws, one about the nodes and one
about the dependencies, so that nothing later looks into the indices.
-/

namespace Recalc

universe u

/-! ### Taking an element out of a list -/

section SwapErase

variable {K : Type u} [DecidableEq K]

theorem swapErase_concat (key last : K) (init : List K) :
    swapErase key (init ++ [last]) =
      if key ∈ init then init.replace key last
      else if last = key then init else init ++ [last] := by
  rw [swapErase, List.getLast?_concat]
  simp only [List.dropLast_concat]

/-- Replacing an element of a list without repetitions by a new one exchanges the two. -/
theorem mem_replace_iff {keys : List K} (h : keys.Nodup) {key new q : K} (hk : key ∈ keys) :
    q ∈ keys.replace key new ↔ q = new ∨ q ∈ keys ∧ q ≠ key := by
  induction keys with
  | nil => simp at hk
  | cons a keys ih =>
    have ⟨ha, hn⟩ := List.nodup_cons.1 h
    rw [List.replace_cons]
    by_cases hka : key = a
    · subst hka
      simp only [beq_self_eq_true, List.mem_cons]
      constructor
      · rintro (rfl | hq)
        · exact .inl rfl
        · exact .inr ⟨.inr hq, fun e => ha (e ▸ hq)⟩
      · rintro (rfl | ⟨rfl | hq, hne⟩)
        · exact .inl rfl
        · exact absurd rfl hne
        · exact .inr hq
    · have hk' : key ∈ keys := (List.mem_cons.1 hk).resolve_left hka
      have hb : (key == a) = false := beq_eq_false_iff_ne.2 hka
      simp only [hb, List.mem_cons]
      rw [ih hn hk']
      constructor
      · rintro (rfl | rfl | hq)
        · exact .inr ⟨.inl rfl, Ne.symm hka⟩
        · exact .inl rfl
        · exact .inr ⟨.inr hq.1, hq.2⟩
      · rintro (rfl | ⟨rfl | hq, hne⟩)
        · exact .inr (.inl rfl)
        · exact .inl rfl
        · exact .inr (.inr ⟨hq, hne⟩)

theorem nodup_replace {keys : List K} (h : keys.Nodup) {key new : K} (hn : new ∉ keys) :
    (keys.replace key new).Nodup := by
  induction keys with
  | nil => simp
  | cons a keys ih =>
    have ⟨ha, hkeys⟩ := List.nodup_cons.1 h
    have hnew : new ∉ keys := fun hm => hn (List.mem_cons_of_mem _ hm)
    rw [List.replace_cons]
    split
    · exact List.nodup_cons.2 ⟨hnew, hkeys⟩
    · refine List.nodup_cons.2 ⟨fun hm => ?_, ih hkeys hnew⟩
      by_cases hk : key ∈ keys
      · rcases (mem_replace_iff hkeys hk).1 hm with rfl | hq
        · exact hn List.mem_cons_self
        · exact ha hq.1
      · rw [List.replace_of_not_mem hk] at hm
        exact ha hm

/-- What is left of a list without repetitions: all other elements, still each once. -/
theorem nodup_swapErase {keys : List K} (h : keys.Nodup) (key : K) :
    (swapErase key keys).Nodup := by
  rcases List.eq_nil_or_concat keys with rfl | ⟨init, last, rfl⟩
  · simp [swapErase]
  · rw [List.concat_eq_append] at h ⊢
    obtain ⟨hinit, -, hlast⟩ := List.nodup_append.1 h
    rw [swapErase_concat]
    split
    · exact nodup_replace hinit fun hm => hlast _ hm _ (by simp) rfl
    · split
      · exact hinit
      · exact h

theorem mem_swapErase {keys : List K} (h : keys.Nodup) {key q : K} :
    q ∈ swapErase key keys ↔ q ∈ keys ∧ q ≠ key := by
  rcases List.eq_nil_or_concat keys with rfl | ⟨init, last, rfl⟩
  · simp [swapErase]
  · rw [List.concat_eq_append] at h ⊢
    obtain ⟨hinit, -, hlast⟩ := List.nodup_append.1 h
    rw [swapErase_concat, List.mem_append, List.mem_singleton]
    by_cases hk : key ∈ init
    · have hne : last ≠ key := fun e => hlast _ hk _ (by simp) e.symm
      rw [if_pos hk, mem_replace_iff hinit hk]
      constructor
      · rintro (rfl | hq)
        · exact ⟨.inr rfl, hne⟩
        · exact ⟨.inl hq.1, hq.2⟩
      · rintro ⟨hq | rfl, hne'⟩
        · exact .inr ⟨hq, hne'⟩
        · exact .inl rfl
    · rw [if_neg hk]
      split
      · rename_i he
        subst he
        exact ⟨fun hq => ⟨.inl hq, fun e => hk (e ▸ hq)⟩, fun hq => hq.1.resolve_right hq.2⟩
      · rename_i hne
        rw [List.mem_append, List.mem_singleton]
        refine ⟨fun hq => ⟨hq, ?_⟩, And.left⟩
        rintro rfl
        exact hq.elim hk fun e => hne e.symm

end SwapErase

/-- A list without repetitions that is as long as another and lies in it holds the same keys. -/
theorem mem_iff_of_subset_of_length {K : Type u} {old new : List K} (ho : old.Nodup)
    (hl : old.length = new.length) (hs : ∀ key ∈ old, key ∈ new) (key : K) :
    key ∈ old ↔ key ∈ new :=
  ((ho.subperm hs).perm_of_length_le (Nat.le_of_eq hl.symm)).mem_iff

namespace Adjacency

variable {K : Type u} [Ord K] [DecidableEq K]

/-- No list is stored empty, and none names a key twice. -/
def Proper (m : Adjacency K) : Prop :=
  ∀ key keys, m.get? key = some keys → keys ≠ [] ∧ keys.Nodup

theorem proper_empty : Proper (SortedMap.empty : Adjacency K) := by
  intro key keys h
  simp at h

theorem Proper.nodup_of {m : Adjacency K} (h : m.Proper) (key : K) : (m.of key).Nodup := by
  rw [of, SortedMap.getD]
  cases hk : m.get? key with
  | none => exact List.nodup_nil
  | some keys => exact (h key keys hk).2

theorem of_erase (m : Adjacency K) (key q : K) :
    Adjacency.of (m.erase key) q = if q = key then [] else m.of q := by
  simp only [of, SortedMap.getD, SortedMap.get?_erase]
  split <;> rfl

theorem Proper.erase {m : Adjacency K} (h : m.Proper) (key : K) : Proper (m.erase key) := by
  intro q keys hq
  rw [SortedMap.get?_erase] at hq
  split at hq
  · cases hq
  · exact h q keys hq

variable [Std.LawfulEqOrd K] [Std.TransOrd K]

theorem of_link (m : Adjacency K) (key neighbour q : K) :
    (m.link key neighbour).of q = if q = key then m.of key ++ [neighbour] else m.of q := by
  simp only [of, link, SortedMap.getD, SortedMap.get?_insert]
  split <;> rfl

theorem Proper.link {m : Adjacency K} (h : m.Proper) {key neighbour : K}
    (hn : neighbour ∉ m.of key) : (m.link key neighbour).Proper := by
  intro q keys hq
  rw [Adjacency.link, SortedMap.get?_insert] at hq
  split at hq
  · rw [← Option.some.inj hq]
    refine ⟨by simp, List.nodup_append.2 ⟨h.nodup_of key, by simp, ?_⟩⟩
    rintro a ha b hb rfl
    exact hn (List.mem_singleton.1 hb ▸ ha)
  · exact h q keys hq

theorem of_unlink (m : Adjacency K) (key neighbour q : K) :
    (m.unlink key neighbour).of q =
      if q = key then swapErase neighbour (m.of key) else m.of q := by
  cases hk : m.get? key with
  | none =>
    have hof : m.of key = [] := by rw [of, SortedMap.getD, hk]; rfl
    have hun : m.unlink key neighbour = m := by rw [unlink, hk]
    rw [hun, hof]
    split
    · rename_i hq
      rw [hq, hof]
      rfl
    · rfl
  | some keys =>
    have hof : m.of key = keys := by rw [of, SortedMap.getD, hk]; rfl
    rw [hof]
    simp only [unlink, hk, of, SortedMap.getD]
    cases hs : swapErase neighbour keys with
    | nil =>
      simp only [SortedMap.get?_erase]
      split <;> rfl
    | cons a rest =>
      simp only [SortedMap.get?_insert]
      split <;> rfl

theorem Proper.unlink {m : Adjacency K} (h : m.Proper) (key neighbour : K) :
    (m.unlink key neighbour).Proper := by
  rw [Adjacency.unlink]
  cases hk : m.get? key with
  | none => exact h
  | some keys =>
    have hn := nodup_swapErase (h key keys hk).2 neighbour
    simp only
    cases hs : swapErase neighbour keys with
    | nil => exact h.erase key
    | cons a rest =>
      intro q list hq
      simp only [SortedMap.get?_insert] at hq
      split at hq
      · rw [← Option.some.inj hq]
        exact ⟨by simp, hs ▸ hn⟩
      · exact h q list hq

theorem Proper.mem_unlink {m : Adjacency K} (h : m.Proper) {key neighbour q a : K} :
    a ∈ (m.unlink key neighbour).of q ↔ a ∈ m.of q ∧ ¬ (q = key ∧ a = neighbour) := by
  rw [of_unlink]
  split
  · rename_i hq
    subst hq
    simp [mem_swapErase (h.nodup_of q)]
  · rename_i hq
    simp [hq]

/-- Taking one neighbour out of several lists keeps the lists proper. -/
theorem Proper.foldl_unlink {m : Adjacency K} (h : m.Proper) (neighbour : K) (keys : List K) :
    Proper (keys.foldl (fun m key => m.unlink key neighbour) m) := by
  induction keys generalizing m with
  | nil => exact h
  | cons key keys ih => exact ih (h.unlink key neighbour)

/-- Taking one neighbour out of several lists leaves everything else in place. -/
theorem Proper.mem_foldl_unlink {m : Adjacency K} (h : m.Proper) (neighbour : K) (keys : List K)
    {q a : K} : a ∈ Adjacency.of (keys.foldl (fun m key => m.unlink key neighbour) m) q ↔
      a ∈ m.of q ∧ ¬ (q ∈ keys ∧ a = neighbour) := by
  induction keys generalizing m with
  | nil => simp
  | cons key keys ih =>
    rw [List.foldl_cons, ih (h.unlink key neighbour), h.mem_unlink, List.mem_cons]
    grind

end Adjacency

namespace DependencyGraph

variable {K : Type u} [Ord K] [DecidableEq K]

/-- The two indices describe one relation between the nodes. -/
structure Sound (g : DependencyGraph K) : Prop where
  /-- The lists of dependencies are proper. -/
  forward : g.forward.Proper
  /-- The lists of dependents are proper. -/
  reverse : g.reverse.Proper
  /-- The indices mirror each other. -/
  mirror : ∀ {a b}, b ∈ g.dependencies a ↔ a ∈ g.dependents b
  /-- What depends on something is a node. -/
  source : ∀ {a b}, b ∈ g.dependencies a → a ∈ g.nodes
  /-- What something depends on is a node. -/
  target : ∀ {a b}, b ∈ g.dependencies a → b ∈ g.nodes

theorem sound_empty : (empty : DependencyGraph K).Sound where
  forward := Adjacency.proper_empty
  reverse := Adjacency.proper_empty
  mirror := iff_of_false List.not_mem_nil List.not_mem_nil
  source h := absurd h List.not_mem_nil
  target h := absurd h List.not_mem_nil

theorem Sound.nodup_dependencies {g : DependencyGraph K} (h : g.Sound) (key : K) :
    (g.dependencies key).Nodup := h.forward.nodup_of key

theorem Sound.nodup_dependents {g : DependencyGraph K} (h : g.Sound) (key : K) :
    (g.dependents key).Nodup := h.reverse.nodup_of key

variable [Std.LawfulEqOrd K] [Std.TransOrd K]

/-! ### Adding -/

theorem mem_nodes_addNode {g : DependencyGraph K} {key q : K} :
    q ∈ (g.addNode key).2.nodes ↔ q = key ∨ q ∈ g.nodes := SortedSet.mem_insert

theorem Sound.addNode {g : DependencyGraph K} (h : g.Sound) (key : K) :
    (g.addNode key).2.Sound where
  forward := h.forward
  reverse := h.reverse
  mirror := h.mirror
  source hb := mem_nodes_addNode.2 (.inr (h.source hb))
  target hb := mem_nodes_addNode.2 (.inr (h.target hb))

theorem addDependency_of_mem {g : DependencyGraph K} {source target : K}
    (h : target ∈ g.dependencies source) : (g.addDependency source target).2 =
      { g with nodes := (g.nodes.insert source).insert target } := by
  rw [addDependency]
  exact congrArg Prod.snd (if_pos h)

theorem addDependency_of_not_mem {g : DependencyGraph K} {source target : K}
    (h : target ∉ g.dependencies source) : (g.addDependency source target).2 =
      { nodes := (g.nodes.insert source).insert target
        forward := g.forward.link source target
        reverse := g.reverse.link target source
        edgeCount := g.edgeCount + 1 } := by
  rw [addDependency]
  exact congrArg Prod.snd (if_neg h)

theorem mem_nodes_addDependency {g : DependencyGraph K} {source target q : K} :
    q ∈ (g.addDependency source target).2.nodes ↔ q = target ∨ q = source ∨ q ∈ g.nodes := by
  rw [addDependency]
  split <;> simp

/-- Adding a dependency adds nothing else. -/
theorem mem_dependencies_addDependency {g : DependencyGraph K} {source target a b : K} :
    b ∈ (g.addDependency source target).2.dependencies a ↔
      b ∈ g.dependencies a ∨ a = source ∧ b = target := by
  by_cases ht : target ∈ g.dependencies source
  · rw [addDependency_of_mem ht]
    refine ⟨.inl, ?_⟩
    rintro (hb | ⟨rfl, rfl⟩)
    · exact hb
    · exact ht
  · rw [addDependency_of_not_mem ht]
    simp only [dependencies, Adjacency.of_link]
    split
    · rename_i ha
      simp [ha]
    · rename_i ha
      simp [ha]

theorem Sound.addDependency {g : DependencyGraph K} (h : g.Sound) (source target : K) :
    (g.addDependency source target).2.Sound := by
  by_cases ht : target ∈ g.dependencies source
  · rw [addDependency_of_mem ht]
    exact ⟨h.forward, h.reverse, h.mirror, fun hb => by simp [h.source hb],
      fun hb => by simp [h.target hb]⟩
  · have hs : source ∉ g.dependents target := fun hm => ht (h.mirror.2 hm)
    have hnodes {a b : K} (hb : b ∈ (g.addDependency source target).2.dependencies a) :
        a ∈ (g.addDependency source target).2.nodes ∧
          b ∈ (g.addDependency source target).2.nodes := by
      rw [mem_nodes_addDependency, mem_nodes_addDependency]
      rcases mem_dependencies_addDependency.1 hb with hb | ⟨rfl, rfl⟩
      · exact ⟨.inr (.inr (h.source hb)), .inr (.inr (h.target hb))⟩
      · exact ⟨.inr (.inl rfl), .inl rfl⟩
    rw [addDependency_of_not_mem ht] at hnodes ⊢
    refine ⟨h.forward.link ht, h.reverse.link hs, ?_, fun hb => (hnodes hb).1,
      fun hb => (hnodes hb).2⟩
    intro a b
    have hab : b ∈ g.forward.of a ↔ a ∈ g.reverse.of b := h.mirror
    simp only [dependencies, dependents, Adjacency.of_link]
    by_cases ha : a = source <;> by_cases hb : b = target <;> simp [ha, hb] <;>
      simpa [ha, hb] using hab

/-! ### Removing -/

/-- Removing a dependency removes nothing else. -/
theorem Sound.mem_dependencies_removeDependency {g : DependencyGraph K} (h : g.Sound)
    {source target a b : K} : b ∈ (g.removeDependency source target).2.dependencies a ↔
      b ∈ g.dependencies a ∧ ¬ (a = source ∧ b = target) := by
  rw [removeDependency]
  split
  · exact h.forward.mem_unlink
  · rename_i ht
    refine ⟨fun hb => ⟨hb, ?_⟩, And.left⟩
    rintro ⟨rfl, rfl⟩
    exact ht hb

theorem nodes_removeDependency (g : DependencyGraph K) (source target : K) :
    (g.removeDependency source target).2.nodes = g.nodes := by
  rw [removeDependency]
  split <;> rfl

theorem Sound.removeDependency {g : DependencyGraph K} (h : g.Sound) (source target : K) :
    (g.removeDependency source target).2.Sound := by
  have hnodes {a b : K} (hb : b ∈ (g.removeDependency source target).2.dependencies a) :=
    (h.mem_dependencies_removeDependency.1 hb).1
  refine ⟨?_, ?_, ?_, fun hb => ?_, fun hb => ?_⟩
  · rw [DependencyGraph.removeDependency]
    split
    · exact h.forward.unlink source target
    · exact h.forward
  · rw [DependencyGraph.removeDependency]
    split
    · exact h.reverse.unlink target source
    · exact h.reverse
  · intro a b
    rw [h.mem_dependencies_removeDependency, h.mirror, DependencyGraph.removeDependency]
    split
    · rw [and_comm (a := a = source)]
      exact h.reverse.mem_unlink.symm
    · rename_i ht
      refine ⟨And.left, fun hb => ⟨hb, ?_⟩⟩
      rintro ⟨rfl, rfl⟩
      exact ht (h.mirror.2 hb)
  · rw [nodes_removeDependency]
    exact h.source (hnodes hb)
  · rw [nodes_removeDependency]
    exact h.target (hnodes hb)

theorem foldl_leaveTarget (key : K) (g : DependencyGraph K) (targets : List K) :
    ∃ count, targets.foldl (leaveTarget key) g =
      { g with
        reverse := targets.foldl (fun m target => m.unlink target key) g.reverse
        edgeCount := count } := by
  induction targets generalizing g with
  | nil => exact ⟨g.edgeCount, rfl⟩
  | cons target targets ih => exact ih (leaveTarget key g target)

/-- What one step of leaving the dependents does to the lists of dependencies. -/
theorem mem_forward_leaveDependent {key : K} {g : DependencyGraph K} (h : g.forward.Proper)
    {dependent q a : K} : a ∈ (leaveDependent key g dependent).forward.of q ↔
      a ∈ g.forward.of q ∧ ¬ (q = dependent ∧ a = key) := by
  rw [leaveDependent]
  split
  · exact h.mem_unlink
  · rename_i hk
    refine ⟨fun ha => ⟨ha, ?_⟩, And.left⟩
    rintro ⟨rfl, rfl⟩
    exact hk ha

theorem forward_leaveDependent {key : K} {g : DependencyGraph K} (h : g.forward.Proper)
    (dependent : K) : (leaveDependent key g dependent).forward.Proper := by
  rw [leaveDependent]
  split
  · exact h.unlink dependent key
  · exact h

theorem foldl_leaveDependent (key : K) {g : DependencyGraph K} (h : g.forward.Proper)
    (dependents : List K) :
    let left := dependents.foldl (leaveDependent key) g
    left.nodes = g.nodes ∧ left.reverse = g.reverse ∧ left.forward.Proper ∧
      ∀ q a, a ∈ left.forward.of q ↔ a ∈ g.forward.of q ∧ ¬ (q ∈ dependents ∧ a = key) := by
  induction dependents generalizing g with
  | nil => exact ⟨rfl, rfl, h, fun q a => by simp⟩
  | cons dependent dependents ih =>
    obtain ⟨hn, hr, hf, hm⟩ := ih (forward_leaveDependent h dependent)
    have hkeep : (leaveDependent key g dependent).nodes = g.nodes ∧
        (leaveDependent key g dependent).reverse = g.reverse := by
      rw [leaveDependent]
      split <;> exact ⟨rfl, rfl⟩
    refine ⟨hn.trans hkeep.1, hr.trans hkeep.2, hf, fun q a => ?_⟩
    rw [List.foldl_cons, hm, mem_forward_leaveDependent h, List.mem_cons]
    grind

/-- The indices after a key was taken out. -/
theorem Sound.removeKey_indices {g : DependencyGraph K} (h : g.Sound) (key : K) :
    let left := (g.removeKey key).2
    left.nodes = g.nodes.erase key ∧ left.forward.Proper ∧ left.reverse.Proper ∧
      (∀ a b, b ∈ left.dependencies a ↔ b ∈ g.dependencies a ∧ a ≠ key ∧ b ≠ key) ∧
      (∀ a b, a ∈ left.dependents b ↔ a ∈ g.dependents b ∧ a ≠ key ∧ b ≠ key) := by
  obtain ⟨count, hleft⟩ := foldl_leaveTarget key { g with forward := g.forward.erase key }
    (g.dependencies key)
  have hrev := h.reverse.foldl_unlink key (g.dependencies key)
  have hmem {q a : K} := h.reverse.mem_foldl_unlink key (g.dependencies key) (q := q) (a := a)
  rw [removeKey]
  simp only [hleft]
  generalize hm : (g.dependencies key).foldl (fun m target => m.unlink target key) g.reverse = m
    at hrev hmem
  obtain ⟨hn, hr, hf, hd⟩ := foldl_leaveDependent key
    (g := ⟨g.nodes, g.forward.erase key, m.erase key, count⟩) (h.forward.erase key)
    (Adjacency.of m key)
  refine ⟨congrArg (·.erase key) hn, hf, hr ▸ hrev.erase key, fun a b => ?_, fun a b => ?_⟩
  · refine (hd a b).trans ?_
    have hab : b ∈ g.forward.of a ↔ a ∈ g.reverse.of b := h.mirror
    rw [hmem, Adjacency.of_erase]
    by_cases ha : a = key
    · simp [ha]
    · simp only [if_neg ha]
      refine ⟨fun hb => ⟨hb.1, ha, ?_⟩, fun hb => ⟨hb.1, fun hk => hb.2.2 hk.2⟩⟩
      rintro rfl
      exact hb.2 ⟨⟨hab.1 hb.1, fun hk => ha hk.2⟩, rfl⟩
  · have hof : ∀ list : Adjacency K, list = m.erase key → (a ∈ list.of b ↔
        a ∈ g.reverse.of b ∧ a ≠ key ∧ b ≠ key) := by
      rintro list rfl
      rw [Adjacency.of_erase]
      by_cases hb : b = key
      · simp [hb]
      · rw [if_neg hb, hmem]
        refine ⟨fun ha => ⟨ha.1, ?_, hb⟩, fun ha => ⟨ha.1, fun hk => ha.2.1 hk.2⟩⟩
        rintro rfl
        exact ha.2 ⟨h.mirror.2 ha.1, rfl⟩
    exact hof _ hr

theorem Sound.mem_nodes_removeKey {g : DependencyGraph K} (h : g.Sound) {key q : K} :
    q ∈ (g.removeKey key).2.nodes ↔ q ≠ key ∧ q ∈ g.nodes := by
  rw [(h.removeKey_indices key).1, SortedSet.mem_erase]

/-- Taking a key out takes its dependencies and those on it away, and nothing else. -/
theorem Sound.mem_dependencies_removeKey {g : DependencyGraph K} (h : g.Sound) {key a b : K} :
    b ∈ (g.removeKey key).2.dependencies a ↔ b ∈ g.dependencies a ∧ a ≠ key ∧ b ≠ key :=
  (h.removeKey_indices key).2.2.2.1 a b

theorem Sound.removeKey {g : DependencyGraph K} (h : g.Sound) (key : K) :
    (g.removeKey key).2.Sound := by
  obtain ⟨-, hf, hr, hd, hd'⟩ := h.removeKey_indices key
  refine ⟨hf, hr, fun {a b} => ?_, fun {a b} hb => ?_, fun {a b} hb => ?_⟩
  · rw [hd, hd', h.mirror]
  · have hb := (hd a b).1 hb
    exact h.mem_nodes_removeKey.2 ⟨hb.2.1, h.source hb.1⟩
  · have hb := (hd a b).1 hb
    exact h.mem_nodes_removeKey.2 ⟨hb.2.2, h.target hb.1⟩

/-! ### Replacing -/

/-- Removing dependencies of one key, one after another. -/
theorem Sound.foldl_removeDependency {g : DependencyGraph K} (h : g.Sound) (source : K)
    (targets : List K) :
    let left := targets.foldl (fun g key => (g.removeDependency source key).2) g
    left.Sound ∧ left.nodes = g.nodes ∧
      ∀ a b, b ∈ left.dependencies a ↔ b ∈ g.dependencies a ∧ ¬ (a = source ∧ b ∈ targets) := by
  induction targets generalizing g with
  | nil => exact ⟨h, rfl, fun a b => by simp⟩
  | cons target targets ih =>
    obtain ⟨hs, hn, hd⟩ := ih (h.removeDependency source target)
    refine ⟨hs, hn.trans (nodes_removeDependency g source target), fun a b => ?_⟩
    rw [List.foldl_cons, hd, h.mem_dependencies_removeDependency, List.mem_cons]
    grind

/-- Adding dependencies of one key, one after another. -/
theorem Sound.foldl_addDependency {g : DependencyGraph K} (h : g.Sound) (source : K)
    (hs : source ∈ g.nodes) (targets : List K) :
    let more := targets.foldl (fun g key => (g.addDependency source key).2) g
    more.Sound ∧ (∀ q, q ∈ more.nodes ↔ q ∈ g.nodes ∨ q ∈ targets) ∧
      ∀ a b, b ∈ more.dependencies a ↔ b ∈ g.dependencies a ∨ a = source ∧ b ∈ targets := by
  induction targets generalizing g with
  | nil => exact ⟨h, fun q => by simp, fun a b => by simp⟩
  | cons target targets ih =>
    obtain ⟨hsound, hn, hd⟩ := ih (h.addDependency source target)
      (mem_nodes_addDependency.2 (.inr (.inr hs)))
    refine ⟨hsound, fun q => ?_, fun a b => ?_⟩
    · rw [List.foldl_cons, hn, mem_nodes_addDependency, List.mem_cons]
      grind
    · rw [List.foldl_cons, hd, mem_dependencies_addDependency, List.mem_cons]
      grind

/-- All that replacing the dependencies of a key does. -/
theorem Sound.replaceDependencies_spec {g : DependencyGraph K} (h : g.Sound) (source : K)
    (targets : List K) :
    let new := (g.replaceDependencies source targets).2
    new.Sound ∧ (∀ q, q ∈ new.nodes ↔ q = source ∨ q ∈ g.nodes ∨ q ∈ targets) ∧
      ∀ a b, b ∈ new.dependencies a ↔ if a = source then b ∈ targets else b ∈ g.dependencies a := by
  have hadd : ({ g with nodes := g.nodes.insert source } : DependencyGraph K).Sound :=
    h.addNode source
  rw [replaceDependencies]
  simp only
  split
  · rename_i hc
    simp only [Bool.and_eq_true, decide_eq_true_eq, List.all_eq_true] at hc
    have hsame := mem_iff_of_subset_of_length (h.nodup_dependencies source) hc.1 hc.2
    refine ⟨hadd, fun q => ?_, fun a b => ?_⟩
    · simp only [SortedSet.mem_insert]
      refine ⟨fun hq => hq.imp_right .inl, ?_⟩
      rintro (hq | hq | hq)
      · exact .inl hq
      · exact .inr hq
      · exact .inr (h.target ((hsame q).2 (mem_distinct.2 hq)))
    · split
      · rename_i ha
        subst ha
        exact (hsame b).trans mem_distinct
      · exact Iff.rfl
  · obtain ⟨hs, hn, hd⟩ := hadd.foldl_removeDependency source
      ((g.dependencies source).filter fun key => key ∉ distinct targets)
    obtain ⟨hs', hn', hd'⟩ := hs.foldl_addDependency source
      (by rw [hn]; exact SortedSet.mem_insert.2 (.inl rfl))
      ((distinct targets).filter fun key => key ∉ g.dependencies source)
    refine ⟨hs', fun q => ?_, fun a b => ?_⟩
    · refine (hn' q).trans ?_
      rw [hn, SortedSet.mem_insert, List.mem_filter, mem_distinct, decide_eq_true_eq]
      have := h.target (a := source) (b := q)
      grind
    · refine (hd' a b).trans ?_
      rw [hd]
      simp only [List.mem_filter, mem_distinct, decide_eq_true_eq]
      have hdep : DependencyGraph.dependencies { g with nodes := g.nodes.insert source } a =
        g.dependencies a := rfl
      rw [hdep]
      by_cases ha : a = source
      · subst ha
        grind
      · simp [ha]

end DependencyGraph

end Recalc
