import Recalc.Proofs.Graph.Cycles
import Mathlib.Data.Set.Insert

/-!
# What the operations do to the relation

A graph stands for a set of nodes and a set of pairs of a node and one that it depends on
(`DependencyGraph.relation`). Each operation of a graph is an operation on this relation
(`Edit.perform`), whatever the order inside the lists, and tells whether it changed what it speaks
of (`Edit.Reports`): `Built.refines`.

The two indices and the order inside the lists do not occur here. That they describe the relation is
`DependencyGraph.Sound`, and every law used below is one of the laws of `Sound`.
-/

namespace Recalc

universe u

/-- Nodes, and pairs of a node and one that it depends on. -/
@[ext] structure DependencyRelation (K : Type u) where
  /-- The nodes. -/
  nodes : Set K
  /-- The pairs of a key and one that it depends on. -/
  pairs : Set (K × K)

/-- The pairs are pairs of nodes. -/
def DependencyRelation.OnNodes {K : Type u} (r : DependencyRelation K) : Prop :=
  ∀ a b, (a, b) ∈ r.pairs → a ∈ r.nodes ∧ b ∈ r.nodes

/-- An operation that can change a graph. -/
inductive Edit (K : Type u) where
  /-- Makes a key a node. -/
  | addNode (key : K)
  /-- Makes a key depend on another one. -/
  | addDependency (source target : K)
  /-- Takes the dependency of a key on another one away. -/
  | removeDependency (source target : K)
  /-- Makes a key depend on exactly the listed ones. -/
  | replaceDependencies (source : K) (targets : List K)
  /-- Takes a key away. -/
  | removeKey (key : K)

namespace Edit

variable {K : Type u}

/-- What an operation does to a relation. Keys that are made to depend on each other become nodes,
so that pairs are always pairs of nodes. -/
def perform : Edit K → DependencyRelation K → DependencyRelation K
  | .addNode key, r => { r with nodes := insert key r.nodes }
  | .addDependency source target, r =>
    { nodes := insert source (insert target r.nodes), pairs := insert (source, target) r.pairs }
  | .removeDependency source target, r => { r with pairs := r.pairs \ {(source, target)} }
  | .replaceDependencies source targets, r =>
    { nodes := insert source (r.nodes ∪ {q | q ∈ targets})
      pairs := {p | p.1 ≠ source ∧ p ∈ r.pairs ∨ p.1 = source ∧ p.2 ∈ targets} }
  | .removeKey key, r =>
    { nodes := r.nodes \ {key}, pairs := {p | p ∈ r.pairs ∧ p.1 ≠ key ∧ p.2 ≠ key} }

/-- What the answer of an operation tells: whether the node is new, or was there, or else whether
the pairs change. -/
def Reports : Edit K → DependencyRelation K → Prop
  | .addNode key, r => key ∉ r.nodes
  | .removeKey key, r => key ∈ r.nodes
  | edit, r => (edit.perform r).pairs ≠ r.pairs

/-- The operations keep a relation one between its nodes. -/
theorem onNodes_perform {r : DependencyRelation K} (h : r.OnNodes) (edit : Edit K) :
    (edit.perform r).OnNodes := by
  intro a b hab
  cases edit with
  | addNode key => exact ⟨.inr (h a b hab).1, .inr (h a b hab).2⟩
  | addDependency source target =>
    rcases hab with hnew | hold
    · obtain ⟨rfl, rfl⟩ := Prod.mk.inj hnew
      exact ⟨.inl rfl, .inr (.inl rfl)⟩
    · exact ⟨.inr (.inr (h a b hold).1), .inr (.inr (h a b hold).2)⟩
  | removeDependency source target => exact h a b hab.1
  | replaceDependencies source targets =>
    rcases hab with ⟨-, hold⟩ | ⟨hs, ht⟩
    · exact ⟨.inr (.inl (h a b hold).1), .inr (.inl (h a b hold).2)⟩
    · exact ⟨.inl hs, .inr (.inr ht)⟩
  | removeKey key =>
    obtain ⟨hold, ha, hb⟩ := hab
    exact ⟨⟨(h a b hold).1, ha⟩, (h a b hold).2, hb⟩

variable [Ord K] [DecidableEq K] [Std.LawfulEqOrd K] [Std.TransOrd K]

/-- Carries an operation out on a graph. -/
def apply (g : DependencyGraph K) : Edit K → Bool × DependencyGraph K
  | .addNode key => g.addNode key
  | .addDependency source target => g.addDependency source target
  | .removeDependency source target => g.removeDependency source target
  | .replaceDependencies source targets => g.replaceDependencies source targets
  | .removeKey key => g.removeKey key

end Edit

namespace DependencyGraph

open EvaluationOrder (tangled built_tangled)

variable {K : Type u} [Ord K] [DecidableEq K]

/-- The relation that a graph stands for. -/
def relation (g : DependencyGraph K) : DependencyRelation K where
  nodes := {key | key ∈ g.nodes}
  pairs := {p | p.2 ∈ g.dependencies p.1}

theorem relation_empty : (empty : DependencyGraph K).relation = ⟨∅, ∅⟩ := by
  ext q
  · exact iff_of_false (SortedSet.not_mem_empty q) (Set.notMem_empty q)
  · exact iff_of_false List.not_mem_nil (Set.notMem_empty q)

variable [Std.LawfulEqOrd K] [Std.TransOrd K]

/-! ### Nodes and pairs afterwards -/

theorem relation_addNode (g : DependencyGraph K) (key : K) :
    (g.addNode key).2.relation = (Edit.addNode key).perform g.relation := by
  ext q
  · exact mem_nodes_addNode
  · exact Iff.rfl

theorem relation_addDependency (g : DependencyGraph K) (source target : K) :
    (g.addDependency source target).2.relation =
      (Edit.addDependency source target).perform g.relation := by
  ext q
  · refine mem_nodes_addDependency.trans ?_
    simp only [Edit.perform, relation, Set.mem_insert_iff, Set.mem_ofPred_eq, or_left_comm]
  · refine mem_dependencies_addDependency.trans ?_
    simp only [Edit.perform, relation, Set.mem_insert_iff, Set.mem_ofPred_eq, Prod.ext_iff, or_comm]

theorem Sound.relation_removeDependency {g : DependencyGraph K} (h : g.Sound) (source target : K) :
    (g.removeDependency source target).2.relation =
      (Edit.removeDependency source target).perform g.relation := by
  ext q
  · simp only [relation, nodes_removeDependency, Edit.perform]
  · refine h.mem_dependencies_removeDependency.trans ?_
    simp only [Edit.perform, relation, Set.mem_sdiff, Set.mem_ofPred_eq, Set.mem_singleton_iff,
      Prod.ext_iff]

theorem Sound.relation_replaceDependencies {g : DependencyGraph K} (h : g.Sound) (source : K)
    (targets : List K) : (g.replaceDependencies source targets).2.relation =
      (Edit.replaceDependencies source targets).perform g.relation := by
  obtain ⟨-, hn, hd⟩ := h.replaceDependencies_spec source targets
  ext q
  · exact hn q
  · refine (hd q.1 q.2).trans ?_
    simp only [Edit.perform, relation, Set.mem_ofPred_eq]
    split <;> simp_all

theorem Sound.relation_removeKey {g : DependencyGraph K} (h : g.Sound) (key : K) :
    (g.removeKey key).2.relation = (Edit.removeKey key).perform g.relation := by
  ext q
  · refine h.mem_nodes_removeKey.trans ?_
    simp only [Edit.perform, relation, Set.mem_sdiff, Set.mem_ofPred_eq, Set.mem_singleton_iff,
      and_comm]
  · exact h.mem_dependencies_removeKey

/-- Each operation does to the relation what it is meant to do. -/
theorem Sound.relation_apply {g : DependencyGraph K} (h : g.Sound) (edit : Edit K) :
    (edit.apply g).2.relation = edit.perform g.relation := by
  cases edit with
  | addNode key => exact relation_addNode g key
  | addDependency source target => exact relation_addDependency g source target
  | removeDependency source target => exact h.relation_removeDependency source target
  | replaceDependencies source targets => exact h.relation_replaceDependencies source targets
  | removeKey key => exact h.relation_removeKey key

/-! ### Answers -/

omit [Std.LawfulEqOrd K] [Std.TransOrd K] in
/-- Pairs that differ differ in the dependencies of some key. -/
theorem pairs_ne_iff {g g' : DependencyGraph K} : g'.relation.pairs ≠ g.relation.pairs ↔
    ∃ a b, ¬ (b ∈ g'.dependencies a ↔ b ∈ g.dependencies a) := by
  rw [Ne, Set.ext_iff, not_forall]
  exact ⟨fun ⟨p, hp⟩ => ⟨p.1, p.2, hp⟩, fun ⟨a, b, hab⟩ => ⟨(a, b), hab⟩⟩

theorem addNode_fst (g : DependencyGraph K) (key : K) :
    (g.addNode key).1 = true ↔ key ∉ g.nodes := by
  rw [addNode, Bool.not_eq_true', contains, ← Bool.not_eq_true, SortedSet.contains_eq_true_iff]

theorem removeKey_fst (g : DependencyGraph K) (key : K) :
    (g.removeKey key).1 = true ↔ key ∈ g.nodes := SortedSet.contains_eq_true_iff

theorem addDependency_fst (g : DependencyGraph K) (source target : K) :
    (g.addDependency source target).1 = true ↔ target ∉ g.dependencies source := by
  by_cases ht : target ∈ g.dependencies source
  · have : (g.addDependency source target).1 = false := congrArg Prod.fst (if_pos ht)
    simp [this, ht]
  · have : (g.addDependency source target).1 = true := congrArg Prod.fst (if_neg ht)
    simp [this, ht]

theorem removeDependency_fst (g : DependencyGraph K) (source target : K) :
    (g.removeDependency source target).1 = true ↔ target ∈ g.dependencies source := by
  rw [removeDependency]
  split <;> simp_all

/-- The test for a change, by length and inclusion, sees exactly whether the targets are other keys
than the dependencies, since neither list names a key twice. -/
theorem Sound.replaceDependencies_fst {g : DependencyGraph K} (h : g.Sound) (source : K)
    (targets : List K) : (g.replaceDependencies source targets).1 = true ↔
      ¬ ∀ key, key ∈ g.dependencies source ↔ key ∈ targets := by
  have hsame : (∀ key, key ∈ g.dependencies source ↔ key ∈ targets) ↔
      (g.dependencies source).length = (distinct targets).length ∧
        ∀ key ∈ g.dependencies source, key ∈ distinct targets := by
    constructor
    · intro he
      have hperm : (g.dependencies source).Perm (distinct targets) :=
        (List.perm_ext_iff_of_nodup (h.nodup_dependencies source) (nodup_distinct targets)).2
          fun key => (he key).trans mem_distinct.symm
      exact ⟨hperm.length_eq, fun key => hperm.mem_iff.1⟩
    · rintro ⟨hl, hs⟩ key
      exact (mem_iff_of_subset_of_length (h.nodup_dependencies source) hl hs key).trans
        mem_distinct
  have hdep : DependencyGraph.dependencies { g with nodes := g.nodes.insert source } source =
    g.dependencies source := rfl
  rw [hsame, replaceDependencies]
  simp only [hdep]
  split <;> simp_all

/-- Each operation answers as it is meant to. -/
theorem Sound.apply_fst {g : DependencyGraph K} (h : g.Sound) (edit : Edit K) :
    (edit.apply g).1 = true ↔ edit.Reports g.relation := by
  have hpairs := h.relation_apply edit
  cases edit with
  | addNode key => exact addNode_fst g key
  | removeKey key => exact removeKey_fst g key
  | addDependency source target =>
    change _ ↔ ((Edit.addDependency source target).perform g.relation).pairs ≠ _
    rw [← hpairs, pairs_ne_iff]
    simp only [Edit.apply, addDependency_fst, mem_dependencies_addDependency]
    grind
  | removeDependency source target =>
    change _ ↔ ((Edit.removeDependency source target).perform g.relation).pairs ≠ _
    rw [← hpairs, pairs_ne_iff]
    simp only [Edit.apply, removeDependency_fst, h.mem_dependencies_removeDependency]
    grind
  | replaceDependencies source targets =>
    change _ ↔ ((Edit.replaceDependencies source targets).perform g.relation).pairs ≠ _
    rw [← hpairs, pairs_ne_iff]
    simp only [Edit.apply, h.replaceDependencies_fst,
      (h.replaceDependencies_spec source targets).2.2]
    grind

/-! ### Runs -/

/-- The operations make built graphs out of built graphs. -/
theorem Built.apply {g : DependencyGraph K} (h : g.Built) (edit : Edit K) :
    (edit.apply g).2.Built := by
  cases edit with
  | addNode key => exact h.addNode key
  | addDependency source target => exact h.addDependency source target
  | removeDependency source target => exact h.removeDependency source target
  | replaceDependencies source targets => exact h.replaceDependencies source targets
  | removeKey key => exact h.removeKey key

/-- The built graphs are those that some list of operations makes out of the empty one. -/
theorem built_iff {g : DependencyGraph K} :
    g.Built ↔ ∃ edits : List (Edit K), edits.foldl (fun g edit => (edit.apply g).2) .empty = g := by
  constructor
  · intro h
    have more {g : DependencyGraph K} (edit : Edit K) :
        (∃ edits : List (Edit K), edits.foldl (fun g edit => (edit.apply g).2) .empty = g) →
          ∃ edits : List (Edit K),
            edits.foldl (fun g edit => (edit.apply g).2) .empty = (edit.apply g).2 := by
      rintro ⟨edits, rfl⟩
      exact ⟨edits ++ [edit], by rw [List.foldl_append]; rfl⟩
    induction h with
    | empty => exact ⟨[], rfl⟩
    | addNode _ key ih => exact more (.addNode key) ih
    | addDependency _ source target ih => exact more (.addDependency source target) ih
    | removeDependency _ source target ih => exact more (.removeDependency source target) ih
    | replaceDependencies _ source targets ih => exact more (.replaceDependencies source targets) ih
    | removeKey _ key ih => exact more (.removeKey key) ih
  · rintro ⟨edits, rfl⟩
    exact List.foldlRecOn edits _ .empty fun _ h edit _ => h.apply edit

/-- A list of operations makes out of a graph what it makes out of the relation. -/
theorem Built.relation_foldl_apply {g : DependencyGraph K} (h : g.Built) (edits : List (Edit K)) :
    (edits.foldl (fun g edit => (edit.apply g).2) g).relation =
      edits.foldl (fun r edit => edit.perform r) g.relation := by
  induction edits generalizing g with
  | nil => rfl
  | cons edit edits ih =>
    rw [List.foldl_cons, List.foldl_cons, ih (h.apply edit), h.sound.relation_apply edit]

/-- Operations make out of the empty graph what they make out of the empty relation. -/
theorem relation_foldl_apply_empty (edits : List (Edit K)) :
    (edits.foldl (fun g edit => (edit.apply g).2) empty).relation =
      edits.foldl (fun r edit => edit.perform r) ⟨∅, ∅⟩ := by
  rw [Built.empty.relation_foldl_apply, relation_empty]

/-- A built graph stands for a relation between its nodes. -/
theorem Built.onNodes_relation {g : DependencyGraph K} (h : g.Built) : g.relation.OnNodes := by
  obtain ⟨edits, rfl⟩ := built_iff.1 h
  rw [relation_foldl_apply_empty]
  exact List.foldlRecOn edits _ (fun _ _ hab => hab.elim) fun _ hr edit _ =>
    Edit.onNodes_perform hr edit

/-- **An operation on a built graph**, which stands for a relation between its nodes, does to its
nodes and pairs what it is meant to do, and nothing else, and answers whether it changed what it
speaks of. -/
theorem Built.refines {g : DependencyGraph K} (h : g.Built) (edit : Edit K) :
    g.relation.OnNodes ∧ (edit.apply g).2.relation = edit.perform g.relation ∧
      ((edit.apply g).1 = true ↔ edit.Reports g.relation) :=
  ⟨h.onNodes_relation, h.sound.relation_apply edit, h.sound.apply_fst edit⟩

/-- New targets with a repetition, one of them a key that depends on itself. -/
theorem refines_tangled :
    tangled.Built ∧
      ((Edit.replaceDependencies 3 [6, 1, 6]).apply tangled).2.relation =
        (Edit.replaceDependencies 3 [6, 1, 6]).perform tangled.relation ∧
      (Edit.replaceDependencies 3 [6, 1, 6]).Reports tangled.relation :=
  have h := built_tangled.refines (.replaceDependencies 3 [6, 1, 6])
  ⟨built_tangled, h.2.1, h.2.2.1 (by decide)⟩

end DependencyGraph

end Recalc
