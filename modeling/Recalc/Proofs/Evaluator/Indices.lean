import Recalc.Proofs.Evaluator.Load
import Mathlib.Data.List.Perm.Basic

/-!
# The indices of a reached evaluator

What coherence says about an evaluator that a run of calls reaches, in terms of its components: the
known paths, the nodes of the graph, the stored values, the two indices of names and the
allocations are those of the tree (`Evaluator.Indexed`), and the dependency map is the one that a
new evaluator over the same records has (`Evaluator.Reaches.dependencyMap_reload`).
-/

namespace Recalc

namespace Evaluator

/-- Every index of the evaluator is what the tree says. -/
structure Indexed (e : Evaluator) : Prop where
  /-- The known paths are those of the tree. -/
  known : e.known = e.tree.knownPaths
  /-- The graph has one node for each known path. -/
  nodes : (e.graph.graph.keys.map e.graph.path).Perm e.known.paths.toList
  /-- The graph finds the known paths. -/
  contains : ∀ path, e.graph.contains path = e.known.contains path
  /-- The leaf paths of the records have values, and no other paths do. -/
  snapshot : ∀ path, e.snapshot.contains path = true ↔ ∃ r ∈ e.tree.toList, path ∈ r.leafPaths
  /-- Noted are the names in the record of an entity, if there are any. -/
  reads : ∀ name, e.reads.get? name =
    (e.tree.get? name).bind fun r =>
      if referencedRoots r = [] then none else some (referencedRoots r)
  /-- An entity is among the readers of those that it names. -/
  readers : ∀ root name, (∃ set, e.readers.get? root = some set ∧ set.contains name = true) ↔
    root ∈ e.reads.getD name []
  /-- No set of readers is empty. -/
  occupied : ∀ root set, e.readers.get? root = some set → set.isEmpty = false
  /-- Allocated are the bulk properties of the records, with their raw values. -/
  bulk : ∀ path payload, (∃ identity, e.bulk.get? path = some (identity, payload)) ↔
    ∃ r ∈ e.tree.toList, ∃ property ∈ r.config.bulkPaths.toList,
      path = Path.join r.name property ∧ r.entity.property? property = some payload ∧
        payload.isComposite = false

end Evaluator

namespace Coherent

variable {e : Evaluator}

section

variable {pending : String → Prop} (h : Coherent e pending (fun _ => False))
include h

theorem contains_graph (path : String) : e.graph.contains path = e.known.contains path := by
  rw [Bool.eq_iff_iff, h.graph.contains_iff, h.node_iff]

/-- The nodes of the graph are the known paths, each once. -/
theorem perm_nodes : (e.graph.graph.keys.map e.graph.path).Perm e.known.paths.toList := by
  have hnodup : (e.graph.paths e.graph.graph.keys).Nodup :=
    h.graph.nodup_paths (SortedSet.nodup_toList _) fun id hid => SortedSet.mem_toList.1 hid
  refine (List.perm_ext_iff_of_nodup hnodup (SortedSet.nodup_toList _)).2 fun path => ?_
  rw [SortedSet.mem_toList, ← KnownPaths.contains_iff_mem, ← h.node_iff, PathGraph.paths,
    List.mem_map]
  constructor
  · rintro ⟨id, hid, rfl⟩
    have hid := SortedSet.mem_toList.1 hid
    obtain ⟨path, hp⟩ := h.graph.named id hid
    exact ⟨id, hid, by rw [PathGraph.path_of_get? hp, hp]⟩
  · rintro ⟨id, hid, hp⟩
    exact ⟨id, SortedSet.mem_toList.2 hid, PathGraph.path_of_get? hp⟩

theorem get?_reads (name : String) : e.reads.get? name = (e.tree.get? name).bind fun r =>
    if Evaluator.referencedRoots r = [] then none else some (Evaluator.referencedRoots r) := by
  have hget : e.reads.getD name [] =
      ((e.tree.get? name).map Evaluator.referencedRoots).getD [] := by
    cases hr : e.tree.get? name with
    | none => exact h.absent name hr
    | some r => exact h.reads name r hr id
  have hne := h.mirrored.reads name
  rw [SortedMap.getD] at hget
  cases hl : e.reads.get? name with
  | none =>
    rw [hl, Option.getD_none] at hget
    cases hr : e.tree.get? name with
    | none => rfl
    | some r =>
      rw [hr, Option.map_some, Option.getD_some] at hget
      rw [Option.bind_some, if_pos hget.symm]
  | some roots =>
    rw [hl, Option.getD_some] at hget
    cases hr : e.tree.get? name with
    | none =>
      rw [hr] at hget
      exact absurd hget (hne roots hl)
    | some r =>
      rw [hr, Option.map_some, Option.getD_some] at hget
      rw [Option.bind_some, ← hget, if_neg (hne roots hl)]

end

/-- The indices of a coherent evaluator match its tree. -/
theorem indexed (h : Coherent e (fun _ => False) (fun _ => False)) : e.Indexed where
  known := KnownPaths.ext_contains fun path => by
    rw [h.known, h.tree.contains_knownPaths]
  nodes := h.perm_nodes
  contains := h.contains_graph
  snapshot path := by
    have hleaf : (∃ value, e.snapshot.get? path = some value) ↔ e.tree.Leaf path :=
      ⟨fun ⟨value, hv⟩ => h.stored path value hv, fun hl => (h.pending path hl).resolve_right id⟩
    rw [Snapshot.contains_iff, hleaf, h.tree.leaf_iff_mem_leafPaths]
  reads := h.get?_reads
  readers root name := h.mirrored.inverse root name
  occupied root set hs := by
    obtain ⟨name, hn⟩ := h.mirrored.readers root set hs
    refine Bool.eq_false_iff.2 fun hempty => ?_
    exact SortedSet.isEmpty_iff.1 hempty name hn
  bulk path payload := by
    refine (h.bulk path payload).trans ((h.tree.exists_mem_toList fun r hr hb => ?_).trans ?_)
    · obtain ⟨property, -, rfl, -⟩ := hb
      exact Path.entityOf_join hr.name.2 property
    · simp only [EntityRecord.Bulk, EntityRecord.bulkAt_iff, SortedSet.mem_toList]
      exact Iff.rfl

end Coherent

/-- **Every index matches the tree** in an evaluator that a run reaches from an empty one, whatever
the engine is. -/
theorem Evaluator.Reaches.indices_match {settings : Settings} {engine : Engine} {e : Evaluator}
    (h : Reaches Call.Tidy (ofEngine settings engine) e) : e.Indexed :=
  (h.coherent (fun _ hc => hc) (.ofEngine settings engine)).indexed

/-- A widget with shared rows. -/
def EntityRecord.sheet (rows : String) : EntityRecord :=
  ⟨(EntityConfig.ofName "Sheet" .widget).withBulkPath "rows", ⟨[("rows", .string rows)]⟩⟩

/-- A greeting, its echo and a sheet can be loaded. -/
theorem loadable_sheet : Loadable [.echo, .greeting, .sheet "old"] where
  nodup := by decide
  wellFormed r hr := by
    have hkey : Path.IsKey "rows" := ⟨by decide, by decide⟩
    rcases List.mem_cons.1 hr with rfl | hr
    · exact loadable_echo.wellFormed _ (.head _)
    rcases List.mem_cons.1 hr with rfl | hr
    · exact loadable_echo.wellFormed _ (.tail _ (.head _))
    obtain rfl := List.mem_singleton.1 hr
    exact ⟨by decide, List.pairwise_singleton _ _, hkey, trivial, trivial⟩

/-- The greeting is removed, and the sheet gets new rows. -/
def ChangeBatch.revision : ChangeBatch :=
  (empty.removeEntity "Greeting").setValue "Sheet.rows" (.string "new")

/-- What the revision changes: the echo has read the greeting, and reads nothing any more, although
it still names the greeting; and the new rows are allocated. -/
def Evaluator.Revised (e e' : Evaluator) : Prop :=
  e.graph.dependencies "Echo.text" = ["Greeting.text"] ∧ e'.tree.names = ["Echo", "Sheet"] ∧
    e'.graph.dependencies "Echo.text" = [] ∧ e'.reads.get? "Echo" = some ["Greeting"] ∧
    (e'.bulk.get? "Sheet.rows").any (fun allocated => allocated.2 == .string "new") = true

instance (e e' : Evaluator) : Decidable (e.Revised e') :=
  inferInstanceAs (Decidable (_ ∧ _ ∧ _ ∧ _ ∧ _))

/-- A run revises an evaluator with a greeting, its echo and a sheet. -/
theorem Evaluator.exists_reaches_revision : ∃ e e' u,
    Reaches Call.Tidy (ofEngine .default .standard) e ∧ e.apply .revision = (e', .ok u) ∧
      Reaches Call.Tidy (ofEngine .default .standard) e' ∧ e.Revised e' := by
  obtain ⟨e, u, hl, hok, hrevised⟩ : ∃ e u,
      (ofEngine .default .standard).load [.echo, .greeting, .sheet "old"] = (e, .ok u) ∧
      (e.apply .revision).2.toOption.isSome = true ∧ e.Revised (e.apply .revision).1 :=
    exists_ok_and_of_toOption (by decide +kernel) (by decide +kernel)
  obtain ⟨e', u', ha, hrevised⟩ : ∃ e' u', e.apply .revision = (e', .ok u') ∧ e.Revised e' :=
    exists_ok_and_of_toOption hok hrevised
  have hr : Reaches Call.Tidy (ofEngine .default .standard) e :=
    .call .start loadable_sheet.tidy (.update (.load hl))
  have htidy : Call.Tidy (.apply .revision) :=
    (ChangeBatch.tidy_empty.removeEntity "Greeting").setValue "Sheet.rows" trivial
  exact ⟨e, e', u', hr, ha, .call hr htidy (.update (.apply ha)), hrevised⟩

/-- The indices match after the greeting is removed and the sheet has new rows. -/
theorem Evaluator.indices_match_revision : ∃ e e' u,
    Reaches Call.Tidy (ofEngine .default .standard) e ∧ e.apply .revision = (e', .ok u) ∧
    e.Revised e' ∧ Reaches Call.Tidy (ofEngine .default .standard) e' ∧ e'.Indexed := by
  obtain ⟨e, e', u, hr, ha, hr', hrevised⟩ := exists_reaches_revision
  exact ⟨e, e', u, hr, ha, hrevised, hr', hr'.indices_match⟩

/-! ### The dependency map -/

namespace Coherent

variable {e f : Evaluator} {pending : String → Prop}

/-- Coherent evaluators with the same records have the same known paths. -/
theorem known_eq (he : Coherent e pending (fun _ => False))
    (hf : Coherent f pending (fun _ => False))
    (ht : ∀ name, f.tree.get? name = e.tree.get? name) : f.known = e.known :=
  KnownPaths.ext_contains fun path => by
    rw [he.known, hf.known, Tree.Has, Tree.Has, ht]

/-- What a path reads depends on the records only. -/
theorem reads_congr (he : Coherent e pending (fun _ => False))
    (hf : Coherent f pending (fun _ => False))
    (ht : ∀ name, f.tree.get? name = e.tree.get? name) {path target : String} :
    f.graph.Reads path target ↔ e.graph.Reads path target := by
  rw [he.reads_iff, hf.reads_iff, ht, he.known_eq hf ht]

/-- The paths of the graph with the sets of what they read depend on the records only. -/
theorem dependencyMap_congr (he : Coherent e pending (fun _ => False))
    (hf : Coherent f pending (fun _ => False))
    (ht : ∀ name, f.tree.get? name = e.tree.get? name) (path : String) :
    (f.graph.dependencyMap.get? path).map SortedSet.ofList =
      (e.graph.dependencyMap.get? path).map SortedSet.ofList := by
  have hget : ∀ {g : Evaluator}, Coherent g pending (fun _ => False) →
      g.graph.dependencyMap.get? path =
        if g.known.contains path then some (g.graph.dependencies path) else none := by
    intro g hg
    ext targets
    rw [hg.graph.toIndexed.get?_dependencyMap, hg.node_iff]
    split
    · simp [*, eq_comm]
    · simp [*]
  rw [hget he, hget hf, he.known_eq hf ht]
  split
  · refine congrArg some (SortedSet.ext_mem fun target => ?_)
    rw [SortedSet.mem_ofList, SortedSet.mem_ofList, hf.graph.mem_dependencies_iff,
      he.graph.mem_dependencies_iff, he.reads_congr hf ht]
  · rfl

end Coherent

/-- **The dependency map does not depend on history**: a new evaluator over the records of the tree
has the same paths in its map, each with the same set of paths that it reads. -/
theorem Evaluator.Reaches.dependencyMap_reload {settings : Settings} {engine : Engine}
    {e : Evaluator} (h : Reaches Call.Tidy (ofEngine settings engine) e) :
    ∃ f u, e.fresh.load e.tree.toList = (f, .ok u) ∧
      ∀ path, (f.graph.dependencyMap.get? path).map SortedSet.ofList =
        (e.graph.dependencyMap.get? path).map SortedSet.ofList := by
  have hc := h.coherent (fun _ hc => hc) (.ofEngine settings engine)
  obtain ⟨f, u, hl, hf, ht⟩ := hc.exists_reload
  exact ⟨f, u, hl, hc.dependencyMap_congr hf ht⟩

/-- The map after the greeting is removed and the sheet has new rows is that of a new evaluator over
the echo and the sheet. -/
theorem Evaluator.dependencyMap_reload_revision : ∃ e e' u,
    Reaches Call.Tidy (ofEngine .default .standard) e ∧ e.apply .revision = (e', .ok u) ∧
    e.Revised e' ∧ Reaches Call.Tidy (ofEngine .default .standard) e' ∧
    ∃ f u', e'.fresh.load e'.tree.toList = (f, .ok u') ∧
      ∀ path, (f.graph.dependencyMap.get? path).map SortedSet.ofList =
        (e'.graph.dependencyMap.get? path).map SortedSet.ofList := by
  obtain ⟨e, e', u, hr, ha, hr', hrevised⟩ := exists_reaches_revision
  exact ⟨e, e', u, hr, ha, hrevised, hr', hr'.dependencyMap_reload⟩

end Recalc
