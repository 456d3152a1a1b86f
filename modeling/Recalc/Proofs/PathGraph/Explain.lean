import Recalc.Proofs.Graph.Trace
import Recalc.Proofs.PathGraph

/-!
# Explaining and affecting

The chain that explains why a path is affected, and the list of affected paths, come from two walks:
one records causes, the other looks only at roots that are in the graph. Both reach the same paths
behind a root (`Built.explain?_iff`), but they treat the roots themselves differently. A path that
has left the graph keeps its id, so asked as a root of itself it is explained, while it affects
nothing and nothing affects it (`explain?_departed`).
-/

namespace Recalc.PathGraph

/-- The graphs that arise from the empty one when entities are listed and taken out, and the order
is computed in between. -/
inductive Built : PathGraph → Prop where
  /-- Nothing was done. -/
  | empty : Built .empty
  /-- The paths of an entity were listed. -/
  | update {g : PathGraph} (h : Built g) (entity : String) (map : DependencyMap) :
      Built (g.update entity map)
  /-- The paths of an entity were taken out. -/
  | remove {g : PathGraph} (h : Built g) (entity : String) : Built (g.remove entity).2
  /-- The order was computed. -/
  | refreshed {g : PathGraph} (h : Built g) : Built g.refreshed

theorem Built.sound {g : PathGraph} (h : g.Built) : g.Sound := by
  induction h with
  | empty => exact sound_empty
  | update _ entity map ih => exact (ih.update_spec entity map).1
  | remove _ entity ih => exact (ih.remove_spec entity).1
  | refreshed _ ih => exact ih.refreshed_eq ▸ ih.refresh

/-- The chain leads from a root to the target, each path after the first reading the one before it,
and no path is on it twice. -/
structure Explains (g : PathGraph) (roots : List String) (target : String)
    (chain : List String) : Prop where
  /-- The chain starts at a root. -/
  starts : ∃ root ∈ roots, chain.head? = some root
  /-- It ends at the target. -/
  ends : chain.getLast? = some target
  /-- No path is on it twice. -/
  nodup : chain.Nodup
  /-- Each path reads the one before it. -/
  follows : chain.IsChain fun before path => g.Reads path before

variable {g : PathGraph} {roots : List String} {target : String}

/-- The ids of roots are those of the roots that were seen before. -/
theorem Indexed.mem_filterMap_id? (h : g.Indexed) {id : Nat} :
    id ∈ roots.filterMap g.id? ↔ ∃ root ∈ roots, g.ids.get? id = some root := by
  simp only [List.mem_filterMap, h.id?_eq_some_iff]

/-- What is on a list of nodes, by path. -/
theorem Indexed.mem_paths (h : g.Indexed) {ids : List Nat} (hm : ∀ id ∈ ids, id ∈ g.graph.nodes) :
    target ∈ g.paths ids ↔ ∃ id ∈ ids, g.ids.get? id = some target := by
  rw [paths, List.mem_map]
  refine exists_congr fun id => and_congr_right fun hid => ?_
  obtain ⟨path, hp⟩ := h.named id (hm id hid)
  rw [path_of_get? hp, hp, Option.some_inj]

/-- Affected are the roots in the graph and the paths that depend on one of them. -/
theorem Sound.mem_paths_affected (h : g.Sound) :
    target ∈ g.paths (g.affected (roots.filterMap g.id?)).1 ↔
      ∃ id, g.ids.get? id = some target ∧ ∃ root ∈ roots.filterMap g.id?,
        root ∈ g.graph.nodes ∧ (id = root ∨ g.graph.DependsOn id root) := by
  rw [affected, h.refreshed_eq, h.mem_paths]
  · simp only [EvaluationOrder.mem_affected_compute h.graph, h.graph.affects_iff]
    exact exists_congr fun id => and_comm
  · intro id hid
    obtain ⟨root, -, hn, ha⟩ := (EvaluationOrder.mem_affected_compute h.graph).1 hid
    rcases h.graph.affects_iff.1 ha with rfl | hd
    · exact hn
    · obtain ⟨b, hb, -⟩ := Relation.TransGen.head'_iff.1 hd
      exact h.graph.source hb

/-- A path of ids explains a target, said of paths. -/
theorem Indexed.explains (h : g.Indexed) {id : Nat} {path : List Nat}
    (ht : g.ids.get? id = some target)
    (he : g.graph.Explains (roots.filterMap g.id?) id path) :
    g.Explains roots target (g.paths path) := by
  obtain ⟨⟨root, hr, hhead⟩, hlast, hnodup, hfollows⟩ := he
  obtain ⟨name, hname, hroot⟩ := h.mem_filterMap_id?.1 hr
  -- The first id is the one of a root, and the others depend on something.
  have hnamed : ∀ a ∈ path, ∃ name, g.ids.get? a = some name := by
    refine hfollows.induction _ _ (fun _ b hd _ => h.named b (h.graph.source hd)) fun hne => ?_
    obtain rfl := Option.some_inj.1 ((List.head?_eq_some_head hne).symm.trans hhead)
    exact ⟨name, hroot⟩
  refine ⟨⟨name, hname, ?_⟩, ?_, ?_, ?_⟩
  · rw [paths, List.head?_map, hhead, Option.map_some, path_of_get? hroot]
  · rw [paths, List.getLast?_map, hlast, Option.map_some, path_of_get? ht]
  · refine List.Nodup.map_on (fun a ha b hb hab => ?_) hnodup
    obtain ⟨p, hp⟩ := hnamed a ha
    obtain ⟨q, hq⟩ := hnamed b hb
    rw [path_of_get? hp, path_of_get? hq] at hab
    exact h.id_inj hp (hab ▸ hq)
  · rw [paths, List.isChain_map]
    refine hfollows.imp fun a b hd => ?_
    obtain ⟨p, hp⟩ := h.named a (h.graph.target hd)
    obtain ⟨q, hq⟩ := h.named b (h.graph.source hd)
    rw [path_of_get? hp, path_of_get? hq]
    exact ⟨b, a, hq, hp, hd⟩

/-- An explanation is the chain of paths for the path of ids that a recorded trace gives. -/
theorem explain?_eq_some_iff {chain : List String} :
    g.explain? roots target = some chain ↔ ∃ id path, g.id? target = some id ∧
      (Recorder.empty.recordAll (g.graph.trace (roots.filterMap g.id?))).explain? id = some path ∧
      g.paths path = chain := by
  rw [explain?]
  cases g.id? target with
  | none => simp
  | some id => simp [Option.map_eq_some_iff]

/-- **What is explained**: the paths that the roots affect, and the roots that have an id but are
not in the graph. -/
theorem Sound.isSome_explain?_iff (h : g.Sound) :
    (g.explain? roots target).isSome = true ↔
      target ∈ g.paths (g.affected (roots.filterMap g.id?)).1 ∨
        target ∈ roots ∧ (g.id? target).isSome = true ∧ g.contains target = false := by
  have hexplained : (g.explain? roots target).isSome = true ↔ ∃ id, g.ids.get? id = some target ∧
      ∃ root ∈ roots.filterMap g.id?, id = root ∨ g.graph.DependsOn id root := by
    simp only [← (h.graph.explain?_trace _ _).1, Option.isSome_iff_exists, explain?_eq_some_iff,
      h.id?_eq_some_iff]
    constructor
    · rintro ⟨_, id, path, ht, hp, -⟩
      exact ⟨id, ht, path, hp⟩
    · rintro ⟨id, ht, path, hp⟩
      exact ⟨_, id, path, ht, hp, rfl⟩
  rw [hexplained, h.mem_paths_affected]
  constructor
  · rintro ⟨id, ht, root, hr, hid⟩
    by_cases hn : root ∈ g.graph.nodes
    · exact .inl ⟨id, ht, root, hr, hn, hid⟩
    · -- Nothing depends on what is no node, so the target is the root.
      have hroot : id = root := hid.resolve_right fun hd => by
        obtain ⟨b, -, hb⟩ := Relation.TransGen.tail'_iff.1 hd
        exact hn (h.graph.target hb)
      subst hroot
      obtain ⟨name, hname, he⟩ := h.mem_filterMap_id?.1 hr
      obtain rfl := Option.some_inj.1 (he.symm.trans ht)
      have hid := h.id?_eq_some_iff.2 ht
      refine .inr ⟨hname, by rw [hid]; rfl, ?_⟩
      rw [contains, hid]
      exact Bool.eq_false_iff.2 hn
  · rintro (⟨id, ht, root, hr, -, hid⟩ | ⟨hr, hsome, -⟩)
    · exact ⟨id, ht, root, hr, hid⟩
    · obtain ⟨id, hid⟩ := Option.isSome_iff_exists.1 hsome
      exact ⟨id, h.id?_eq_some_iff.1 hid, id, List.mem_filterMap.2 ⟨target, hr, hid⟩, .inl rfl⟩

/-- **Explaining against affecting**, after any changes: there is an explanation for the paths that
the roots affect, and besides for a root that was seen before but is not in the graph. An
explanation is a chain of direct reads from a root to the target. -/
theorem Built.explain?_iff {g : PathGraph} (h : g.Built) (roots : List String) (target : String) :
    ((g.explain? roots target).isSome = true ↔
      target ∈ g.paths (g.affected (roots.filterMap g.id?)).1 ∨
        target ∈ roots ∧ (g.id? target).isSome = true ∧ g.contains target = false) ∧
    ∀ chain, g.explain? roots target = some chain → g.Explains roots target chain := by
  refine ⟨h.sound.isSome_explain?_iff, fun chain hc => ?_⟩
  obtain ⟨id, path, ht, hp, rfl⟩ := explain?_eq_some_iff.1 hc
  exact h.sound.explains (h.sound.id?_eq_some_iff.1 ht) ((h.sound.graph.explain?_trace _ _).2 _ hp)

/-- Two entities, of which the second reads the first, listed anew after both were taken out. -/
def relisted : PathGraph :=
  let greeting : DependencyMap := .ofList [("A.text", ["A.name"]), ("A.name", [])]
  let reader : DependencyMap := .ofList [("B.shown", ["A.text"])]
  let g := (PathGraph.empty.update "A" greeting).update "B" reader
  (((g.remove "A").2.remove "B").2.update "A" greeting).update "B" reader

theorem explain?_iff_relisted : relisted.Built ∧
    relisted.explain? ["A.name", "C.name"] "B.shown" = some ["A.name", "A.text", "B.shown"] ∧
    relisted.Explains ["A.name", "C.name"] "B.shown" ["A.name", "A.text", "B.shown"] ∧
    "B.shown" ∈ relisted.paths
      (relisted.affected (["A.name", "C.name"].filterMap relisted.id?)).1 := by
  have hbuilt : relisted.Built :=
    ((((Built.empty.update _ _).update _ _).remove _).remove _ |>.update _ _).update _ _
  obtain ⟨hiff, hchain⟩ := hbuilt.explain?_iff ["A.name", "C.name"] "B.shown"
  have hfound : relisted.explain? ["A.name", "C.name"] "B.shown" =
      some ["A.name", "A.text", "B.shown"] := by decide +kernel
  refine ⟨hbuilt, hfound, hchain _ hfound, (hiff.1 (by rw [hfound]; rfl)).resolve_right ?_⟩
  decide +kernel

/-- A path that its entity listed before the entity was taken out. -/
def departed : PathGraph :=
  ((PathGraph.empty.update "A" (.ofList [("A.name", [])])).remove "A").2

/-- A path that has left the graph is explained by itself, and is not affected by itself. -/
theorem explain?_departed : departed.Built ∧
    departed.explain? ["A.name"] "A.name" = some ["A.name"] ∧
    departed.paths (departed.affected (["A.name"].filterMap departed.id?)).1 = [] :=
  ⟨(Built.empty.update _ _).remove _, by decide +kernel, by decide +kernel⟩

end Recalc.PathGraph
