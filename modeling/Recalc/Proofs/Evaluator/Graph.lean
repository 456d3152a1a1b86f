import Recalc.Proofs.Evaluator.Known

/-!
# The graph of an evaluator

Whatever the keys of objects, the extractors of entities and the engine are, and whether calls
succeed or are refused, the graph of an evaluator is sound, and an entity lists only paths of its
own in it (`Evaluator.Evolves.filed`): a dependency map with other paths is refused or left out
before it gets to the graph.
-/

namespace Recalc

namespace PathGraph

/-- The graph is sound, and entities list paths of their own. -/
structure Filed (g : PathGraph) : Prop where
  /-- The graph is sound. -/
  sound : g.Sound
  /-- A listed path belongs to the entity that lists it. -/
  own : ∀ name path, g.Lists name path → Path.entityOf path = name

theorem filed_empty : empty.Filed where
  sound := sound_empty
  own name path h := by
    obtain ⟨ids, hids, -⟩ := h
    cases hids

namespace Filed

variable {g : PathGraph} (h : g.Filed)
include h

theorem update {name : String} {map : DependencyMap}
    (hm : ∀ path ∈ map.keys, Path.entityOf path = name) : (g.update name map).Filed where
  sound := (h.sound.update_spec name map).1
  own q path hl := by
    rw [(h.sound.update_spec name map).2.1] at hl
    split at hl
    · rename_i hq
      exact (hm path hl).trans hq.symm
    · exact h.own q path hl

theorem remove (name : String) : (g.remove name).2.Filed where
  sound := (h.sound.remove_spec name).1
  own q path hl := h.own q path (((h.sound.remove_spec name).2.1 q path).1 hl).2

theorem refreshed : g.refreshed.Filed := by
  rw [h.sound.refreshed_eq]
  exact ⟨h.sound.refresh, h.own⟩

end Filed

end PathGraph

/-! ### Dependency maps -/

/-- What is left of a dependency map after the check lists paths of the entity. -/
theorem DependencyMap.entityOf_of_checked {name : String} {map checked : DependencyMap}
    {known : KnownPaths} {policy : IntegrityPolicy} (hn : Path.isEntityName name = true)
    (h : DependencyMap.checked name map known policy = .ok checked) :
    ∀ path ∈ checked.keys, Path.entityOf path = name := by
  have hkey := Path.isKey_of_isEntityName hn
  have hself : Path.entityOf name = name := Path.entityOf_join hkey.2 ""
  intro path hp
  rw [DependencyMap.checked] at h
  split at h
  · rename_i hfind
    obtain rfl := Except.ok.inj h
    have hown : isOwn name known path = true := by
      simpa using List.find?_eq_none.1 hfind path hp
    rw [isOwn, Bool.and_eq_true, Path.propertyOf] at hown
    obtain ⟨hown, -⟩ := hown
    split at hown
    · rename_i he
      rw [he, hself]
    · rw [Path.entityOf_of_isDescendant hown, hself]
  · cases policy with
    | fatal => cases h
    | halt => cases h
    | degrade =>
      obtain rfl := Except.ok.inj h
      cases hp

/-! ### The changes of a batch -/

namespace Progress

theorem graph_dropStale (p : Progress) (record : EntityRecord) :
    (p.dropStale record).evaluator.graph = p.evaluator.graph := by
  rw [dropStale]
  split
  · rfl
  · simp only
    obtain ⟨snapshot, previous, he, -⟩ := foldl_dropLeaf _ _
    rw [he]

theorem graph_upsertEntity (p : Progress) (record : EntityRecord) :
    (p.upsertEntity record).evaluator.graph = p.evaluator.graph := by
  obtain ⟨bulk, nextIdentity, hc⟩ := Evaluator.cacheBulk_eq
    { (p.dropStale record).evaluator with
      known := (p.dropStale record).evaluator.known.insertEntity record.name record.entity } record
  rw [upsertEntity]
  simp only [hc, evaluator_queueReaders]
  exact p.graph_dropStale record

/-- Removing an entity takes its paths out of the graph. -/
theorem graph_removeEntity {p : Progress} {name : String} {record : EntityRecord}
    (hr : p.evaluator.tree.get? name = some record) :
    (p.removeEntity name).evaluator.graph = (p.evaluator.graph.remove name).2 := by
  rw [removeEntity, hr]
  simp only
  obtain ⟨snapshot, previous, he, -⟩ := foldl_dropLeaf _ _
  rw [he, evaluator_queueReaders]
  obtain ⟨readers, reads, hset⟩ := Evaluator.setReads_eq _ name []
  rw [hset]
  rfl

theorem graph_writeInPlace (p : Progress) (record : EntityRecord) (path property : String)
    (value : Json) : (p.writeInPlace record path property value).evaluator.graph =
      p.evaluator.graph := by
  rw [writeInPlace]
  split <;> rfl

theorem graph_writeValue (p : Progress) (w : String × Json) :
    (p.writeValue w).evaluator.graph = p.evaluator.graph := by
  rcases p.writeValue_cases w with ⟨-, he⟩ | ⟨record, -, ⟨-, he⟩ | he⟩ <;> rw [he]
  · exact p.graph_writeInPlace ..
  · exact p.graph_upsertEntity _

/-- The graph lists the paths of entities under their names. -/
abbrev Filed (p : Progress) : Prop := p.evaluator.graph.Filed

namespace Filed

variable {p : Progress} (h : p.Filed)
include h

theorem change (c : StructuralChange) : (p.change c).Filed := by
  cases c with
  | upsert record =>
    rw [Filed, Progress.change, graph_upsertEntity]
    exact h
  | remove name =>
    rw [Progress.change]
    cases hr : p.evaluator.tree.get? name with
    | none =>
      rw [removeEntity, hr]
      exact h
    | some record =>
      rw [Filed, graph_removeEntity hr]
      exact PathGraph.Filed.remove h name

theorem writeValue (w : String × Json) : (p.writeValue w).Filed := by
  rw [Filed, graph_writeValue]
  exact h

theorem perform (b : ChangeBatch) : (p.perform b).Filed := by
  have hchanged : (b.structural.foldl Progress.change p).Filed :=
    List.foldlRecOn b.structural _ h fun p hp c _ => hp.change c
  exact List.foldlRecOn b.values _ hchanged fun p hp w _ => hp.writeValue w

end Filed

/-! ### Rebuilding -/

/-- An entity that is rebuilt lists all its paths, and only paths of its own. -/
structure Relists (p : Progress) (name : String) (record : EntityRecord) (map : DependencyMap)
    (p' : Progress) : Prop where
  /-- The record stands under the name. -/
  found : p.evaluator.tree.get? name = some record
  /-- The graph is that with the new map for the entity. -/
  graph : p'.evaluator.graph = p.evaluator.graph.update name map
  /-- The map has all paths of the record. -/
  complete : ∀ path, record.Has path → path ∈ map.keys
  /-- The map has paths of the record only. -/
  own : ∀ path ∈ map.keys, Path.entityOf path = name

/-- Rebuilding an entity leaves everything if there is none, and relists it otherwise. -/
theorem rebuildEntity_cases {p p' : Progress} (hm : p.Mapped) {name : String}
    (h : p.rebuildEntity name = .ok p') :
    p.evaluator.tree.get? name = none ∧ p' = p ∨ ∃ record map, p.Relists name record map p' := by
  rw [rebuildEntity] at h
  cases hr : p.evaluator.tree.get? name with
  | none =>
    rw [hr] at h
    exact .inl ⟨rfl, (Except.ok.inj h).symm⟩
  | some record =>
    rw [hr] at h
    obtain ⟨map, hmap, hp⟩ := bind_eq_ok.1 h
    obtain rfl := Except.ok.inj hp
    obtain ⟨readers, reads, hset⟩ := Evaluator.setReads_eq _ name _
    obtain rfl := hm.named name record hr
    have hproper := hm.proper _ record hr
    have hkeys := (EntityRecord.foldl_addStructure record.paths map).1
    refine .inr ⟨record, record.paths.foldl addStructure map, hr, ?_, fun path hp => ?_,
      fun path hp => ?_⟩
    · rw [hset]
      rfl
    · obtain ⟨leaf, hl⟩ := hp
      exact (hkeys path).2 (.inr ⟨_, hl, .inl rfl⟩)
    · rcases (hkeys path).1 hp with hp | ⟨⟨q, leaf⟩, hl, rfl | hp⟩
      · exact DependencyMap.entityOf_of_checked hproper hmap path hp
      · exact EntityRecord.entityOf_of_has hproper ⟨leaf, hl⟩
      · rw [Path.entityOf_of_parent? hp]
        exact EntityRecord.entityOf_of_has hproper ⟨leaf, hl⟩

theorem Filed.rebuildEntity {p p' : Progress} (h : p.Filed) (hm : p.Mapped) {name : String}
    (hp : p.rebuildEntity name = .ok p') : p'.Filed := by
  rcases rebuildEntity_cases hm hp with ⟨-, rfl⟩ | ⟨record, map, hr⟩
  · exact h
  · rw [Filed, hr.graph]
    exact PathGraph.Filed.update h hr.own

/-- However far rebuilding goes, entities list paths of their own. -/
theorem Filed.rebuildAll {p : Progress} (h : p.Filed) (hm : p.Mapped) (names : List String) :
    (p.rebuildAll names).1.Filed := by
  induction names generalizing p with
  | nil => exact h
  | cons name names ih =>
    rw [Progress.rebuildAll]
    split
    · exact h
    · rename_i mid hmid
      obtain ⟨graph, readers, reads, leaves, he⟩ := rebuildEntity_eq_ok hmid
      have hmapped : mid.Mapped := he ▸ hm
      exact ih (h.rebuildEntity hm hmid) hmapped

/-- The queued entities are rebuilt. -/
theorem Filed.rebuild {p : Progress} (h : p.Filed) (hm : p.Mapped) : p.rebuild.1.Filed :=
  Filed.rebuildAll (p := { p with work := { p.work with rebuild := .empty } }) h hm
    p.work.rebuild.keys

end Progress

/-! ### Calls -/

namespace Evaluator

/-- The graph lists the paths of entities under their names. -/
abbrev Filed (e : Evaluator) : Prop := e.graph.Filed

/-- A pass computes the order. -/
theorem Filed.runPass {e : Evaluator} (h : e.Filed) (roots : Option (List String))
    (previous : Snapshot) : (e.runPass roots previous).1.Filed := by
  rw [(runPass_eq h.sound roots previous).1]
  exact ⟨h.sound.refresh, h.own⟩

/-- What the changes of a checked batch and the rebuilding of its entities leave. -/
theorem Filed.rebuilt {e : Evaluator} (h : e.Filed) (hm : e.Mapped) {b : ChangeBatch}
    (hb : ∀ c ∈ b.structural, c.Proper) : (Progress.perform ⟨e, .empty⟩ b).rebuild.1.Filed :=
  Progress.Filed.rebuild (Progress.Filed.perform (p := ⟨e, .empty⟩) h b)
    (Progress.Mapped.perform (p := ⟨e, .empty⟩) hm hb)

theorem Filed.apply {e : Evaluator} (h : e.Filed) (hm : e.Mapped) (b : ChangeBatch) :
    (e.apply b).1.Filed := by
  rw [Evaluator.apply]
  cases hv : e.validateAll [b] with
  | error rejection => exact h
  | ok _ =>
    simp only
    split
    · exact h
    · have hr := h.rebuilt hm (proper_of_validateAll hv).structural
      rw [applyChecked]
      generalize (Progress.perform ⟨e, .empty⟩ b).rebuild = r at hr ⊢
      obtain ⟨p, _ | rejection⟩ := r
      · exact Filed.runPass (e := p.evaluator) hr (passRoots p b) p.work.previous
      · exact hr

/-- **Entities list paths of their own**, after whatever calls. -/
theorem Evolves.filed {allowed : Call → Prop} {start e : Evaluator} (hm : start.Mapped)
    (hs : start.Filed) (h : Evolves allowed start e) : e.Filed := by
  induction h with
  | start => exact hs
  | @call e c run _ ih =>
    have hmapped : e.Mapped := run.mapped hm
    cases c with
    | load records =>
      rw [after, load]
      split
      · exact ih
      · exact Filed.apply (e := { e with evaluatedOnce := false }) ih hmapped _
    | apply b => exact ih.apply hmapped b
    | evaluate changed =>
      rw [after, evaluate]
      split
      · exact ih
      · exact Filed.runPass (e := e) ih (some (distinct changed)) .empty
    | evaluateAll => exact Filed.runPass (e := e) ih none .empty
  | evaluationOrder _ ih => exact PathGraph.Filed.refreshed ih
  | cyclicPaths _ ih => exact PathGraph.Filed.refreshed ih
  | @affectedOrder e changed _ ih =>
    rcases e.affectedOrder_cases changed with ha | ha <;> rw [ha]
    · exact ih
    · exact PathGraph.Filed.refreshed ih

end Evaluator

end Recalc
