import Recalc.Proofs.Evaluator.Graph
import Recalc.Proofs.Evaluator.Refusal

/-!
# Evaluators whose graph has all paths

An update that is refused for a dependency map can leave entities in the tree that are not in the
graph. After a load all entities are in the graph, whatever came before, and they stay there as long
as no update is refused for a dependency map (`Evaluator.Loaded.wired`). The step behind this is
that a path of the tree is a node unless its entity is queued or still to be changed
(`Progress.Wired`), and that rebuilding an entity makes its paths nodes.
-/

namespace Recalc

/-! ### The changes of a batch -/

namespace Progress

/-- The paths of the tree are nodes, up to entities that are queued or still to be changed. -/
structure Wired (p : Progress) (todo : List StructuralChange) : Prop where
  /-- The known paths are those of the tree. -/
  mapped : p.Mapped
  /-- The graph lists the paths of entities under their names. -/
  filed : p.Filed
  /-- The sets of the work are in step. -/
  inStep : p.InStep
  /-- A path is a node, or its entity is queued or still to be changed. -/
  nodes : ∀ path, p.evaluator.tree.Has path → p.evaluator.graph.Node path ∨
    Path.entityOf path ∈ p.work.rebuild.keys ∨ ∃ c ∈ todo, c.entity = Path.entityOf path

/-- Queuing the readers of an entity drops nobody from the queue. -/
theorem mem_rebuild_queueReaders {p : Progress} (h : p.InStep) (name : String) :
    (p.queueReaders name).InStep ∧
      ∀ q ∈ p.work.rebuild.keys, q ∈ (p.queueReaders name).work.rebuild.keys := by
  obtain ⟨rebuild, he, hin, hm⟩ := queueReaders_spec h name
  rw [he]
  exact ⟨⟨h.roots, hin⟩, fun q hq => (hm q).2 (.inl hq)⟩

/-- Storing an entity queues it. -/
theorem mem_rebuild_upsertEntity {p : Progress} (h : p.InStep) (record : EntityRecord) :
    (p.upsertEntity record).InStep ∧
      record.name ∈ (p.upsertEntity record).work.rebuild.keys ∧
      ∀ q ∈ p.work.rebuild.keys, q ∈ (p.upsertEntity record).work.rebuild.keys := by
  have hdropped : (p.dropStale record).work.roots = p.work.roots ∧
      (p.dropStale record).work.rebuild = p.work.rebuild := by
    rw [dropStale]
    split
    · exact ⟨rfl, rfl⟩
    · simp only
      obtain ⟨snapshot, previous, he, -⟩ := foldl_dropLeaf _ _
      rw [he]
      exact ⟨rfl, rfl⟩
  obtain ⟨mid, hmid, hroots, hrebuild⟩ : ∃ mid : Progress,
      p.upsertEntity record = mid.queueReaders record.name ∧
      mid.work.roots = (p.dropStale record).work.roots.extend record.leafPaths ∧
      mid.work.rebuild = (p.dropStale record).work.rebuild.insert record.name :=
    ⟨_, rfl, rfl, rfl⟩
  rw [hdropped.1] at hroots
  rw [hdropped.2] at hrebuild
  have hin : mid.InStep := ⟨hroots ▸ h.roots.extend _, hrebuild ▸ h.rebuild.insert _⟩
  obtain ⟨hin', hkept⟩ := mem_rebuild_queueReaders hin record.name
  have hmem : ∀ q, q ∈ p.work.rebuild.keys ∨ q = record.name →
      q ∈ (mid.queueReaders record.name).work.rebuild.keys := fun q hq =>
    hkept q (hrebuild ▸ h.rebuild.mem_keys_insert.2 hq)
  rw [hmid]
  exact ⟨hin', hmem _ (.inr rfl), fun q hq => hmem q (.inl hq)⟩

namespace Wired

variable {p : Progress} {todo : List StructuralChange}

/-- A batch over a tree whose paths are nodes. -/
theorem ofNodes {e : Evaluator} (hm : e.Mapped) (hf : e.Filed)
    (hn : ∀ path, e.tree.Has path → e.graph.Node path) (todo : List StructuralChange) :
    Wired ⟨e, .empty⟩ todo where
  mapped := hm
  filed := hf
  inStep := ⟨PendingSet.inStep_empty, PendingSet.inStep_empty⟩
  nodes path hp := .inl (hn path hp)

/-- Storing an entity. -/
theorem upsertEntity {record : EntityRecord} (h : p.Wired (.upsert record :: todo))
    (hr : Path.isEntityName record.name = true) : (p.upsertEntity record).Wired todo := by
  obtain ⟨hin, hself, hkept⟩ := mem_rebuild_upsertEntity h.inStep record
  have hgraph := p.graph_upsertEntity record
  have htree := (p.turns_upsertEntity record).tree
  refine ⟨Progress.Mapped.upsertEntity h.mapped hr, ?_, hin, fun path hp => ?_⟩
  · rw [Filed, hgraph]
    exact h.filed
  · by_cases he : Path.entityOf path = record.name
    · exact .inr (.inl (he ▸ hself))
    · obtain ⟨r, hget, hp⟩ := hp
      rw [htree, Tree.get?_upsert, if_neg he] at hget
      rw [hgraph]
      refine (h.nodes path ⟨r, hget, hp⟩).imp_right (Or.imp (hkept _) ?_)
      rintro ⟨c, hc, hentity⟩
      refine ⟨c, (List.mem_cons.1 hc).resolve_left ?_, hentity⟩
      rintro rfl
      exact he hentity.symm

/-- Removing an entity. -/
theorem removeEntity {name : String} (h : p.Wired (.remove name :: todo)) :
    (p.removeEntity name).Wired todo := by
  have hothers : ∀ path, Path.entityOf path ≠ name →
      (∃ c ∈ StructuralChange.remove name :: todo, c.entity = Path.entityOf path) →
      ∃ c ∈ todo, c.entity = Path.entityOf path := by
    rintro path hne ⟨c, hc, hentity⟩
    refine ⟨c, (List.mem_cons.1 hc).resolve_left ?_, hentity⟩
    rintro rfl
    exact hne hentity.symm
  cases hr : p.evaluator.tree.get? name with
  | none =>
    have hsame : p.removeEntity name = p := by rw [Progress.removeEntity, hr]
    rw [hsame]
    refine ⟨h.mapped, h.filed, h.inStep, fun path hp => ?_⟩
    refine (h.nodes path hp).imp_right (Or.imp_right (hothers path ?_))
    rintro he
    obtain ⟨r, hget, -⟩ := hp
    rw [he, hr] at hget
    cases hget
  | some record =>
    obtain ⟨snapshot, previous, rebuild, he, -, -, hin, hqueue⟩ := removeEntity_eq h.inStep hr
    have hgraph := graph_removeEntity hr
    have htree := (p.turns_removeEntity name).tree
    refine ⟨Progress.Mapped.removeEntity h.mapped name, h.filed.change (.remove name), ?_,
      fun path hp => ?_⟩
    · rw [he]
      exact ⟨h.inStep.roots, hin⟩
    · obtain ⟨r, hget, hp⟩ := hp
      rw [htree, Tree.get?_remove] at hget
      split at hget
      · cases hget
      · rename_i hne
        rw [hgraph, (PathGraph.Sound.remove_spec h.filed.sound name).2.2.1]
        have hkept : ∀ q ∈ p.work.rebuild.keys, q ∈ (p.removeEntity name).work.rebuild.keys := by
          rw [he]
          exact fun q hq => (hqueue q).2 (.inl hq)
        refine (h.nodes path ⟨r, hget, hp⟩).imp (fun hn => ⟨hn, fun hl => ?_⟩)
          (Or.imp (hkept _) (hothers path hne))
        exact hne (h.filed.own name path hl)

theorem change {c : StructuralChange} (h : p.Wired (c :: todo)) (hc : c.Proper) :
    (p.change c).Wired todo := by
  cases c with
  | upsert record => exact h.upsertEntity hc
  | remove name => exact h.removeEntity

theorem foldl_change (h : p.Wired todo) (hc : ∀ c ∈ todo, c.Proper) :
    (todo.foldl Progress.change p).Wired [] := by
  induction todo generalizing p with
  | nil => exact h
  | cons c todo ih =>
    obtain ⟨hproper, hrest⟩ := List.forall_mem_cons.1 hc
    exact ih (h.change hproper) hrest

/-- Writing a value. -/
theorem writeValue (h : p.Wired []) (w : String × Json) : (p.writeValue w).Wired [] := by
  have hmapped := Progress.Mapped.writeValue h.mapped w
  have hfiled := h.filed.writeValue w
  rcases p.writeValue_cases w with ⟨-, he⟩ | ⟨record, hr, ⟨-, he⟩ | he⟩ <;>
    rw [he] at hmapped hfiled ⊢
  · exact h
  · have hspec := writeInPlace_spec h.inStep record w.1 (Path.split w.1).2 w.2
    obtain ⟨bulk, nextIdentity, hfixed⟩ := hspec.fixed
    refine ⟨hmapped, hfiled, hspec.inStep, fun path hp => ?_⟩
    -- The known paths stay, and they are the paths of the tree before and after.
    have hp' : p.evaluator.tree.Has path := by
      rw [← hmapped.known, hfixed] at hp
      exact (h.mapped.known path).1 hp
    rw [graph_writeInPlace]
    exact (h.nodes path hp').imp_right (Or.imp_left fun hq => (hspec.rebuild _).2 (.inl hq))
  · have hname := h.mapped.proper _ record hr
    have hw : p.Wired [.upsert (record.set (Path.split w.1).2 w.2)] := by
      refine ⟨h.mapped, h.filed, h.inStep, fun path hp => ?_⟩
      refine (h.nodes path hp).imp_right (Or.imp_right ?_)
      rintro ⟨c, hc, -⟩
      cases hc
    exact hw.upsertEntity hname

/-- **The changes of a batch.** -/
theorem perform {b : ChangeBatch} (h : p.Wired b.structural)
    (hb : ∀ c ∈ b.structural, c.Proper) : (p.perform b).Wired [] :=
  List.foldlRecOn (motive := fun p => Wired p []) b.values _ (h.foldl_change hb)
    fun _ hp w _ => hp.writeValue w

end Wired

/-! ### Rebuilding -/

/-- What an entity that is relisted does to the nodes. -/
theorem Relists.node {p p' : Progress} {name : String} {record : EntityRecord}
    {map : DependencyMap} (h : p.Relists name record map p') (hf : p.Filed) {path : String}
    (hp : p.evaluator.tree.Has path)
    (hn : p.evaluator.graph.Node path ∨ Path.entityOf path = name) :
    p'.evaluator.graph.Node path := by
  have hnodes := (hf.sound.update_spec name map).2.2.1 path
  rw [h.graph, hnodes]
  by_cases he : Path.entityOf path = name
  · have hkey := h.complete path ((Tree.has_iff (he ▸ h.found)).1 hp)
    obtain ⟨entry, hentry, rfl⟩ := List.mem_map.1 hkey
    exact ⟨.inr ⟨entry, hentry, .inl rfl⟩, fun hl => hl.2 hkey⟩
  · exact ⟨.inl (hn.resolve_right he), fun hl => he (hf.own name path hl.1)⟩

/-- **Rebuilding makes the paths of the rebuilt entities nodes.** -/
theorem node_rebuildAll {p p' : Progress} {names : List String} (hm : p.Mapped) (hf : p.Filed)
    (hn : ∀ path, p.evaluator.tree.Has path →
      p.evaluator.graph.Node path ∨ Path.entityOf path ∈ names)
    (h : p.rebuildAll names = (p', none)) {path : String} (hp : p'.evaluator.tree.Has path) :
    p'.evaluator.graph.Node path := by
  induction names generalizing p with
  | nil =>
    obtain rfl := (Prod.mk.inj h).1
    exact (hn path hp).resolve_right List.not_mem_nil
  | cons name names ih =>
    rw [rebuildAll] at h
    cases hb : p.rebuildEntity name with
    | error rejection =>
      rw [hb] at h
      cases (Prod.mk.inj h).2
    | ok mid =>
      rw [hb] at h
      obtain ⟨graph, readers, reads, leaves, he⟩ := rebuildEntity_eq_ok hb
      have htree : mid.evaluator.tree = p.evaluator.tree := by rw [he]
      have hmapped : mid.Mapped := he ▸ hm
      refine ih hmapped (hf.rebuildEntity hm hb) (fun q hq => ?_) h
      rw [htree] at hq
      rcases rebuildEntity_cases hm hb with ⟨hnone, rfl⟩ | ⟨record, map, hr⟩
      · refine (hn q hq).imp_right fun hmem => (List.mem_cons.1 hmem).resolve_left ?_
        rintro rfl
        obtain ⟨r, hget, -⟩ := hq
        rw [hnone] at hget
        cases hget
      · rcases hn q hq with hnode | hmem
        · exact .inl (hr.node hf hq (.inl hnode))
        · rcases List.mem_cons.1 hmem with heq | hmem
          · exact .inl (hr.node hf hq (.inr heq))
          · exact .inr hmem

/-- The queued entities are rebuilt, and then the paths of the tree are nodes. -/
theorem Wired.rebuild {p p' : Progress} (h : p.Wired []) (hr : p.rebuild = (p', none))
    {path : String} (hp : p'.evaluator.tree.Has path) : p'.evaluator.graph.Node path := by
  refine node_rebuildAll (p := { p with work := { p.work with rebuild := .empty } }) h.mapped
    h.filed (fun q hq => (h.nodes q hq).imp_right fun hq => hq.resolve_right ?_) hr hp
  rintro ⟨c, hc, -⟩
  cases hc

end Progress

/-! ### Calls -/

namespace Evaluator

/-- The paths of the tree are nodes of the graph, and the next update is no first one. -/
structure Wired (e : Evaluator) : Prop where
  /-- The known paths are those of the tree. -/
  mapped : e.Mapped
  /-- The graph lists the paths of entities under their names. -/
  filed : e.Filed
  /-- The paths of the tree are nodes. -/
  nodes : ∀ path, e.tree.Has path → e.graph.Node path
  /-- A pass has completed, if there is anything to evaluate. -/
  evaluatedOnce : e.tree.isEmpty = true ∨ e.evaluatedOnce = true

/-- A checked batch that is not refused leaves all paths of the tree in the graph. -/
theorem wired_of_applyChecked {e e' : Evaluator} {b : ChangeBatch} {u : Update}
    (h : Progress.Wired ⟨e, .empty⟩ b.structural) (hb : ∀ c ∈ b.structural, c.Proper)
    (ha : e.applyChecked b = (e', .ok u)) : e'.Wired := by
  have hw := h.perform hb
  have hf := Filed.rebuilt (e := e) h.filed h.mapped hb
  obtain ⟨p, hp, rfl, -⟩ := applyChecked_eq_ok ha
  have hnodes : ∀ path, p.evaluator.tree.Has path → p.evaluator.graph.Node path := fun path =>
    hw.rebuild hp
  have hm : p.Mapped := by
    obtain ⟨graph, readers, reads, leaves, he⟩ := (Progress.perform ⟨e, .empty⟩ b).rebuild_eq
    have hp' : p = _ := (congrArg Prod.fst hp).symm.trans he
    rw [hp']
    exact hw.mapped
  rw [hp] at hf
  refine ⟨hm, Filed.runPass (e := p.evaluator) hf (passRoots p b) p.work.previous, ?_, .inr rfl⟩
  rw [finish_eq]
  simp only [(runPass_eq (e := p.evaluator) hf.sound (passRoots p b) p.work.previous).1]
  exact hnodes

/-- **A batch that succeeds** keeps all paths of the tree in the graph. -/
theorem Wired.apply {e e' : Evaluator} (h : e.Wired) {b : ChangeBatch} {u : Update}
    (ha : e.apply b = (e', .ok u)) : e'.Wired := by
  obtain ⟨hproper, ⟨-, -, rfl, -⟩ | hc⟩ := apply_eq_ok ha
  · exact h
  · exact wired_of_applyChecked (.ofNodes h.mapped h.filed h.nodes b.structural)
      hproper.structural hc

/-- Every entity is gone from a loaded tree, or one of the records that are loaded. -/
theorem exists_change_loadBatch {t : Tree} (ht : t.Enrolled) (records : List EntityRecord)
    {path : String} (hp : t.Has path) :
    ∃ c ∈ (loadBatch t records).structural, c.entity = Path.entityOf path := by
  obtain ⟨r, hr, -⟩ := hp
  have hname : Path.entityOf path ∈ t.names := ht.registered.2 ⟨r, hr⟩
  rw [loadBatch]
  simp only [List.mem_append, List.mem_map, List.mem_filter]
  by_cases hin : Path.entityOf path ∈ records.map (·.name)
  · obtain ⟨record, hrecord, he⟩ := List.mem_map.1 hin
    exact ⟨.upsert record, .inr ⟨record, hrecord, rfl⟩, he⟩
  · exact ⟨.remove (Path.entityOf path), .inl ⟨_, ⟨hname, by simpa using hin⟩, rfl⟩, rfl⟩

/-- The batch that replaces a tree changes every entity. -/
theorem progressWired_loadBatch {e : Evaluator} (hm : e.Mapped) (hf : e.Filed)
    (records : List EntityRecord) :
    Progress.Wired ⟨e, .empty⟩ (loadBatch e.tree records).structural where
  mapped := hm
  filed := hf
  inStep := ⟨PendingSet.inStep_empty, PendingSet.inStep_empty⟩
  nodes _ hp := .inr (.inr (exists_change_loadBatch hm.enrolled records hp))

/-- **A load** puts all paths of the tree in the graph, whatever was there before. -/
theorem wired_of_load {e e' : Evaluator} (hm : e.Mapped) (hf : e.Filed)
    {records : List EntityRecord} {u : Update} (hl : e.load records = (e', .ok u)) : e'.Wired := by
  obtain ⟨hproper, ⟨hempty, -, rfl, -⟩ | hc⟩ := apply_eq_ok (load_eq_ok hl)
  · exact ⟨hm, hf, fun path hp => absurd hp (hm.enrolled.not_has_of_isEmpty hempty path),
      .inl hempty⟩
  · exact wired_of_applyChecked
      (progressWired_loadBatch (e := { e with evaluatedOnce := false }) hm hf records)
      hproper.structural hc

theorem Wired.runPass {e : Evaluator} (h : e.Wired) (roots : Option (List String))
    (previous : Snapshot) : (e.runPass roots previous).1.Wired := by
  refine ⟨?_, Filed.runPass h.filed roots previous, ?_, ?_⟩
  all_goals rw [(runPass_eq h.filed.sound roots previous).1]
  · exact h.mapped
  · exact h.nodes
  · exact h.evaluatedOnce

theorem Wired.refreshed {e : Evaluator} (h : e.Wired) :
    Wired { e with graph := e.graph.refreshed } := by
  refine ⟨h.mapped, PathGraph.Filed.refreshed h.filed, ?_, h.evaluatedOnce⟩
  rw [h.filed.sound.refreshed_eq]
  exact h.nodes

/-- The call is not refused for a dependency map. -/
def Unharmed (e : Evaluator) : Call → Prop
  | .load records => ∀ rejection, (e.load records).2 = .error rejection → ¬ rejection.OfMap
  | .apply b => ∀ rejection, (e.apply b).2 = .error rejection → ¬ rejection.OfMap
  | _ => True

/-- What any calls leave of an evaluator, if a load succeeded and since then no update was refused
for a dependency map. -/
inductive Loaded (allowed : Call → Prop) (start : Evaluator) : Evaluator → Prop where
  /-- The last load succeeded. -/
  | load {e e' : Evaluator} {records : List EntityRecord} {u : Update}
      (run : Evolves allowed start e) (hc : allowed (.load records))
      (h : e.load records = (e', .ok u)) : Loaded allowed start e'
  /-- One more call was made. -/
  | call {e : Evaluator} (c : Call) (run : Loaded allowed start e) (hc : allowed c)
      (h : e.Unharmed c) : Loaded allowed start (e.after c)
  /-- The evaluation order was asked for. -/
  | evaluationOrder {e : Evaluator} (run : Loaded allowed start e) :
      Loaded allowed start e.evaluationOrder.2
  /-- The paths on cycles were asked for. -/
  | cyclicPaths {e : Evaluator} (run : Loaded allowed start e) :
      Loaded allowed start e.cyclicPaths.2
  /-- The order of what paths affect was asked for. -/
  | affectedOrder {e : Evaluator} (changed : List String) (run : Loaded allowed start e) :
      Loaded allowed start (e.affectedOrder changed).2

theorem Loaded.evolves {allowed : Call → Prop} {start e : Evaluator} (h : Loaded allowed start e) :
    Evolves allowed start e := by
  induction h with
  | @load e e' records u run hc hl =>
    have hafter : e' = e.after (.load records) := by rw [after, hl]
    exact hafter ▸ run.call _ hc
  | call c _ hc _ ih => exact ih.call c hc
  | evaluationOrder _ ih => exact ih.evaluationOrder
  | cyclicPaths _ ih => exact ih.cyclicPaths
  | affectedOrder changed _ ih => exact ih.affectedOrder changed

/-- A call that is not refused for a dependency map keeps all paths of the tree in the graph. -/
theorem Wired.after {e : Evaluator} (h : e.Wired) {c : Call} (hc : e.Unharmed c) :
    (e.after c).Wired := by
  cases c with
  | load records =>
    rw [Evaluator.after]
    rcases hl : e.load records with ⟨e', rejection | u⟩
    · rcases load_eq_error h.mapped hl with ⟨-, rfl⟩ | ⟨hmap, -⟩
      · exact h
      · exact absurd hmap (hc rejection (by rw [hl]))
    · exact wired_of_load h.mapped h.filed hl
  | apply b =>
    rw [Evaluator.after]
    rcases ha : e.apply b with ⟨e', rejection | u⟩
    · rcases apply_eq_error h.mapped ha with ⟨-, -, rfl⟩ | ⟨hmap, -⟩
      · exact h
      · exact absurd hmap (hc rejection (by rw [ha]))
    · exact h.apply ha
  | evaluate changed =>
    rw [Evaluator.after, evaluate]
    split
    · exact h
    · exact h.runPass (some (distinct changed)) .empty
  | evaluateAll =>
    have hr := h.runPass none .empty
    exact ⟨hr.mapped, hr.filed, hr.nodes, .inr rfl⟩

/-- **After a load all paths of the tree are in the graph**, as long as no update is refused for a
dependency map. -/
theorem Loaded.wired {allowed : Call → Prop} {start e : Evaluator} (hm : start.Mapped)
    (hf : start.Filed) (h : Loaded allowed start e) : e.Wired := by
  induction h with
  | load run _ hl => exact wired_of_load (run.mapped hm) (run.filed hm hf) hl
  | call c _ _ hc ih => exact ih.after hc
  | evaluationOrder _ ih => exact ih.refreshed
  | cyclicPaths _ ih => exact ih.refreshed
  | @affectedOrder e changed _ ih =>
    rcases e.affectedOrder_cases changed with ha | ha <;> rw [ha]
    · exact ih
    · exact ih.refreshed

end Evaluator

end Recalc
