import Recalc.Proofs.Evaluator.Compute
import Recalc.Proofs.Evaluator.Spare

/-!
# Shared data keeps its allocation

The value of a leaf without code is its raw value or, if it is shared data, its allocation, whatever
the other values are. So after a pass that visits such a leaf its value is current
(`Evaluator.Stable`), and a further visit finds the allocation that is there: an update that is not
about the leaf has no patch for it (`Evaluator.Intact.keeps_allocation`). What is shown here needs
no condition on keys, extractors or the engine.

Where the conditions end, data is sent again (`Evaluator.resends_shared`): a leaf with code takes
the allocation of what it reads, and a write that changes the paths of an entity allocates all its
shared data anew.
-/

namespace Recalc

/-- The raw value at a path is code. -/
def EntityConfig.Runs (config : EntityConfig) (path : String) (raw : Json) : Prop :=
  config.isDynamicPath (Path.split path).2 = true ∧ ∃ text, raw = .string text

/-- Whether the path is a leaf without code. -/
def Tree.isStatic (t : Tree) (path : String) : Bool :=
  let (name, property) := Path.split path
  property ≠ "" && (t.get? name).any fun r =>
    (r.entity.property? property).any (!·.isComposite) && path ∈ r.leafPaths &&
      !r.config.isDynamicPath property

theorem Tree.exists_listed {t : Tree} {path : String} (h : t.isStatic path = true) :
    ∃ config raw, t.Listed path config raw ∧ ¬ config.Runs path raw := by
  simp only [isStatic, Bool.and_eq_true, Option.any_eq_true, Bool.not_eq_true',
    decide_eq_true_eq] at h
  obtain ⟨hproper, r, hr, ⟨⟨raw, hraw, hleaf⟩, hlisted⟩, hstatic⟩ := h
  refine ⟨r.config, raw, ⟨r, ⟨hr, hproper, hraw, hleaf⟩, hlisted, rfl⟩, fun hruns => ?_⟩
  have hdynamic := hruns.1
  rw [hstatic] at hdynamic
  cases hdynamic

namespace Evaluator

/-- A leaf without code is computed to be its raw value or its allocation, whatever the other values
are. -/
theorem compute_of_listed {e : Evaluator} {path : String} {config : EntityConfig} {raw : Json}
    (h : e.tree.Listed path config raw) (hc : ¬ config.Runs path raw) (s : Snapshot) :
    e.compute s path = .value (e.staticValue path raw) := by
  obtain ⟨r, hl, -, rfl⟩ := h
  rw [compute_of_leafAt hl, computeLeaf.eq_def]
  split
  · rename_i text hd
    exact absurd ⟨hd, text, rfl⟩ hc
  · rfl

/-- A value that a leaf without code has is its raw value or its allocation, except at pending
paths. -/
def Stable (e : Evaluator) (pending : String → Prop) : Prop :=
  ∀ path config raw value, e.tree.Listed path config raw → ¬ config.Runs path raw →
    e.snapshot.get? path = some value → value = e.staticValue path raw ∨ pending path

end Evaluator

/-! ### Passes -/

namespace Pass

/-- A visit of a leaf whose value is known. -/
theorem visit_of_value {e : Evaluator} {p : Pass} {id : Nat} {value : Value}
    (h : e.compute p.snapshot (e.graph.path id) = .value value) :
    (p.visit e id).snapshot.get? (e.graph.path id) = some value ∧
      (p.visit e id).previous.get? (e.graph.path id) =
        (p.previous.get? (e.graph.path id)).or (p.snapshot.get? (e.graph.path id)) := by
  have heval : ∀ (p' : Pass) (cyclic : Bool), p'.snapshot = p.snapshot →
      p'.previous = p.previous →
      (p'.evaluatePath e (e.graph.path id) cyclic).snapshot.get? (e.graph.path id) = some value ∧
        (p'.evaluatePath e (e.graph.path id) cyclic).previous.get? (e.graph.path id) =
          (p.previous.get? (e.graph.path id)).or (p.snapshot.get? (e.graph.path id)) := by
    intro p' cyclic hs hv
    rw [evaluatePath, hs, h]
    refine ⟨(get?_store _ _ _ _).trans (if_pos rfl), ?_⟩
    refine (Snapshot.get?_capture _ _ _ _).trans ?_
    rw [if_pos rfl, hs, hv]
  rw [visit]
  cases e.graph.isCyclic id with
  | true => exact heval _ true rfl rfl
  | false => exact heval p false rfl rfl

/-- Visits of different paths, one of which is a leaf whose value is known. -/
theorem foldl_visit_of_value {e : Evaluator} {path : String} {value : Value}
    (h : ∀ s, e.compute s path = .value value) {ids : List Nat}
    (hn : (e.graph.paths ids).Nodup) (hm : path ∈ e.graph.paths ids) (p : Pass) :
    (ids.foldl (visit e) p).snapshot.get? path = some value ∧
      (ids.foldl (visit e) p).previous.get? path =
        (p.previous.get? path).or (p.snapshot.get? path) := by
  induction ids generalizing p with
  | nil => cases hm
  | cons id ids ih =>
    obtain ⟨hout, hn⟩ := List.nodup_cons.1 (hn : (e.graph.path id :: e.graph.paths ids).Nodup)
    rcases List.mem_cons.1 hm with rfl | hm
    · obtain ⟨hs, hv⟩ := visit_of_value (h p.snapshot)
      exact (foldl_visit_of_not_mem e hout (p.visit e id)).imp (·.trans hs) (·.trans hv)
    · obtain ⟨hs, hv⟩ := p.visit_of_ne e (ne_of_mem_of_not_mem hm hout)
      rw [← hs, ← hv]
      exact ih hn hm (p.visit e id)

end Pass

namespace Evaluator

/-- A pass that visits a leaf whose value is known. -/
theorem passOf_of_value {e : Evaluator} (h : e.graph.Sound) {path : String} {value : Value}
    (hv : ∀ s, e.compute s path = .value value) {roots : Option (List String)}
    (hm : path ∈ e.visitedPaths roots) (previous : Snapshot) :
    (e.passOf roots previous).snapshot.get? path = some value ∧
      (e.passOf roots previous).previous.get? path =
        (previous.get? path).or (e.snapshot.get? path) := by
  refine Pass.foldl_visit_of_value (e := e.ordered) (fun s => ?_) (nodup_visitedPaths h roots) hm
    (Pass.start e.snapshot previous)
  rw [compute_ordered]
  exact hv s

/-- A pass makes good the values of the leaves that it visits. -/
theorem Stable.runPass {e : Evaluator} {pending : String → Prop} (hs : e.Stable pending)
    (h : e.graph.Sound) (roots : Option (List String)) (previous : Snapshot)
    (hp : ∀ path, e.tree.Has path → pending path → path ∈ e.visitedPaths roots) :
    (e.runPass roots previous).1.Stable (fun _ => False) := by
  intro path config raw value hl hc hv
  rw [(runPass_eq h roots previous).1] at hl hv ⊢
  have hl : e.tree.Listed path config raw := hl
  have hv : (e.passOf roots previous).snapshot.get? path = some value := hv
  have hcompute := compute_of_listed hl hc
  refine .inl ?_
  change value = e.staticValue path raw
  by_cases hm : path ∈ e.visitedPaths roots
  · rw [(passOf_of_value h hcompute hm previous).1] at hv
    exact (Option.some.inj hv).symm
  · rw [get?_passOf_of_not_mem e previous hm] at hv
    exact (hs path config raw value hl hc hv).resolve_right fun hpend => hm (hp path hl.has hpend)

/-! ### Batches -/

/-- What the changes of a batch and the rebuilding of its entities lead to. -/
structure Readies (e : Evaluator) (b : ChangeBatch) (p : Progress) : Prop where
  /-- The graph lists the paths of entities under their names. -/
  filed : p.Filed
  /-- The paths of the tree are nodes. -/
  nodes : ∀ path, p.evaluator.tree.Has path → p.evaluator.graph.Node path
  /-- Leaves are as they were, or marked. -/
  attends : Progress.Attends ⟨e, .empty⟩ p
  /-- Leaves that the batch bypasses are as they were. -/
  spares : ∀ path, b.Bypasses e.tree path → Progress.Spares ⟨e, .empty⟩ path p
  /-- No pass completes. -/
  evaluatedOnce : p.evaluator.evaluatedOnce = e.evaluatedOnce

/-- A checked batch that succeeds runs a pass from there. -/
theorem exists_readies {e e' : Evaluator} {b : ChangeBatch} {u : Update}
    (h : Progress.Wired ⟨e, .empty⟩ b.structural) (hb : ∀ c ∈ b.structural, c.Proper)
    (ha : e.applyChecked b = (e', .ok u)) :
    ∃ p, e.Readies b p ∧ e' = (finish p b).1 ∧ u = (finish p b).2 := by
  obtain ⟨p, hp, he, hu⟩ := applyChecked_eq_ok ha
  refine ⟨p, ?_, he, hu⟩
  have hin : Progress.InStep ⟨e, .empty⟩ := ⟨PendingSet.inStep_empty, PendingSet.inStep_empty⟩
  have hfiled := Filed.rebuilt h.filed h.mapped hb
  have hattends := Progress.attends_perform h.mapped hin hb
  have hrebuilt := Progress.attends_rebuild hattends.inStep
  have hspares := (Progress.perform ⟨e, .empty⟩ b).spares_rebuild
  have hsheds := (Progress.sheds_perform ⟨e, .empty⟩ b).evaluatedOnce
  obtain ⟨graph, readers, reads, leaves, heq⟩ := (Progress.perform ⟨e, .empty⟩ b).rebuild_eq
  have honce : (Progress.perform ⟨e, .empty⟩ b).rebuild.1.evaluator.evaluatedOnce =
      e.evaluatedOnce := by
    rw [heq]
    exact hsheds
  rw [hp] at hfiled hrebuilt hspares honce
  exact ⟨hfiled, fun path => (h.perform hb).rebuild hp, hattends.trans hrebuilt, fun path hpath =>
    (Progress.spares_perform h.mapped hin hb hpath).trans (hspares path), honce⟩

/-- The value of a leaf that nothing happened to. -/
theorem staticValue_of_spares {p p' : Progress} {path : String} (h : p.Spares path p')
    (raw : Json) : p'.evaluator.staticValue path raw = p.evaluator.staticValue path raw := by
  rw [staticValue, staticValue, h.bulk]

/-- Leaves that are as they were have the values they had. -/
theorem Stable.attends {p p' : Progress} {pending : String → Prop}
    (hs : p.evaluator.Stable pending) (h : p.Attends p') :
    p'.evaluator.Stable fun path => pending path ∨ path ∈ p'.work.roots.keys := by
  intro path config raw value hl hc hv
  rcases h.leaves path config raw hl with hspared | hmarked
  · rw [hspared.snapshot] at hv
    rw [staticValue_of_spares hspared]
    exact (hs path config raw value ((hspared.listed config raw).1 hl) hc hv).imp_right .inl
  · exact .inr (.inr hmarked)

namespace Readies

variable {e : Evaluator} {b : ChangeBatch} {p : Progress} (h : e.Readies b p)
include h

/-- Marked paths of the tree are visited. -/
theorem mem_visitedPaths {path : String} (hp : p.evaluator.tree.Has path)
    (hm : path ∈ p.work.roots.keys ∨ path ∈ b.changed.keys) :
    path ∈ p.evaluator.visitedPaths (passRoots p b) := by
  refine (Evaluator.mem_visitedPaths h.filed.sound).2 ⟨h.nodes path hp, fun list hl => ?_⟩
  have hlist := (passRoots_eq_some h.attends.inStep.roots hl).2 path
  exact ⟨path, hlist.2 hm, h.nodes path hp, .refl⟩

/-- All paths of the tree are visited in a full pass. -/
theorem mem_visitedPaths_of_full (hb : b.full = true) {path : String}
    (hp : p.evaluator.tree.Has path) : path ∈ p.evaluator.visitedPaths (passRoots p b) := by
  refine (Evaluator.mem_visitedPaths h.filed.sound).2 ⟨h.nodes path hp, fun list hl => ?_⟩
  rw [(passRoots_eq_some h.attends.inStep.roots hl).1] at hb
  cases hb

/-- The pass of a batch makes good the values of the leaves that the batch is about, and a full pass
those of all leaves. -/
theorem stable_finish {pending : String → Prop} (hs : e.Stable pending)
    (hp : b.full = true ∨ ∀ path, ¬ pending path) : (finish p b).1.Stable (fun _ => False) := by
  have hstable : p.evaluator.Stable _ := Stable.attends (p := ⟨e, .empty⟩) hs h.attends
  rw [finish_eq]
  refine hstable.runPass h.filed.sound (passRoots p b) p.work.previous fun path hhas hpend => ?_
  rcases hp with hfull | hnone
  · exact h.mem_visitedPaths_of_full hfull hhas
  · exact h.mem_visitedPaths hhas (.inl (hpend.resolve_left (hnone path)))

/-- A leaf of the tree that is visited runs. -/
theorem mem_evaluationOrder {path : String} (hv : p.evaluator.tree.Valued path) :
    path ∈ (finish p b).2.evaluationOrder ↔ path ∈ p.evaluator.visitedPaths (passRoots p b) := by
  classical
  rw [(reports_finish h.filed.sound b).ran, map_fst_passFindings h.filed.sound, List.mem_filter,
    decide_eq_true_iff, tree_finish h.filed.sound]
  exact and_iff_left hv

/-- What the update of a batch that is no first one compares at the path of a patch. -/
theorem mem_patches_finish (ho : e.evaluatedOnce = true) {patch : Patch}
    (hp : patch ∈ (finish p b).2.patches) : patch.path ∈ b.forced.keys ∨
      ((finish p b).1.snapshot.get? patch.path = none ∨
        patch.path ∈ (finish p b).2.evaluationOrder ∨ patch.path ∈ b.changed.keys) ∧
      Patch.at? (p.evaluator.passOf (passRoots p b) p.work.previous).previous
        (finish p b).1.snapshot patch.path = some patch := by
  have hprevious := (runPass_eq h.filed.sound (passRoots p b) p.work.previous).2.1
  rw [finish_eq] at hp ⊢
  simp only at hp ⊢
  rcases mem_of_mem_patches hp with ⟨hlisted, hat⟩ | hforced
  · rw [h.evaluatedOnce, ho] at hat
    refine .inr ⟨?_, hprevious ▸ hat⟩
    rw [listed, List.mem_append, List.mem_append, mem_removedPaths, or_assoc] at hlisted
    exact hlisted.imp_left And.right
  · exact .inl hforced

/-- **A leaf that the batch bypasses keeps its value** and has no patch, unless it is forced or its
code runs. -/
theorem keeps_bypassed (hs : e.Stable (fun _ => False)) (ho : e.evaluatedOnce = true)
    {path : String} {config : EntityConfig} {raw : Json} {value : Value}
    (hl : e.tree.Listed path config raw) (hv : e.snapshot.get? path = some value)
    (hb : b.Bypasses e.tree path)
    (hc : ¬ config.Runs path raw ∨ path ∉ (finish p b).2.evaluationOrder) :
    (finish p b).1.snapshot.get? path = some value ∧
      ∀ patch ∈ (finish p b).2.patches, patch.path = path → path ∈ b.forced.keys := by
  have hspared := h.spares path hb
  have hlisted : p.evaluator.tree.Listed path config raw := (hspared.listed config raw).2 hl
  have hstored : p.evaluator.snapshot.get? path = some value := hspared.snapshot.trans hv
  have hsnapshot : (finish p b).1.snapshot =
      (p.evaluator.passOf (passRoots p b) p.work.previous).snapshot := by
    rw [finish_eq]
    simp only [(runPass_eq h.filed.sound (passRoots p b) p.work.previous).1]
  have hran := h.mem_evaluationOrder hlisted.valued
  by_cases hvisited : path ∈ p.evaluator.visitedPaths (passRoots p b)
  · -- The visit computes the allocation that is there, and notes it as the value from before.
    have hstatic := hc.resolve_right fun hout => hout (hran.2 hvisited)
    have hsame : value = p.evaluator.staticValue path raw := by
      rw [staticValue_of_spares hspared]
      exact (hs path config raw value hl hstatic hv).resolve_right id
    obtain ⟨hafter, hnoted⟩ := passOf_of_value h.filed.sound (compute_of_listed hlisted hstatic)
      hvisited p.work.previous
    rw [← hsame, ← hsnapshot] at hafter
    rw [hstored, hspared.previous] at hnoted
    refine ⟨hafter, fun patch hp hpath => ?_⟩
    subst hpath
    refine (h.mem_patches_finish ho hp).resolve_right fun hdiff => ?_
    rw [Patch.at?_eq_none (hnoted.trans hafter.symm)] at hdiff
    cases hdiff.2
  · have hafter : (finish p b).1.snapshot.get? path = some value := by
      rw [hsnapshot, get?_passOf_of_not_mem p.evaluator p.work.previous hvisited, hstored]
    refine ⟨hafter, fun patch hp hpath => ?_⟩
    subst hpath
    refine (h.mem_patches_finish ho hp).resolve_right fun hdiff => ?_
    rw [hafter, hran] at hdiff
    rcases hdiff.1 with hnone | hmem | hmarked
    · cases hnone
    · exact hvisited hmem
    · exact hvisited (h.mem_visitedPaths hlisted.has (.inr hmarked))

end Readies

/-- **A batch that succeeds** leaves the leaves without code stable. -/
theorem Stable.apply {e e' : Evaluator} (hs : e.Stable (fun _ => False)) (hw : e.Wired)
    {b : ChangeBatch} {u : Update} (ha : e.apply b = (e', .ok u)) :
    e'.Stable (fun _ => False) := by
  obtain ⟨hproper, ⟨-, -, rfl, -⟩ | hc⟩ := apply_eq_ok ha
  · exact hs
  · obtain ⟨p, hp, rfl, -⟩ := exists_readies
      (.ofNodes hw.mapped hw.filed hw.nodes b.structural) hproper.structural hc
    exact hp.stable_finish hs (.inr fun _ => id)

/-- **A load** makes them stable, whatever was there before. -/
theorem stable_of_load {e e' : Evaluator} (hm : e.Mapped) (hf : e.Filed)
    {records : List EntityRecord} {u : Update} (hl : e.load records = (e', .ok u)) :
    e'.Stable (fun _ => False) := by
  obtain ⟨hproper, ⟨hempty, -, rfl, -⟩ | hc⟩ := apply_eq_ok (load_eq_ok hl)
  · exact fun path _ _ _ hlisted => absurd hlisted.has (hm.enrolled.not_has_of_isEmpty hempty path)
  · obtain ⟨p, hp, rfl, -⟩ := exists_readies
      (progressWired_loadBatch (e := { e with evaluatedOnce := false }) hm hf records)
      hproper.structural hc
    have hany : Stable { e with evaluatedOnce := false } (fun _ => True) :=
      fun _ _ _ _ _ _ _ => .inr trivial
    exact hp.stable_finish hany (.inl rfl)

/-- A call that is not refused for a dependency map leaves the leaves without code stable. -/
theorem Stable.after {e : Evaluator} (hs : e.Stable (fun _ => False)) (hw : e.Wired) {c : Call}
    (hc : e.Unharmed c) : (e.after c).Stable (fun _ => False) := by
  cases c with
  | load records =>
    rw [Evaluator.after]
    rcases hl : e.load records with ⟨e', rejection | u⟩
    · rcases load_eq_error hw.mapped hl with ⟨-, rfl⟩ | ⟨hmap, -⟩
      · exact hs
      · exact absurd hmap (hc rejection (by rw [hl]))
    · exact stable_of_load hw.mapped hw.filed hl
  | apply b =>
    rw [Evaluator.after]
    rcases ha : e.apply b with ⟨e', rejection | u⟩
    · rcases apply_eq_error hw.mapped ha with ⟨-, -, rfl⟩ | ⟨hmap, -⟩
      · exact hs
      · exact absurd hmap (hc rejection (by rw [ha]))
    · exact hs.apply hw ha
  | evaluate changed =>
    rw [Evaluator.after, evaluate]
    split
    · exact hs
    · exact hs.runPass hw.filed.sound (some (distinct changed)) .empty fun _ _ => False.elim
  | evaluateAll => exact hs.runPass hw.filed.sound none .empty fun _ _ => False.elim

/-- What any calls leave of an evaluator, if since the start or the last load that succeeded no
update was refused for a dependency map. -/
inductive Intact (allowed : Call → Prop) (start : Evaluator) : Evaluator → Prop where
  /-- Nothing was asked. -/
  | start : Intact allowed start start
  /-- The last load succeeded. -/
  | load {e e' : Evaluator} {records : List EntityRecord} {u : Update}
      (run : Evolves allowed start e) (hc : allowed (.load records))
      (h : e.load records = (e', .ok u)) : Intact allowed start e'
  /-- One more call was made. -/
  | call {e : Evaluator} (c : Call) (run : Intact allowed start e) (hc : allowed c)
      (h : e.Unharmed c) : Intact allowed start (e.after c)
  /-- The evaluation order was asked for. -/
  | evaluationOrder {e : Evaluator} (run : Intact allowed start e) :
      Intact allowed start e.evaluationOrder.2
  /-- The paths on cycles were asked for. -/
  | cyclicPaths {e : Evaluator} (run : Intact allowed start e) :
      Intact allowed start e.cyclicPaths.2
  /-- The order of what paths affect was asked for. -/
  | affectedOrder {e : Evaluator} (changed : List String) (run : Intact allowed start e) :
      Intact allowed start (e.affectedOrder changed).2

/-- **The leaves without code are stable** after such calls, and the paths of the tree are in the
graph. -/
theorem Intact.wired_and_stable {allowed : Call → Prop} {start e : Evaluator}
    (hm : start.Mapped) (hf : start.Filed) (hw : start.Wired)
    (hs : start.Stable (fun _ => False)) (h : Intact allowed start e) :
    e.Wired ∧ e.Stable (fun _ => False) := by
  induction h with
  | start => exact ⟨hw, hs⟩
  | load run _ hl =>
    exact ⟨wired_of_load (run.mapped hm) (run.filed hm hf) hl,
      stable_of_load (run.mapped hm) (run.filed hm hf) hl⟩
  | call c _ _ hc ih => exact ⟨ih.1.after hc, ih.2.after ih.1 hc⟩
  | evaluationOrder _ ih => exact ⟨ih.1.refreshed, ih.2⟩
  | cyclicPaths _ ih => exact ⟨ih.1.refreshed, ih.2⟩
  | @affectedOrder e changed _ ih =>
    rcases e.affectedOrder_cases changed with ha | ha <;> rw [ha]
    · exact ih
    · exact ⟨ih.1.refreshed, ih.2⟩

/-- **Shared data keeps its allocation until it is written**: take an evaluator that any calls lead
to, with any engine and any extractors, such that since the start or the last load that succeeded no
update was refused for a dependency map. A batch that succeeds in an update that is no first one,
neither stores nor removes the entity of a leaf, does not write the leaf, and replaces only values
without fields by others in that entity, leaves the leaf the allocation that it has, and has no
patch for it unless it is forced. If the leaf is code, this holds as long as that does not run. -/
theorem Intact.keeps_allocation {settings : Settings} {engine : Engine} {registry : Registry}
    {allowed : Call → Prop} {e e' : Evaluator}
    (h : Intact allowed { ofEngine settings engine with registry } e) {b : ChangeBatch} {u : Update}
    (ha : e.apply b = (e', .ok u)) (hu : u.isFirstTree = false) {path : String}
    {config : EntityConfig} {raw : Json} (hl : e.tree.Listed path config raw) {identity : Nat}
    {payload : Json} (hv : e.snapshot.get? path = some (.bulk identity payload))
    (hb : b.Bypasses e.tree path) (hc : ¬ config.Runs path raw ∨ path ∉ u.evaluationOrder) :
    e'.snapshot.get? path = some (.bulk identity payload) ∧
      ∀ patch ∈ u.patches, patch.path = path → path ∈ b.forced.keys := by
  have hempty : ∀ path, ¬ Tree.empty.Has path :=
    Tree.regular_empty.enrolled.not_has_of_isEmpty rfl
  obtain ⟨hw, hs⟩ := h.wired_and_stable Tree.mapped_empty PathGraph.filed_empty
    ⟨Tree.mapped_empty, PathGraph.filed_empty, fun q hq => absurd hq (hempty q), .inl rfl⟩
    fun q _ _ _ hq => absurd hq.has (hempty q)
  obtain ⟨hproper, ⟨-, -, rfl, rfl⟩ | hchecked⟩ := apply_eq_ok ha
  · exact ⟨hv, fun patch hp => by cases hp⟩
  · obtain ⟨p, hp, rfl, rfl⟩ := exists_readies
      (.ofNodes hw.mapped hw.filed hw.nodes b.structural) hproper.structural hchecked
    have ho : (!p.evaluator.evaluatedOnce) = false := hu
    rw [hp.evaluatedOnce, Bool.not_eq_false'] at ho
    exact hp.keeps_bypassed hs ho hl hv hb hc

/-- The value is shared data. -/
def isShared : Option Value → Bool
  | some (.bulk _ _) => true
  | _ => false

theorem exists_of_isShared {value : Option Value} (h : isShared value = true) :
    ∃ identity payload, value = some (.bulk identity payload) := by
  rcases value with _ | _ | payload | ⟨identity, payload⟩
  · cases h
  · cases h
  · cases h
  · exact ⟨identity, payload, rfl⟩

/-- A query whose data is shared. -/
def query (fields : List (String × Json)) : EntityRecord :=
  ⟨(EntityConfig.ofName "Query" .action).withBulkPath "data", ⟨fields⟩⟩

/-- A query with a count beside its data. -/
def counted : EntityRecord := query [("count", .ofNat 1), ("data", .string "rows")]

/-- Another count, and a mark of the data. -/
def recount : ChangeBatch :=
  (ChangeBatch.setValue .empty "Query.count" (.ofNat 2)).markChanged "Query.data"

/-- The count changes and the data runs again, yet it keeps its allocation and has no patch. -/
theorem keeps_allocation_recount : ∃ e e' u config raw identity payload,
    Intact (fun _ => True) { ofEngine .default .standard with registry := .standard } e ∧
    e.apply recount = (e', .ok u) ∧ u.isFirstTree = false ∧
    u.evaluationOrder = ["Query.count", "Query.data"] ∧
    e.tree.Listed "Query.data" config raw ∧ ¬ config.Runs "Query.data" raw ∧
    e.snapshot.get? "Query.data" = some (.bulk identity payload) ∧
    recount.Bypasses e.tree "Query.data" ∧
    e'.snapshot.get? "Query.data" = some (.bulk identity payload) ∧
    ∀ patch ∈ u.patches, patch.path ≠ "Query.data" := by
  obtain ⟨e, u₁, hl, hrun, hlisted, hshared, hcount⟩ : ∃ e u₁,
      (ofEngine .default .standard).load [counted] = (e, .ok u₁) ∧
      (e.apply recount).2.toOption.map (fun u => (u.isFirstTree, u.evaluationOrder)) =
        some (false, ["Query.count", "Query.data"]) ∧
      e.tree.isStatic "Query.data" = true ∧
      isShared (e.snapshot.get? "Query.data") = true ∧
      e.tree.Replaces ("Query.count", .ofNat 2) :=
    exists_ok_and_of_toOption (by decide +kernel) (by decide +kernel)
  obtain ⟨u, ha, hu⟩ := exists_ok_of_toOption hrun
  obtain ⟨hfirst, horder⟩ := Prod.mk.inj hu
  obtain ⟨config, raw, hlisted, hstatic⟩ := Tree.exists_listed hlisted
  obtain ⟨identity, payload, hv⟩ := exists_of_isShared hshared
  have hi : Intact (fun _ => True) { ofEngine .default .standard with registry := .standard } e :=
    .load .start trivial hl
  have hb : recount.Bypasses e.tree "Query.data" := by
    refine ⟨fun c hc => (by cases hc), fun w hw => ?_⟩
    obtain rfl := List.mem_singleton.1 hw
    obtain ⟨r, old, hold, -⟩ := hcount.old
    exact ⟨by decide, fun _ => ⟨rfl, r, old, hold⟩⟩
  obtain ⟨hkept, hpatches⟩ := hi.keeps_allocation ha hfirst hlisted hv hb (.inl hstatic)
  refine ⟨e, _, u, config, raw, identity, payload, hi, ha, hfirst, horder, hlisted, hstatic, hv, hb,
    hkept, fun patch hp hpath => ?_⟩
  cases hpatches patch hp hpath

end Evaluator

/-! ### Shared data that is sent again -/

/-- The batch is about other entities than that of the path, and writes nothing at, above or below
the path. -/
structure ChangeBatch.Elsewhere (b : ChangeBatch) (path : String) : Prop where
  /-- Only other entities come or go. -/
  structural : ∀ c ∈ b.structural, c.entity ≠ Path.entityOf path
  /-- What is written is neither above the path nor below it. -/
  values : ∀ w ∈ b.values, ¬ Path.Under w.1 path ∧ ¬ Path.Under path w.1

namespace Evaluator

/-- The path has shared data, a batch is about other paths, and yet its update, which is no first
one, has a patch for the path, although that is not forced. -/
structure Resends (e : Evaluator) (b : ChangeBatch) (path : String) (e' : Evaluator) : Prop where
  /-- The data is shared. -/
  shared : ∃ identity payload, e.snapshot.get? path = some (.bulk identity payload)
  /-- The batch is about other paths. -/
  elsewhere : b.Elsewhere path
  /-- The path is not forced. -/
  unforced : path ∉ b.forced.keys
  /-- The update has a patch for the path. -/
  patched : ∃ u, e.apply b = (e', .ok u) ∧ u.isFirstTree = false ∧
    ∃ patch ∈ u.patches, patch.path = path

instance (above path : String) : Decidable (Path.Under above path) :=
  inferInstanceAs (Decidable (_ ∨ _))

theorem elsewhere_iff {b : ChangeBatch} {path : String} : b.Elsewhere path ↔
    (∀ c ∈ b.structural, c.entity ≠ Path.entityOf path) ∧
      ∀ w ∈ b.values, ¬ Path.Under w.1 path ∧ ¬ Path.Under path w.1 :=
  ⟨fun h => ⟨h.structural, h.values⟩, fun h => ⟨h.1, h.2⟩⟩

instance (b : ChangeBatch) (path : String) : Decidable (b.Elsewhere path) :=
  decidable_of_iff' _ elsewhere_iff

/-- The records load, some batches are applied or refused, and then data is sent again. -/
def ResendsAfter (start : Evaluator) (records : List EntityRecord) (before : List ChangeBatch)
    (b : ChangeBatch) (path : String) : Prop :=
  ∃ e u e', start.load records = (e, .ok u) ∧
    (before.foldl (fun e b => (e.apply b).1) e).Resends b path e'

/-- That data is sent again shows when the batches are applied. -/
theorem resendsAfter_of_load {start : Evaluator} {records : List EntityRecord}
    {before : List ChangeBatch} {b : ChangeBatch} {path : String}
    (h : let e := before.foldl (fun e b => (e.apply b).1) (start.load records).1
      (start.load records).2.toOption.isSome = true ∧ isShared (e.snapshot.get? path) = true ∧
      b.Elsewhere path ∧ path ∉ b.forced.keys ∧ (e.apply b).2.toOption.map
        (fun u => (u.isFirstTree, u.patches.any (·.path = path))) = some (false, true)) :
    ResendsAfter start records before b path := by
  obtain ⟨hload, hrest⟩ := h
  obtain ⟨e, u₁, hl, hshared, helsewhere, hforced, hresult⟩ :=
    exists_ok_and_of_toOption (P := fun e =>
      let e := before.foldl (fun e b => (e.apply b).1) e
      isShared (e.snapshot.get? path) = true ∧ b.Elsewhere path ∧ path ∉ b.forced.keys ∧
        (e.apply b).2.toOption.map (fun u => (u.isFirstTree, u.patches.any (·.path = path))) =
          some (false, true)) hload hrest
  obtain ⟨u, ha, hu⟩ := exists_ok_of_toOption hresult
  obtain ⟨hfirst, hpatch⟩ := Prod.mk.inj hu
  refine ⟨e, u₁, _, hl, exists_of_isShared hshared, helsewhere, hforced, u, ha, hfirst, ?_⟩
  simpa using hpatch

/-- A table that shows the data of the query. -/
def table : EntityRecord :=
  ⟨(EntityConfig.ofName "Table" .widget).withDynamicPath "rows",
    ⟨[("rows", .string "\x7b\x7b Query.data \x7d\x7d")]⟩⟩

/-- A query with shared rows inside its data. -/
def nested (fields : List (String × Json)) : EntityRecord :=
  ⟨(EntityConfig.ofName "Query" .action).withBulkPath "data.rows", ⟨fields⟩⟩

/-- Shared data is sent again in updates about other paths: by code that takes it over from a path
with new data; beside a write that changes the paths of the entity; after an update that was refused
for a dependency map; and at a leaf that is listed for a key with a separator, where a look-up finds
an object. -/
theorem resends_shared :
    ResendsAfter (ofEngine .default .standard) [counted, table] []
      (.setValue .empty "Query.data" (.string "more")) "Table.rows" ∧
    ResendsAfter (ofEngine .default .standard) [counted] []
      (.setValue .empty "Query.count" (.object [("total", .ofNat 2)])) "Query.data" ∧
    ResendsAfter wary [counted] [straying.upsertEntity counted]
      (.markChanged .empty "Query.data") "Query.data" ∧
    ResendsAfter (ofEngine .default .standard)
      [nested [("data", .object [("rows", .string "rows")])]]
      [.upsertEntity .empty (nested [("data", .object [("rows", .object [("first", .null)])]),
        ("data.rows", .null)])]
      (.markChanged .empty "Query.data.rows") "Query.data.rows" :=
  ⟨resendsAfter_of_load (by decide +kernel), resendsAfter_of_load (by decide +kernel),
    resendsAfter_of_load (by decide +kernel), resendsAfter_of_load (by decide +kernel)⟩

end Evaluator

end Recalc
