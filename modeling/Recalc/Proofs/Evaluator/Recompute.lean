import Recalc.Proofs.Evaluator.Report
import Recalc.Proofs.Evaluator.Wired
import Recalc.Proofs.Evaluator.Update

/-!
# What a write makes run

A batch that only replaces values without fields by others, at properties that tell nothing about
dependencies, leaves the graph as it is and queues no entity. Its pass runs over what the written
and the marked paths affect: exactly the leaves among these run, each once and in evaluation order,
and all other leaves keep their values (`Evaluator.Loaded.recomputes`).

This holds after a load, as long as no update is refused for a dependency map. Such an update can
leave a leaf in the tree that is not in the graph, and a write to it makes nothing run
(`Evaluator.write_unlisted`).
-/

namespace Recalc

/-! ### Trees of tidy records -/

namespace Tree.Regular

variable {t : Tree} (h : t.Regular)
include h

theorem change {c : StructuralChange} (hp : c.Proper) (ht : c.Tidy) : (t.change c).Regular := by
  cases c with
  | upsert record => exact h.upsert ⟨hp, ht⟩
  | remove name => exact h.remove name

theorem write {w : String × Json} (hp : Path.Writable w.1) (ht : w.2.Tidy) :
    (t.write w).Regular := by
  rw [Tree.write]
  cases hr : t.get? (Path.entityOf w.1) with
  | none => exact h
  | some record => exact h.upsert ((h.wellFormed hr).set hp.keys ht)

theorem perform {b : ChangeBatch} (hp : b.Proper) (ht : b.Tidy) : (t.perform b).Regular := by
  have hchanged : (b.structural.foldl Tree.change t).Regular :=
    List.foldlRecOn b.structural _ h fun _ hr c hc =>
      hr.change (hp.structural c hc) (ht.structural c hc)
  exact List.foldlRecOn b.values _ hchanged fun _ hr w hw =>
    hr.write (hp.values w hw) (ht.values w hw)

end Tree.Regular

namespace Evaluator

/-- A batch performs itself on the tree, or leaves it. -/
theorem tree_apply_cases (e : Evaluator) (b : ChangeBatch) :
    (e.apply b).1.tree = e.tree ∨
      e.validateAll [b] = .ok () ∧ (e.apply b).1.tree = e.tree.perform b := by
  rw [apply]
  cases hv : e.validateAll [b] with
  | error rejection => exact .inl rfl
  | ok _ =>
    simp only
    split
    · exact .inl rfl
    · refine .inr ⟨trivial, ?_⟩
      have hturns := (Progress.turns_perform ⟨e, .empty⟩ b).tree
      obtain ⟨graph, readers, reads, leaves, hr⟩ := (Progress.perform ⟨e, .empty⟩ b).rebuild_eq
      have hrebuilt : (Progress.perform ⟨e, .empty⟩ b).rebuild.1.evaluator.tree =
          e.tree.perform b := by
        rw [← hturns]
        exact congrArg (·.evaluator.tree) hr
      rw [applyChecked]
      generalize (Progress.perform ⟨e, .empty⟩ b).rebuild = r at hrebuilt ⊢
      obtain ⟨p, _ | rejection⟩ := r
      · exact hrebuilt
      · exact hrebuilt

/-- A batch with tidy values keeps a tree regular, whether it is refused or not. -/
theorem regular_apply {e : Evaluator} (h : e.tree.Regular) {b : ChangeBatch} (ht : b.Tidy) :
    (e.apply b).1.tree.Regular := by
  rcases e.tree_apply_cases b with he | ⟨hv, he⟩
  · rw [he]
    exact h
  · rw [he]
    exact h.perform (proper_of_validateAll hv) ht

/-- **Tidy calls keep a tree regular**, whether they are refused or not. -/
theorem Evolves.regular {start e : Evaluator} (hs : start.tree.Regular)
    (h : Evolves Call.Tidy start e) : e.tree.Regular := by
  induction h with
  | start => exact hs
  | @call e c _ hc ih =>
    cases c with
    | load records =>
      rw [after, load]
      split
      · exact ih
      · exact regular_apply (e := { e with evaluatedOnce := false }) ih (tidy_loadBatch e.tree hc)
    | apply b => exact regular_apply ih hc
    | evaluate changed =>
      rw [after, evaluate]
      split <;> exact ih
    | evaluateAll => exact ih
  | evaluationOrder _ ih => exact ih
  | cyclicPaths _ ih => exact ih
  | @affectedOrder e changed _ ih =>
    rcases e.affectedOrder_cases changed with ha | ha <;> rw [ha] <;> exact ih

end Evaluator

/-! ### Writes that tell nothing about dependencies -/

/-- The property is neither dynamic nor declared to read something. -/
structure EntityConfig.Silent (config : EntityConfig) (property : String) : Prop where
  /-- The value is no code. -/
  dynamic : config.isDynamicPath property = false
  /-- There is no declaration. -/
  declared : config.dependencyMap.contains property = false

namespace Tree

/-- A tree without its raw values: the configuration of each entity, and for each property whether
it is there and has fields. -/
def shape (t : Tree) (name : String) : Option (EntityConfig × (String → Option Bool)) :=
  (t.get? name).map fun r =>
    (r.config, fun property => (r.entity.property? property).map Json.isComposite)

/-- Which leaves there are, and how their entities are configured, shows in the shape. -/
theorem exists_leafAt_iff {t : Tree} {path : String} {P : EntityConfig → Prop} :
    (∃ r raw, t.LeafAt path r raw ∧ P r.config) ↔
      (Path.split path).2 ≠ "" ∧ ∃ s, t.shape (Path.split path).1 = some s ∧
        s.2 (Path.split path).2 = some false ∧ P s.1 := by
  constructor
  · rintro ⟨r, raw, hl, hP⟩
    refine ⟨hl.proper, _, by rw [shape, hl.found]; rfl, ?_, hP⟩
    simp only [hl.value, Option.map_some, hl.leaf]
  · rintro ⟨hne, s, hs, hvalue, hP⟩
    obtain ⟨r, hr, rfl⟩ := Option.map_eq_some_iff.1 hs
    obtain ⟨raw, hraw, hc⟩ := Option.map_eq_some_iff.1 hvalue
    exact ⟨r, raw, ⟨hr, hne, hraw, hc⟩, hP⟩

theorem valued_iff_of_shape {t t' : Tree} {path : String}
    (h : t'.shape (Path.split path).1 = t.shape (Path.split path).1) :
    t'.Valued path ↔ t.Valued path := by
  have hiff : ∀ t : Tree, t.Valued path ↔ ∃ r raw, t.LeafAt path r raw ∧ True := by
    simp [Valued]
  rw [hiff, hiff, exists_leafAt_iff (P := fun _ => True), exists_leafAt_iff (P := fun _ => True), h]

/-- A value without fields takes the place of another one, at a property that is neither dynamic nor
declared to read something. -/
structure Replaces (t : Tree) (w : String × Json) : Prop where
  /-- The new value has no fields. -/
  new : w.2.isComposite = false
  /-- There is an old value without fields, and no dependency is read off it. -/
  old : ∃ r raw, t.LeafAt w.1 r raw ∧ r.config.Silent (Path.split w.1).2

theorem replaces_iff {t : Tree} {w : String × Json} : t.Replaces w ↔
    (!w.2.isComposite && (Path.split w.1).2 ≠ "" && (t.get? (Path.split w.1).1).any fun r =>
      (r.entity.property? (Path.split w.1).2).any (!·.isComposite) &&
        !r.config.isDynamicPath (Path.split w.1).2 &&
        !r.config.dependencyMap.contains (Path.split w.1).2) = true := by
  simp only [Bool.and_eq_true, Option.any_eq_true, Bool.not_eq_true', decide_eq_true_eq]
  constructor
  · rintro ⟨hnew, r, raw, hl, hdynamic, hdeclared⟩
    exact ⟨⟨hnew, hl.proper⟩, r, hl.found, ⟨⟨raw, hl.value, hl.leaf⟩, hdynamic⟩, hdeclared⟩
  · rintro ⟨⟨hnew, hne⟩, r, hr, ⟨⟨raw, hraw, hc⟩, hdynamic⟩, hdeclared⟩
    exact ⟨hnew, r, raw, ⟨hr, hne, hraw, hc⟩, hdynamic, hdeclared⟩

instance (t : Tree) (w : String × Json) : Decidable (t.Replaces w) :=
  decidable_of_iff' _ replaces_iff

theorem Replaces.leaf {t : Tree} {w : String × Json} (h : t.Replaces w) (ht : t.Regular) :
    t.Leaf w.1 := by
  obtain ⟨r, raw, hl, -⟩ := h.old
  exact ht.leaf_iff.2 ⟨r, raw, hl⟩

theorem Replaces.of_shape {t t' : Tree} {w : String × Json} (h : t.Replaces w)
    (hs : t'.shape = t.shape) : t'.Replaces w := by
  refine ⟨h.new, (exists_leafAt_iff (P := (·.Silent (Path.split w.1).2))).2 ?_⟩
  rw [hs]
  exact (exists_leafAt_iff (P := (·.Silent (Path.split w.1).2))).1 h.old

end Tree

namespace Progress

/-- Values were written at the paths, and nothing else happened. -/
structure Wrote (p : Progress) (paths : List String) (p' : Progress) : Prop where
  /-- Only raw values and allocations change. -/
  fixed : ∃ tree bulk nextIdentity, p'.evaluator = { p.evaluator with tree, bulk, nextIdentity }
  /-- The tree keeps its shape. -/
  shape : p'.evaluator.tree.shape = p.evaluator.tree.shape
  /-- Records stand under their names. -/
  named : p'.evaluator.tree.Named
  /-- Nothing is removed and no value is noted. -/
  noted : p'.work.removed = p.work.removed ∧ p'.work.previous = p.work.previous
  /-- The sets of the work stay in step. -/
  inStep : p'.InStep
  /-- The paths may have new values. -/
  roots : ∀ q, q ∈ p'.work.roots.keys ↔ q ∈ p.work.roots.keys ∨ q ∈ paths
  /-- No entity is queued. -/
  rebuild : ∀ q, q ∈ p'.work.rebuild.keys ↔ q ∈ p.work.rebuild.keys

theorem wrote_nil {p : Progress} (hn : p.evaluator.tree.Named) (hi : p.InStep) :
    p.Wrote [] p where
  fixed := ⟨_, _, _, rfl⟩
  shape := rfl
  named := hn
  noted := ⟨rfl, rfl⟩
  inStep := hi
  roots := by simp
  rebuild _ := Iff.rfl

theorem Wrote.trans {p mid p' : Progress} {paths more : List String} (h : p.Wrote paths mid)
    (h' : mid.Wrote more p') : p.Wrote (paths ++ more) p' where
  fixed := by
    obtain ⟨tree, bulk, nextIdentity, he⟩ := h.fixed
    obtain ⟨tree', bulk', nextIdentity', he'⟩ := h'.fixed
    exact ⟨tree', bulk', nextIdentity', by rw [he', he]⟩
  shape := h'.shape.trans h.shape
  named := h'.named
  noted := ⟨h'.noted.1.trans h.noted.1, h'.noted.2.trans h.noted.2⟩
  inStep := h'.inStep
  roots q := by rw [h'.roots, h.roots, List.mem_append, or_assoc]
  rebuild q := (h'.rebuild q).trans (h.rebuild q)

/-- One write. -/
theorem wrote_writeValue {p : Progress} (hn : p.evaluator.tree.Named) (hi : p.InStep)
    {w : String × Json} (hw : p.evaluator.tree.Replaces w) : p.Wrote [w.1] (p.writeValue w) := by
  obtain ⟨record, raw, hl, hsilent⟩ := hw.old
  have hshape : record.KeepsShape (Path.split w.1).2 w.2 := ⟨hw.new, raw, hl.value, hl.leaf⟩
  have he := writeValue_of_keepsShape hl.found hshape
  have hspec := writeInPlace_spec hi record w.1 (Path.split w.1).2 w.2
  have htree := (p.turns_writeInPlace record w.1 (Path.split w.1).2 w.2).tree
  obtain ⟨bulk, nextIdentity, hfixed⟩ := hspec.fixed
  rw [he]
  refine ⟨⟨_, bulk, nextIdentity, hfixed⟩, ?_, ?_, hspec.noted, hspec.inStep, ?_, fun q => ?_⟩
  · rw [htree]
    funext name
    rw [Tree.shape, Tree.shape, Tree.get?_upsert]
    split
    · rename_i hname
      rw [EntityRecord.name_set, hn _ record hl.found] at hname
      rw [hname, hl.found, Option.map_some, Option.map_some]
      congr 2
      exact funext hshape.map_isComposite_property?_set
    · rfl
  · rw [htree]
    exact hn.change (.upsert _)
  · simpa using hspec.roots
  · rw [hspec.rebuild, hsilent.dynamic, hsilent.declared]
    simp

/-- **Writes that tell nothing about dependencies.** -/
theorem wrote_foldl {writes : List (String × Json)} {p : Progress} (hn : p.evaluator.tree.Named)
    (hi : p.InStep) (hw : ∀ w ∈ writes, p.evaluator.tree.Replaces w) :
    p.Wrote (writes.map Prod.fst) (writes.foldl writeValue p) := by
  induction writes generalizing p with
  | nil => exact wrote_nil hn hi
  | cons w writes ih =>
    obtain ⟨hfirst, hrest⟩ := List.forall_mem_cons.1 hw
    have hwrote := wrote_writeValue hn hi hfirst
    exact hwrote.trans (ih hwrote.named hwrote.inStep fun w' hw' =>
      (hrest w' hw').of_shape hwrote.shape)

end Progress

/-! ### What a pass leaves alone -/

namespace Pass

/-- A visit leaves the values of other paths, stored and noted. -/
theorem visit_of_ne (e : Evaluator) (p : Pass) {id : Nat} {q : String}
    (hq : q ≠ e.graph.path id) : (p.visit e id).snapshot.get? q = p.snapshot.get? q ∧
      (p.visit e id).previous.get? q = p.previous.get? q := by
  have hnoted : ∀ (s : Snapshot) (old : Option Value),
      (s.capture (e.graph.path id) old).get? q = s.get? q := by
    intro s old
    rw [Snapshot.get?_capture, if_neg hq, Option.or_none]
  have heval : ∀ (p : Pass) (cyclic : Bool),
      (p.evaluatePath e (e.graph.path id) cyclic).snapshot.get? q = p.snapshot.get? q ∧
        (p.evaluatePath e (e.graph.path id) cyclic).previous.get? q = p.previous.get? q := by
    intro p cyclic
    rw [evaluatePath]
    split
    · exact ⟨rfl, rfl⟩
    · exact ⟨(Snapshot.get?_erase p.snapshot (e.graph.path id) q).trans (if_neg hq), hnoted _ _⟩
    · exact ⟨(get?_store _ _ _ _).trans (if_neg hq), hnoted _ _⟩
    · refine ⟨(get?_store _ _ _ _).trans ((if_neg hq).trans ?_), (hnoted _ _).trans ?_⟩ <;>
        cases cyclic <;> rfl
  rw [visit]
  cases e.graph.isCyclic id with
  | true => exact heval _ true
  | false => exact heval p false

/-- Visits leave the values of other paths, stored and noted. -/
theorem foldl_visit_of_not_mem (e : Evaluator) {ids : List Nat} {q : String}
    (hq : q ∉ e.graph.paths ids) (p : Pass) :
    (ids.foldl (visit e) p).snapshot.get? q = p.snapshot.get? q ∧
      (ids.foldl (visit e) p).previous.get? q = p.previous.get? q := by
  induction ids generalizing p with
  | nil => exact ⟨rfl, rfl⟩
  | cons id ids ih =>
    obtain ⟨hne, hrest⟩ := not_or.1 (mt List.mem_cons.2 hq)
    obtain ⟨hs, hv⟩ := p.visit_of_ne e hne
    exact (ih hrest (p.visit e id)).imp (·.trans hs) (·.trans hv)

end Pass

namespace Evaluator

/-- A pass visits paths in evaluation order. -/
theorem visitedPaths_sublist {e : Evaluator} (h : e.graph.Sound) (roots : Option (List String)) :
    (e.visitedPaths roots).Sublist e.evaluationOrder.1 := by
  obtain ⟨-, ⟨keep, hkeep⟩, -⟩ := affectedIds_spec h roots
  have horder : e.evaluationOrder.1 =
      e.graph.paths (EvaluationOrder.compute e.graph.graph).order := by
    rw [evaluationOrder, PathGraph.evaluationOrder, PathGraph.currentOrder]
    simp only [h.refreshed_eq]
    rfl
  rw [horder, visitedPaths, hkeep]
  exact List.filter_sublist.map _

/-- A pass leaves the values of paths that it does not visit. -/
theorem get?_passOf_of_not_mem (e : Evaluator) {roots : Option (List String)} (previous : Snapshot)
    {q : String} (hq : q ∉ e.visitedPaths roots) :
    (e.passOf roots previous).snapshot.get? q = e.snapshot.get? q :=
  (Pass.foldl_visit_of_not_mem e.ordered hq (Pass.start e.snapshot previous)).1

/-- A patch of an update carries a difference at a path at which values are compared, or is about a
forced path. -/
theorem mem_of_mem_patches {b : ChangeBatch} {first : Bool} {removed : List String}
    {previous after : Snapshot} {result : PassResult} {patch : Patch}
    (h : patch ∈ (updateOf b first removed previous after result).patches) :
    patch.path ∈ listed b after removed result ∧
        Patch.at? (baseline first previous (removedPaths after removed)) after patch.path =
          some patch ∨
      patch.path ∈ b.forced.keys := by
  rw [updateOf_patches] at h
  have hforced : ∀ (forced : List String) (patches : List Patch),
      patch ∈ forced.foldl (addForced after) patches → patch ∈ patches ∨ patch.path ∈ forced := by
    intro forced
    induction forced with
    | nil => exact fun _ hp => .inl hp
    | cons path forced ih =>
      intro patches hp
      refine (ih _ hp).elim (fun hp => ?_) fun hp => .inr (List.mem_cons_of_mem _ hp)
      rw [addForced] at hp
      split at hp
      · exact .inl hp
      · split at hp
        · rcases List.mem_append.1 hp with hp | hp
          · exact .inl hp
          · obtain rfl := List.mem_singleton.1 hp
            exact .inr List.mem_cons_self
        · exact .inl hp
  refine (hforced _ _ h).imp_left fun hp => ?_
  obtain ⟨path, hlisted, hat⟩ := Patch.mem_diff.1 hp
  obtain rfl := Patch.path_of_at? hat
  exact ⟨hlisted, hat⟩

end Evaluator

/-! ### The batches -/

/-- The batch does nothing but replace values without fields at properties that tell nothing about
dependencies, mark paths of the tree and force values to be sent. -/
structure ChangeBatch.Replaces (b : ChangeBatch) (t : Tree) : Prop where
  /-- No entity comes or goes. -/
  structural : b.structural = []
  /-- Not everything is to be evaluated. -/
  full : b.full = false
  /-- Values are replaced. -/
  values : ∀ w ∈ b.values, t.Replaces w
  /-- The marked paths exist. -/
  marks : ∀ path ∈ b.changed.keys, t.Has path

namespace Evaluator

/-- What happens in a batch that replaces values: the leaves run that it writes or marks or that
depend on such a path, in evaluation order and each once, and nothing happens to other leaves. -/
structure Recomputes (e : Evaluator) (b : ChangeBatch) (e' : Evaluator) (u : Update) : Prop where
  /-- The tree keeps its shape. -/
  shape : e'.tree.shape = e.tree.shape
  /-- What runs is in evaluation order. -/
  ordered : u.evaluationOrder.Sublist e.evaluationOrder.1
  /-- Nothing runs twice. -/
  once : u.evaluationOrder.Nodup
  /-- The leaves that are written or marked run, and those that depend on such a path. -/
  ran : ∀ path, path ∈ u.evaluationOrder ↔ e.tree.Leaf path ∧
    ∃ root, (root ∈ b.written ∨ root ∈ b.changed.keys) ∧ e.graph.Affects root path
  /-- Other leaves keep their values. -/
  kept : ∀ path, e.tree.Leaf path → path ∉ u.evaluationOrder →
    e'.snapshot.get? path = e.snapshot.get? path
  /-- Other leaves have no failures. -/
  unfailed : ∀ path, e.tree.Leaf path → path ∉ u.evaluationOrder → u.errors.get? path = none
  /-- Other leaves have no patches, unless they are forced. -/
  unpatched : ∀ patch ∈ u.patches, e.tree.Leaf patch.path → patch.path ∉ u.evaluationOrder →
    patch.path ∈ b.forced.keys

/-- The batch passes the check. -/
theorem validateAll_of_replaces {e : Evaluator} (hm : e.Mapped) (hr : e.tree.Regular)
    {b : ChangeBatch} (hb : b.Replaces e.tree) : e.validateAll [b] = .ok () := by
  have hentity : ∀ path, e.tree.Has path → Path.entityOf path ∈ (Outlook.ofTree e.tree).names := by
    rintro path ⟨r, hget, -⟩
    rw [Outlook.ofTree, SortedSet.mem_ofList]
    exact hr.registered.2 ⟨r, hget⟩
  refine validateAll_singleton.2 ⟨.ofTree e.tree, ?_, fun path hp => ?_, fun path hp => ?_⟩
  · rw [hb.structural]
    rfl
  · obtain ⟨w, hw, rfl⟩ := List.mem_map.1 hp
    have hhas := ((hb.values w hw).leaf hr).has
    obtain ⟨r, raw, hl, -⟩ := (hb.values w hw).old
    refine ⟨?_, hentity _ hhas⟩
    obtain ⟨name, rest, hpath, hkeys⟩ := hr.exists_keys_of_has hhas
    refine ⟨⟨(Path.split w.1).1, (Path.split w.1).2⟩, ?_, by simpa [PropertyPath.isEntity] using
      hl.proper⟩
    rw [PropertyPath.parse?, if_neg]
    rw [hpath, Path.segments_join (List.cons_ne_nil _ _) hkeys]
    simp only [List.any_eq_true, not_exists, not_and]
    exact fun s hs he => (hkeys s hs).1 (by simpa using he)
  · have hhas := hb.marks path hp
    exact ⟨hentity path hhas, .inr (.inl ((hm.known path).2 hhas))⟩

/-- Without entities there is nothing to write, to mark or to run. -/
theorem recomputes_of_isEmpty {e : Evaluator} (hr : e.tree.Regular) (he : e.tree.isEmpty = true)
    (b : ChangeBatch) : Recomputes e b e .empty := by
  have hnone : ∀ path, ¬ e.tree.Leaf path := fun path hl =>
    hr.enrolled.not_has_of_isEmpty he path hl.has
  exact ⟨rfl, List.nil_sublist _, List.nodup_nil, fun path =>
      iff_of_false List.not_mem_nil fun hl => hnone path hl.1, fun path hl => (hnone path hl).elim,
    fun path hl => (hnone path hl).elim, fun patch hp => by cases hp⟩

/-- The changes of the batch, after which no entity is queued. -/
theorem exists_wrote {e : Evaluator} (hm : e.Mapped) {b : ChangeBatch} (hb : b.Replaces e.tree) :
    ∃ p, Progress.Wrote ⟨e, .empty⟩ b.written p ∧
      (Progress.perform ⟨e, .empty⟩ b).rebuild = (p, none) := by
  have hperform : Progress.perform ⟨e, .empty⟩ b =
      b.values.foldl Progress.writeValue ⟨e, .empty⟩ := by
    rw [Progress.perform, hb.structural]
    rfl
  have hwrote : Progress.Wrote ⟨e, .empty⟩ b.written (Progress.perform ⟨e, .empty⟩ b) := by
    rw [hperform]
    exact Progress.wrote_foldl hm.named ⟨PendingSet.inStep_empty, PendingSet.inStep_empty⟩
      hb.values
  have hqueue : (Progress.perform ⟨e, .empty⟩ b).work.rebuild.keys = [] :=
    List.eq_nil_iff_forall_not_mem.2 fun q hq => List.not_mem_nil ((hwrote.rebuild q).1 hq)
  refine ⟨{ Progress.perform ⟨e, .empty⟩ b with
    work := { (Progress.perform ⟨e, .empty⟩ b).work with rebuild := .empty } }, ?_, ?_⟩
  · exact ⟨hwrote.fixed, hwrote.shape, hwrote.named, hwrote.noted,
      ⟨hwrote.inStep.roots, PendingSet.inStep_empty⟩, hwrote.roots, fun _ => Iff.rfl⟩
  · rw [Progress.rebuild, PendingSet.drain, hqueue]
    rfl

/-- The pass of the batch starts from the written and the marked paths. -/
theorem exists_passRoots {e : Evaluator} (ho : e.evaluatedOnce = true) {b : ChangeBatch}
    (hb : b.Replaces e.tree) {p : Progress} (hp : Progress.Wrote ⟨e, .empty⟩ b.written p) :
    ∃ list, passRoots p b = some list ∧
      ∀ path, path ∈ list ↔ path ∈ b.written ∨ path ∈ b.changed.keys := by
  obtain ⟨tree, bulk, nextIdentity, he⟩ := hp.fixed
  have honce : p.evaluator.evaluatedOnce = true := by rw [he]; exact ho
  refine ⟨_, by rw [passRoots, hb.full, honce]; rfl, fun path => ?_⟩
  rw [hp.inStep.roots.mem_keys_extend, hp.roots]
  exact or_congr_left (or_iff_right List.not_mem_nil)

/-- What the pass of the batch visits. -/
theorem mem_visitedPaths_of_replaces {e : Evaluator} (h : e.Wired) (hr : e.tree.Regular)
    {b : ChangeBatch} (hb : b.Replaces e.tree) {list : List String}
    (hlist : ∀ path, path ∈ list ↔ path ∈ b.written ∨ path ∈ b.changed.keys) {path : String}
    (hp : e.tree.Has path) : path ∈ e.visitedPaths (some list) ↔
      ∃ root, (root ∈ b.written ∨ root ∈ b.changed.keys) ∧ e.graph.Affects root path := by
  have hroot : ∀ root ∈ list, e.graph.Node root := by
    intro root hm
    refine h.nodes root (((hlist root).1 hm).elim (fun hwritten => ?_) (hb.marks root))
    obtain ⟨w, hw, rfl⟩ := List.mem_map.1 hwritten
    exact ((hb.values w hw).leaf hr).has
  rw [mem_visitedPaths h.filed.sound]
  constructor
  · rintro ⟨-, hs⟩
    obtain ⟨root, hm, -, ha⟩ := hs list rfl
    exact ⟨root, (hlist root).1 hm, ha⟩
  · rintro ⟨root, hm, ha⟩
    refine ⟨h.nodes path hp, fun list' he => ?_⟩
    obtain rfl := Option.some.inj he
    have hin := (hlist root).2 hm
    exact ⟨root, hin, hroot root hin, ha⟩

/-- **A checked batch that replaces values.** -/
theorem recomputes_applyChecked {e : Evaluator} (h : e.Wired) (hr : e.tree.Regular)
    (ho : e.evaluatedOnce = true) {b : ChangeBatch} (hb : b.Replaces e.tree) :
    ∃ e' u, e.applyChecked b = (e', .ok u) ∧ e.Recomputes b e' u := by
  classical
  obtain ⟨p, hwrote, hrebuild⟩ := exists_wrote h.mapped hb
  obtain ⟨roots, hroots, hmem⟩ := exists_passRoots ho hb hwrote
  obtain ⟨tree, bulk, nextIdentity, he⟩ := hwrote.fixed
  have hgraph : p.evaluator.graph = e.graph := by rw [he]
  have hsnapshot : p.evaluator.snapshot = e.snapshot := by rw [he]
  have hsound : p.evaluator.graph.Sound := hgraph ▸ h.filed.sound
  have hreports := reports_finish hsound b
  have hpaths := map_fst_passFindings hsound (passRoots p b) p.work.previous
  -- The pass visits what the pass over the old tree would visit.
  have hvisited : p.evaluator.visitedPaths (passRoots p b) = e.visitedPaths (some roots) := by
    rw [hroots, visitedPaths, visitedPaths, affectedIds, affectedIds, hgraph]
  have heval := (runPass_eq hsound (passRoots p b) p.work.previous).1
  have htree := tree_finish hsound b
  have hran : ∀ path, path ∈ (finish p b).2.evaluationOrder ↔
      path ∈ e.visitedPaths (some roots) ∧ e.tree.Leaf path := by
    intro path
    rw [hreports.ran, hpaths, hvisited, List.mem_filter, decide_eq_true_iff, htree,
      Tree.valued_iff_of_shape (congrFun hwrote.shape _), hr.leaf_iff]
    rfl
  have hout : ∀ path, e.tree.Leaf path → path ∉ (finish p b).2.evaluationOrder →
      path ∉ e.visitedPaths (some roots) := fun path hl hn hv => hn ((hran path).2 ⟨hv, hl⟩)
  refine ⟨(finish p b).1, (finish p b).2, by rw [applyChecked, hrebuild], ?_, ?_, ?_,
    fun path => ?_, fun path hl hn => ?_, fun path hl hn => ?_, fun patch hp hl hn => ?_⟩
  · rw [htree]
    exact hwrote.shape
  · rw [hreports.ran, hpaths, hvisited]
    exact List.filter_sublist.trans (visitedPaths_sublist h.filed.sound _)
  · rw [hreports.ran]
    exact hreports.once.filter _
  · rw [hran]
    constructor
    · rintro ⟨hv, hl⟩
      exact ⟨hl, (mem_visitedPaths_of_replaces h hr hb hmem hl.has).1 hv⟩
    · rintro ⟨hl, hv⟩
      exact ⟨(mem_visitedPaths_of_replaces h hr hb hmem hl.has).2 hv, hl⟩
  · rw [finish_eq]
    simp only [heval]
    refine (get?_passOf_of_not_mem p.evaluator p.work.previous ?_).trans ?_
    · rw [hvisited]
      exact hout path hl hn
    · rw [hsnapshot]
  · refine hreports.others path ?_
    rw [hpaths, hvisited]
    exact hout path hl hn
  · have hnone : p.work.removed = [] := hwrote.noted.1
    refine (mem_of_mem_patches hp).resolve_left fun hlisted => ?_
    replace hlisted := hlisted.1
    rw [listed, hnone] at hlisted
    rcases List.mem_append.1 hlisted with hlisted | hmarked
    · exact hn ((List.mem_append.1 hlisted).resolve_left List.not_mem_nil)
    · refine hout _ hl hn ((mem_visitedPaths_of_replaces h hr hb hmem hl.has).2 ?_)
      exact ⟨_, .inr hmarked, .refl⟩

/-- **Only what a write affects is evaluated again**: take an evaluator that tidy calls lead to,
with any engine and any extractors, of which a load succeeded and no update since then was refused
for a dependency map. A batch that replaces values without fields, at properties that are neither
dynamic nor declared to read something, and marks paths of the tree, succeeds. Exactly the leaves
run that it writes or marks or that depend on such a path, in evaluation order and each once; every
other leaf keeps its value, has no failure, and has no patch unless it is forced. -/
theorem Loaded.recomputes {settings : Settings} {engine : Engine} {registry : Registry}
    {e : Evaluator} (h : Loaded Call.Tidy { ofEngine settings engine with registry } e)
    {b : ChangeBatch} (hb : b.Replaces e.tree) :
    ∃ e' u, e.apply b = (e', .ok u) ∧ e.Recomputes b e' u := by
  have hw : e.Wired := h.wired Tree.mapped_empty PathGraph.filed_empty
  have hr : e.tree.Regular := h.evolves.regular Tree.regular_empty
  rw [apply, validateAll_of_replaces hw.mapped hr hb]
  simp only
  split
  · rename_i hempty
    rw [Bool.and_eq_true] at hempty
    exact ⟨e, .empty, rfl, recomputes_of_isEmpty hr hempty.1 b⟩
  · rename_i hempty
    refine recomputes_applyChecked hw hr (hw.evaluatedOnce.resolve_left fun he => hempty ?_) hb
    rw [he, ChangeBatch.hasStructural, hb.structural]
    rfl

/-- An entity that nothing reads. -/
def aside : EntityRecord := ⟨.ofName "Note" .widget, ⟨[("text", .string "aside")]⟩⟩

theorem tidy_text {config : EntityConfig} {text : String} :
    (⟨config, ⟨[("text", .string text)]⟩⟩ : EntityRecord).entity.Tidy :=
  ⟨List.pairwise_singleton _ _, ⟨by decide, by decide⟩, trivial, trivial⟩

/-- The text of an entity is replaced. -/
def speaks (name text : String) : ChangeBatch := .setValue .empty (name ++ ".text") (.string text)

theorem replaces_speaks {t : Tree} (name text : String)
    (h : t.Replaces (name ++ ".text", .string text)) : (speaks name text).Replaces t where
  structural := rfl
  full := rfl
  values w hw := by
    obtain rfl := List.mem_singleton.1 hw
    exact h
  marks path hp := by cases hp

/-- When the greeting changes, it runs and its echo runs, and the note does not. -/
theorem recomputes_greeting : ∃ e₁ e₂ u,
    Loaded Call.Tidy { ofEngine .default .standard with registry := .standard } e₁ ∧
    (speaks "Greeting" "bye").Replaces e₁.tree ∧
    e₁.apply (speaks "Greeting" "bye") = (e₂, .ok u) ∧
    e₁.Recomputes (speaks "Greeting" "bye") e₂ u ∧ e₁.tree.Leaf "Note.text" ∧
    u.evaluationOrder = ["Greeting.text", "Echo.text"] := by
  have htidy : (Call.load [.echo, .greeting, aside]).Tidy := by
    intro r hr
    rcases List.mem_cons.1 hr with rfl | hr
    · exact tidy_text
    · rw [List.mem_pair] at hr
      rcases hr with rfl | rfl <;> exact tidy_text
  obtain ⟨e₁, u₁, hl, hgreeting, hnote, horder⟩ :
      ∃ e₁ u₁, (ofEngine .default .standard).load [.echo, .greeting, aside] = (e₁, .ok u₁) ∧
        e₁.tree.Replaces ("Greeting.text", .string "bye") ∧
        e₁.tree.Replaces ("Note.text", .string "bye") ∧
        (e₁.apply (speaks "Greeting" "bye")).2.toOption.map (·.evaluationOrder) =
          some ["Greeting.text", "Echo.text"] :=
    exists_ok_and_of_toOption (by decide +kernel) (by decide +kernel)
  have hloaded : Loaded Call.Tidy { ofEngine .default .standard with registry := .standard } e₁ :=
    .load .start htidy hl
  have hb := replaces_speaks "Greeting" "bye" hgreeting
  obtain ⟨e₂, u, ha, hrecomputes⟩ := Loaded.recomputes hloaded hb
  rw [ha] at horder
  have hregular : e₁.tree.Regular := hloaded.evolves.regular Tree.regular_empty
  exact ⟨e₁, e₂, u, hloaded, hb, ha, hrecomputes, hnote.leaf hregular, Option.some.inj horder⟩

/-- The update is refused for the map of one entity, when the other one is in the tree already. -/
def mishap : ChangeBatch := straying.upsertEntity aside

theorem tidy_mishap : mishap.Tidy :=
  ((ChangeBatch.tidy_empty.upsertEntity tidy_text).upsertEntity tidy_text)

/-- **A write to a leaf that is not in the graph makes nothing run.** -/
theorem write_unlisted : ∃ e₁ e₂ e₃ u₁ u₃, wary.load [.greeting] = (e₁, .ok u₁) ∧
    Evolves Call.Tidy e₁ e₂ ∧ (speaks "Note" "bye").Replaces e₂.tree ∧
    "Note.text" ∈ (speaks "Note" "bye").written ∧ e₂.tree.Leaf "Note.text" ∧
    e₂.apply (speaks "Note" "bye") = (e₃, .ok u₃) ∧ u₃.evaluationOrder = [] := by
  obtain ⟨e₁, u₁, hl, hnote, hrun⟩ : ∃ e₁ u₁, wary.load [.greeting] = (e₁, .ok u₁) ∧
      (e₁.apply mishap).1.tree.Replaces ("Note.text", .string "bye") ∧
      ((e₁.apply mishap).1.apply (speaks "Note" "bye")).2.toOption.map (·.evaluationOrder) =
        some [] :=
    exists_ok_and_of_toOption (by decide +kernel) (by decide +kernel)
  obtain ⟨u₃, ha, horder⟩ := exists_ok_of_toOption hrun
  have hloaded : Evolves Call.Tidy wary e₁ := by
    have htidy : (Call.load [.greeting]).Tidy := fun r hr => by
      obtain rfl := List.mem_singleton.1 hr
      exact tidy_text
    have hafter : e₁ = wary.after (.load [.greeting]) := by rw [after, hl]
    exact hafter ▸ .call _ .start htidy
  have hrefused : Evolves Call.Tidy e₁ (e₁.after (.apply mishap)) := .call _ .start tidy_mishap
  have hregular : (e₁.after (.apply mishap)).tree.Regular :=
    hrefused.regular (hloaded.regular Tree.regular_empty)
  exact ⟨e₁, _, _, u₁, u₃, hl, hrefused, replaces_speaks "Note" "bye" hnote,
    List.mem_singleton_self _, hnote.leaf hregular, ha, horder⟩

end Evaluator

end Recalc
