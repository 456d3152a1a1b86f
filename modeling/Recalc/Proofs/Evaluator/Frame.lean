import Recalc.Proofs.Evaluator.Apply
import Recalc.Proofs.Evaluator.Settled

/-!
# What a batch leaves alone

An entity that exists after the changes of a batch and is not queued has the record it had before,
up to values that were written in place (`Evaluator.Keeps`), and so have the entities that it names
as far as their paths and their values go. So the leaves that the pass of a batch does not visit
depend on the same values as before the batch and stay steady
(`Evaluator.Applies.steadyAt_of_not_visited`).
-/

namespace Recalc

/-! ### Records and their values -/

/-- The second record is the first one with values written in place, at marked paths. -/
structure EntityRecord.Follows (r r' : EntityRecord) (marked : String → Prop) : Prop where
  /-- The configuration stays. -/
  config : r'.config = r.config
  /-- The paths stay. -/
  has : ∀ path, r'.Has path ↔ r.Has path
  /-- What the paths read stays, for the same known paths. -/
  targets : ∀ known path, r'.targets known path = r.targets known path
  /-- The named entities stay. -/
  roots : Evaluator.referencedRoots r' = Evaluator.referencedRoots r
  /-- Values without fields stay where no path is marked. -/
  value : ∀ property, ¬ marked (Path.join r.name property) → ∀ v : Json, v.isComposite = false →
    (r'.entity.property? property = some v ↔ r.entity.property? property = some v)

namespace EntityRecord.Follows

variable {r r' r'' : EntityRecord} {marked marked' : String → Prop}

theorem refl (r : EntityRecord) (marked : String → Prop) : r.Follows r marked :=
  ⟨rfl, fun _ => Iff.rfl, fun _ _ => rfl, rfl, fun _ _ _ _ => Iff.rfl⟩

theorem trans (h : r.Follows r' marked) (h' : r'.Follows r'' marked')
    (hm : ∀ path, marked path → marked' path) : r.Follows r'' marked' where
  config := h'.config.trans h.config
  has path := (h'.has path).trans (h.has path)
  targets known path := (h'.targets known path).trans (h.targets known path)
  roots := h'.roots.trans h.roots
  value property hp v hv := by
    have hname : r'.name = r.name := congrArg EntityConfig.name h.config
    exact (h'.value property (hname ▸ hp) v hv).trans (h.value property (mt (hm _) hp) v hv)

end EntityRecord.Follows

/-- A write that keeps the shape and is no code is followed. -/
theorem EntityRecord.KeepsShape.follows {r : EntityRecord} {property : String} {value : Json}
    (h : r.KeepsShape property value) (hd : r.config.isDynamicPath property = false)
    {marked : String → Prop} (hm : marked (Path.join r.name property)) :
    r.Follows (r.set property value) marked where
  config := rfl
  has _ := h.has_set
  targets known path := h.targets_set hd known path
  roots := h.referencedRoots_set hd
  value q hq v hv := by
    have hne : q ≠ property := by
      rintro rfl
      exact hq hm
    exact h.property?_set_eq_some_iff hne hv

/-! ### Entities that are not queued -/

/-- What a batch has left alone of an entity: its record, and what it can see of the entities that
it names. -/
structure Evaluator.Keeps (e : Evaluator) (p : Progress) (r r' : EntityRecord) : Prop where
  /-- The record that the entity had. -/
  found : e.tree.get? r.name = some r
  /-- The record differs by values that were written in place only. -/
  follows : r.Follows r' (· ∈ p.work.roots.keys)
  /-- The same paths are known. -/
  agree : r.Agree e.known p.evaluator.known
  /-- The same values are stored. -/
  snapshot : ∀ path, Path.entityOf path = r.name ∨
    Path.entityOf path ∈ Evaluator.referencedRoots r →
    p.evaluator.snapshot.get? path = e.snapshot.get? path
  /-- Its allocations are the same where no path is marked. -/
  bulk : ∀ path, Path.entityOf path = r.name → path ∉ p.work.roots.keys →
    p.evaluator.bulk.get? path = e.bulk.get? path

/-- The batch has left the entities alone that are not queued. -/
def Evaluator.Frames (e : Evaluator) (p : Progress) : Prop :=
  ∀ name r', p.evaluator.tree.get? name = some r' → name ∉ p.work.rebuild.keys →
    ∃ r, e.Keeps p r r'

namespace Evaluator.Frames

variable {e : Evaluator} {p p' : Progress}

/-- Before a batch nothing is changed. -/
theorem start {e : Evaluator} (h : Coherent e (fun _ => False) (fun _ => False)) :
    e.Frames ⟨e, .empty⟩ := fun _ r hr _ =>
  ⟨r, (h.tree.named hr).symm ▸ hr, .refl r _, fun _ _ => rfl, fun _ _ => rfl, fun _ _ _ => rfl⟩

/-- A record that comes or goes leaves alone what is not queued. -/
theorem restructured (h : e.Frames p) (hu : p.Underway) {name : String} {new : Option EntityRecord}
    (hs : p.Restructured name new p') (hnew : ∀ r, new = some r → r.name = name ∧ r.WellFormed) :
    e.Frames p' := by
  intro q r' hr' hq
  have hne : q ≠ name := by
    rintro rfl
    rw [hs.get?, if_pos rfl] at hr'
    exact hq ((hs.rebuild q).2 (.inr (.inl ⟨rfl, by rw [hr']; rfl⟩)))
  rw [hs.get?, if_neg hne] at hr'
  obtain ⟨hagree, hroot⟩ := hu.coherent.agree_restructured hs hnew hr' hq hne
  obtain ⟨r, hk⟩ := h q r' hr' fun hm => hq ((hs.rebuild q).2 (.inl hm))
  have hname : r'.name = r.name := congrArg EntityConfig.name hk.follows.config
  rw [EntityRecord.Agree, hk.follows.roots, hname] at hagree
  rw [hk.follows.roots] at hroot
  have hother : r.name ≠ name := fun he =>
    hne ((hu.coherent.tree.named hr').symm.trans (hname.trans he))
  refine ⟨r, hk.found, hk.follows.trans (.refl r' (· ∈ p'.work.roots.keys)) fun path hp =>
    (hs.roots path).2 (.inl hp), fun path hp => (hk.agree path hp).trans (hagree path hp),
    fun path hp => ?_, fun path hp hm => ?_⟩
  · rw [hs.kept path, hk.snapshot path hp]
    -- A stale leaf belongs to the entity that comes or goes.
    intro hst
    rw [hu.coherent.entityOf_of_stale hst] at hp
    exact hp.elim (fun he => hother he.symm) hroot
  · rw [hs.allocated path (hp ▸ hother)]
    exact hk.bulk path hp fun hin => hm ((hs.roots path).2 (.inl hin))

/-- A write in place leaves alone what is not queued. -/
theorem written (h : e.Frames p) {record : EntityRecord} {path property : String}
    {value : Json} (hs : p.Written record path property value p')
    (hr : p.evaluator.tree.get? record.name = some record) (hk : record.KeepsShape property value)
    (hpath : path = Path.join record.name property) :
    e.Frames p' := by
  intro q r' hr' hq
  have hmarked : ∀ path ∈ p.work.roots.keys, path ∈ p'.work.roots.keys :=
    fun path hp => (hs.roots path).2 (.inl hp)
  have hqueued : q ∉ p.work.rebuild.keys := fun hm => hq ((hs.rebuild q).2 (.inl hm))
  obtain ⟨bulk, nextIdentity, he⟩ := hs.fixed
  have hknown : p'.evaluator.known = p.evaluator.known := by rw [he]
  have hsnapshot : p'.evaluator.snapshot = p.evaluator.snapshot := by rw [he]
  have hbulk : ∀ q, q ∉ p'.work.roots.keys →
      q ∉ p.work.roots.keys ∧ p'.evaluator.bulk.get? q = p.evaluator.bulk.get? q := by
    intro q hm
    refine ⟨fun hin => hm (hmarked q hin), hs.allocated q ?_⟩
    rintro rfl
    exact hm ((hs.roots q).2 (.inr rfl))
  rw [Coherent.get?_written hs] at hr'
  split at hr'
  · rename_i hn
    obtain rfl := Option.some.inj hr'
    obtain ⟨r, hkeep⟩ := h q record (hn ▸ hr) hqueued
    have hd : record.config.isDynamicPath property = false := by
      refine Bool.eq_false_iff.2 fun hd => hq ((hs.rebuild q).2 (.inr ⟨hn, .inl hd⟩))
    have hfollows : record.Follows (record.set property value) (· ∈ p'.work.roots.keys) :=
      hk.follows hd ((hs.roots _).2 (.inr hpath.symm))
    exact ⟨r, hkeep.found, hkeep.follows.trans hfollows hmarked, hknown ▸ hkeep.agree,
      hsnapshot ▸ hkeep.snapshot, fun path hp hm =>
        (hbulk path hm).2.trans (hkeep.bulk path hp (hbulk path hm).1)⟩
  · obtain ⟨r, hkeep⟩ := h q r' hr' hqueued
    exact ⟨r, hkeep.found, hkeep.follows.trans (.refl r' _) hmarked, hknown ▸ hkeep.agree,
      hsnapshot ▸ hkeep.snapshot, fun path hp hm =>
        (hbulk path hm).2.trans (hkeep.bulk path hp (hbulk path hm).1)⟩

/-- **The changes of a batch leave alone what they do not queue.** -/
theorem moves (h : Coherent e (fun _ => False) (fun _ => False))
    (hm : Progress.Moves ⟨e, .empty⟩ p) :
    e.Frames p := by
  refine (hm.invariant e.Frames (fun hu hstep hf => ?_) (Progress.underway_start h) (start h)).2
  cases hstep with
  | restructure spec tree named => exact restructured hf hu spec named
  | write spec found shape _ path_eq =>
    exact written hf spec found shape path_eq

end Evaluator.Frames

/-! ### After the queued entities are rebuilt -/

namespace Coherent

variable {e : Evaluator} {pending : String → Prop} (h : Coherent e pending (fun _ => False))
include h

/-- The name of an entity is known if the entity exists. -/
theorem contains_entityOf (path : String) :
    e.known.contains (Path.entityOf path) = e.tree.contains (Path.entityOf path) := by
  rw [Bool.eq_iff_iff, h.known, Tree.contains_iff, Tree.Has, Path.entityOf_entityOf]
  refine exists_congr fun r => and_iff_left_of_imp fun hr => ?_
  rw [← h.tree.named hr]
  exact (h.tree.wellFormed hr).has_iff.2 (.inl rfl)

/-- The path of an entity reads the properties right below it. -/
theorem reads_name_iff {path target : String} (hp : path = Path.entityOf path) :
    e.graph.Reads path target ↔ e.tree.Has target ∧ Path.parent? target = some path := by
  rw [h.reads_iff]
  constructor
  · rintro ⟨r, hr, hh, ht | ⟨ht, ha⟩⟩
    · obtain ⟨-, property, -, ho⟩ := Extractor.covered_of_mem_forPath ht
      obtain ⟨hne, he, -⟩ := Extractor.ownedProperty?_eq_some_iff.1 ho
      rw [hp, (h.tree.wellFormed hr).entityOf_of_has hh] at he
      have hself := (Path.propertyOf_eq_some_iff hne).2 he
      rw [Path.propertyOf, if_pos (show r.name = r.config.name from rfl)] at hself
      exact absurd (Option.some.inj hself).symm hne
    · exact ⟨h.tree.has_of_record hr ht, ha⟩
  · rintro ⟨⟨r, hr, hh⟩, ha⟩
    rw [← Path.entityOf_of_parent? ha] at hr
    exact ⟨r, hr, (h.tree.wellFormed hr).has_parent hh ha, .inr ⟨hh, ha⟩⟩

/-- A path that depends on no leaf of its own entity is the path of an entity without properties. -/
theorem eq_entityOf_of_no_leaf {path : String} (hp : e.tree.Has path)
    (hl : ∀ q, e.tree.Leaf q → Path.entityOf q = Path.entityOf path →
      ¬ Relation.ReflTransGen e.graph.Reads path q) :
    path = Path.entityOf path ∧ ∀ target, ¬ e.graph.Reads path target := by
  have hproperty : ∀ {name rest}, Path.Keys (name :: rest) → rest ≠ [] →
      e.tree.Has (Path.joinSegments (name :: rest)) → ∃ q, e.tree.Leaf q ∧
        Path.entityOf q = name ∧
        Relation.ReflTransGen e.graph.Reads (Path.joinSegments (name :: rest)) q := by
    intro name rest hk hne hh
    obtain ⟨more, hkeys, hleaf⟩ := h.tree.exists_leaf_below hk hne hh
    exact ⟨_, hleaf, Path.entityOf_joinSegments hkeys.not_mem_separator,
      h.depends_below hkeys hleaf.has⟩
  obtain ⟨name, rest, rfl, hk⟩ := h.tree.exists_keys_of_has hp
  have hname := Path.entityOf_joinSegments hk.not_mem_separator
  rcases eq_or_ne rest [] with rfl | hne
  · refine ⟨hname.symm, fun target hr => ?_⟩
    obtain ⟨ht, ha⟩ := (h.reads_name_iff hname.symm).1 hr
    have hentity := hname.symm.trans (Path.entityOf_of_parent? ha)
    obtain ⟨first, segs, rfl, hkt⟩ := h.tree.exists_keys_of_has ht
    rw [Path.entityOf_joinSegments hkt.not_mem_separator] at hentity
    subst hentity
    rcases eq_or_ne segs [] with rfl | hsegs
    · have hnone := Path.parent?_singleton (Path.keys_cons.1 hkt).1
      rw [show Path.joinSegments [name] = name from rfl, hnone] at ha
      cases ha
    · obtain ⟨q, hq, he, hd⟩ := hproperty hkt hsegs ht
      exact hl q hq (he.trans hname.symm) (Relation.ReflTransGen.head hr hd)
  · obtain ⟨q, hq, he, hd⟩ := hproperty hk hne hp
    exact absurd hd (hl q hq (he.trans hname.symm))

end Coherent

/-- An entity that the batch leaves alone reads what it read before. -/
theorem Evaluator.Keeps.reads_iff {e : Evaluator} {p : Progress} {r r' : EntityRecord}
    (hk : e.Keeps p r r') (h : Coherent e (fun _ => False) (fun _ => False))
    {pending : String → Prop} (hp : Coherent p.evaluator pending (fun _ => False))
    (hr' : p.evaluator.tree.get? r.name = some r') {path target : String}
    (hpath : Path.entityOf path = r.name) :
    p.evaluator.graph.Reads path target ↔ e.graph.Reads path target := by
  have hw := h.tree.wellFormed hk.found
  have htargets : r'.targets p.evaluator.known path = r.targets e.known path := by
    rw [hk.follows.targets, EntityRecord.targets, EntityRecord.targets]
    refine (hk.agree.forPath hw (fun q hq => ?_) r.config.kind path).symm
    exact (h.known q).2 (h.tree.has_of_record hk.found hq)
  rw [hp.reads_iff, h.reads_iff, hpath]
  simp only [hr', hk.found, Option.some.injEq, exists_eq_left', hk.follows.has,
    EntityRecord.Edge, htargets]

namespace Evaluator.Applies

variable {e : Evaluator} {b : ChangeBatch} {p p' : Progress} (ha : e.Applies b p p')
  (h : Coherent e (fun _ => False) (fun _ => False))
include ha h

/-- The batch has left the entities alone that were not queued. -/
theorem exists_keeps {name : String} {r' : EntityRecord}
    (hr' : p'.evaluator.tree.get? name = some r') (hq : name ∉ p.work.rebuild.keys) :
    ∃ r, e.Keeps p' r r' ∧ r.name = name := by
  obtain ⟨graph, readers, reads, roots, hf⟩ := ha.rebuilt.fixed
  have htree : p'.evaluator.tree = p.evaluator.tree := by rw [hf]
  have hknown : p'.evaluator.known = p.evaluator.known := by rw [hf]
  have hsnapshot : p'.evaluator.snapshot = p.evaluator.snapshot := by rw [hf]
  have hbulk : p'.evaluator.bulk = p.evaluator.bulk := by rw [hf]
  obtain ⟨r, hk⟩ := Frames.moves h ha.moves name r' (htree ▸ hr') hq
  refine ⟨r, ⟨hk.found, hk.follows.trans (.refl r' _) ha.rebuilt.roots, hknown ▸ hk.agree,
    hsnapshot ▸ hk.snapshot, fun path hp hm => ?_⟩, ?_⟩
  · rw [hbulk]
    exact hk.bulk path hp fun hin => hm (ha.rebuilt.roots path hin)
  have hname : r'.name = r.name := congrArg EntityConfig.name hk.follows.config
  exact hname.symm.trans (ha.coherent.tree.named hr')

/-- A batch changes neither the settings nor the engine. -/
theorem fixed : p'.evaluator.settings = e.settings ∧ p'.evaluator.engine = e.engine := by
  obtain ⟨graph, readers, reads, roots, hf⟩ := ha.rebuilt.fixed
  have hmoves := ha.moves.invariant (fun q => q.evaluator.settings = e.settings ∧
    q.evaluator.engine = e.engine) (fun _ hstep hq => ?_) (Progress.underway_start h) ⟨rfl, rfl⟩
  · rw [hf]
    exact hmoves.2
  · cases hstep with
    | restructure spec => exact ⟨spec.fixed.1.trans hq.1, spec.fixed.2.1.trans hq.2⟩
    | write spec =>
      obtain ⟨bulk, nextIdentity, he⟩ := spec.fixed
      rw [he]
      exact hq

variable {roots : Option (List String)}
  (hroots : ∀ list, roots = some list → ∀ path ∈ p'.work.roots.keys, path ∈ list)
include hroots

omit h in
/-- What is not visited depends on no leaf of a queued entity. -/
theorem not_depends_of_queued {path q : String} (hm : path ∉ p'.evaluator.visitedPaths roots)
    (hp : p'.evaluator.tree.Has path) (hl : p'.evaluator.tree.Leaf q)
    (hq : Path.entityOf q ∈ p.work.rebuild.keys) :
    ¬ Relation.ReflTransGen p'.evaluator.graph.Reads path q := by
  intro hd
  obtain ⟨graph, readers, reads, roots', hf⟩ := ha.rebuilt.fixed
  have htree : p'.evaluator.tree = p.evaluator.tree := by rw [hf]
  obtain ⟨r, hr, hleaf⟩ := hl
  have hmarked := ha.rebuilt.leaves _ hq r (htree ▸ hr) q hleaf
  have hvisited := ha.coherent.mem_visitedPaths_of_pending hroots ⟨r, hr, hleaf⟩ hmarked
  exact hm (ha.coherent.mem_visitedPaths_of_affects hvisited
    (Relation.reflTransGen_swap.2 hd) hp)

omit h in
/-- An unvisited path of a queued entity is that of an entity without properties. -/
theorem eq_entityOf_of_queued {path : String} (hm : path ∉ p'.evaluator.visitedPaths roots)
    (hp : p'.evaluator.tree.Has path) (hq : Path.entityOf path ∈ p.work.rebuild.keys) :
    path = Path.entityOf path ∧ ∀ target, ¬ p'.evaluator.graph.Reads path target :=
  ha.coherent.eq_entityOf_of_no_leaf hp fun _ hl he =>
    ha.not_depends_of_queued hroots hm hp hl (he ▸ hq)

/-- What an unvisited path of an entity that was not queued reads is known as before, with all other
paths of the same entity, and so are the values. -/
theorem same_of_reads {path target : String} (hm : path ∉ p'.evaluator.visitedPaths roots)
    (hp : p'.evaluator.tree.Has path) (hr : p'.evaluator.graph.Reads path target) :
    (∀ q, Path.entityOf q = Path.entityOf target →
      e.known.contains q = p'.evaluator.known.contains q) ∧
    ∀ q, Path.entityOf q = Path.entityOf target →
      p'.evaluator.snapshot.get? q = e.snapshot.get? q := by
  by_cases hqueued : Path.entityOf path ∈ p.work.rebuild.keys
  · exact absurd hr ((ha.eq_entityOf_of_queued hroots hm hp hqueued).2 target)
  · obtain ⟨r', hr', hh, hedge⟩ := ha.coherent.reads_iff.1 hr
    obtain ⟨r, hk, hname⟩ := ha.exists_keeps h hr' hqueued
    have hw := ha.coherent.tree.wellFormed hr'
    have htarget := hw.entityOf_of_edge (ha.coherent.exact hr') hedge
    rw [hk.follows.roots, ha.coherent.tree.named hr', ← hname] at htarget
    exact ⟨fun q hq => hk.agree q (hq ▸ htarget), fun q hq => hk.snapshot q (hq ▸ htarget)⟩

/-- **An unvisited leaf depends on what it depended on before**: each path that it depends on reads
the same paths. -/
theorem reads_iff_of_depends {path q target : String} (hl : p'.evaluator.tree.Leaf path)
    (hm : path ∉ p'.evaluator.visitedPaths roots)
    (hd : Relation.ReflTransGen p'.evaluator.graph.Reads path q) :
    p'.evaluator.graph.Reads q target ↔ e.graph.Reads q target := by
  obtain ⟨hout, hq⟩ := ha.coherent.not_mem_visitedPaths hm hl.has hd
  by_cases hqueued : Path.entityOf q ∈ p.work.rebuild.keys
  · obtain ⟨hself, -⟩ := ha.eq_entityOf_of_queued hroots hout hq hqueued
    rcases Relation.ReflTransGen.cases_tail hd with rfl | ⟨mid, hmid, hr⟩
    · exact absurd .refl (ha.not_depends_of_queued hroots hm hl.has hl hqueued)
    · -- The entity is named by one that was not queued, so its paths are known as before.
      obtain ⟨hmout, hmhas⟩ := ha.coherent.not_mem_visitedPaths hm hl.has hmid
      obtain ⟨hknown, -⟩ := ha.same_of_reads h hroots hmout hmhas hr
      rw [ha.coherent.reads_name_iff hself, h.reads_name_iff hself]
      refine and_congr_left fun hparent => ?_
      rw [← ha.coherent.known, ← h.known, hknown target (Path.entityOf_of_parent? hparent).symm]
  · obtain ⟨r', hr', -⟩ := hq
    obtain ⟨r, hk, hname⟩ := ha.exists_keeps h hr' hqueued
    exact hk.reads_iff h ha.coherent (hname ▸ hr') hname.symm

/-- An unvisited leaf that is grounded was grounded before. -/
theorem grounded_of_not_visited {path : String} (hl : p'.evaluator.tree.Leaf path)
    (hm : path ∉ p'.evaluator.visitedPaths roots) (hg : p'.evaluator.graph.Grounded path) :
    e.graph.Grounded path := by
  suffices ∀ q, p'.evaluator.graph.Grounded q →
      Relation.ReflTransGen p'.evaluator.graph.Reads path q → e.graph.Grounded q from
    this path hg .refl
  intro q hq
  induction hq with
  | intro q _ ih =>
    intro hd
    refine Acc.intro q fun target ht => ?_
    have hr := (ha.reads_iff_of_depends h hroots hl hm hd).2 ht
    exact ih target hr (hd.tail hr)

omit h in
/-- An unvisited leaf has the raw value that it had before. -/
theorem leafAt_of_not_visited {path : String} {r r' : EntityRecord} {raw : Json}
    (hl : p'.evaluator.tree.LeafAt path r' raw) (hm : path ∉ p'.evaluator.visitedPaths roots)
    (hk : e.Keeps p' r r') (hname : r.name = Path.entityOf path) : e.tree.LeafAt path r raw := by
  have hleaf := ha.coherent.tree.leaf_iff.2 ⟨r', raw, hl⟩
  have hpath : path = Path.join r.name (Path.split path).2 := by
    rw [hname]
    exact Path.eq_join_of_split rfl hl.proper
  have hmarked : Path.join r.name (Path.split path).2 ∉ p'.work.roots.keys := fun hin =>
    hm (ha.coherent.mem_visitedPaths_of_pending hroots hleaf (hpath ▸ hin))
  refine ⟨?_, hl.proper, (hk.follows.value _ hmarked raw hl.leaf).1 hl.value, hl.leaf⟩
  have hfound := hk.found
  rwa [hname] at hfound

/-- The entity of an unvisited leaf was left alone. -/
theorem exists_keeps_of_not_visited {path : String} {r' : EntityRecord}
    (hl : p'.evaluator.tree.Leaf path) (hm : path ∉ p'.evaluator.visitedPaths roots)
    (hr' : p'.evaluator.tree.get? (Path.entityOf path) = some r') :
    ∃ r, e.Keeps p' r r' ∧ r.name = Path.entityOf path :=
  ha.exists_keeps h hr' fun hin => ha.not_depends_of_queued hroots hm hl.has hl hin .refl

/-- An unvisited leaf has the value that it had before, and is not pending. -/
theorem get?_of_not_visited {path : String} (hl : p'.evaluator.tree.Leaf path)
    (hm : path ∉ p'.evaluator.visitedPaths roots) :
    (∃ value, p'.evaluator.snapshot.get? path = some value) ∧
      p'.evaluator.snapshot.get? path = e.snapshot.get? path := by
  have ⟨r', hr', _⟩ := hl
  obtain ⟨r, hk, hname⟩ := ha.exists_keeps_of_not_visited h hroots hl hm hr'
  exact ⟨(ha.coherent.pending path hl).resolve_right fun hin =>
    hm (ha.coherent.mem_visitedPaths_of_pending hroots hl hin), hk.snapshot path (.inl hname.symm)⟩

omit hroots in
/-- The roots of the chains of an entity that was left alone are in the tree as before. -/
theorem contains_of_chain {r r' : EntityRecord} (hk : e.Keeps p' r r') {property chain : String}
    {raw : Json} (hd : r'.config.isDynamicPath property = true)
    (hv : r'.entity.property? property = some raw)
    (hc : chain ∈ Reference.chains raw r'.config.bindingSyntax) :
    p'.evaluator.tree.contains (Path.entityOf chain) = e.tree.contains (Path.entityOf chain) := by
  have hroot : Path.entityOf chain = r'.name ∨
      Path.entityOf chain ∈ Evaluator.referencedRoots r' := by
    by_cases hself : Path.entityOf chain = r'.name
    · exact .inl hself
    · exact .inr (EntityRecord.mem_referencedRoots.2
        ⟨.inl (EntityRecord.mem_codeRoots hd hv hc), hself⟩)
  have hsame : r'.name = r.name := congrArg EntityConfig.name hk.follows.config
  rw [hk.follows.roots, hsame] at hroot
  rw [← ha.coherent.contains_entityOf, ← h.contains_entityOf]
  exact (hk.agree _ ((Path.entityOf_entityOf chain).symm ▸ hroot)).symm

/-- An unvisited leaf is computed as before the batch. -/
theorem compute_eq_of_not_visited (hengine : e.engine = .standard) (hp : e.tree.Plain)
    (hp' : p'.evaluator.tree.Plain) {path : String} {r r' : EntityRecord} {raw : Json}
    (hl : p'.evaluator.tree.LeafAt path r' raw) (hm : path ∉ p'.evaluator.visitedPaths roots)
    (hk : e.Keeps p' r r') (hname : r.name = Path.entityOf path) :
    p'.evaluator.compute p'.evaluator.snapshot path = e.compute e.snapshot path := by
  have hc := ha.coherent
  obtain ⟨hsettings, hengine'⟩ : p'.evaluator.settings = e.settings ∧
      p'.evaluator.engine = e.engine := ha.fixed h
  have hleaf := hc.tree.leaf_iff.2 ⟨r', raw, hl⟩
  have hbulk : e.bulk.get? path = p'.evaluator.bulk.get? path :=
    (hk.bulk path hname.symm fun hin =>
      hm (hc.mem_visitedPaths_of_pending hroots hleaf hin)).symm
  refine hc.compute_eq_of_depends h (hengine'.trans hengine) hengine hsettings.symm hp' hp
    hc.stored h.stored hl (ha.leafAt_of_not_visited hroots hl hm hk hname) hk.follows.config.symm
    (fun hd chain hchain => ha.contains_of_chain h hk hd hl.value hchain)
    (fun target hr => ?_) (fun target q hr hq value hv => ?_) hbulk fun q hd hq => ?_
  · have hknown := (ha.same_of_reads h hroots hm hleaf.has hr).1 target rfl
    rw [← h.known, hknown, hc.known]
    exact hc.has_iff_node.2 (hc.graph.node_of_reads hr).2
  · have hentity : Path.entityOf q = Path.entityOf target := by
      rcases hq with rfl | hq
      · rfl
      · exact Path.entityOf_of_isDescendant hq
    refine hc.stored q value ?_
    rw [(ha.same_of_reads h hroots hm hleaf.has hr).2 q hentity, hv]
  · exact ha.get?_of_not_visited h hroots hq
      (hc.not_mem_visitedPaths hm hleaf.has hd.to_reflTransGen).1

/-- **Unvisited leaves stay steady**: the leaves that the pass of a batch does not visit are steady
before the pass if they were steady before the batch. -/
theorem steadyAt_of_not_visited (hs : e.Steady) (hengine : e.engine = .standard)
    (hp : e.tree.Plain) (hp' : p'.evaluator.tree.Plain) {path : String}
    (hl : p'.evaluator.tree.Leaf path) (hg : p'.evaluator.graph.Grounded path)
    (hm : path ∉ p'.evaluator.visitedPaths roots) :
    p'.evaluator.SteadyAt p'.evaluator.snapshot path := by
  obtain ⟨r', raw, hat'⟩ := ha.coherent.tree.leaf_iff.1 hl
  obtain ⟨r, hk, hname⟩ := ha.exists_keeps_of_not_visited h hroots hl hm hat'.found
  have hbefore : e.tree.Leaf path :=
    h.tree.leaf_iff.2 ⟨r, raw, ha.leafAt_of_not_visited hroots hat' hm hk hname⟩
  have hsame := ha.compute_eq_of_not_visited h hroots hengine hp hp' hat' hm hk hname
  exact (hs path hbefore (ha.grounded_of_not_visited h hroots hl hm hg)).congr hsame.symm
    (ha.fixed h).1 (ha.get?_of_not_visited h hroots hl hm).2.symm

end Evaluator.Applies

end Recalc
