import Recalc.Proofs.Evaluator.Change
import Recalc.Proofs.Extraction
import Recalc.Proofs.Listed
import Recalc.Proofs.PathGraph

/-!
# The indices of an evaluator match its tree

`Coherent` is the invariant of an evaluator, also in the middle of a batch: every index is what the
tree says it is, except that leaves which are pending may not have a value yet and that the wiring
of dirty entities may be out of date. Storing and removing entities, writing in place and rebuilding
keep it; when the last dirty entity is rebuilt, no exception is left.
-/

namespace Recalc

/-- The value is at the path as a bulk property of the record that the path belongs to. -/
def Tree.Bulk (t : Tree) (path : String) (payload : Json) : Prop :=
  ∃ r, t.get? (Path.entityOf path) = some r ∧ r.Bulk path payload

/-- The evaluator matches its tree, up to the values of pending paths and the wiring of dirty
entities. -/
structure Coherent (e : Evaluator) (pending dirty : String → Prop) : Prop where
  /-- The extractors are the bundled ones. -/
  registry : e.registry = .standard
  /-- The tree is regular. -/
  tree : e.tree.Regular
  /-- Known are the paths of the tree. -/
  known : ∀ path, e.known.contains path = true ↔ e.tree.Has path
  /-- Only leaves of the tree have values. -/
  stored : ∀ path value, e.snapshot.get? path = some value → e.tree.Leaf path
  /-- Leaves of the tree have values or are pending. -/
  pending : ∀ path, e.tree.Leaf path → (∃ value, e.snapshot.get? path = some value) ∨ pending path
  /-- The allocations are those of the bulk properties of the tree. -/
  bulk : ∀ path payload, e.HasBulk path payload ↔ e.tree.Bulk path payload
  /-- The two indices of names are inverse to each other. -/
  mirrored : e.Mirrored
  /-- Nothing is named in the name of an entity that does not exist. -/
  absent : ∀ name, e.tree.get? name = none → e.reads.getD name [] = []
  /-- What an entity names is noted. -/
  reads : ∀ name r, e.tree.get? name = some r → ¬ dirty name →
    e.reads.getD name [] = Evaluator.referencedRoots r
  /-- The graph is sound. -/
  graph : e.graph.Sound
  /-- Entities list nodes that belong to them. -/
  lists : ∀ name path, e.graph.Lists name path →
    (∃ r, e.tree.get? name = some r) ∧ Path.entityOf path = name ∧ e.graph.Node path
  /-- Nodes are listed or known. -/
  nodes : ∀ path, e.graph.Node path →
    e.graph.Lists (Path.entityOf path) path ∨ e.known.contains path = true
  /-- The graph has the paths of an entity with what they read. -/
  wiring : ∀ name r, e.tree.get? name = some r → ¬ dirty name →
    (∀ path, e.graph.Lists name path ↔ r.Has path) ∧
      ∀ path target, r.Has path → (e.graph.Reads path target ↔ r.Edge e.known path target)

/-- Every node is listed for the entity that it belongs to. -/
def Evaluator.Listed (e : Evaluator) : Prop :=
  ∀ path, e.graph.Node path → e.graph.Lists (Path.entityOf path) path

namespace Coherent

variable {e : Evaluator} {pending dirty : String → Prop}

/-- If nothing is pending, then the leaves are the paths with values. -/
theorem exists_value_iff (h : Coherent e (fun _ => False) dirty) (path : String) :
    (∃ value, e.snapshot.get? path = some value) ↔ e.tree.Leaf path :=
  ⟨fun ⟨value, hv⟩ => h.stored path value hv, fun hl => (h.pending path hl).resolve_right id⟩

/-- An evaluator without entities is coherent. -/
theorem ofSettings (settings : Settings) :
    Coherent (Evaluator.ofSettings settings) (fun _ => False) (fun _ => False) where
  registry := rfl
  tree := Tree.regular_empty
  known path := by
    refine iff_of_false (SortedSet.not_mem_empty path) ?_
    rintro ⟨r, hr, -⟩
    cases hr
  stored path value h := by cases h
  pending path h := by
    obtain ⟨r, hr, -⟩ := h
    cases hr
  bulk path payload := by
    refine iff_of_false ?_ ?_
    · rintro ⟨identity, h⟩
      cases h
    · rintro ⟨r, hr, -⟩
      cases hr
  mirrored := by
    refine ⟨fun root name => iff_of_false ?_ List.not_mem_nil, ?_, ?_⟩
    · rintro ⟨set, h, -⟩
      cases h
    · intro root set h
      cases h
    · intro name roots h
      cases h
  absent name _ := rfl
  reads name r h := by cases h
  graph := PathGraph.sound_empty
  lists name path h := by
    obtain ⟨ids, h, -⟩ := h
    cases h
  nodes path h := by
    obtain ⟨id, h, -⟩ := h
    exact absurd h (SortedSet.not_mem_empty id)
  wiring name r h := by cases h

/-- The invariant is about some components only, and a weaker one is implied. -/
theorem mono (h : Coherent e pending dirty) {pending' dirty' : String → Prop}
    (hp : ∀ path, e.tree.Leaf path → pending path → pending' path)
    (hd : ∀ name r, e.tree.get? name = some r → dirty name → dirty' name) :
    Coherent e pending' dirty' :=
  { h with
    pending := fun path hl => (h.pending path hl).imp_right (hp path hl)
    reads := fun name r hr hn => h.reads name r hr (mt (hd name r hr) hn)
    wiring := fun name r hr hn => h.wiring name r hr (mt (hd name r hr) hn) }

/-- The known paths of an entity are those of its record. -/
theorem exact (h : Coherent e pending dirty) {name : String} {r : EntityRecord}
    (hr : e.tree.get? name = some r) : r.Exact e.known := by
  intro path hp
  rw [h.known]
  refine Tree.has_iff ?_
  rw [hp, h.tree.named hr]
  exact hr

/-- An entity that names another one is among its readers. -/
theorem readBy (h : Coherent e pending dirty) {name root : String} {r : EntityRecord}
    (hr : e.tree.get? name = some r) (hd : ¬ dirty name)
    (hroot : root ∈ Evaluator.referencedRoots r) : Evaluator.ReadBy e.readers root name := by
  rw [h.mirrored.inverse, h.reads name r hr hd]
  exact hroot

/-! ### Records that come and go -/

section Restructured

variable {p p' : Progress} {name : String} {new : Option EntityRecord}
  (h : Coherent p.evaluator (· ∈ p.work.roots.keys) (· ∈ p.work.rebuild.keys))
  (hs : p.Restructured name new p')
  (hnew : ∀ r, new = some r → r.name = name ∧ r.WellFormed)
include h hs hnew

/-- Paths of other entities are known as before. -/
theorem known_restructured {path : String} (hp : Path.entityOf path ≠ name) :
    p'.evaluator.known.contains path = p.evaluator.known.contains path := by
  rw [Bool.eq_iff_iff, hs.known]
  constructor
  · rintro (⟨hk, -⟩ | ⟨r, hr, hh⟩)
    · exact hk
    · obtain ⟨hn, hw⟩ := hnew r hr
      exact absurd ((hw.entityOf_of_has hh).trans hn) hp
  · intro hk
    refine .inl ⟨hk, ?_⟩
    rintro ⟨old, ho, hh⟩
    have := (h.tree.wellFormed ho).entityOf_of_has hh
    exact hp (this.trans (h.tree.named ho))

omit hs hnew in
theorem entityOf_of_stale {path : String} (hst : p.Stale name new path) :
    Path.entityOf path = name := by
  obtain ⟨⟨old, ho, hl⟩, -⟩ := hst
  have := (h.tree.wellFormed ho).entityOf_of_has (EntityRecord.has_of_mem_leafPaths hl)
  exact this.trans (h.tree.named ho)

omit h hnew in
theorem leaf_restructured {path : String} : p'.evaluator.tree.Leaf path ↔
    if Path.entityOf path = name then ∃ r, new = some r ∧ path ∈ r.leafPaths
    else p.evaluator.tree.Leaf path := by
  rw [Tree.Leaf, hs.get?]
  split <;> exact Iff.rfl

/-- An entity that was not queued agrees on what matters for it before and after. -/
theorem agree_restructured {q : String} {r : EntityRecord}
    (hr : p.evaluator.tree.get? q = some r) (hq : q ∉ p'.work.rebuild.keys) (hne : q ≠ name) :
    r.Agree p.evaluator.known p'.evaluator.known ∧ name ∉ Evaluator.referencedRoots r := by
  have hold : q ∉ p.work.rebuild.keys := fun hm => hq ((hs.rebuild q).2 (.inl hm))
  have hroot : name ∉ Evaluator.referencedRoots r := fun hroot =>
    hq ((hs.rebuild q).2 (.inr (.inr ⟨hne, h.readBy hr hold hroot⟩)))
  refine ⟨fun path hp => (h.known_restructured hs hnew fun he => ?_).symm, hroot⟩
  rw [he] at hp
  rcases hp with hp | hp
  · exact hne ((h.tree.named hr).symm.trans hp.symm)
  · exact hroot hp

theorem known_iff_restructured (path : String) :
    p'.evaluator.known.contains path = true ↔ p'.evaluator.tree.Has path := by
  by_cases hp : Path.entityOf path = name
  · rw [hs.known, Tree.Has, hs.get?, if_pos hp]
    refine ⟨fun hk => hk.resolve_left ?_, .inr⟩
    rintro ⟨hk, hno⟩
    obtain ⟨old, ho, hh⟩ := (h.known path).1 hk
    exact hno ⟨old, hp ▸ ho, hh⟩
  · rw [h.known_restructured hs hnew hp, h.known, Tree.Has, Tree.Has, hs.get?, if_neg hp]

omit hnew in
/-- Values of leaves that are gone were dropped. -/
theorem stored_restructured {path : String} {value : Value}
    (hv : p'.evaluator.snapshot.get? path = some value) : p'.evaluator.tree.Leaf path := by
  have hst : ¬ p.Stale name new path := fun hst => by
    rw [hs.unset path hst] at hv
    cases hv
  rw [hs.kept path hst] at hv
  have hleaf := h.stored path value hv
  rw [leaf_restructured hs]
  split
  · rename_i hp
    obtain ⟨old, ho, hm⟩ := hleaf
    by_contra hno
    exact hst ⟨⟨old, hp ▸ ho, hm⟩, hno⟩
  · exact hleaf

omit hnew in
/-- The leaves of a new record are roots of the next pass. -/
theorem pending_restructured {path : String} (hp : p'.evaluator.tree.Leaf path) :
    (∃ value, p'.evaluator.snapshot.get? path = some value) ∨ path ∈ p'.work.roots.keys := by
  rw [leaf_restructured hs] at hp
  rw [hs.roots]
  split at hp
  · exact .inr (.inr hp)
  · rename_i hne
    rw [hs.kept path fun hst => hne (h.entityOf_of_stale hst)]
    exact (h.pending path hp).imp_right .inl

theorem bulk_restructured (path : String) (payload : Json) :
    p'.evaluator.HasBulk path payload ↔ p'.evaluator.tree.Bulk path payload := by
  rw [hs.bulk, h.bulk, Tree.Bulk, Tree.Bulk, hs.get?]
  by_cases hp : Path.entityOf path = name
  · rw [if_pos hp]
    simp [hp]
  · rw [if_neg hp]
    refine ⟨fun hb => ?_, fun hb => .inr ⟨hb, hp⟩⟩
    rcases hb with ⟨r, hr, property, -, rfl, -⟩ | ⟨hb, -⟩
    · obtain ⟨hn, hw⟩ := hnew r hr
      exact absurd ((Path.entityOf_join hw.name.2 property).trans hn) hp
    · exact hb

omit hnew in
theorem mirrored_restructured : p'.evaluator.Mirrored := by
  have hm := h.mirrored.setReads name []
  have hr := hs.readers
  have hd := hs.reads
  split at hr
  · rename_i hsome
    rw [if_pos hsome] at hd
    exact ⟨by rw [hr, hd]; exact h.mirrored.inverse, by rw [hr]; exact h.mirrored.readers,
      by rw [hd]; exact h.mirrored.reads⟩
  · rename_i hnone
    rw [if_neg hnone] at hd
    exact ⟨by rw [hr, hd]; exact hm.inverse, by rw [hr]; exact hm.readers,
      by rw [hd]; exact hm.reads⟩

omit h hnew in
/-- What other entities name is noted as before. -/
theorem reads_restructured {q : String} (hq : q ≠ name) :
    p'.evaluator.reads.getD q [] = p.evaluator.reads.getD q [] := by
  rw [hs.reads]
  split
  · rfl
  · rw [SortedMap.getD, SortedMap.getD, Evaluator.get?_reads_setReads, if_neg hq]

omit hnew in
theorem absent_restructured {q : String} (hq : p'.evaluator.tree.get? q = none) :
    p'.evaluator.reads.getD q [] = [] := by
  rw [hs.get?] at hq
  split at hq
  · rename_i he
    rw [hs.reads]
    subst he hq
    simp [SortedMap.getD, Evaluator.get?_reads_setReads]
  · rename_i hne
    rw [reads_restructured hs hne]
    exact h.absent q hq

omit h hnew in
/-- An entity that is not queued afterwards was not queued before and has the record it had. -/
theorem clean_restructured {q : String} {r : EntityRecord}
    (hq : p'.evaluator.tree.get? q = some r) (hd : q ∉ p'.work.rebuild.keys) :
    q ≠ name ∧ p.evaluator.tree.get? q = some r ∧ q ∉ p.work.rebuild.keys := by
  rw [hs.get?] at hq
  split at hq
  · rename_i he
    exact absurd ((hs.rebuild q).2 (.inr (.inl ⟨he, by rw [hq]; rfl⟩))) hd
  · rename_i hne
    exact ⟨hne, hq, fun hm => hd ((hs.rebuild q).2 (.inl hm))⟩

omit hnew in
theorem sound_restructured : p'.evaluator.graph.Sound := by
  rw [hs.graph]
  split
  · exact h.graph
  · exact (h.graph.remove_spec name).1

omit hnew in
theorem lists_iff_restructured {q path : String} (hq : q ≠ name) :
    p'.evaluator.graph.Lists q path ↔ p.evaluator.graph.Lists q path := by
  rw [hs.graph]
  split
  · exact Iff.rfl
  · rw [(h.graph.remove_spec name).2.1]
    exact and_iff_right hq

omit hnew in
/-- The nodes of a removed entity are gone with its list. -/
theorem listed_restructured (hl : p.evaluator.Listed) : p'.evaluator.Listed := by
  obtain ⟨-, hlists, hnode, -⟩ := h.graph.remove_spec name
  intro path hn
  rw [hs.graph] at hn ⊢
  split
  · rename_i hsome
    rw [if_pos hsome] at hn
    exact hl path hn
  · rename_i hnone
    rw [if_neg hnone, hnode] at hn
    have hln := hl path hn.1
    exact (hlists _ _).2 ⟨fun he => hn.2 (he ▸ hln), hln⟩

omit hnew in
theorem lists_restructured {q path : String} (hq : p'.evaluator.graph.Lists q path) :
    (∃ r, p'.evaluator.tree.get? q = some r) ∧ Path.entityOf path = q ∧
      p'.evaluator.graph.Node path := by
  obtain ⟨-, hlists, hnode, -⟩ := h.graph.remove_spec name
  rw [hs.get?]
  rw [hs.graph] at hq ⊢
  split at hq
  · rename_i hsome
    rw [if_pos hsome]
    obtain ⟨hr, he, hn⟩ := h.lists q path hq
    refine ⟨?_, he, hn⟩
    split
    · exact Option.isSome_iff_exists.1 hsome
    · exact hr
  · rename_i hnone
    rw [if_neg hnone]
    obtain ⟨hne, hq⟩ := (hlists q path).1 hq
    obtain ⟨hr, he, hn⟩ := h.lists q path hq
    refine ⟨by rw [if_neg hne]; exact hr, he, (hnode path).2 ⟨hn, fun hln => ?_⟩⟩
    exact hne (he.symm.trans (h.lists name path hln).2.1)

/-- The wiring of an entity that is not queued stays: it reads no path of the record that comes or
goes. -/
theorem wiring_restructured {q : String} {r : EntityRecord}
    (hq : p'.evaluator.tree.get? q = some r) (hd : q ∉ p'.work.rebuild.keys) :
    (∀ path, p'.evaluator.graph.Lists q path ↔ r.Has path) ∧
      ∀ path target, r.Has path →
        (p'.evaluator.graph.Reads path target ↔ r.Edge p'.evaluator.known path target) := by
  obtain ⟨hne, hq, hold⟩ := clean_restructured hs hq hd
  obtain ⟨hagree, hroot⟩ := h.agree_restructured hs hnew hq hd hne
  obtain ⟨hwl, hwr⟩ := h.wiring q r hq hold
  have hr := h.tree.wellFormed hq
  have hname := h.tree.named hq
  have hexact := h.exact hq
  refine ⟨fun path => (h.lists_iff_restructured hs hne).trans (hwl path), fun path target hp => ?_⟩
  have hedge : r.Edge p.evaluator.known path target ↔ r.Edge p'.evaluator.known path target := by
    rw [EntityRecord.Edge, EntityRecord.Edge, EntityRecord.targets, EntityRecord.targets,
      hagree.forPath hr (fun _ hp => hr.contains_of_has hexact hp)]
  rw [← hedge, ← hwr path target hp, hs.graph]
  split
  · exact Iff.rfl
  · rw [(h.graph.remove_spec name).2.2.2]
    refine and_iff_left_of_imp fun hreads => ⟨fun hln => ?_, fun hln => ?_⟩
    · have := hr.entityOf_of_has hp
      exact hne (hname.symm.trans (this.symm.trans (h.lists name path hln).2.1))
    · have htarget := (h.lists name target hln).2.1
      rcases hr.entityOf_of_edge hexact ((hwr path target hp).1 hreads) with he | he
      · exact hne (hname.symm.trans (he.symm.trans htarget))
      · exact hroot (htarget ▸ he)

/-- **Coherence is kept** when a record comes or goes. -/
theorem restructured (hl : p.evaluator.Listed) (ht : p'.evaluator.tree.Regular) :
    Coherent p'.evaluator (· ∈ p'.work.roots.keys) (· ∈ p'.work.rebuild.keys) where
  registry := by rw [hs.fixed.2.2.1, h.registry]
  tree := ht
  known := h.known_iff_restructured hs hnew
  stored _ _ := h.stored_restructured hs
  pending _ := h.pending_restructured hs
  bulk := h.bulk_restructured hs hnew
  mirrored := h.mirrored_restructured hs
  absent _ := h.absent_restructured hs
  reads q r hq hd := by
    obtain ⟨hne, hq, hold⟩ := clean_restructured hs hq hd
    rw [reads_restructured hs hne]
    exact h.reads q r hq hold
  graph := h.sound_restructured hs
  lists _ _ := h.lists_restructured hs
  nodes path hn := .inl (h.listed_restructured hs hl path hn)
  wiring _ _ := h.wiring_restructured hs hnew

end Restructured

/-! ### Writes in place -/

section Written

variable {p p' : Progress} {record : EntityRecord} {path property : String} {value : Json}
  (h : Coherent p.evaluator (· ∈ p.work.roots.keys) (· ∈ p.work.rebuild.keys))
  (hs : p.Written record path property value p')
  (hr : p.evaluator.tree.get? record.name = some record)
  (hk : record.KeepsShape property value) (hset : (record.set property value).WellFormed)
  (hpath : path = Path.join record.name property)

include hs in
theorem get?_written (q : String) : p'.evaluator.tree.get? q =
    if q = record.name then some (record.set property value) else p.evaluator.tree.get? q := by
  obtain ⟨bulk, nextIdentity, he⟩ := hs.fixed
  rw [he]
  exact Tree.get?_upsert _ _ q

include h hr hk hpath in
/-- The bulk properties of the record before and after. -/
theorem bulk_set {q : String} {payload : Json} : (record.set property value).Bulk q payload ↔
    if record.config.isBulkPath property = true ∧ q = path then payload = value
    else record.Bulk q payload := by
  have hw := h.tree.wellFormed hr
  obtain ⟨old, hold, holdc⟩ := hk.old
  constructor
  · rintro ⟨prop, hb, hq, hp, hc⟩
    have hq : q = Path.join record.name prop := hq
    by_cases hprop : prop = property
    · subst hprop
      rw [if_pos ⟨hb, hq.trans hpath.symm⟩]
      exact Option.some.inj (hp.symm.trans (record.property?_set_self prop value))
    · have hp := (hk.property?_set_eq_some_iff hprop hc).1 hp
      rw [if_neg]
      · exact ⟨prop, hb, hq, hp, hc⟩
      · rintro ⟨-, he⟩
        exact hprop (hw.join_inj hp hold (hq.symm.trans (he.trans hpath)))
  · split
    · rename_i hcond
      rintro rfl
      exact ⟨property, hcond.1, hcond.2.trans hpath, record.property?_set_self property payload,
        hk.new⟩
    · rename_i hcond
      rintro ⟨prop, hb, hq, hp, hc⟩
      have hprop : prop ≠ property := by
        rintro rfl
        exact hcond ⟨hb, hq.trans hpath.symm⟩
      exact ⟨prop, hb, hq, (hk.property?_set_eq_some_iff hprop hc).2 hp, hc⟩

include hs hr hk in
theorem has_written (q : String) : p'.evaluator.tree.Has q ↔ p.evaluator.tree.Has q := by
  rw [Tree.Has, Tree.Has, get?_written hs]
  split
  · rename_i hq
    rw [hq, hr]
    simp only [Option.some.injEq, exists_eq_left']
    exact hk.has_set
  · exact Iff.rfl

omit h in
include hs hr hk in
theorem leaf_written (q : String) : p'.evaluator.tree.Leaf q ↔ p.evaluator.tree.Leaf q := by
  rw [Tree.Leaf, Tree.Leaf, get?_written hs]
  split
  · rename_i hq
    rw [hq, hr]
    simp only [Option.some.injEq, exists_eq_left']
    exact hk.mem_leafPaths_set
  · exact Iff.rfl

include h hs hr hk hpath in
theorem bulk_written (q : String) (payload : Json) :
    p'.evaluator.HasBulk q payload ↔ p'.evaluator.tree.Bulk q payload := by
  rw [hs.bulk, h.bulk, Tree.Bulk, Tree.Bulk, get?_written hs]
  by_cases hq : Path.entityOf q = record.name
  · rw [hq, if_pos rfl, hr]
    simp only [Option.some.injEq, exists_eq_left']
    exact (h.bulk_set hr hk hpath).symm
  · rw [if_neg hq, if_neg]
    rintro ⟨-, rfl⟩
    exact hq (hpath ▸ Path.entityOf_join (h.tree.wellFormed hr).name.2 property)

include hs in
/-- An entity that is not queued afterwards was not queued before, and if it is the one written to,
the value is no code. -/
theorem clean_written {q : String} (hq : q ∉ p'.work.rebuild.keys) : q ∉ p.work.rebuild.keys ∧
    (q = record.name → record.config.isDynamicPath property = false) := by
  rw [hs.rebuild] at hq
  refine ⟨fun hm => hq (.inl hm), fun hn => ?_⟩
  cases hd : record.config.isDynamicPath property with
  | false => rfl
  | true => exact absurd (.inr ⟨hn, .inl hd⟩) hq

include h hs hr hk in
theorem reads_written {q : String} {r : EntityRecord} (hq : p'.evaluator.tree.get? q = some r)
    (hd : q ∉ p'.work.rebuild.keys) :
    p.evaluator.reads.getD q [] = Evaluator.referencedRoots r := by
  rw [get?_written hs] at hq
  obtain ⟨hold, hdyn⟩ := clean_written hs hd
  split at hq
  · rename_i hn
    subst hn
    rw [← Option.some.inj hq, hk.referencedRoots_set (hdyn rfl)]
    exact h.reads record.name record hr hold
  · exact h.reads q r hq hold

include h hs hr hk in
/-- The wiring stays where no code is written. -/
theorem wiring_written {q : String} {r : EntityRecord} (hq : p'.evaluator.tree.get? q = some r)
    (hd : q ∉ p'.work.rebuild.keys) :
    (∀ path, p.evaluator.graph.Lists q path ↔ r.Has path) ∧
      ∀ path target, r.Has path →
        (p.evaluator.graph.Reads path target ↔ r.Edge p.evaluator.known path target) := by
  have hw := h.tree.wellFormed hr
  rw [get?_written hs] at hq
  obtain ⟨hold, hdyn⟩ := clean_written hs hd
  split at hq
  · rename_i hn
    subst hn
    obtain rfl := Option.some.inj hq
    obtain ⟨hwl, hwr⟩ := h.wiring record.name record hr hold
    refine ⟨fun path => (hwl path).trans hk.has_set.symm, fun path target hp => ?_⟩
    rw [hwr path target (hk.has_set.1 hp), EntityRecord.Edge, EntityRecord.Edge,
      hk.targets_set (hdyn rfl), hk.has_set]
  · exact h.wiring q r hq hold

include hs in
/-- A write in place touches neither the graph nor the indices of names. -/
theorem indices_written : p'.evaluator.registry = p.evaluator.registry ∧
    p'.evaluator.tree = p.evaluator.tree.upsert (record.set property value) ∧
    p'.evaluator.known = p.evaluator.known ∧ p'.evaluator.snapshot = p.evaluator.snapshot ∧
    p'.evaluator.graph = p.evaluator.graph ∧ p'.evaluator.reads = p.evaluator.reads ∧
    p'.evaluator.readers = p.evaluator.readers := by
  obtain ⟨bulk, nextIdentity, he⟩ := hs.fixed
  rw [he]
  exact ⟨rfl, rfl, rfl, rfl, rfl, rfl, rfl⟩

include hs in
theorem listed_written (hl : p.evaluator.Listed) : p'.evaluator.Listed := by
  obtain ⟨-, -, -, -, hgraph, -⟩ := indices_written hs
  intro q hn
  rw [hgraph] at hn ⊢
  exact hl q hn

include h hs hr hk hset hpath in
/-- **Coherence is kept** by a write in place. -/
theorem written :
    Coherent p'.evaluator (· ∈ p'.work.roots.keys) (· ∈ p'.work.rebuild.keys) := by
  obtain ⟨hregistry, htree, hknown, hsnapshot, hgraph, hreads, hreaders⟩ := indices_written hs
  constructor
  case registry => exact hregistry.trans h.registry
  case tree => exact htree ▸ h.tree.upsert hset
  case known =>
    intro q
    rw [hknown, has_written hs hr hk]
    exact h.known q
  case stored =>
    intro q v hv
    rw [hsnapshot] at hv
    exact (leaf_written hs hr hk q).2 (h.stored q v hv)
  case pending =>
    intro q hq
    rw [hsnapshot, hs.roots]
    exact (h.pending q ((leaf_written hs hr hk q).1 hq)).imp_right .inl
  case bulk => exact h.bulk_written hs hr hk hpath
  case mirrored =>
    refine ⟨?_, ?_, ?_⟩
    · rw [hreaders, hreads]
      exact h.mirrored.inverse
    · rw [hreaders]
      exact h.mirrored.readers
    · rw [hreads]
      exact h.mirrored.reads
  case absent =>
    intro q hq
    rw [get?_written hs] at hq
    rw [hreads]
    split at hq
    · cases hq
    · exact h.absent q hq
  case reads =>
    intro q r hq hd
    rw [hreads]
    exact h.reads_written hs hr hk hq hd
  case graph => exact hgraph ▸ h.graph
  case lists =>
    intro q path hq
    rw [hgraph] at hq ⊢
    obtain ⟨hfound, hn⟩ := h.lists q path hq
    refine ⟨?_, hn⟩
    rw [get?_written hs]
    split
    · exact ⟨_, rfl⟩
    · exact hfound
  case nodes =>
    intro q hn
    rw [hgraph, hknown] at *
    exact h.nodes q hn
  case wiring =>
    intro q r hq hd
    rw [hgraph, hknown]
    exact h.wiring_written hs hr hk hq hd

end Written

/-! ### Rebuilding -/

/-- Rebuilding touches the graph and the indices of names only, and marks the leaves of the rebuilt
entities. -/
structure Rebuilt (p : Progress) (names : List String) (p' : Progress) : Prop where
  /-- Only the graph and the indices of names change, and paths are marked. -/
  fixed : ∃ graph readers reads roots, p' =
    ⟨{ p.evaluator with graph, readers, reads }, { p.work with roots }⟩
  /-- The marked paths stay in step. -/
  inStep : p'.work.roots.InStep
  /-- Marked paths stay marked. -/
  roots : ∀ path ∈ p.work.roots.keys, path ∈ p'.work.roots.keys
  /-- The leaves of the rebuilt entities are marked. -/
  leaves : ∀ name ∈ names, ∀ r, p.evaluator.tree.get? name = some r →
    ∀ path ∈ r.leafPaths, path ∈ p'.work.roots.keys

theorem rebuildEntity_of_none {p : Progress} {name : String}
    (hr : p.evaluator.tree.get? name = none) : p.rebuildEntity name = .ok p := by
  rw [Progress.rebuildEntity, hr]

theorem rebuildEntity_of_some {p : Progress} {name : String} {r : EntityRecord}
    (hreg : p.evaluator.registry = .standard) (hr : p.evaluator.tree.get? name = some r)
    (hn : r.name = name) : p.rebuildEntity name = .ok
      { evaluator := Evaluator.setReads { p.evaluator with
          graph := p.evaluator.graph.update name (r.wiring p.evaluator.known) } name
          (Evaluator.referencedRoots r)
        work := { p.work with roots := p.work.roots.extend r.leafPaths } } := by
  subst hn
  rw [Progress.rebuildEntity, hr]
  have hc := r.checked_extracted p.evaluator.known p.evaluator.settings.integrity
  rw [EntityRecord.extracted] at hc
  simp only [hreg, hc]
  rfl

theorem mem_getD_wiring_iff_edge {r : EntityRecord} {known : KnownPaths} {path target : String} :
    target ∈ (r.wiring known).getD path [] ↔ r.Edge known path target :=
  EntityRecord.WellFormed.mem_getD_wiring

/-- The graph after the paths of a record were listed again with what they read. -/
structure Relisted (g : PathGraph) (known : KnownPaths) (r : EntityRecord) (g' : PathGraph) :
    Prop where
  /-- The graph is sound. -/
  sound : g'.Sound
  /-- The entity lists the paths of its record, and others what they listed. -/
  lists : ∀ name path, g'.Lists name path ↔ if name = r.name then r.Has path else g.Lists name path
  /-- The nodes of other entities stay. -/
  kept : ∀ path, g.Node path → Path.entityOf path ≠ r.name → g'.Node path
  /-- The paths of the record are nodes. -/
  node : ∀ path, r.Has path → g'.Node path
  /-- Nodes are listed or known. -/
  nodes : ∀ path, g'.Node path →
    g'.Lists (Path.entityOf path) path ∨ known.contains path = true
  /-- The paths of the record read what the wiring says. -/
  reads : ∀ path target, r.Has path → (g'.Reads path target ↔ r.Edge known path target)
  /-- The paths of other entities read nothing new, and of the known paths what they read. -/
  others : ∀ path target, Path.entityOf path ≠ r.name →
    (g'.Reads path target → g.Reads path target) ∧
    (known.contains target = true → g.Reads path target → g'.Reads path target)

section Rebuild

variable {p : Progress} {dirty : String → Prop}
  (h : Coherent p.evaluator (· ∈ p.work.roots.keys) dirty)
include h

/-- Of what leaves the graph nothing is known any more. -/
theorem of_leaves_wiring {r : EntityRecord} (hr : p.evaluator.tree.get? r.name = some r)
    {path : String} (hl : p.evaluator.graph.Leaves r.name (r.wiring p.evaluator.known) path) :
    Path.entityOf path = r.name ∧ p.evaluator.known.contains path ≠ true := by
  have hx := h.exact hr
  have he := (h.lists r.name path hl.1).2.1
  refine ⟨he, fun hk => hl.2 ?_⟩
  exact ((h.tree.wellFormed hr).mem_keys_wiring hx).2 ((hx path he).1 hk)

/-- The new nodes belong to the entity or are known. -/
theorem of_entry_wiring {r : EntityRecord} (hr : p.evaluator.tree.get? r.name = some r)
    {path : String} (he : ∃ e ∈ (r.wiring p.evaluator.known).entries, path = e.1 ∨ path ∈ e.2) :
    r.Has path ∨ p.evaluator.known.contains path = true := by
  have hw := h.tree.wellFormed hr
  have hx := h.exact hr
  obtain ⟨⟨key, targets⟩, he, rfl | hm⟩ := he
  · exact .inl ((hw.mem_keys_wiring hx).1 (List.mem_map.2 ⟨_, he, rfl⟩))
  · refine .inr (hw.contains_of_mem_wiring hx (?_ : _ ∈ SortedMap.getD _ key _))
    rw [SortedMap.getD, (SortedMap.get?_eq_some_iff _).2 he]
    exact hm

/-- **Listing an entity again** gives the graph the paths of its record with what they read. -/
theorem relisted {r : EntityRecord} (hr : p.evaluator.tree.get? r.name = some r) :
    Relisted p.evaluator.graph p.evaluator.known r
      (p.evaluator.graph.update r.name (r.wiring p.evaluator.known)) := by
  have hw := h.tree.wellFormed hr
  have hx := h.exact hr
  obtain ⟨hs, hl, hn, hreads⟩ := h.graph.update_spec r.name (r.wiring p.evaluator.known)
  have hkeys : ∀ path, path ∈ (r.wiring p.evaluator.known).keys ↔ r.Has path :=
    fun path => hw.mem_keys_wiring hx
  refine ⟨hs, fun name path => ?_, fun path hp hne => ?_, fun path hp => ?_, fun path hp => ?_,
    fun path target hp => ?_, fun path target hne => ?_⟩
  · rw [hl, hkeys]
  · exact (hn path).2 ⟨.inl hp, fun hv => hne (h.of_leaves_wiring hr hv).1⟩
  · obtain ⟨e, he, rfl⟩ := List.mem_map.1 ((hkeys path).2 hp)
    exact (hn _).2 ⟨.inr ⟨e, he, .inl rfl⟩, fun hv => hv.2 ((hkeys _).2 hp)⟩
  · obtain ⟨hp, hv⟩ := (hn path).1 hp
    rcases hp with hp | hp
    · refine (h.nodes path hp).imp_left fun hlist => ?_
      rw [hl]
      split
      · rename_i he
        by_contra hout
        exact hv ⟨he ▸ hlist, hout⟩
      · exact hlist
    · refine (h.of_entry_wiring hr hp).imp_left fun hh => ?_
      rw [hl, if_pos (hw.entityOf_of_has hh)]
      exact (hkeys path).2 hh
  · obtain ⟨targets, ht⟩ := SortedMap.mem_keys_iff.1 ((hkeys path).2 hp)
    rw [hreads, ht, ← mem_getD_wiring_iff_edge, SortedMap.getD, ht, Option.getD_some]
    refine and_iff_left_of_imp fun hm => ⟨fun hv => hv.2 ((hkeys path).2 hp), fun hv => ?_⟩
    refine (h.of_leaves_wiring hr hv).2
      (hw.contains_of_mem_wiring hx (?_ : _ ∈ SortedMap.getD _ path _))
    rw [SortedMap.getD, ht]
    exact hm
  · have hnone : (r.wiring p.evaluator.known).get? path = none := by
      cases hg : (r.wiring p.evaluator.known).get? path with
      | none => rfl
      | some targets =>
        exact absurd (hw.entityOf_of_has ((hkeys path).1 (SortedMap.mem_keys_iff.2 ⟨_, hg⟩))) hne
    rw [hreads, hnone]
    exact ⟨And.left, fun hk hread => ⟨hread, fun hv => hne (h.of_leaves_wiring hr hv).1,
      fun hv => (h.of_leaves_wiring hr hv).2 hk⟩⟩

section Rewired

variable {r : EntityRecord} {graph : PathGraph} {readers : SortedMap String (SortedSet String)}
  {reads : SortedMap String (List String)} (hr : p.evaluator.tree.get? r.name = some r)
  (hg : Relisted p.evaluator.graph p.evaluator.known r graph)
  (hget : ∀ q, reads.get? q = if q = r.name then
    (if Evaluator.referencedRoots r = [] then none else some (Evaluator.referencedRoots r))
    else p.evaluator.reads.get? q)

include hr hget in
theorem reads_rewired {q : String} {r' : EntityRecord} (hq : p.evaluator.tree.get? q = some r')
    (hd : ¬ (dirty q ∧ q ≠ r.name)) : reads.getD q [] = Evaluator.referencedRoots r' := by
  rw [SortedMap.getD, hget]
  by_cases hn : q = r.name
  · rw [if_pos hn]
    rw [hn, hr] at hq
    obtain rfl := Option.some.inj hq
    split
    · rename_i he
      exact he.symm
    · rfl
  · rw [if_neg hn]
    exact h.reads q r' hq fun hdq => hd ⟨hdq, hn⟩

include hr hg in
theorem lists_rewired {q path : String} (hq : graph.Lists q path) :
    (∃ r, p.evaluator.tree.get? q = some r) ∧ Path.entityOf path = q ∧ graph.Node path := by
  have hlist := (hg.lists q path).1 hq
  by_cases hn : q = r.name
  · rw [if_pos hn] at hlist
    subst hn
    exact ⟨⟨r, hr⟩, (h.tree.wellFormed hr).entityOf_of_has hlist, hg.node path hlist⟩
  · rw [if_neg hn] at hlist
    obtain ⟨hr', he, hnode⟩ := h.lists q path hlist
    exact ⟨hr', he, hg.kept path hnode (he ▸ hn)⟩

include hr hg in
/-- The wiring of the other entities stays, since a target that a clean entity reads is known. -/
theorem wiring_rewired {q : String} {r' : EntityRecord} (hq : p.evaluator.tree.get? q = some r')
    (hd : ¬ (dirty q ∧ q ≠ r.name)) : (∀ path, graph.Lists q path ↔ r'.Has path) ∧
      ∀ path target, r'.Has path →
        (graph.Reads path target ↔ r'.Edge p.evaluator.known path target) := by
  by_cases hn : q = r.name
  · rw [hn, hr] at hq
    obtain rfl := Option.some.inj hq
    refine ⟨fun path => ?_, hg.reads⟩
    rw [hg.lists, if_pos hn]
  · obtain ⟨hwl, hwr⟩ := h.wiring q r' hq fun hdq => hd ⟨hdq, hn⟩
    have hw := h.tree.wellFormed hq
    refine ⟨fun path => ?_, fun path target hp => ?_⟩
    · rw [hg.lists, if_neg hn]
      exact hwl path
    · have hne : Path.entityOf path ≠ r.name := by
        rw [hw.entityOf_of_has hp, h.tree.named hq]
        exact hn
      obtain ⟨hlost, hheld⟩ := hg.others path target hne
      constructor
      · exact fun hread => (hwr path target hp).1 (hlost hread)
      · intro hedge
        have hk := hw.contains_of_mem_wiring (h.exact hq) (mem_getD_wiring_iff_edge.2 hedge)
        exact hheld hk ((hwr path target hp).2 hedge)

include hr hg hget in
/-- An entity with its paths listed again and its names noted is not dirty any more. -/
theorem rewired (hm : Evaluator.Mirrored { p.evaluator with graph, readers, reads })
    {pending : String → Prop} (hp : ∀ path ∈ p.work.roots.keys, pending path) :
    Coherent { p.evaluator with graph, readers, reads } pending
      (fun q => dirty q ∧ q ≠ r.name) where
  registry := h.registry
  tree := h.tree
  known := h.known
  stored := h.stored
  pending path hl := (h.pending path hl).imp_right (hp path)
  bulk := h.bulk
  mirrored := hm
  absent q hq := by
    change SortedMap.getD reads q [] = []
    rw [SortedMap.getD, hget, if_neg]
    · exact h.absent q hq
    · rintro rfl
      rw [show p.evaluator.tree.get? r.name = none from hq] at hr
      cases hr
  reads _ _ := h.reads_rewired hr hget
  graph := hg.sound
  lists _ _ := h.lists_rewired hr hg
  nodes := hg.nodes
  wiring _ _ := h.wiring_rewired hr hg

end Rewired

/-- **Rebuilding an entity** succeeds, keeps coherence, and the entity is not dirty afterwards. -/
theorem rebuildEntity (hs : p.work.roots.InStep) (name : String) :
    ∃ p', p.rebuildEntity name = .ok p' ∧ Rebuilt p [name] p' ∧
      Coherent p'.evaluator (· ∈ p'.work.roots.keys) (fun q => dirty q ∧ q ≠ name) := by
  cases hr : p.evaluator.tree.get? name with
  | none =>
    refine ⟨p, rebuildEntity_of_none hr, ⟨⟨_, _, _, _, rfl⟩, hs, fun _ hp => hp, ?_⟩,
      h.mono (fun _ _ hp => hp) fun q r hq hd => ⟨hd, ?_⟩⟩
    · intro q hq r hget
      rw [List.mem_singleton.1 hq, hr] at hget
      cases hget
    · rintro rfl
      rw [hr] at hq
      cases hq
  | some r =>
    have hn := h.tree.named hr
    subst hn
    obtain ⟨readers, reads, hset⟩ := Evaluator.setReads_eq { p.evaluator with
      graph := p.evaluator.graph.update r.name (r.wiring p.evaluator.known) } r.name
      (Evaluator.referencedRoots r)
    have hm : Evaluator.Mirrored { p.evaluator with
        graph := p.evaluator.graph.update r.name (r.wiring p.evaluator.known) } :=
      ⟨h.mirrored.inverse, h.mirrored.readers, h.mirrored.reads⟩
    have hmirror := hm.setReads r.name (Evaluator.referencedRoots r)
    have hget := Evaluator.get?_reads_setReads { p.evaluator with
      graph := p.evaluator.graph.update r.name (r.wiring p.evaluator.known) } r.name
      (Evaluator.referencedRoots r)
    have hbuild := rebuildEntity_of_some h.registry hr rfl
    rw [hset] at hmirror hget hbuild
    have hmarked : ∀ path ∈ p.work.roots.keys, path ∈ (p.work.roots.extend r.leafPaths).keys :=
      fun path hp => hs.mem_keys_extend.2 (.inl hp)
    refine ⟨_, hbuild, ⟨⟨_, _, _, _, rfl⟩, hs.extend _, hmarked, ?_⟩,
      h.rewired hr (h.relisted hr) hget hmirror hmarked⟩
    intro q hq r' hr' path hp
    rw [List.mem_singleton.1 hq, hr] at hr'
    obtain rfl := Option.some.inj hr'
    exact hs.mem_keys_extend.2 (.inr hp)

/-- Rebuilding entities one after another succeeds, and none of them is dirty afterwards. -/
theorem rebuildAll (hs : p.work.roots.InStep) (names : List String) :
    ∃ p', p.rebuildAll names = (p', none) ∧ Rebuilt p names p' ∧
      Coherent p'.evaluator (· ∈ p'.work.roots.keys) (fun q => dirty q ∧ q ∉ names) := by
  induction names generalizing p dirty with
  | nil =>
    refine ⟨p, rfl, ⟨⟨_, _, _, _, rfl⟩, hs, fun _ hp => hp, ?_⟩, h.mono (fun _ _ hp => hp) ?_⟩
    · intro name hn
      cases hn
    · exact fun q r _ hd => ⟨hd, List.not_mem_nil⟩
  | cons name names ih =>
    obtain ⟨mid, he, hb, hc⟩ := h.rebuildEntity hs name
    obtain ⟨p', he', hb', hc'⟩ := ih hc hb.inStep
    refine ⟨p', ?_, ⟨?_, hb'.inStep, fun path hp => hb'.roots path (hb.roots path hp), ?_⟩,
      hc'.mono (fun _ _ hp => hp) ?_⟩
    · rw [Progress.rebuildAll, he]
      exact he'
    · obtain ⟨graph, readers, reads, roots, rfl⟩ := hb.fixed
      obtain ⟨graph', readers', reads', roots', hf⟩ := hb'.fixed
      exact ⟨graph', readers', reads', roots', hf⟩
    · intro q hq r hr path hp
      rcases List.mem_cons.1 hq with rfl | hq
      · exact hb'.roots path (hb.leaves q (List.mem_singleton_self q) r hr path hp)
      · obtain ⟨graph, readers, reads, roots, rfl⟩ := hb.fixed
        exact hb'.leaves q hq r hr path hp
    · rintro q r hr ⟨⟨hd, hne⟩, hout⟩
      exact ⟨hd, fun hm => (List.mem_cons.1 hm).elim hne hout⟩

end Rebuild

/-- **Rebuilding the queued entities** succeeds, and nothing is dirty afterwards. -/
theorem rebuild {p : Progress}
    (h : Coherent p.evaluator (· ∈ p.work.roots.keys) (· ∈ p.work.rebuild.keys))
    (hs : p.work.roots.InStep) :
    ∃ p', p.rebuild = (p', none) ∧
      Rebuilt { p with work := { p.work with rebuild := .empty } } p.work.rebuild.keys p' ∧
      Coherent p'.evaluator (· ∈ p'.work.roots.keys) (fun _ => False) := by
  have hc : Coherent ({ p with work := { p.work with rebuild := .empty } } : Progress).evaluator
      (· ∈ ({ p with work := { p.work with rebuild := .empty } } : Progress).work.roots.keys)
      (· ∈ p.work.rebuild.keys) := h
  obtain ⟨p', he, hb, hc'⟩ := hc.rebuildAll hs p.work.rebuild.keys
  exact ⟨p', he, hb, hc'.mono (fun _ _ hp => hp) fun q r _ hd => hd.2 hd.1⟩

/-- In an evaluator that is nowhere dirty the nodes of the graph are the known paths. -/
theorem node_iff (h : Coherent e pending (fun _ => False)) {path : String} :
    e.graph.Node path ↔ e.known.contains path = true := by
  constructor
  · intro hn
    rcases h.nodes path hn with hl | hk
    · obtain ⟨⟨r, hr⟩, -, -⟩ := h.lists _ path hl
      rw [h.known]
      exact ⟨r, hr, ((h.wiring _ r hr id).1 path).1 hl⟩
    · exact hk
  · intro hk
    obtain ⟨r, hr, hp⟩ := (h.known path).1 hk
    exact (h.lists _ path (((h.wiring _ r hr id).1 path).2 hp)).2.2

theorem listed (h : Coherent e pending (fun _ => False)) : e.Listed := by
  intro path hn
  obtain ⟨r, hr, hp⟩ := (h.known path).1 (h.node_iff.1 hn)
  exact ((h.wiring _ r hr id).1 path).2 hp

/-- What a path reads, in an evaluator that is nowhere dirty. -/
theorem reads_iff (h : Coherent e pending (fun _ => False)) {path target : String} :
    e.graph.Reads path target ↔
      ∃ r, e.tree.get? (Path.entityOf path) = some r ∧ r.Has path ∧ r.Edge e.known path target := by
  constructor
  · intro hr
    have hn := (h.graph.node_of_reads hr).1
    obtain ⟨r, hg, hp⟩ := (h.known path).1 (h.node_iff.1 hn)
    exact ⟨r, hg, hp, ((h.wiring _ r hg id).2 path target hp).1 hr⟩
  · rintro ⟨r, hg, hp, he⟩
    exact ((h.wiring _ r hg id).2 path target hp).2 he

end Coherent

end Recalc
