import Recalc.Proofs.Evaluator.Recompute

/-!
# What the changes of a batch leave alone

Whatever the keys of objects are, a leaf that a change is not about keeps its raw value, its
allocation and its evaluated value (`Progress.Spares`), and a leaf that a change is about is marked
(`Progress.Attends`). So after all changes of a batch, every leaf of the tree is as it was before or
will be evaluated again (`Progress.attends_perform`). A batch leaves a leaf alone if it neither
stores nor removes the entity, does not write the leaf, and replaces only values without fields by
others in the same entity (`Progress.spares_perform`).
-/

namespace Recalc

/-! ### Leaves of a tree with any keys -/

namespace Tree

/-- The path is listed as a leaf of an entity with the configuration, and a look-up finds the raw
value there. Where keys hold separators, one of the two can be without the other. -/
def Listed (t : Tree) (path : String) (config : EntityConfig) (raw : Json) : Prop :=
  ∃ r, t.LeafAt path r raw ∧ path ∈ r.leafPaths ∧ r.config = config

variable {t t' : Tree} {path : String} {config : EntityConfig} {raw : Json}

theorem Listed.has (h : t.Listed path config raw) : t.Has path := by
  obtain ⟨r, hl, hp, -⟩ := h
  exact ⟨r, hl.found, EntityRecord.has_of_mem_leafPaths hp⟩

theorem Listed.valued (h : t.Listed path config raw) : t.Valued path := by
  obtain ⟨r, hl, -⟩ := h
  exact ⟨r, raw, hl⟩

/-- Only the record of the entity matters. -/
theorem listed_congr (h : t'.get? (Path.entityOf path) = t.get? (Path.entityOf path)) :
    t'.Listed path config raw ↔ t.Listed path config raw := by
  refine exists_congr fun r => and_congr_left fun _ => ?_
  exact ⟨fun hl => ⟨h.symm.trans hl.found, hl.proper, hl.value, hl.leaf⟩,
    fun hl => ⟨h.trans hl.found, hl.proper, hl.value, hl.leaf⟩⟩

/-- A write that keeps the shape of an entity leaves its other leaves. -/
theorem listed_upsert_set {r : EntityRecord} {property : String} {value : Json} (hn : t.Named)
    (hr : t.get? (Path.entityOf path) = some r) (hk : r.KeepsShape property value)
    (hp : (Path.split path).2 ≠ property) :
    (t.upsert (r.set property value)).Listed path config raw ↔ t.Listed path config raw := by
  have hname : Path.entityOf path = (r.set property value).name := (hn _ r hr).symm
  have hget : (t.upsert (r.set property value)).get? (Path.entityOf path) =
      some (r.set property value) := by
    rw [get?_upsert, if_pos hname]
  constructor
  · rintro ⟨r', ⟨hfound, hproper, hvalue, hleaf⟩, hlisted, hconfig⟩
    obtain rfl := Option.some.inj (hget.symm.trans hfound)
    exact ⟨r, ⟨hr, hproper, (hk.property?_set_eq_some_iff hp hleaf).1 hvalue, hleaf⟩,
      hk.mem_leafPaths_set.1 hlisted, hconfig⟩
  · rintro ⟨r', ⟨hfound, hproper, hvalue, hleaf⟩, hlisted, hconfig⟩
    obtain rfl := Option.some.inj (hr.symm.trans hfound)
    exact ⟨r.set property value,
      ⟨hget, hproper, (hk.property?_set_eq_some_iff hp hleaf).2 hvalue, hleaf⟩,
      hk.mem_leafPaths_set.2 hlisted, hconfig⟩

/-- What has no property is no leaf. -/
theorem not_listed_of_split (h : (Path.split path).2 = "") : ¬ t.Listed path config raw := by
  rintro ⟨r, hl, -⟩
  exact hl.proper h

theorem shape_congr {name : String} (h : t'.get? name = t.get? name) :
    t'.shape name = t.shape name := by
  rw [shape, shape, h]

end Tree

namespace Progress

/-! ### What happens to one leaf -/

/-- Nothing happens to the path between the two states, nor to the shape of its entity. -/
structure Spares (p : Progress) (path : String) (p' : Progress) : Prop where
  /-- The properties of its entity are the same, with fields or without. -/
  shape : p'.evaluator.tree.shape (Path.entityOf path) =
    p.evaluator.tree.shape (Path.entityOf path)
  /-- It is the same leaf, with the same raw value. -/
  listed : ∀ config raw, p'.evaluator.tree.Listed path config raw ↔
    p.evaluator.tree.Listed path config raw
  /-- It keeps its allocation. -/
  bulk : p'.evaluator.bulk.get? path = p.evaluator.bulk.get? path
  /-- It keeps its value. -/
  snapshot : p'.evaluator.snapshot.get? path = p.evaluator.snapshot.get? path
  /-- Its value is not noted. -/
  previous : p'.work.previous.get? path = p.work.previous.get? path

namespace Spares

variable {p mid p' : Progress} {path : String}

theorem refl (p : Progress) (path : String) : p.Spares path p :=
  ⟨rfl, fun _ _ => Iff.rfl, rfl, rfl, rfl⟩

theorem trans (h : p.Spares path mid) (h' : mid.Spares path p') : p.Spares path p' where
  shape := h'.shape.trans h.shape
  listed config raw := (h'.listed config raw).trans (h.listed config raw)
  bulk := h'.bulk.trans h.bulk
  snapshot := h'.snapshot.trans h.snapshot
  previous := h'.previous.trans h.previous

/-- The record of the entity stays. -/
theorem of_get? (h : p'.evaluator.tree.get? (Path.entityOf path) =
      p.evaluator.tree.get? (Path.entityOf path))
    (hb : p'.evaluator.bulk.get? path = p.evaluator.bulk.get? path)
    (hs : p'.evaluator.snapshot.get? path = p.evaluator.snapshot.get? path)
    (hv : p'.work.previous.get? path = p.work.previous.get? path) : p.Spares path p' :=
  ⟨Tree.shape_congr h, fun _ _ => Tree.listed_congr h, hb, hs, hv⟩

end Spares

/-- Every leaf of the tree is as it was, or marked to be evaluated again. -/
structure Attends (p p' : Progress) : Prop where
  /-- The sets of the work stay in step. -/
  inStep : p'.InStep
  /-- Marked paths stay marked. -/
  roots : ∀ path ∈ p.work.roots.keys, path ∈ p'.work.roots.keys
  /-- A leaf that is not marked is as it was. -/
  leaves : ∀ path config raw, p'.evaluator.tree.Listed path config raw →
    p.Spares path p' ∨ path ∈ p'.work.roots.keys

namespace Attends

variable {p mid p' : Progress}

theorem refl (h : p.InStep) : p.Attends p :=
  ⟨h, fun _ hp => hp, fun path _ _ _ => .inl (.refl p path)⟩

theorem trans (h : p.Attends mid) (h' : mid.Attends p') : p.Attends p' where
  inStep := h'.inStep
  roots path hp := h'.roots path (h.roots path hp)
  leaves path config raw hl := by
    rcases h'.leaves path config raw hl with hs | hm
    · exact (h.leaves path config raw ((hs.listed config raw).1 hl)).imp (·.trans hs)
        (h'.roots path)
    · exact .inr hm

end Attends

/-! ### The steps -/

section

variable {p : Progress} (hm : p.Mapped) (hi : p.InStep)
include hm hi

/-- Storing an entity leaves those of other entities alone. -/
theorem spares_upsertEntity {record : EntityRecord} (hr : Path.isEntityName record.name = true)
    {path : String} (hp : Path.entityOf path ≠ record.name) :
    p.Spares path (p.upsertEntity record) := by
  obtain ⟨known, snapshot, previous, gone, bulk, nextIdentity, rebuild, he, -, hg, hs, hv, hcache,
    -⟩ := upsertEntity_eq hi record fun {name r} => hm.named name r
  have hbulk := Evaluator.get?_bulk_cacheBulk
    { p.evaluator with known := known.insertEntity record.name record.entity, snapshot }
    (Path.isKey_of_isEntityName hr) hp
  rw [hcache] at hbulk
  have hstay : path ∉ gone := by
    rw [hg]
    rintro ⟨⟨old, hold, hl⟩, -⟩
    exact hp (hm.entityOf_of_has hold (EntityRecord.has_of_mem_leafPaths hl))
  rw [he]
  refine .of_get? ?_ hbulk ?_ ?_
  · exact (Tree.get?_upsert _ _ _).trans (if_neg hp)
  · exact (hs path).trans (if_neg hstay)
  · exact (hv path).trans (by rw [if_neg hstay, Option.or_none])

theorem attends_upsertEntity {record : EntityRecord}
    (hr : Path.isEntityName record.name = true) : p.Attends (p.upsertEntity record) := by
  obtain ⟨known, snapshot, previous, gone, bulk, nextIdentity, rebuild, he, -, -, -, -, -, hin,
    -⟩ := upsertEntity_eq hi record fun {name r} => hm.named name r
  have hroots : (p.upsertEntity record).work.roots = p.work.roots.extend record.leafPaths := by
    rw [he]
  refine ⟨?_, fun path hp => ?_, fun path config raw hl => ?_⟩
  · rw [he]
    exact ⟨hi.roots.extend _, hin⟩
  · rw [hroots]
    exact hi.roots.mem_keys_extend.2 (.inl hp)
  · by_cases hp : Path.entityOf path = record.name
    · obtain ⟨r, hleaf, hlisted, -⟩ := hl
      have hfound : (p.upsertEntity record).evaluator.tree.get? (Path.entityOf path) = some r :=
        hleaf.found
      rw [(p.turns_upsertEntity record).tree, Tree.get?_upsert, if_pos hp] at hfound
      obtain rfl := Option.some.inj hfound
      rw [hroots]
      exact .inr (hi.roots.mem_keys_extend.2 (.inr hlisted))
    · exact .inl (spares_upsertEntity hm hi hr hp)

/-- Removing an entity leaves those of other entities alone. -/
theorem spares_removeEntity {name path : String} (hp : Path.entityOf path ≠ name) :
    p.Spares path (p.removeEntity name) := by
  cases hr : p.evaluator.tree.get? name with
  | none =>
    have hsame : p.removeEntity name = p := by rw [removeEntity, hr]
    rw [hsame]
    exact .refl p path
  | some record =>
    obtain ⟨snapshot, previous, rebuild, he, hs, hv, -⟩ := removeEntity_eq hi hr
    obtain rfl := hm.named name record hr
    have hstay : path ∉ record.entity.leafPaths record.name := fun hl =>
      hp (hm.entityOf_of_has hr (EntityRecord.has_of_mem_leafPaths hl))
    rw [he]
    refine .of_get? ?_ (Evaluator.get?_bulk_freeBulk _ hp) ?_ ?_
    · exact (Tree.get?_remove _ _ _).trans (if_neg hp)
    · exact (hs path).trans (if_neg hstay)
    · exact (hv path).trans (by rw [if_neg hstay, Option.or_none])

theorem attends_removeEntity (name : String) : p.Attends (p.removeEntity name) := by
  cases hr : p.evaluator.tree.get? name with
  | none =>
    have hsame : p.removeEntity name = p := by rw [removeEntity, hr]
    rw [hsame]
    exact .refl hi
  | some record =>
    obtain ⟨snapshot, previous, rebuild, he, -, -, hin, -⟩ := removeEntity_eq hi hr
    refine ⟨he ▸ ⟨hi.roots, hin⟩, fun path hp => he ▸ hp, fun path config raw hl => .inl ?_⟩
    refine spares_removeEntity hm hi fun hp => ?_
    obtain ⟨r, hleaf, -⟩ := hl
    have hfound : (p.removeEntity name).evaluator.tree.get? (Path.entityOf path) = some r :=
      hleaf.found
    rw [(p.turns_removeEntity name).tree, Tree.get?_remove, if_pos hp] at hfound
    cases hfound

/-- A write in place leaves all other leaves alone. -/
theorem spares_writeInPlace {record : EntityRecord} {w : String × Json}
    (hr : p.evaluator.tree.get? (Path.entityOf w.1) = some record)
    (hk : record.KeepsShape (Path.split w.1).2 w.2) {path : String} (hp : path ≠ w.1) :
    p.Spares path (p.writeInPlace record w.1 (Path.split w.1).2 w.2) := by
  have hspec := writeInPlace_spec hi record w.1 (Path.split w.1).2 w.2
  have hname : (record.set (Path.split w.1).2 w.2).name = Path.entityOf w.1 :=
    (record.name_set _ _).trans (hm.named _ record hr)
  obtain ⟨bulk, nextIdentity, he⟩ := hspec.fixed
  have htree : (p.writeInPlace record w.1 (Path.split w.1).2 w.2).evaluator.tree =
      p.evaluator.tree.upsert (record.set (Path.split w.1).2 w.2) := by
    rw [he]
  have hsnapshot : (p.writeInPlace record w.1 (Path.split w.1).2 w.2).evaluator.snapshot =
      p.evaluator.snapshot := by
    rw [he]
  by_cases hentity : Path.entityOf path = Path.entityOf w.1
  · refine ⟨?_, fun config raw => ?_, hspec.allocated path hp, by rw [hsnapshot], by
      rw [hspec.noted.2]⟩
    · rw [htree, hentity, Tree.shape, Tree.shape, Tree.get?_upsert, if_pos hname.symm, hr,
        Option.map_some, Option.map_some, EntityRecord.config_set]
      exact congrArg some (congrArg _ (funext hk.map_isComposite_property?_set))
    · rw [htree]
      by_cases hproperty : (Path.split path).2 = (Path.split w.1).2
      · -- The two paths split alike, so they could only differ if neither is that of a property.
        have hnone : (Path.split path).2 = "" := by
          by_contra hne
          refine hp ((Path.eq_join_of_split (Prod.ext hentity hproperty) ?_).trans
            (Path.eq_join_of_split rfl ?_).symm) <;> exact hproperty ▸ hne
        exact iff_of_false (Tree.not_listed_of_split hnone) (Tree.not_listed_of_split hnone)
      · exact Tree.listed_upsert_set hm.named (hentity ▸ hr) hk hproperty
  · refine .of_get? ?_ (hspec.allocated path hp) (by rw [hsnapshot]) (by rw [hspec.noted.2])
    rw [htree, Tree.get?_upsert, if_neg (hname ▸ hentity)]

theorem attends_writeInPlace {record : EntityRecord} {w : String × Json}
    (hr : p.evaluator.tree.get? (Path.entityOf w.1) = some record)
    (hk : record.KeepsShape (Path.split w.1).2 w.2) :
    p.Attends (p.writeInPlace record w.1 (Path.split w.1).2 w.2) := by
  have hspec := writeInPlace_spec hi record w.1 (Path.split w.1).2 w.2
  refine ⟨hspec.inStep, fun path hp => (hspec.roots path).2 (.inl hp), fun path _ _ _ => ?_⟩
  by_cases hp : path = w.1
  · exact .inr ((hspec.roots path).2 (.inr hp))
  · exact .inl (spares_writeInPlace hm hi hr hk hp)

theorem attends_change {c : StructuralChange} (hc : c.Proper) : p.Attends (p.change c) := by
  cases c with
  | upsert record => exact attends_upsertEntity hm hi hc
  | remove name => exact attends_removeEntity hm hi name

theorem spares_change {c : StructuralChange} (hc : c.Proper) {path : String}
    (hp : c.entity ≠ Path.entityOf path) : p.Spares path (p.change c) := by
  cases c with
  | upsert record => exact spares_upsertEntity hm hi hc (Ne.symm hp)
  | remove name => exact spares_removeEntity hm hi (Ne.symm hp)

theorem attends_writeValue (w : String × Json) : p.Attends (p.writeValue w) := by
  rcases p.writeValue_cases w with ⟨-, he⟩ | ⟨record, hr, ⟨hk, he⟩ | he⟩ <;> rw [he]
  · exact .refl hi
  · exact attends_writeInPlace hm hi hr hk
  · refine attends_upsertEntity hm hi ?_
    rw [record.name_set]
    exact hm.proper _ record hr

end

end Progress

/-! ### Writes that a leaf does not notice -/

/-- The write is not to the path, and leaves the shape of its entity. -/
structure Tree.Bypasses (t : Tree) (w : String × Json) (path : String) : Prop where
  /-- Something else is written. -/
  apart : w.1 ≠ path
  /-- In the same entity, a value without fields takes the place of another one. -/
  keeps : Path.entityOf w.1 = Path.entityOf path → w.2.isComposite = false ∧ t.Valued w.1

/-- The batch neither stores nor removes the entity of the path, and its writes bypass the path. -/
structure ChangeBatch.Bypasses (b : ChangeBatch) (t : Tree) (path : String) : Prop where
  /-- Only other entities come or go. -/
  structural : ∀ c ∈ b.structural, c.entity ≠ Path.entityOf path
  /-- The writes leave the path and the shape of its entity. -/
  values : ∀ w ∈ b.values, t.Bypasses w path

namespace Progress

theorem Spares.bypasses {p p' : Progress} {path : String} (h : p.Spares path p')
    {w : String × Json} (hw : p.evaluator.tree.Bypasses w path) :
    p'.evaluator.tree.Bypasses w path := by
  refine ⟨hw.apart, fun he => ⟨(hw.keeps he).1, ?_⟩⟩
  refine (Tree.valued_iff_of_shape ?_).2 (hw.keeps he).2
  rw [show (Path.split w.1).1 = Path.entityOf path from he]
  exact h.shape

section

variable {p : Progress} (hm : p.Mapped) (hi : p.InStep)
include hm hi

theorem spares_writeValue {w : String × Json} {path : String}
    (hw : p.evaluator.tree.Bypasses w path) : p.Spares path (p.writeValue w) := by
  by_cases hentity : Path.entityOf w.1 = Path.entityOf path
  · obtain ⟨hnew, record, raw, hl⟩ := hw.keeps hentity
    have hk : record.KeepsShape (Path.split w.1).2 w.2 := ⟨hnew, raw, hl.value, hl.leaf⟩
    rw [writeValue_of_keepsShape hl.found hk]
    exact spares_writeInPlace hm hi hl.found hk hw.apart.symm
  · rcases p.writeValue_cases w with ⟨-, he⟩ | ⟨record, hr, ⟨hk, he⟩ | he⟩ <;> rw [he]
    · exact .refl p path
    · exact spares_writeInPlace hm hi hr hk hw.apart.symm
    · have hname := record.name_set (Path.split w.1).2 w.2
      refine spares_upsertEntity hm hi ?_ fun he => ?_
      · rw [hname]
        exact hm.proper _ record hr
      · exact hentity ((hm.named _ record hr).symm.trans (hname.symm.trans he.symm))

/-! ### The batch -/

/-- **The changes of a batch** leave every leaf as it was or mark it. -/
theorem attends_perform {b : ChangeBatch} (hb : ∀ c ∈ b.structural, c.Proper) :
    p.Attends (p.perform b) := by
  have hchanged : (b.structural.foldl change p).Mapped ∧ p.Attends (b.structural.foldl change p) :=
    List.foldlRecOn (motive := fun p' : Progress => p'.Mapped ∧ p.Attends p') b.structural _
      ⟨hm, .refl hi⟩ fun mid h c hc =>
        ⟨h.1.change (hb c hc), h.2.trans (attends_change h.1 h.2.inStep (hb c hc))⟩
  exact (List.foldlRecOn (motive := fun p' : Progress => p'.Mapped ∧ p.Attends p') b.values _
    hchanged fun mid h w _ =>
      ⟨h.1.writeValue w, h.2.trans (attends_writeValue h.1 h.2.inStep w)⟩).2

/-- **A batch that bypasses a leaf** leaves it alone. -/
theorem spares_perform {b : ChangeBatch} (hb : ∀ c ∈ b.structural, c.Proper) {path : String}
    (hp : b.Bypasses p.evaluator.tree path) : p.Spares path (p.perform b) := by
  have hchanged : (b.structural.foldl change p).Mapped ∧ (b.structural.foldl change p).InStep ∧
      p.Spares path (b.structural.foldl change p) :=
    List.foldlRecOn
      (motive := fun p' : Progress => p'.Mapped ∧ p'.InStep ∧ p.Spares path p') b.structural _
      ⟨hm, hi, .refl p path⟩ fun mid h c hc =>
        ⟨h.1.change (hb c hc), (attends_change h.1 h.2.1 (hb c hc)).inStep,
          h.2.2.trans (spares_change h.1 h.2.1 (hb c hc) (hp.structural c hc))⟩
  exact (List.foldlRecOn
    (motive := fun p' : Progress => p'.Mapped ∧ p'.InStep ∧ p.Spares path p') b.values _ hchanged
    fun mid h w hw => ⟨h.1.writeValue w, (attends_writeValue h.1 h.2.1 w).inStep,
      h.2.2.trans (spares_writeValue h.1 h.2.1 (h.2.2.bypasses (hp.values w hw)))⟩).2.2

end

/-- Rebuilding the queued entities leaves every leaf alone. -/
theorem spares_rebuild (p : Progress) (path : String) : p.Spares path p.rebuild.1 := by
  obtain ⟨graph, readers, reads, leaves, he⟩ := p.rebuild_eq
  rw [he]
  exact ⟨rfl, fun _ _ => Iff.rfl, rfl, rfl, rfl⟩

theorem attends_rebuild {p : Progress} (hi : p.InStep) : p.Attends p.rebuild.1 := by
  refine ⟨?_, fun path hp => ?_, fun path _ _ _ => .inl (p.spares_rebuild path)⟩
  all_goals obtain ⟨graph, readers, reads, leaves, he⟩ := p.rebuild_eq; rw [he]
  · exact ⟨hi.roots.extend leaves, PendingSet.inStep_empty⟩
  · exact hi.roots.mem_keys_extend.2 (.inl hp)

end Progress

end Recalc
