import Recalc.Proofs.Evaluator.Calls

/-!
# Known paths

Whatever the keys of objects, the extractors of entities and the engine are, and whether calls
succeed or are refused, the entities of an evaluator are registered once each under proper names,
and its known paths are the paths of its tree (`Evaluator.Evolves.mapped`).
-/

namespace Recalc

/-! ### A tree and a set of paths -/

namespace Tree

/-- Each record stands under its own proper name and is registered once, and the set holds the paths
of the tree. -/
structure Mapped (t : Tree) (known : KnownPaths) : Prop where
  /-- A record stands under its name. -/
  named : t.Named
  /-- Registered are the names of the records, once each. -/
  enrolled : t.Enrolled
  /-- The names are proper. -/
  proper : ∀ name r, t.get? name = some r → Path.isEntityName r.name = true
  /-- The set holds the paths of the tree. -/
  known : ∀ path, known.contains path = true ↔ t.Has path

theorem mapped_empty : empty.Mapped .empty where
  named := named_empty
  enrolled := regular_empty.enrolled
  proper _ _ h := by cases h
  known path := iff_of_false (fun h => SortedSet.not_mem_empty path h)
    fun ⟨r, hr, _⟩ => by cases hr

namespace Mapped

variable {t : Tree} {known : KnownPaths} (h : t.Mapped known)
include h

/-- A path of the tree is one of the record that it names. -/
theorem entityOf_of_has {name path : String} {r : EntityRecord} (hr : t.get? name = some r)
    (hp : r.Has path) : Path.entityOf path = name :=
  (EntityRecord.entityOf_of_has (h.proper name r hr) hp).trans (h.named name r hr)

/-- The known paths without those of an entity. -/
theorem contains_removeEntity {name path : String} {r : EntityRecord} (hr : t.get? name = some r) :
    (known.removeEntity name r.entity).contains path = true ↔
      t.Has path ∧ Path.entityOf path ≠ name := by
  obtain rfl := h.named name r hr
  rw [KnownPaths.contains_removeEntity, h.known]
  refine and_congr_right fun hp => not_congr ⟨h.entityOf_of_has hr, fun he => ?_⟩
  exact (has_iff (he.symm ▸ hr)).1 hp

/-- What a record that takes the place of another one leaves. -/
theorem upsert {record : EntityRecord} (hr : Path.isEntityName record.name = true)
    {fresh : KnownPaths} (hf : ∀ path, fresh.contains path = true ↔
      t.Has path ∧ Path.entityOf path ≠ record.name ∨ record.Has path) :
    (t.upsert record).Mapped fresh where
  named := h.named.change (.upsert record)
  enrolled := h.enrolled.upsert record
  proper name r hg := by
    rw [get?_upsert] at hg
    split at hg
    · exact Option.some.inj hg ▸ hr
    · exact h.proper name r hg
  known path := by
    rw [hf, Has, Has, get?_upsert]
    split
    · rename_i he
      simp [he]
    · rename_i he
      have hout : ¬ record.Has path := fun hp => he (EntityRecord.entityOf_of_has hr hp)
      simp [he, hout]

theorem remove (name : String) {fresh : KnownPaths}
    (hf : ∀ path, fresh.contains path = true ↔ t.Has path ∧ Path.entityOf path ≠ name) :
    (t.remove name).Mapped fresh where
  named := h.named.change (.remove name)
  enrolled := h.enrolled.remove name
  proper q r hg := by
    rw [get?_remove] at hg
    split at hg
    · cases hg
    · exact h.proper q r hg
  known path := by
    rw [hf, Has, Has, get?_remove]
    split
    · rename_i he
      simp [he]
    · rename_i he
      simp [he]

/-- A write in place leaves the paths. -/
theorem set {name property : String} {record : EntityRecord} {value : Json}
    (hr : t.get? name = some record) (hk : record.KeepsShape property value) :
    (t.upsert (record.set property value)).Mapped known := by
  have hname := h.named name record hr
  have hproper : Path.isEntityName (record.set property value).name = true :=
    h.proper name record hr
  refine h.upsert hproper fun path => ?_
  rw [hk.has_set, h.known]
  change _ ↔ _ ∧ Path.entityOf path ≠ record.name ∨ _
  by_cases he : Path.entityOf path = record.name
  · simp only [he, ne_eq, not_true_eq_false, and_false, false_or]
    exact has_iff (by rw [he, hname, hr])
  · have hout : ¬ record.Has path := fun hp =>
      he (EntityRecord.entityOf_of_has (h.proper name record hr) hp)
    simp [he, hout]

end Mapped

end Tree

/-! ### The steps of a batch -/

namespace Progress

/-- The known paths are those of the tree. -/
abbrev Mapped (p : Progress) : Prop := p.evaluator.tree.Mapped p.evaluator.known

namespace Mapped

variable {p : Progress} (h : p.Mapped)
include h

theorem contains_dropStale {record : EntityRecord} {path : String} :
    (p.dropStale record).evaluator.known.contains path = true ↔
      p.evaluator.tree.Has path ∧ Path.entityOf path ≠ record.name := by
  rw [dropStale]
  cases hg : p.evaluator.tree.get? record.name with
  | none =>
    rw [h.known]
    refine (and_iff_left_of_imp fun hp he => ?_).symm
    obtain ⟨r, hr, -⟩ := hp
    rw [he, hg] at hr
    cases hr
  | some old =>
    simp only
    obtain ⟨snapshot, previous, he, -⟩ := foldl_dropLeaf _ _
    rw [he]
    exact h.contains_removeEntity hg

theorem upsertEntity {record : EntityRecord} (hr : Path.isEntityName record.name = true) :
    (p.upsertEntity record).Mapped := by
  have htree := (p.turns_upsertEntity record).tree
  have hknown : (p.upsertEntity record).evaluator.known =
      (p.dropStale record).evaluator.known.insertEntity record.name record.entity := by
    obtain ⟨bulk, nextIdentity, hc⟩ := Evaluator.cacheBulk_eq
      { (p.dropStale record).evaluator with
        known := (p.dropStale record).evaluator.known.insertEntity record.name record.entity }
      record
    rw [Progress.upsertEntity]
    simp only [hc, evaluator_queueReaders]
  rw [Mapped, htree, hknown]
  refine Tree.Mapped.upsert h hr fun path => ?_
  rw [KnownPaths.contains_insertEntity, h.contains_dropStale]

theorem removeEntity (name : String) : (p.removeEntity name).Mapped := by
  have htree := (p.turns_removeEntity name).tree
  cases hg : p.evaluator.tree.get? name with
  | none =>
    rw [Progress.removeEntity, hg]
    exact h
  | some record =>
    have hknown : (p.removeEntity name).evaluator.known =
        p.evaluator.known.removeEntity name record.entity := by
      rw [Progress.removeEntity, hg]
      simp only
      obtain ⟨snapshot, previous, he, -⟩ := foldl_dropLeaf _ _
      rw [he, evaluator_queueReaders]
      obtain ⟨readers, reads, hr⟩ := Evaluator.setReads_eq _ name []
      rw [hr]
      rfl
    rw [Mapped, htree, hknown]
    exact Tree.Mapped.remove h name fun path => h.contains_removeEntity hg

theorem change {c : StructuralChange} (hc : c.Proper) : (p.change c).Mapped := by
  cases c with
  | upsert record => exact h.upsertEntity hc
  | remove name => exact h.removeEntity name

theorem writeValue (w : String × Json) : (p.writeValue w).Mapped := by
  rcases p.writeValue_cases w with ⟨-, he⟩ | ⟨record, hr, ⟨hk, he⟩ | he⟩ <;> rw [he]
  · exact h
  · have hset := h.set hr hk
    rw [writeInPlace]
    split <;> exact hset
  · exact h.upsertEntity (h.proper _ record hr)

/-- The changes of a batch keep the known paths those of the tree. -/
theorem perform {b : ChangeBatch} (hb : ∀ c ∈ b.structural, c.Proper) : (p.perform b).Mapped := by
  have hchanged : (b.structural.foldl Progress.change p).Mapped :=
    List.foldlRecOn b.structural _ h fun p hp c hc => hp.change (hb c hc)
  exact List.foldlRecOn b.values _ hchanged fun p hp w _ => hp.writeValue w

end Mapped

/-- Rebuilding an entity touches the dependencies only, and marks leaves. -/
theorem rebuildEntity_eq_ok {p p' : Progress} {name : String} (h : p.rebuildEntity name = .ok p') :
    ∃ graph readers reads leaves, p' = ⟨{ p.evaluator with graph, readers, reads },
      { p.work with roots := p.work.roots.extend leaves }⟩ := by
  rw [rebuildEntity] at h
  split at h
  · obtain rfl := Except.ok.inj h
    exact ⟨_, _, _, [], rfl⟩
  · obtain ⟨map, -, hp⟩ := bind_eq_ok.1 h
    obtain rfl := Except.ok.inj hp
    obtain ⟨readers, reads, hr⟩ := Evaluator.setReads_eq _ name _
    rw [hr]
    exact ⟨_, _, _, _, rfl⟩

/-- Rebuilding touches the dependencies only, however far it goes, and marks leaves. -/
theorem rebuildAll_eq (p : Progress) (names : List String) : ∃ graph readers reads leaves,
    (p.rebuildAll names).1 = ⟨{ p.evaluator with graph, readers, reads },
      { p.work with roots := p.work.roots.extend leaves }⟩ := by
  induction names generalizing p with
  | nil => exact ⟨_, _, _, [], rfl⟩
  | cons name names ih =>
    rw [rebuildAll]
    split
    · exact ⟨_, _, _, [], rfl⟩
    · rename_i mid hmid
      obtain ⟨graph, readers, reads, leaves, rfl⟩ := rebuildEntity_eq_ok hmid
      obtain ⟨graph, readers, reads, more, he⟩ := ih ⟨{ p.evaluator with graph, readers, reads },
        { p.work with roots := p.work.roots.extend leaves }⟩
      refine ⟨graph, readers, reads, leaves ++ more, ?_⟩
      rw [he, PendingSet.extend, PendingSet.extend, PendingSet.extend, List.foldl_append]

/-- What rebuilding the queued entities leaves, however far it goes. -/
theorem rebuild_eq (p : Progress) : ∃ graph readers reads leaves,
    p.rebuild.1 = ⟨{ p.evaluator with graph, readers, reads },
      { p.work with roots := p.work.roots.extend leaves, rebuild := .empty }⟩ :=
  rebuildAll_eq { p with work := { p.work with rebuild := .empty } } p.work.rebuild.keys

end Progress

namespace Evaluator

/-! ### Calls -/

/-- The entities are registered once each under proper names, and the known paths are those of the
tree. -/
abbrev Mapped (e : Evaluator) : Prop := e.tree.Mapped e.known

/-- The changes of a batch, and what follows of them, keep the known paths those of the tree. -/
theorem Mapped.apply {e : Evaluator} (h : e.Mapped) (b : ChangeBatch) : (e.apply b).1.Mapped := by
  rw [Evaluator.apply]
  cases hv : e.validateAll [b] with
  | error rejection => exact h
  | ok _ =>
    simp only
    split
    · exact h
    · have hp : (Progress.perform ⟨e, .empty⟩ b).Mapped :=
        Progress.Mapped.perform (p := ⟨e, .empty⟩) h (proper_of_validateAll hv).structural
      have hr : (Progress.perform ⟨e, .empty⟩ b).rebuild.1.Mapped := by
        obtain ⟨graph, readers, reads, leaves, he⟩ := (Progress.perform ⟨e, .empty⟩ b).rebuild_eq
        rw [he]
        exact hp
      rw [applyChecked]
      simp only
      split <;> exact hr

/-- **The known paths are the paths of the tree**, after whatever calls. -/
theorem Evolves.mapped {allowed : Call → Prop} {start e : Evaluator} (hs : start.Mapped)
    (h : Evolves allowed start e) : e.Mapped := by
  induction h with
  | start => exact hs
  | @call e c _ _ ih =>
    cases c with
    | load records =>
      rw [after, load]
      split
      · exact ih
      · exact Mapped.apply (e := { e with evaluatedOnce := false }) ih _
    | apply b => exact ih.apply b
    | evaluate changed =>
      rw [after, evaluate]
      split <;> exact ih
    | evaluateAll => exact ih
  | evaluationOrder _ ih => exact ih
  | cyclicPaths _ ih => exact ih
  | @affectedOrder e changed _ ih =>
    rcases e.affectedOrder_cases changed with ha | ha <;> rw [ha] <;> exact ih

end Evaluator

end Recalc
