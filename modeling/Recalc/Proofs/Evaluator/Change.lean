import Recalc.Proofs.Batch
import Recalc.Proofs.Collection.PendingSet
import Recalc.Proofs.Evaluator.Readers
import Recalc.Proofs.Snapshot

/-!
# What the changes of a batch do

Whatever the records are, a batch does to the tree of an evaluator what it does to a tree alone
(`Progress.turns_perform`). For the indices there is one law for each step that changes the tree:
`upsertEntity_spec`, `removeEntity_spec` and `writeInPlace_spec` say what becomes of each component
of the evaluator and of the work. Everything that is proved about batches goes through these laws.
-/

namespace Recalc

/-- A value is noted for a path unless one is noted already. -/
theorem Snapshot.get?_capture (s : Snapshot) (path : String) (old : Option Value) (q : String) :
    (s.capture path old).get? q = (s.get? q).or (if q = path then old else none) := by
  cases old with
  | none => simp [capture]
  | some value =>
    rw [capture.eq_def]
    simp only
    split
    · rename_i hc
      obtain ⟨v, hv⟩ := contains_iff.1 hc
      by_cases hq : q = path
      · subst hq
        simp [hv]
      · simp [hq]
    · rename_i hc
      have hn := contains_eq_false_iff.1 (Bool.eq_false_iff.2 hc)
      rw [get?_insert]
      by_cases hq : q = path
      · subst hq
        simp [hn]
      · simp [hq]

namespace Progress

/-- Leaves that cease to exist lose their values, which are noted. -/
theorem foldl_dropLeaf (leaves : List String) (p : Progress) :
    ∃ snapshot previous, leaves.foldl dropLeaf p =
        ⟨{ p.evaluator with snapshot },
          { p.work with previous, removed := p.work.removed ++ leaves }⟩ ∧
      (∀ q, snapshot.get? q = if q ∈ leaves then none else p.evaluator.snapshot.get? q) ∧
      ∀ q, previous.get? q =
        (p.work.previous.get? q).or (if q ∈ leaves then p.evaluator.snapshot.get? q else none) := by
  induction leaves generalizing p with
  | nil =>
    refine ⟨p.evaluator.snapshot, p.work.previous, ?_, by simp, by simp⟩
    rw [List.foldl_nil, List.append_nil]
  | cons leaf leaves ih =>
    obtain ⟨snapshot, previous, he, hs, hp⟩ := ih (dropLeaf p leaf)
    refine ⟨snapshot, previous, ?_, fun q => ?_, fun q => ?_⟩
    · rw [List.foldl_cons, he]
      simp [dropLeaf]
    · rw [hs]
      simp only [dropLeaf, Snapshot.get?_erase, List.mem_cons]
      by_cases hq : q = leaf <;> simp [hq]
    · rw [hp]
      simp only [dropLeaf, Snapshot.get?_capture, Snapshot.get?_erase, List.mem_cons]
      by_cases hq : q = leaf
      · subst hq
        simp
      · simp [hq]

end Progress

namespace Evaluator

/-- The payloads that the evaluator has an allocation for. -/
def HasBulk (e : Evaluator) (path : String) (payload : Json) : Prop :=
  ∃ identity, e.bulk.get? path = some (identity, payload)

theorem hasBulk_freeBulk {e : Evaluator} {name path : String} {payload : Json} :
    (e.freeBulk name).HasBulk path payload ↔
      e.HasBulk path payload ∧ Path.entityOf path ≠ name := by
  simp only [HasBulk, freeBulk, SortedMap.get?_filter, Option.filter_eq_some_iff,
    decide_eq_true_eq, exists_and_right]

theorem hasBulk_allocate {e : Evaluator} {path q : String} {payload v : Json} :
    (e.allocate path payload).HasBulk q v ↔ if q = path then v = payload else e.HasBulk q v := by
  simp only [HasBulk, allocate, SortedMap.get?_insert]
  split
  · simp [eq_comm]
  · exact Iff.rfl

end Evaluator

/-- The value is at the path as the given property of the record, and has no fields. -/
structure EntityRecord.BulkAt (r : EntityRecord) (property path : String) (payload : Json) :
    Prop where
  /-- The path is that of the property. -/
  path : path = Path.join r.name property
  /-- The value is that of the property. -/
  value : r.entity.property? property = some payload
  /-- The value has no fields. -/
  leaf : payload.isComposite = false

theorem EntityRecord.bulkAt_iff {r : EntityRecord} {property path : String} {payload : Json} :
    r.BulkAt property path payload ↔ path = Path.join r.name property ∧
      r.entity.property? property = some payload ∧ payload.isComposite = false :=
  ⟨fun h => ⟨h.path, h.value, h.leaf⟩, fun h => ⟨h.1, h.2.1, h.2.2⟩⟩

/-- The value is at the path as a bulk property of the record. -/
def EntityRecord.Bulk (r : EntityRecord) (path : String) (payload : Json) : Prop :=
  ∃ property, r.config.isBulkPath property = true ∧ r.BulkAt property path payload

/-- Different properties of a record have different paths. -/
theorem EntityRecord.WellFormed.join_inj {r : EntityRecord} (h : r.WellFormed)
    {property other : String} {v w : Json} (hv : r.entity.property? property = some v)
    (hw : r.entity.property? other = some w)
    (he : Path.join r.name property = Path.join r.name other) : property = other := by
  have hne : ∀ {q u}, r.entity.property? q = some u → q ≠ "" := by
    rintro q u hu rfl
    rw [h.property?_empty] at hu
    cases hu
  have hp : Path.propertyOf (Path.join r.name other) r.name = some property :=
    (Path.propertyOf_eq_some_iff (hne hv)).2 he.symm
  have ho : Path.propertyOf (Path.join r.name other) r.name = some other :=
    (Path.propertyOf_eq_some_iff (hne hw)).2 rfl
  exact Option.some.inj (hp.symm.trans ho)

namespace Evaluator

/-- The evaluator with the value of one property allocated, if that is there and has no fields. -/
def cacheProperty (record : EntityRecord) (e : Evaluator) (property : String) : Evaluator :=
  match record.entity.property? property with
  | some payload =>
    if payload.isComposite then e else e.allocate (Path.join record.name property) payload
  | none => e

theorem cacheBulk_eq_foldl (e : Evaluator) (record : EntityRecord) : e.cacheBulk record =
    record.config.bulkPaths.toList.foldl (cacheProperty record) (e.freeBulk record.name) := rfl

/-- Caching the bulk properties of a record touches the allocations only. -/
theorem cacheBulk_eq (e : Evaluator) (record : EntityRecord) :
    ∃ bulk nextIdentity, e.cacheBulk record = { e with bulk, nextIdentity } := by
  rw [cacheBulk_eq_foldl]
  refine List.foldlRecOn (motive := fun next : Evaluator =>
    ∃ bulk nextIdentity, next = { e with bulk, nextIdentity }) _ _ ⟨_, _, rfl⟩ ?_
  rintro _ ⟨bulk, nextIdentity, rfl⟩ property -
  rw [cacheProperty]
  split
  · split
    · exact ⟨_, _, rfl⟩
    · exact ⟨_, _, rfl⟩
  · exact ⟨_, _, rfl⟩

/-- One property takes the place of what was allocated at its path. -/
theorem hasBulk_cacheProperty (e : Evaluator) (record : EntityRecord)
    (property path : String) (payload : Json) :
    (cacheProperty record e property).HasBulk path payload ↔
      record.BulkAt property path payload ∨
        e.HasBulk path payload ∧ ∀ v, ¬ record.BulkAt property path v := by
  by_cases hb : ∃ v, record.BulkAt property path v
  · obtain ⟨v, hv⟩ := hb
    have hallocate : cacheProperty record e property = e.allocate path v := by
      rw [cacheProperty, hv.value, hv.path]
      exact if_neg (Bool.eq_false_iff.1 hv.leaf)
    rw [hallocate, hasBulk_allocate, if_pos rfl]
    constructor
    · rintro rfl
      exact .inl hv
    · rintro (hp | ⟨-, hno⟩)
      · exact Option.some.inj (hp.value.symm.trans hv.value)
      · exact absurd hv (hno v)
  · have hkeep : (cacheProperty record e property).HasBulk path payload ↔
        e.HasBulk path payload := by
      rw [cacheProperty]
      split
      · rename_i v hv
        split
        · exact Iff.rfl
        · rename_i hc
          rw [hasBulk_allocate, if_neg]
          exact fun hp => hb ⟨v, hp, hv, Bool.eq_false_iff.2 hc⟩
      · exact Iff.rfl
    rw [hkeep]
    exact ⟨fun he => .inr ⟨he, not_exists.1 hb⟩,
      fun h => (h.resolve_left fun hp => hb ⟨_, hp⟩).1⟩

/-- Properties take the place of what was allocated at their paths. -/
theorem hasBulk_foldl_cacheProperty (e : Evaluator) {record : EntityRecord}
    (h : record.WellFormed) (properties : List String) (path : String) (payload : Json) :
    (properties.foldl (cacheProperty record) e).HasBulk path payload ↔
      (∃ property ∈ properties, record.BulkAt property path payload) ∨
        e.HasBulk path payload ∧ ∀ property ∈ properties, ∀ v, ¬ record.BulkAt property path v := by
  induction properties generalizing e with
  | nil => simp
  | cons property properties ih =>
    rw [List.foldl_cons, ih, hasBulk_cacheProperty, List.exists_mem_cons_iff,
      List.forall_mem_cons]
    have hsame : record.BulkAt property path payload → ∀ other v, record.BulkAt other path v →
        record.BulkAt other path payload := by
      intro hb other v ho
      rw [← h.join_inj hb.value ho.value (hb.path.symm.trans ho.path)]
      exact hb
    grind

/-- Afterwards the allocations of the entity are those of the record, and others are as before. -/
theorem hasBulk_cacheBulk (e : Evaluator) {record : EntityRecord} (h : record.WellFormed)
    (path : String) (payload : Json) : (e.cacheBulk record).HasBulk path payload ↔
      record.Bulk path payload ∨ e.HasBulk path payload ∧ Path.entityOf path ≠ record.name := by
  rw [cacheBulk_eq_foldl, hasBulk_foldl_cacheProperty _ h, hasBulk_freeBulk]
  simp only [SortedSet.mem_toList]
  have hentity : ∀ {property v}, record.BulkAt property path v →
      Path.entityOf path = record.name := by
    rintro property v ⟨rfl, -, -⟩
    exact Path.entityOf_join h.name.2 property
  refine or_congr Iff.rfl ⟨And.left, fun hb => ⟨hb, fun property _ v hv => hb.2 (hentity hv)⟩⟩

/-- Allocations outside an entity stay when those of the entity are freed. -/
theorem get?_bulk_freeBulk (e : Evaluator) {name path : String} (h : Path.entityOf path ≠ name) :
    (e.freeBulk name).bulk.get? path = e.bulk.get? path := by
  rw [freeBulk, SortedMap.get?_filter]
  cases e.bulk.get? path <;> simp [h]

/-- Allocations outside an entity stay when its bulk properties are cached. -/
theorem get?_bulk_cacheBulk (e : Evaluator) {record : EntityRecord} (h : Path.IsKey record.name)
    {path : String} (hp : Path.entityOf path ≠ record.name) :
    (e.cacheBulk record).bulk.get? path = e.bulk.get? path := by
  rw [cacheBulk_eq_foldl]
  refine List.foldlRecOn (motive := fun next : Evaluator =>
    next.bulk.get? path = e.bulk.get? path) _ _ (e.get?_bulk_freeBulk hp) ?_
  intro next hnext property _
  have hne : path ≠ Path.join record.name property := by
    rintro rfl
    exact hp (Path.entityOf_join h.2 property)
  rw [cacheProperty]
  split
  · split
    · exact hnext
    · rw [allocate, SortedMap.get?_insert, if_neg hne, hnext]
  · exact hnext

end Evaluator

/-! ### Writes -/

namespace Progress

theorem keepsShape_iff {record : EntityRecord} {property : String} {value : Json} :
    keepsShape record property value = true ↔ record.KeepsShape property value := by
  rw [keepsShape, Bool.and_eq_true, Bool.not_eq_true', Option.any_eq_true]
  simp only [Bool.not_eq_true']
  exact ⟨fun h => ⟨h.1, h.2⟩, fun h => ⟨h.new, h.old⟩⟩

section

variable {p : Progress} {w : String × Json} {record : EntityRecord}
  (hr : p.evaluator.tree.get? (Path.entityOf w.1) = some record)
include hr

/-- A write that keeps the shape of its entity is made in place. -/
theorem writeValue_of_keepsShape (hk : record.KeepsShape (Path.split w.1).2 w.2) :
    p.writeValue w = p.writeInPlace record w.1 (Path.split w.1).2 w.2 := by
  rw [writeValue.eq_def]
  simp only [show p.evaluator.tree.get? (Path.split w.1).1 = some record from hr]
  exact if_pos (keepsShape_iff.2 hk)

/-- Any other write stores the entity. -/
theorem writeValue_of_not_keepsShape (hk : ¬ record.KeepsShape (Path.split w.1).2 w.2) :
    p.writeValue w = p.upsertEntity (record.set (Path.split w.1).2 w.2) := by
  rw [writeValue.eq_def]
  simp only [show p.evaluator.tree.get? (Path.split w.1).1 = some record from hr]
  exact if_neg (mt keepsShape_iff.1 hk)

end

/-- A write does nothing if its entity does not exist, is made in place if it keeps the shape of the
entity, and stores the entity otherwise. -/
theorem writeValue_cases (p : Progress) (w : String × Json) :
    p.evaluator.tree.get? (Path.entityOf w.1) = none ∧ p.writeValue w = p ∨
      ∃ record, p.evaluator.tree.get? (Path.entityOf w.1) = some record ∧
        (record.KeepsShape (Path.split w.1).2 w.2 ∧
            p.writeValue w = p.writeInPlace record w.1 (Path.split w.1).2 w.2 ∨
          p.writeValue w = p.upsertEntity (record.set (Path.split w.1).2 w.2)) := by
  cases hr : p.evaluator.tree.get? (Path.entityOf w.1) with
  | none =>
    refine .inl ⟨rfl, ?_⟩
    rw [writeValue.eq_def]
    simp only [show p.evaluator.tree.get? (Path.split w.1).1 = none from hr]
  | some record =>
    by_cases hk : record.KeepsShape (Path.split w.1).2 w.2
    · exact .inr ⟨record, rfl, .inl ⟨hk, writeValue_of_keepsShape hr hk⟩⟩
    · exact .inr ⟨record, rfl, .inr (writeValue_of_not_keepsShape hr hk)⟩

end Progress

/-! ### The tree -/

namespace Progress

/-- The second state has the given tree, and the registry of the first one. -/
structure Turns (p : Progress) (t : Tree) (p' : Progress) : Prop where
  /-- The tree is the given one. -/
  tree : p'.evaluator.tree = t
  /-- The registry stays. -/
  registry : p'.evaluator.registry = p.evaluator.registry

theorem Turns.trans {p p' p'' : Progress} {t t' : Tree} (h : p.Turns t p')
    (h' : p'.Turns t' p'') : p.Turns t' p'' :=
  ⟨h'.tree, h'.registry.trans h.registry⟩

theorem evaluator_queueReaders (p : Progress) (name : String) :
    (p.queueReaders name).evaluator = p.evaluator := by
  rw [queueReaders]
  split <;> rfl

theorem turns_dropStale (p : Progress) (record : EntityRecord) :
    p.Turns p.evaluator.tree (p.dropStale record) := by
  rw [dropStale]
  split
  · exact ⟨rfl, rfl⟩
  · simp only
    obtain ⟨snapshot, previous, he, -⟩ := foldl_dropLeaf _ _
    rw [he]
    exact ⟨rfl, rfl⟩

theorem turns_upsertEntity (p : Progress) (record : EntityRecord) :
    p.Turns (p.evaluator.tree.upsert record) (p.upsertEntity record) := by
  have hs := p.turns_dropStale record
  obtain ⟨bulk, nextIdentity, hc⟩ := Evaluator.cacheBulk_eq
    { (p.dropStale record).evaluator with
      known := (p.dropStale record).evaluator.known.insertEntity record.name record.entity } record
  rw [upsertEntity]
  simp only [hc]
  constructor
  · rw [evaluator_queueReaders]
    exact congrArg (·.upsert record) hs.tree
  · rw [evaluator_queueReaders]
    exact hs.registry

theorem turns_removeEntity (p : Progress) (name : String) :
    p.Turns (p.evaluator.tree.remove name) (p.removeEntity name) := by
  rw [removeEntity]
  split
  · rename_i hn
    have habsent : p.evaluator.tree.contains name ≠ true := fun hc => by
      obtain ⟨r, hr⟩ := Tree.contains_iff.1 hc
      rw [hn] at hr
      cases hr
    exact ⟨by rw [Tree.remove, if_neg habsent], rfl⟩
  · simp only
    obtain ⟨snapshot, previous, he, -⟩ := foldl_dropLeaf _ _
    rw [he]
    constructor
    · rw [evaluator_queueReaders]
      obtain ⟨readers, reads, hr⟩ := Evaluator.setReads_eq _ name []
      rw [hr]
      rfl
    · rw [evaluator_queueReaders]
      obtain ⟨readers, reads, hr⟩ := Evaluator.setReads_eq _ name []
      rw [hr]
      rfl

theorem turns_change (p : Progress) (c : StructuralChange) :
    p.Turns (p.evaluator.tree.change c) (p.change c) := by
  cases c with
  | upsert record => exact p.turns_upsertEntity record
  | remove name => exact p.turns_removeEntity name

theorem turns_writeInPlace (p : Progress) (record : EntityRecord) (path property : String)
    (value : Json) : p.Turns (p.evaluator.tree.upsert (record.set property value))
      (p.writeInPlace record path property value) := by
  rw [writeInPlace]
  split <;> exact ⟨rfl, rfl⟩

theorem turns_writeValue (p : Progress) (w : String × Json) :
    p.Turns (p.evaluator.tree.write w) (p.writeValue w) := by
  rw [Tree.write]
  rcases p.writeValue_cases w with ⟨hr, he⟩ | ⟨record, hr, ⟨-, he⟩ | he⟩ <;> rw [hr, he]
  · exact ⟨rfl, rfl⟩
  · exact p.turns_writeInPlace ..
  · exact p.turns_upsertEntity _

theorem turns_foldl {A : Type} {onTree : Tree → A → Tree} {step : Progress → A → Progress}
    (hstep : ∀ (p : Progress) a, p.Turns (onTree p.evaluator.tree a) (step p a)) (list : List A)
    (p : Progress) : p.Turns (list.foldl onTree p.evaluator.tree) (list.foldl step p) := by
  induction list generalizing p with
  | nil => exact ⟨rfl, rfl⟩
  | cons a list ih =>
    have h := ih (step p a)
    rw [(hstep p a).tree] at h
    exact (hstep p a).trans h

/-- **A batch does to the tree of an evaluator what it does to a tree.** -/
theorem turns_perform (p : Progress) (b : ChangeBatch) :
    p.Turns (p.evaluator.tree.perform b) (p.perform b) := by
  have hchange := turns_foldl turns_change b.structural p
  have hwrite := turns_foldl turns_writeValue b.values (b.structural.foldl change p)
  rw [hchange.tree] at hwrite
  exact hchange.trans hwrite

end Progress

/-! ### Records that come and go -/

namespace Progress

/-- The sets of the work are in step. -/
structure InStep (p : Progress) : Prop where
  /-- The paths whose value may have changed. -/
  roots : p.work.roots.InStep
  /-- The queued entities. -/
  rebuild : p.work.rebuild.InStep

/-- The path is a leaf of the record under `name` and not one of the record that takes its place. -/
def Stale (p : Progress) (name : String) (new : Option EntityRecord) (path : String) : Prop :=
  (∃ old, p.evaluator.tree.get? name = some old ∧ path ∈ old.leafPaths) ∧
    ¬ ∃ r, new = some r ∧ path ∈ r.leafPaths

/-- All that happens when the record under `name` becomes another one or ceases to exist. The graph
and the indices of names change only in the second case. -/
structure Restructured (p : Progress) (name : String) (new : Option EntityRecord)
    (p' : Progress) : Prop where
  /-- The settings, the engine and the registry stay. -/
  fixed : p'.evaluator.settings = p.evaluator.settings ∧
    p'.evaluator.engine = p.evaluator.engine ∧ p'.evaluator.registry = p.evaluator.registry ∧
    p'.evaluator.evaluatedOnce = p.evaluator.evaluatedOnce
  /-- The new record stands in the place of the old one. -/
  get? : ∀ q, p'.evaluator.tree.get? q = if q = name then new else p.evaluator.tree.get? q
  /-- The paths of the old record are unknown and those of the new one known. -/
  known : ∀ path, p'.evaluator.known.contains path = true ↔
    (p.evaluator.known.contains path = true ∧
      ¬ ∃ old, p.evaluator.tree.get? name = some old ∧ old.Has path) ∨
    ∃ r, new = some r ∧ r.Has path
  /-- Stale leaves have no value. -/
  unset : ∀ path, p.Stale name new path → p'.evaluator.snapshot.get? path = none
  /-- Other paths keep their value. -/
  kept : ∀ path, ¬ p.Stale name new path →
    p'.evaluator.snapshot.get? path = p.evaluator.snapshot.get? path
  /-- The allocations of the entity are those of the new record. -/
  bulk : ∀ path payload, p'.evaluator.HasBulk path payload ↔
    (∃ r, new = some r ∧ r.Bulk path payload) ∨
      p.evaluator.HasBulk path payload ∧ Path.entityOf path ≠ name
  /-- The allocations of other entities stay. -/
  allocated : ∀ path, Path.entityOf path ≠ name →
    p'.evaluator.bulk.get? path = p.evaluator.bulk.get? path
  /-- The graph loses the paths of an entity that is removed. -/
  graph : p'.evaluator.graph =
    if new.isSome then p.evaluator.graph else (p.evaluator.graph.remove name).2
  /-- An entity that is removed names nothing. -/
  reads : p'.evaluator.reads = if new.isSome then p.evaluator.reads
    else (p.evaluator.setReads name []).reads
  /-- An entity that is removed is no reader. -/
  readers : p'.evaluator.readers = if new.isSome then p.evaluator.readers
    else (p.evaluator.setReads name []).readers
  /-- The sets of the work stay in step. -/
  inStep : p'.InStep
  /-- The leaves of the new record may have changed. -/
  roots : ∀ path, path ∈ p'.work.roots.keys ↔
    path ∈ p.work.roots.keys ∨ ∃ r, new = some r ∧ path ∈ r.leafPaths
  /-- The entity is queued if it exists, and so are the others that name it. -/
  rebuild : ∀ q, q ∈ p'.work.rebuild.keys ↔ q ∈ p.work.rebuild.keys ∨
    q = name ∧ new.isSome = true ∨ q ≠ name ∧ Evaluator.ReadBy p.evaluator.readers name q
  /-- Stale leaves are reported as removed. -/
  removed : ∀ path, path ∈ p'.work.removed ↔ path ∈ p.work.removed ∨ p.Stale name new path
  /-- The values of stale leaves are noted. -/
  noted : ∀ path, p.Stale name new path → p'.work.previous.get? path =
    (p.work.previous.get? path).or (p.evaluator.snapshot.get? path)
  /-- No other values are noted. -/
  previous : ∀ path, ¬ p.Stale name new path →
    p'.work.previous.get? path = p.work.previous.get? path

theorem queueReaders_spec {p : Progress} (h : p.InStep) (name : String) :
    ∃ rebuild, p.queueReaders name = { p with work := { p.work with rebuild } } ∧
      rebuild.InStep ∧ ∀ q, q ∈ rebuild.keys ↔ q ∈ p.work.rebuild.keys ∨
        q ≠ name ∧ Evaluator.ReadBy p.evaluator.readers name q := by
  rw [queueReaders]
  cases hr : p.evaluator.readers.get? name with
  | none =>
    refine ⟨_, rfl, h.rebuild, fun q => ?_⟩
    simp [Evaluator.ReadBy, hr]
  | some readers =>
    refine ⟨_, rfl, h.rebuild.extend _, fun q => ?_⟩
    rw [h.rebuild.mem_keys_extend]
    simp only [List.mem_filter, SortedSet.mem_toList, decide_eq_true_eq, Evaluator.ReadBy, hr,
      Option.some.injEq, exists_eq_left', and_comm]

theorem dropStale_spec (p : Progress) (record : EntityRecord)
    (hnamed : ∀ {name r}, p.evaluator.tree.get? name = some r → r.name = name) :
    ∃ known snapshot previous gone, p.dropStale record =
        ⟨{ p.evaluator with known, snapshot },
          { p.work with previous, removed := p.work.removed ++ gone }⟩ ∧
      (∀ path, known.contains path = true ↔ p.evaluator.known.contains path = true ∧
        ¬ ∃ old, p.evaluator.tree.get? record.name = some old ∧ old.Has path) ∧
      (∀ path, path ∈ gone ↔ p.Stale record.name (some record) path) ∧
      (∀ path, snapshot.get? path =
        if path ∈ gone then none else p.evaluator.snapshot.get? path) ∧
      ∀ path, previous.get? path = (p.work.previous.get? path).or
        (if path ∈ gone then p.evaluator.snapshot.get? path else none) := by
  rw [dropStale]
  cases hg : p.evaluator.tree.get? record.name with
  | none =>
    refine ⟨p.evaluator.known, p.evaluator.snapshot, p.work.previous, [], ?_, by simp, ?_, by simp,
      by simp⟩
    · rw [List.append_nil]
    · simp [Stale, hg]
  | some old =>
    have hname := hnamed hg
    obtain ⟨snapshot, previous, he, hs, hp⟩ := foldl_dropLeaf
      ((old.entity.leafPaths record.name).filter fun leaf => leaf ∉ record.leafPaths)
      { p with evaluator := { p.evaluator with
        known := p.evaluator.known.removeEntity record.name old.entity } }
    refine ⟨_, snapshot, previous, _, he, fun path => ?_, fun path => ?_, hs, hp⟩
    · rw [← hname, KnownPaths.contains_removeEntity]
      simp
    · rw [List.mem_filter, decide_eq_true_eq, ← hname]
      simp only [Stale, hname, hg, Option.some.injEq, exists_eq_left']
      rw [← hname]
      exact Iff.rfl

/-- The evaluator and the work after an entity was stored. -/
theorem upsertEntity_eq {p : Progress} (h : p.InStep) (record : EntityRecord)
    (hnamed : ∀ {name r}, p.evaluator.tree.get? name = some r → r.name = name) :
    ∃ (known : KnownPaths) (snapshot previous : Snapshot) (gone : List String)
      (bulk : SortedMap String (Nat × Json)) (nextIdentity : Nat) (rebuild : PendingSet String),
      p.upsertEntity record = ⟨{ p.evaluator with
          known := known.insertEntity record.name record.entity
          snapshot, bulk, nextIdentity
          tree := p.evaluator.tree.upsert record },
        { p.work with
          roots := p.work.roots.extend record.leafPaths
          previous, rebuild
          removed := p.work.removed ++ gone }⟩ ∧
      (∀ path, known.contains path = true ↔ p.evaluator.known.contains path = true ∧
        ¬ ∃ old, p.evaluator.tree.get? record.name = some old ∧ old.Has path) ∧
      (∀ path, path ∈ gone ↔ p.Stale record.name (some record) path) ∧
      (∀ path, snapshot.get? path =
        if path ∈ gone then none else p.evaluator.snapshot.get? path) ∧
      (∀ path, previous.get? path = (p.work.previous.get? path).or
        (if path ∈ gone then p.evaluator.snapshot.get? path else none)) ∧
      Evaluator.cacheBulk { p.evaluator with
          known := known.insertEntity record.name record.entity, snapshot } record =
        { p.evaluator with
          known := known.insertEntity record.name record.entity, snapshot, bulk, nextIdentity } ∧
      rebuild.InStep ∧ ∀ q, q ∈ rebuild.keys ↔ q ∈ p.work.rebuild.keys ∨ q = record.name ∨
        q ≠ record.name ∧ Evaluator.ReadBy p.evaluator.readers record.name q := by
  obtain ⟨known, snapshot, previous, gone, he, hk, hg, hs, hp⟩ := p.dropStale_spec record hnamed
  obtain ⟨bulk, nextIdentity, hcache⟩ := Evaluator.cacheBulk_eq
    { p.evaluator with known := known.insertEntity record.name record.entity, snapshot } record
  obtain ⟨mid, hmid⟩ : ∃ mid : Progress, mid = ⟨{ p.evaluator with
      known := known.insertEntity record.name record.entity
      snapshot, bulk, nextIdentity
      tree := p.evaluator.tree.upsert record }, { p.work with
      roots := p.work.roots.extend record.leafPaths
      rebuild := p.work.rebuild.insert record.name
      previous, removed := p.work.removed ++ gone }⟩ := ⟨_, rfl⟩
  have hin : mid.InStep := by
    rw [hmid]
    exact ⟨h.roots.extend _, h.rebuild.insert _⟩
  obtain ⟨rebuild, hq, hqi, hqm⟩ := queueReaders_spec hin record.name
  have hup : p.upsertEntity record = { mid with work := { mid.work with rebuild } } := by
    rw [upsertEntity, he]
    simp only
    rw [hcache, ← hq, hmid]
  subst hmid
  refine ⟨known, snapshot, previous, gone, bulk, nextIdentity, rebuild, hup, hk, hg, hs, hp,
    hcache, hqi, fun q => ?_⟩
  rw [hqm]
  exact (or_congr_left h.rebuild.mem_keys_insert).trans or_assoc

/-- **Storing an entity** puts its record in the place of the old one. -/
theorem upsertEntity_spec {p : Progress} (h : p.InStep) {record : EntityRecord}
    (hr : record.WellFormed)
    (hnamed : ∀ {name r}, p.evaluator.tree.get? name = some r → r.name = name) :
    p.Restructured record.name (some record) (p.upsertEntity record) := by
  obtain ⟨known, snapshot, previous, gone, bulk, nextIdentity, rebuild, he, hk, hg, hs, hp, hcache,
    hqi, hqm⟩ := upsertEntity_eq h record hnamed
  have hbulk := Evaluator.hasBulk_cacheBulk
    { p.evaluator with known := known.insertEntity record.name record.entity, snapshot } hr
  have hallocated : ∀ path, Path.entityOf path ≠ record.name → _ = _ := fun path =>
    Evaluator.get?_bulk_cacheBulk
      { p.evaluator with known := known.insertEntity record.name record.entity, snapshot } hr.name
  rw [hcache] at hbulk hallocated
  rw [he]
  have hsome : ∀ P : EntityRecord → Prop, (∃ r, some record = some r ∧ P r) ↔ P record := by
    simp
  refine ⟨⟨rfl, rfl, rfl, rfl⟩, fun q => Tree.get?_upsert _ _ _, fun path => ?_,
    fun path hst => ?_, fun path hst => ?_, fun path payload => ?_, hallocated, rfl, rfl, rfl,
    ⟨h.roots.extend _, hqi⟩, fun path => ?_, fun q => ?_, fun path => ?_, fun path hst => ?_,
    fun path hst => ?_⟩
  · rw [KnownPaths.contains_insertEntity, hk, hsome]
  · rw [hs, if_pos ((hg path).2 hst)]
  · rw [hs, if_neg (mt (hg path).1 hst)]
  · rw [hsome]
    exact hbulk path payload
  · rw [hsome]
    exact h.roots.mem_keys_extend
  · simp [hqm]
  · simp only [List.mem_append, hg]
  · rw [hp, if_pos ((hg path).2 hst)]
  · rw [hp, if_neg (mt (hg path).1 hst), Option.or_none]

/-- The evaluator and the work after an entity was removed. -/
theorem removeEntity_eq {p : Progress} (h : p.InStep) {name : String} {record : EntityRecord}
    (hr : p.evaluator.tree.get? name = some record) :
    ∃ snapshot previous rebuild, p.removeEntity name =
        ⟨{ Evaluator.freeBulk { p.evaluator with
            tree := p.evaluator.tree.remove name
            known := p.evaluator.known.removeEntity name record.entity
            snapshot
            graph := (p.evaluator.graph.remove name).2 } name with
            readers := (p.evaluator.setReads name []).readers
            reads := (p.evaluator.setReads name []).reads },
          { p.work with
            previous, rebuild
            removed := p.work.removed ++ record.entity.leafPaths name }⟩ ∧
      (∀ q, snapshot.get? q =
        if q ∈ record.entity.leafPaths name then none else p.evaluator.snapshot.get? q) ∧
      (∀ q, previous.get? q = (p.work.previous.get? q).or
        (if q ∈ record.entity.leafPaths name then p.evaluator.snapshot.get? q else none)) ∧
      rebuild.InStep ∧ ∀ q, q ∈ rebuild.keys ↔ q ∈ p.work.rebuild.keys ∨
        q ≠ name ∧ Evaluator.ReadBy (p.evaluator.setReads name []).readers name q := by
  obtain ⟨snapshot, previous, he, hs, hp⟩ := foldl_dropLeaf (record.entity.leafPaths name)
    { p with evaluator := { p.evaluator with
      tree := p.evaluator.tree.remove name
      known := p.evaluator.known.removeEntity name record.entity } }
  obtain ⟨cleared, hcleared⟩ : ∃ cleared : Evaluator, cleared = Evaluator.freeBulk
    { p.evaluator with
      tree := p.evaluator.tree.remove name
      known := p.evaluator.known.removeEntity name record.entity
      snapshot
      graph := (p.evaluator.graph.remove name).2 } name := ⟨_, rfl⟩
  have hcr : cleared.readers = p.evaluator.readers ∧ cleared.reads = p.evaluator.reads := by
    rw [hcleared]
    exact ⟨rfl, rfl⟩
  obtain ⟨hreaders, hreads⟩ := Evaluator.setReads_congr hcr.1 hcr.2 name []
  obtain ⟨readers, reads, hset⟩ := cleared.setReads_eq name []
  rw [hset] at hreaders hreads
  obtain ⟨mid, hmid⟩ : ∃ mid : Progress, mid = ⟨{ cleared with readers, reads },
      { p.work with previous, removed := p.work.removed ++ record.entity.leafPaths name }⟩ :=
    ⟨_, rfl⟩
  have hin : mid.InStep := by
    rw [hmid]
    exact ⟨h.roots, h.rebuild⟩
  obtain ⟨rebuild, hq, hqi, hqm⟩ := queueReaders_spec hin name
  have hrem : p.removeEntity name = { mid with work := { mid.work with rebuild } } := by
    rw [removeEntity, hr]
    simp only
    rw [he]
    simp only
    rw [← hcleared, hset, ← hq, hmid]
  subst hmid hcleared
  obtain rfl : readers = (p.evaluator.setReads name []).readers := hreaders
  obtain rfl : reads = (p.evaluator.setReads name []).reads := hreads
  exact ⟨snapshot, previous, rebuild, hrem, hs, hp, hqi, hqm⟩

/-- **Removing an entity** leaves no record in the place of the old one. -/
theorem removeEntity_spec {p : Progress} (h : p.InStep) (hm : p.evaluator.Mirrored) {name : String}
    {record : EntityRecord} (hr : p.evaluator.tree.get? name = some record)
    (hname : record.name = name) :
    p.Restructured name none (p.removeEntity name) := by
  obtain ⟨snapshot, previous, rebuild, he, hs, hp, hin, hqueue⟩ := removeEntity_eq h hr
  have hstale : ∀ path, p.Stale name none path ↔ path ∈ record.entity.leafPaths name := by
    intro path
    simp only [Stale, hr, Option.some.injEq, exists_eq_left', reduceCtorEq, false_and, exists_false,
      not_false_eq_true, and_true]
    rw [EntityRecord.leafPaths, hname]
  rw [he]
  refine ⟨⟨rfl, rfl, rfl, rfl⟩, fun q => Tree.get?_remove _ _ _, fun path => ?_,
    fun path hst => ?_, fun path hst => ?_, fun path payload => ?_,
    fun _ hne => Evaluator.get?_bulk_freeBulk _ hne, rfl, rfl, rfl,
    ⟨h.roots, hin⟩, fun path => by simp, fun q => ?_, fun path => ?_, fun path hst => ?_,
    fun path hst => ?_⟩
  · have hk : (p.evaluator.known.removeEntity record.name record.entity).contains path = true ↔ _ :=
      KnownPaths.contains_removeEntity
    rw [hname] at hk
    refine hk.trans ?_
    simp [hr]
  · exact (hs path).trans (if_pos ((hstale path).1 hst))
  · exact (hs path).trans (if_neg (mt (hstale path).2 hst))
  · refine Iff.trans Evaluator.hasBulk_freeBulk ?_
    simp only [reduceCtorEq, false_and, exists_false, false_or]
    exact Iff.rfl
  · refine (hqueue q).trans (or_congr Iff.rfl ?_)
    simp only [Option.isSome_none, Bool.false_eq_true, and_false, false_or]
    exact and_congr_right fun hne => hm.readBy_setReads hne [] name
  · simp only [List.mem_append, hstale]
  · exact (hp path).trans (by rw [if_pos ((hstale path).1 hst)])
  · exact (hp path).trans (by rw [if_neg (mt (hstale path).2 hst), Option.or_none])

/-! ### Writes in place -/

/-- All that happens when a value is written in place: nothing but the raw value changes, its path
may have a new value, and the entity is queued if the value is code or has a declaration. -/
structure Written (p : Progress) (record : EntityRecord) (path property : String) (value : Json)
    (p' : Progress) : Prop where
  /-- Only the tree and the allocations change. -/
  fixed : ∃ bulk nextIdentity, p'.evaluator = { p.evaluator with
    tree := p.evaluator.tree.upsert (record.set property value), bulk, nextIdentity }
  /-- A bulk property has a new allocation. -/
  bulk : ∀ q payload, p'.evaluator.HasBulk q payload ↔
    if record.config.isBulkPath property = true ∧ q = path then payload = value
    else p.evaluator.HasBulk q payload
  /-- The allocations of other paths stay. -/
  allocated : ∀ q, q ≠ path → p'.evaluator.bulk.get? q = p.evaluator.bulk.get? q
  /-- Nothing is removed and no value is noted. -/
  noted : p'.work.removed = p.work.removed ∧ p'.work.previous = p.work.previous
  /-- The sets of the work stay in step. -/
  inStep : p'.InStep
  /-- The path may have a new value. -/
  roots : ∀ q, q ∈ p'.work.roots.keys ↔ q ∈ p.work.roots.keys ∨ q = path
  /-- The entity is queued if the value is code or has a declaration. -/
  rebuild : ∀ q, q ∈ p'.work.rebuild.keys ↔ q ∈ p.work.rebuild.keys ∨
    q = record.name ∧ (record.config.isDynamicPath property = true ∨
      record.config.dependencyMap.contains property = true)

theorem writeInPlace_spec {p : Progress} (h : p.InStep) (record : EntityRecord)
    (path property : String) (value : Json) :
    p.Written record path property value (p.writeInPlace record path property value) := by
  rw [writeInPlace]
  refine ⟨?_, fun q payload => ?_, fun q hne => ?_, ⟨rfl, rfl⟩, ⟨h.roots.insert _, ?_⟩,
    fun q => h.roots.mem_keys_insert, fun q => ?_⟩
  · simp only
    split
    · exact ⟨_, _, rfl⟩
    · exact ⟨_, _, rfl⟩
  · simp only
    split
    · rename_i hb
      simp only [hb, true_and]
      exact Evaluator.hasBulk_allocate
    · rename_i hb
      rw [if_neg fun hc => hb hc.1]
      exact Iff.rfl
  · simp only
    split
    · rw [Evaluator.allocate, SortedMap.get?_insert, if_neg hne]
    · rfl
  · simp only
    split
    · exact h.rebuild.insert _
    · exact h.rebuild
  · simp only
    split
    · rename_i hd
      rw [h.rebuild.mem_keys_insert]
      simp only [Bool.or_eq_true] at hd
      simp [hd]
    · rename_i hd
      simp only [Bool.or_eq_true] at hd
      simp [hd]

end Progress

end Recalc
