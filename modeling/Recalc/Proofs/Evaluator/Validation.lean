import Recalc.Evaluator.Validation
import Recalc.Proofs.Batch
import Recalc.Proofs.Except

/-!
# What the check of batches accepts

A list of batches is accepted if each structural change, each write and each mark is, on top of what
stands before it (`Outlook.change_eq_ok`, `Outlook.write_eq_ok`, `Outlook.mark_eq_ok`). Two batches
that are accepted one on top of the other are accepted as one merged batch
(`Evaluator.validateAll_merge`): the writes and marks that merging drops ask for less, and those it
keeps are about entities that the later structural changes leave alone or store anew.
-/

namespace Recalc

/-- The name of a stored record is proper. -/
def StructuralChange.Proper : StructuralChange → Prop
  | .upsert record => Path.isEntityName record.name = true
  | .remove _ => True

/-- A path that can be written to: an entity's name and a property, all of keys. -/
def Path.Writable (path : String) : Prop :=
  ∃ name rest, path = joinSegments (name :: rest) ∧ Keys (name :: rest) ∧ rest ≠ []

namespace Path

theorem Writable.keys {path : String} (h : Writable path) : Keys (segments (split path).2) := by
  obtain ⟨name, rest, rfl, hk, hne⟩ := h
  rw [split_joinSegments hk.not_mem_separator, segments_joinSegments hne]
  · exact (keys_cons.1 hk).2
  · exact fun s hs => ((keys_cons.1 hk).2 s hs).2

theorem Writable.eq_join {path : String} (h : Writable path) :
    path = join (entityOf path) (split path).2 := by
  obtain ⟨name, rest, rfl, hk, hne⟩ := h
  refine eq_join_of_split rfl ?_
  rw [split_joinSegments hk.not_mem_separator]
  exact joinSegments_ne_empty hne (keys_cons.1 hk).2

end Path

/-- The records of the batch have proper names, and its writes go to properties. -/
structure ChangeBatch.Proper (b : ChangeBatch) : Prop where
  /-- Records are stored under proper names. -/
  structural : ∀ c ∈ b.structural, c.Proper
  /-- Values are written to properties. -/
  values : ∀ w ∈ b.values, Path.Writable w.1

namespace Outlook

/-! ### Single checks -/

/-- A change is accepted if it stores a record under a proper name, or removes an entity that
exists. -/
def Accepts (o : Outlook) : StructuralChange → Prop
  | .upsert record => Path.isEntityName record.name = true
  | .remove name => name ∈ o.names

theorem Accepts.proper {o : Outlook} {c : StructuralChange} (h : o.Accepts c) : c.Proper := by
  cases c with
  | upsert record => exact h
  | remove name => trivial

/-- The outlook after an accepted change. -/
def after (o : Outlook) : StructuralChange → Outlook
  | .upsert record =>
    ({ o with
      names := o.names.insert record.name
      upserted := o.upserted.insert record.name }).forget record.name
  | .remove name =>
    ({ o with names := o.names.erase name, upserted := o.upserted.erase name }).forget name

theorem change_eq_ok {o o' : Outlook} {c : StructuralChange} :
    o.change c = .ok o' ↔ o.Accepts c ∧ o' = o.after c := by
  cases c with
  | upsert record =>
    rw [change, Tree.checkName, Accepts, after]
    by_cases hn : Path.isEntityName record.name = true
    · simp only [hn, if_true, true_and]
      exact ⟨fun h => (Except.ok.inj h).symm, fun h => congrArg Except.ok h.symm⟩
    · rw [if_neg hn]
      exact ⟨fun h => (by cases h), fun h => absurd h.1 hn⟩
  | remove name =>
    rw [change, Accepts, after]
    by_cases hn : o.names.contains name = true
    · rw [if_pos hn]
      exact ⟨fun h => ⟨hn, (Except.ok.inj h).symm⟩, fun h => congrArg Except.ok h.2.symm⟩
    · rw [if_neg hn]
      exact ⟨fun h => (by cases h), fun h => absurd h.1 hn⟩

/-- A path can be written if it is a property of an entity that exists. -/
structure Writes (o : Outlook) (path : String) : Prop where
  /-- The path is well-formed, and not that of an entity. -/
  property : ∃ parsed, PropertyPath.parse? path = some parsed ∧ parsed.isEntity = false
  /-- The entity exists. -/
  entity : Path.entityOf path ∈ o.names

theorem Writes.writable {o : Outlook} {path : String} (h : o.Writes path) :
    Path.Writable path := by
  obtain ⟨parsed, hparsed, hproperty⟩ := h.property
  rw [PropertyPath.parse?] at hparsed
  split at hparsed
  · cases hparsed
  · rename_i hempty
    obtain ⟨name, rest, rfl, hno⟩ := Path.exists_segments path
    rw [Path.segments_joinSegments (List.cons_ne_nil _ _) hno] at hempty
    have hkeys : Path.Keys (name :: rest) := fun s hs => by
      refine ⟨fun he => hempty ?_, hno s hs⟩
      rw [List.any_eq_true]
      exact ⟨s, hs, by simpa using he⟩
    refine ⟨name, rest, rfl, hkeys, ?_⟩
    rintro rfl
    rw [Path.split_joinSegments hno, Option.some.injEq] at hparsed
    rw [← hparsed] at hproperty
    cases hproperty

theorem write_eq_ok {o o' : Outlook} {path : String} : o.write path = .ok o' ↔
    o.Writes path ∧ o' = { o with written := o.written.insert path } := by
  rw [write]
  cases hp : PropertyPath.parse? path with
  | none =>
    refine ⟨fun h => (by cases h), fun ⟨hw, _⟩ => ?_⟩
    obtain ⟨parsed, hparsed, -⟩ := hw.property
    rw [hp] at hparsed
    cases hparsed
  | some parsed =>
    have hentity : parsed.entity = Path.entityOf path := by
      rw [PropertyPath.parse?] at hp
      split at hp
      · cases hp
      · exact Option.some.inj hp ▸ rfl
    simp only
    cases he : parsed.isEntity with
    | true =>
      rw [if_pos rfl]
      refine ⟨fun h => (by cases h), fun ⟨hw, _⟩ => ?_⟩
      obtain ⟨parsed', hparsed, hno⟩ := hw.property
      rw [hp] at hparsed
      obtain rfl := Option.some.inj hparsed
      rw [he] at hno
      cases hno
    | false =>
      rw [if_neg Bool.false_ne_true, hentity]
      by_cases hn : o.names.contains (Path.entityOf path) = true
      · rw [if_pos hn]
        exact ⟨fun h => ⟨⟨⟨parsed, hp, he⟩, hn⟩, (Except.ok.inj h).symm⟩,
          fun h => congrArg Except.ok h.2.symm⟩
      · rw [if_neg hn]
        exact ⟨fun h => (by cases h), fun h => absurd h.1.entity hn⟩

/-- A path can be marked if it exists, or may exist after the batches so far. -/
structure Marks (known : KnownPaths) (o : Outlook) (path : String) : Prop where
  /-- The entity exists. -/
  entity : Path.entityOf path ∈ o.names
  /-- The entity was stored, or the path is known or written. -/
  path : Path.entityOf path ∈ o.upserted ∨ known.contains path = true ∨ path ∈ o.written

theorem mark_eq_ok {known : KnownPaths} {o : Outlook} {path : String} :
    mark known o path = .ok () ↔ Marks known o path := by
  rw [mark]
  split
  · rename_i h
    simp only [Bool.and_eq_true, Bool.or_eq_true, or_assoc] at h
    exact ⟨fun _ => ⟨h.1, h.2⟩, fun _ => rfl⟩
  · rename_i h
    simp only [Bool.and_eq_true, Bool.or_eq_true, or_assoc] at h
    exact ⟨fun hm => (by cases hm), fun hm => absurd ⟨hm.entity, hm.path⟩ h⟩

/-- The second outlook has all entities and paths of the first one. -/
structure Covers (o o' : Outlook) : Prop where
  /-- Entities that exist still do. -/
  names : ∀ name ∈ o.names, name ∈ o'.names
  /-- Stored entities count as stored. -/
  upserted : ∀ name ∈ o.upserted, name ∈ o'.upserted
  /-- Written paths count as written. -/
  written : ∀ path ∈ o.written, path ∈ o'.written

theorem Writes.mono {o o' : Outlook} {path : String} (h : o.Writes path) (hc : o.Covers o') :
    o'.Writes path := ⟨h.property, hc.names _ h.entity⟩

theorem Marks.mono {known : KnownPaths} {o o' : Outlook} {path : String}
    (h : Marks known o path) (hc : o.Covers o') : Marks known o' path :=
  ⟨hc.names _ h.entity, h.path.imp (hc.upserted _) (.imp_right (hc.written _))⟩

/-! ### Several changes -/

theorem mem_written_forget {o : Outlook} {name path : String} :
    path ∈ (o.forget name).written ↔ path ∈ o.written ∧ Path.entityOf path ≠ name := by
  simp [forget, SortedSet.mem_ofList]

/-- What an outlook says after accepted structural changes. -/
structure Restructured (o : Outlook) (changes : List StructuralChange) (o' : Outlook) : Prop where
  /-- Entities that no change concerns exist as before. -/
  names : ∀ name, name ∉ changes.map (·.entity) → (name ∈ o'.names ↔ name ∈ o.names)
  /-- They were stored by the same batches. -/
  upserted : ∀ name, name ∉ changes.map (·.entity) → (name ∈ o'.upserted ↔ name ∈ o.upserted)
  /-- Entities that are stored and never removed exist. -/
  stored : ∀ name, name ∈ changes.map (·.entity) → .remove name ∉ changes →
    name ∈ o'.names ∧ name ∈ o'.upserted
  /-- Written paths are forgotten with their entity. -/
  written : ∀ path, path ∈ o'.written ↔
    path ∈ o.written ∧ Path.entityOf path ∉ changes.map (·.entity)

/-- A change decides whether its entity exists, and leaves other entities alone. -/
theorem mem_names_after {o : Outlook} {c : StructuralChange} {q : String} :
    q ∈ (o.after c).names ↔ if q = c.entity then c.record?.isSome = true else q ∈ o.names := by
  cases c with
  | upsert record =>
    simp only [after, forget, SortedSet.mem_insert, StructuralChange.entity,
      StructuralChange.record?, Option.isSome_some]
    by_cases hq : q = record.name <;> simp [hq]
  | remove name =>
    simp only [after, forget, SortedSet.mem_erase, StructuralChange.entity,
      StructuralChange.record?, Option.isSome_none]
    by_cases hq : q = name <;> simp [hq]

theorem mem_upserted_after {o : Outlook} {c : StructuralChange} {q : String} :
    q ∈ (o.after c).upserted ↔
      if q = c.entity then c.record?.isSome = true else q ∈ o.upserted := by
  cases c with
  | upsert record =>
    simp only [after, forget, SortedSet.mem_insert, StructuralChange.entity,
      StructuralChange.record?, Option.isSome_some]
    by_cases hq : q = record.name <;> simp [hq]
  | remove name =>
    simp only [after, forget, SortedSet.mem_erase, StructuralChange.entity,
      StructuralChange.record?, Option.isSome_none]
    by_cases hq : q = name <;> simp [hq]

theorem mem_written_after {o : Outlook} {c : StructuralChange} {path : String} :
    path ∈ (o.after c).written ↔ path ∈ o.written ∧ Path.entityOf path ≠ c.entity := by
  cases c <;> exact mem_written_forget

theorem after_restructured (o : Outlook) (c : StructuralChange) :
    Restructured o [c] (o.after c) := by
  refine ⟨fun name hn => ?_, fun name hn => ?_, fun name hn hr => ?_, fun path => ?_⟩
  · rw [mem_names_after, if_neg (by simpa using hn)]
  · rw [mem_upserted_after, if_neg (by simpa using hn)]
  · obtain rfl : name = c.entity := by simpa using hn
    rw [mem_names_after, if_pos rfl, mem_upserted_after, if_pos rfl]
    cases c with
    | upsert record => exact ⟨rfl, rfl⟩
    | remove name => exact absurd (List.mem_singleton_self _) hr
  · simpa using mem_written_after

theorem Restructured.cons {o mid o' : Outlook} {c : StructuralChange}
    {changes : List StructuralChange} (hc : Restructured o [c] mid)
    (h : Restructured mid changes o') : Restructured o (c :: changes) o' := by
  have hout : ∀ {name}, name ∉ (c :: changes).map (·.entity) →
      name ∉ [c].map (·.entity) ∧ name ∉ changes.map (·.entity) := by
    intro name hn
    simpa using hn
  refine ⟨fun name hn => ?_, fun name hn => ?_, fun name hn hr => ?_, fun path => ?_⟩
  · exact (h.names name (hout hn).2).trans (hc.names name (hout hn).1)
  · exact (h.upserted name (hout hn).2).trans (hc.upserted name (hout hn).1)
  · by_cases hm : name ∈ changes.map (·.entity)
    · exact h.stored name hm fun hr' => hr (List.mem_cons_of_mem _ hr')
    · -- Nothing concerns the entity after it was stored.
      have hself : name ∈ [c].map (·.entity) := by
        simpa using (List.mem_cons.1 hn).resolve_right hm
      obtain ⟨hnames, hupserted⟩ := hc.stored name hself fun hr' =>
        hr (List.mem_singleton.1 hr' ▸ List.mem_cons_self)
      exact ⟨(h.names name hm).2 hnames, (h.upserted name hm).2 hupserted⟩
  · rw [h.written, hc.written]
    simp [and_assoc]

theorem restructured_of_foldlM {o o' : Outlook} {changes : List StructuralChange}
    (h : changes.foldlM change o = .ok o') : Restructured o changes o' := by
  induction changes generalizing o with
  | nil =>
    obtain rfl : o = o' := Except.ok.inj h
    exact ⟨by simp, by simp, by simp, by simp⟩
  | cons c changes ih =>
    obtain ⟨mid, hc, hrest⟩ := foldlM_cons_eq_ok.1 h
    obtain ⟨-, rfl⟩ := change_eq_ok.1 hc
    exact (after_restructured o c).cons (ih hrest)

/-- What can be written stays so while no change concerns its entity. -/
theorem Restructured.writes {o o' : Outlook} {changes : List StructuralChange}
    (h : Restructured o changes o') {path : String}
    (hfree : Path.entityOf path ∉ changes.map (·.entity)) (hw : o.Writes path) :
    o'.Writes path := ⟨hw.property, (h.names _ hfree).2 hw.entity⟩

/-- What can be marked stays so while its entity is not removed. -/
theorem Restructured.marks {known : KnownPaths} {o o' : Outlook}
    {changes : List StructuralChange} (h : Restructured o changes o') {path : String}
    (hkept : .remove (Path.entityOf path) ∉ changes) (hm : Marks known o path) :
    Marks known o' path := by
  by_cases hfree : Path.entityOf path ∈ changes.map (·.entity)
  · -- The entity is stored anew, and then every path counts.
    obtain ⟨hn, hu⟩ := h.stored _ hfree hkept
    exact ⟨hn, .inl hu⟩
  · have hwritten : path ∈ o.written → path ∈ o'.written := fun hw => (h.written path).2 ⟨hw, hfree⟩
    exact ⟨(h.names _ hfree).2 hm.entity,
      hm.path.imp (h.upserted _ hfree).2 (.imp_right hwritten)⟩

/-- Whether changes are accepted does not depend on what was written. -/
theorem foldlM_change_congr {o q o' : Outlook} (hn : q.names = o.names)
    (hu : q.upserted = o.upserted) {changes : List StructuralChange}
    (h : changes.foldlM change o = .ok o') : ∃ q', changes.foldlM change q = .ok q' ∧
      q'.names = o'.names ∧ q'.upserted = o'.upserted := by
  induction changes generalizing o q with
  | nil =>
    obtain rfl : o = o' := Except.ok.inj h
    exact ⟨q, rfl, hn, hu⟩
  | cons c changes ih =>
    obtain ⟨mid, hc, hrest⟩ := foldlM_cons_eq_ok.1 h
    obtain ⟨hacc, rfl⟩ := change_eq_ok.1 hc
    have hq : q.Accepts c := by
      cases c with
      | upsert record => exact hacc
      | remove name =>
        rw [Accepts, hn]
        exact hacc
    obtain ⟨q', hfold, hsame⟩ := ih (o := o.after c) (q := q.after c)
      (by cases c <;> simp [after, forget, hn]) (by cases c <;> simp [after, forget, hu]) hrest
    exact ⟨q', foldlM_cons_eq_ok.2 ⟨_, change_eq_ok.2 ⟨hq, rfl⟩, hfold⟩, hsame⟩

/-! ### Batches -/

/-- The outlook after paths were written. -/
def wrote (o : Outlook) (paths : List String) : Outlook :=
  { o with written := paths.foldl SortedSet.insert o.written }

theorem mem_written_wrote {o : Outlook} {paths : List String} {path : String} :
    path ∈ (o.wrote paths).written ↔ path ∈ o.written ∨ path ∈ paths :=
  SortedSet.mem_foldl_insert

theorem covers_wrote (o : Outlook) (paths : List String) : o.Covers (o.wrote paths) :=
  ⟨fun _ hn => hn, fun _ hu => hu, fun _ hp => mem_written_wrote.2 (.inl hp)⟩

theorem foldlM_write_eq_ok {o o' : Outlook} {paths : List String} :
    paths.foldlM write o = .ok o' ↔ (∀ path ∈ paths, o.Writes path) ∧ o' = o.wrote paths := by
  induction paths generalizing o with
  | nil =>
    simp only [List.foldlM_nil, List.not_mem_nil, false_imp_iff, implies_true, true_and]
    exact ⟨fun h => (Except.ok.inj h).symm, fun h => congrArg Except.ok h.symm⟩
  | cons path paths ih =>
    have hsame : ∀ q, ({ o with written := o.written.insert path } : Outlook).Writes q ↔
        o.Writes q := fun q => ⟨fun h => ⟨h.property, h.entity⟩, fun h => ⟨h.property, h.entity⟩⟩
    rw [foldlM_cons_eq_ok, List.forall_mem_cons]
    constructor
    · rintro ⟨mid, hw, hrest⟩
      obtain ⟨hp, rfl⟩ := write_eq_ok.1 hw
      obtain ⟨hps, rfl⟩ := ih.1 hrest
      exact ⟨⟨hp, fun q hq => (hsame q).1 (hps q hq)⟩, rfl⟩
    · rintro ⟨⟨hp, hps⟩, rfl⟩
      exact ⟨_, write_eq_ok.2 ⟨hp, rfl⟩, ih.2 ⟨fun q hq => (hsame q).2 (hps q hq), rfl⟩⟩

/-- The batch is accepted, and `mid` is the outlook after its structural changes. -/
structure AcceptsBatch (known : KnownPaths) (o : Outlook) (b : ChangeBatch) (mid : Outlook) :
    Prop where
  /-- The structural changes are accepted. -/
  structural : b.structural.foldlM change o = .ok mid
  /-- The written paths can be written. -/
  values : ∀ path ∈ b.written, mid.Writes path
  /-- The marked paths can be marked. -/
  marks : ∀ path ∈ b.changed.keys, Marks known (mid.wrote b.written) path

theorem batch_eq_ok {known : KnownPaths} {o o' : Outlook} {b : ChangeBatch} :
    batch known o b = .ok o' ↔
      ∃ mid, AcceptsBatch known o b mid ∧ o' = mid.wrote b.written := by
  have hparts : batch known o b = .ok o' ↔ ∃ mid, b.structural.foldlM change o = .ok mid ∧
      ∃ last, b.written.foldlM write mid = .ok last ∧
        b.changed.keys.forM (mark known last) = .ok () ∧ last = o' := by
    rw [batch]
    simp only [bind_eq_ok]
    refine exists_congr fun mid => and_congr_right fun _ => exists_congr fun last => ?_
    exact and_congr_right fun _ => ⟨fun ⟨_, hm, hl⟩ => ⟨hm, Except.ok.inj hl⟩,
      fun ⟨hm, hl⟩ => ⟨(), hm, congrArg Except.ok hl⟩⟩
  rw [hparts]
  constructor
  · rintro ⟨mid, hs, last, hv, hm, rfl⟩
    obtain ⟨hvalues, rfl⟩ := foldlM_write_eq_ok.1 hv
    exact ⟨mid, ⟨hs, hvalues, fun path hp => mark_eq_ok.1 (forM_eq_ok.1 hm path hp)⟩, rfl⟩
  · rintro ⟨mid, ⟨hs, hvalues, hmarks⟩, rfl⟩
    exact ⟨mid, hs, _, foldlM_write_eq_ok.2 ⟨hvalues, rfl⟩,
      forM_eq_ok.2 fun path hp => mark_eq_ok.2 (hmarks path hp), rfl⟩

end Outlook

/-! ### Merging -/

namespace Outlook

variable {known : KnownPaths} {o mid : Outlook} {a b : ChangeBatch}

/-- The changes of the merged batch lead to the same entities, and what is written in the end is the
same. -/
theorem AcceptsBatch.covers_merge {late : Outlook} (ha : AcceptsBatch known o a mid)
    (hb : AcceptsBatch known (mid.wrote a.written) b late) :
    ∃ out, (a.merge b).structural.foldlM change o = .ok out ∧
      (late.wrote b.written).Covers (out.wrote (a.merge b).written) := by
  -- The same changes are made before the writes of `a` instead of behind them.
  obtain ⟨out, hout, hnames, hupserted⟩ :=
    foldlM_change_congr (o := mid.wrote a.written) (q := mid) rfl rfl hb.structural
  refine ⟨out, ?_, fun _ hn => hnames ▸ hn, fun _ hu => hupserted ▸ hu, fun path hp => ?_⟩
  · rw [ChangeBatch.structural_merge]
    exact foldlM_append_eq_ok.2 ⟨mid, ha.structural, hout⟩
  · rw [mem_written_wrote, ChangeBatch.mem_written_merge, (restructured_of_foldlM hout).written]
    rcases mem_written_wrote.1 hp with hp | hp
    · obtain ⟨hp, hfree⟩ := ((restructured_of_foldlM hb.structural).written path).1 hp
      exact (mem_written_wrote.1 hp).imp (⟨·, hfree⟩) fun hp => .inr ⟨hp, hfree⟩
    · exact .inr (.inl hp)

/-- **Merging keeps what is accepted**: two batches that are accepted one on top of the other are
accepted as one. -/
theorem AcceptsBatch.merge {late : Outlook} (ha : AcceptsBatch known o a mid)
    (hb : AcceptsBatch known (mid.wrote a.written) b late) :
    ∃ mid, AcceptsBatch known o (a.merge b) mid := by
  obtain ⟨out, hout, hcovers⟩ := ha.covers_merge hb
  have hlate := restructured_of_foldlM hb.structural
  refine ⟨out, hout, fun path hp => ?_, fun path hp => ?_⟩
  · have hwrites : (late.wrote b.written).Writes path := by
      rcases ChangeBatch.mem_written_merge.1 hp with hp | ⟨hp, hfree⟩
      · exact (hb.values path hp).mono (covers_wrote late _)
      · exact (hlate.writes hfree ((ha.values path hp).mono (covers_wrote mid _))).mono
          (covers_wrote late _)
    exact ⟨hwrites.property, hcovers.names _ hwrites.entity⟩
  · rcases ChangeBatch.mem_changed_of_merge hp with hp | ⟨hp, hkept⟩
    · exact (hb.marks path hp).mono hcovers
    · exact ((hlate.marks hkept (ha.marks path hp)).mono (covers_wrote late _)).mono hcovers

end Outlook

namespace Evaluator

variable {e : Evaluator} {a b : ChangeBatch}

theorem validateAll_eq_ok {batches : List ChangeBatch} : e.validateAll batches = .ok () ↔
    ∃ o, batches.foldlM (Outlook.batch e.known) (Outlook.ofTree e.tree) = .ok o := by
  rw [validateAll, bind_eq_ok]
  exact exists_congr fun o => and_iff_left rfl

theorem validateAll_singleton : e.validateAll [b] = .ok () ↔
    ∃ mid, Outlook.AcceptsBatch e.known (.ofTree e.tree) b mid := by
  rw [validateAll_eq_ok]
  simp only [List.foldlM_cons, List.foldlM_nil, bind_pure, Outlook.batch_eq_ok]
  exact ⟨fun ⟨_, mid, h, _⟩ => ⟨mid, h⟩, fun ⟨mid, h⟩ => ⟨_, mid, h, rfl⟩⟩

/-- The batch without changes is accepted. -/
theorem validateAll_empty : e.validateAll [.empty] = .ok () :=
  validateAll_singleton.2 ⟨.ofTree e.tree, rfl, by simp [ChangeBatch.written, ChangeBatch.empty],
    by simp [ChangeBatch.empty, PendingSet.empty]⟩

/-- A batch that passes the check is proper. -/
theorem proper_of_validateAll (h : e.validateAll [b] = .ok ()) : b.Proper := by
  obtain ⟨mid, ha⟩ := validateAll_singleton.1 h
  have hchange : ∀ o c o', Outlook.change o c = .ok o' → c.Proper := fun _ _ _ hc =>
    (Outlook.change_eq_ok.1 hc).1.proper
  exact ⟨forall_of_foldlM_ok hchange ha.structural,
    fun w hw => (ha.values w.1 (List.mem_map_of_mem hw)).writable⟩

/-- **Checking in turn is enough**: what is accepted on top of an accepted batch is accepted merged
into it. -/
theorem validateAll_merge (h : e.validateAll [a, b] = .ok ()) :
    e.validateAll [a.merge b] = .ok () := by
  obtain ⟨o, ho⟩ := validateAll_eq_ok.1 h
  obtain ⟨first, hfirst, hrest⟩ := foldlM_cons_eq_ok.1 ho
  obtain ⟨last, hlast, -⟩ := foldlM_cons_eq_ok.1 hrest
  obtain ⟨mid, ha, rfl⟩ := Outlook.batch_eq_ok.1 hfirst
  obtain ⟨late, hb, -⟩ := Outlook.batch_eq_ok.1 hlast
  exact validateAll_singleton.2 (ha.merge hb)

end Evaluator

end Recalc
