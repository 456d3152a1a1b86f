import Recalc.Proofs.Entity
import Recalc.Proofs.Except
import Recalc.Tree
import Mathlib.Data.List.Basic

/-!
# Regular trees and their paths

A tree is regular if its records are well-formed, stand under their own names and are registered
once each. Storing and dropping well-formed records keeps a tree regular. In a regular tree every
path belongs to one record, the one its first segment names.
-/

namespace Recalc

namespace KnownPaths

theorem contains_iff_mem {known : KnownPaths} {path : String} :
    known.contains path = true ↔ path ∈ known.paths := Iff.rfl

/-- Known sets with the same paths are equal. -/
theorem ext_contains {known other : KnownPaths}
    (h : ∀ path, known.contains path = true ↔ other.contains path = true) : known = other := by
  obtain ⟨paths⟩ := known
  obtain ⟨paths'⟩ := other
  congr
  exact SortedSet.ext_mem h

theorem contains_insertEntity {known : KnownPaths} {r : EntityRecord} {path : String} :
    (known.insertEntity r.name r.entity).contains path = true ↔
      known.contains path = true ∨ r.Has path := by
  suffices ∀ (paths : List EntityPath) (set : SortedSet String),
      path ∈ paths.foldl (fun set p => set.insert p.path) set ↔
        path ∈ set ∨ ∃ leaf, ⟨path, leaf⟩ ∈ paths from this r.paths known.paths
  intro paths
  induction paths with
  | nil => simp
  | cons p paths ih =>
    intro set
    rw [List.foldl_cons, ih, SortedSet.mem_insert]
    obtain ⟨q, leaf⟩ := p
    simp only [List.mem_cons, EntityPath.mk.injEq]
    grind

theorem contains_removeEntity {known : KnownPaths} {r : EntityRecord} {path : String} :
    (known.removeEntity r.name r.entity).contains path = true ↔
      known.contains path = true ∧ ¬ r.Has path := by
  suffices ∀ (paths : List EntityPath) (set : SortedSet String),
      path ∈ paths.foldl (fun set p => set.erase p.path) set ↔
        path ∈ set ∧ ¬ ∃ leaf, ⟨path, leaf⟩ ∈ paths from this r.paths known.paths
  intro paths
  induction paths with
  | nil => simp
  | cons p paths ih =>
    intro set
    rw [List.foldl_cons, ih, SortedSet.mem_erase]
    obtain ⟨q, leaf⟩ := p
    simp only [List.mem_cons, EntityPath.mk.injEq]
    grind

end KnownPaths

namespace Tree

/-- The records are well-formed, stand under their names and are registered once each. -/
structure Regular (t : Tree) : Prop where
  /-- A record stands under its name. -/
  named : ∀ {name r}, t.get? name = some r → r.name = name
  /-- The records are well-formed. -/
  wellFormed : ∀ {name r}, t.get? name = some r → r.WellFormed
  /-- Registered are the names of the records. -/
  registered : ∀ {name}, name ∈ t.names ↔ ∃ r, t.get? name = some r
  /-- No name is registered twice. -/
  nodup : t.names.Nodup

/-- The path is one of the record that its first segment names. -/
def Has (t : Tree) (path : String) : Prop :=
  ∃ r, t.get? (Path.entityOf path) = some r ∧ r.Has path

/-- The path is a leaf path of the record that its first segment names. -/
def Leaf (t : Tree) (path : String) : Prop :=
  ∃ r, t.get? (Path.entityOf path) = some r ∧ path ∈ r.leafPaths

/-- The path is a leaf of the record with the raw value. -/
structure LeafAt (t : Tree) (path : String) (r : EntityRecord) (raw : Json) : Prop where
  /-- The path belongs to the record. -/
  found : t.get? (Path.split path).1 = some r
  /-- The path is not that of the entity. -/
  proper : (Path.split path).2 ≠ ""
  /-- The raw value is there. -/
  value : r.entity.property? (Path.split path).2 = some raw
  /-- The raw value has no fields. -/
  leaf : raw.isComposite = false

theorem Leaf.has {t : Tree} {path : String} (h : t.Leaf path) : t.Has path := by
  obtain ⟨r, hr, hp⟩ := h
  exact ⟨r, hr, EntityRecord.has_of_mem_leafPaths hp⟩

theorem contains_iff {t : Tree} {name : String} :
    t.contains name = true ↔ ∃ r, t.get? name = some r := SortedMap.contains_iff

theorem regular_empty : empty.Regular where
  named h := by cases h
  wellFormed h := by cases h
  registered := by
    intro name
    constructor
    · intro h
      cases h
    · rintro ⟨r, h⟩
      cases h
  nodup := List.nodup_nil

theorem get?_upsert (t : Tree) (r : EntityRecord) (name : String) :
    (t.upsert r).get? name = if name = r.name then some r else t.get? name :=
  SortedMap.get?_insert t.records r.name r name

theorem get?_remove (t : Tree) (name q : String) :
    (t.remove name).get? q = if q = name then none else t.get? q := by
  rw [remove]
  split
  · exact SortedMap.get?_erase t.records name q
  · rename_i hc
    split
    · rename_i hq
      subst hq
      exact SortedMap.contains_eq_false_iff.1 (Bool.eq_false_iff.2 hc)
    · rfl

/-! ### Registered names -/

/-- Registered are the names of the records, once each. -/
structure Enrolled (t : Tree) : Prop where
  /-- Registered are the names of the records. -/
  registered : ∀ {name}, name ∈ t.names ↔ ∃ r, t.get? name = some r
  /-- No name is registered twice. -/
  nodup : t.names.Nodup

theorem Regular.enrolled {t : Tree} (h : t.Regular) : t.Enrolled := ⟨h.registered, h.nodup⟩

/-- A tree without entities has no paths. -/
theorem Enrolled.not_has_of_isEmpty {t : Tree} (h : t.Enrolled) (he : t.isEmpty = true)
    (path : String) : ¬ t.Has path := by
  rintro ⟨r, hr, -⟩
  have hname := h.registered.2 ⟨r, hr⟩
  rw [List.isEmpty_iff.1 he] at hname
  cases hname

theorem Enrolled.upsert {t : Tree} (h : t.Enrolled) (r : EntityRecord) :
    (t.upsert r).Enrolled where
  registered := by
    intro name
    rw [get?_upsert]
    have hreg : name ∈ t.names ↔ _ := h.registered
    have hself : r.name ∈ t.names ↔ _ := h.registered
    rw [Tree.upsert]
    by_cases hc : t.contains r.name = true
    · have hin := hself.2 (contains_iff.1 hc)
      simp only [hc, if_true]
      split
      · rename_i he
        subst he
        simp [hin]
      · exact hreg
    · simp only [hc]
      simp only [Bool.false_eq_true, if_false, List.mem_append, List.mem_singleton]
      split
      · rename_i he
        simp [he]
      · rename_i he
        simp [he, hreg]
  nodup := by
    rw [Tree.upsert]
    by_cases hc : t.contains r.name = true
    · simp only [hc, if_true]
      exact h.nodup
    · simp only [hc]
      refine List.nodup_append.2 ⟨h.nodup, by simp, ?_⟩
      rintro a ha b hb rfl
      rw [List.mem_singleton] at hb
      exact hc (contains_iff.2 (h.registered.1 (hb ▸ ha)))

theorem Enrolled.remove {t : Tree} (h : t.Enrolled) (name : String) :
    (t.remove name).Enrolled where
  registered := by
    intro q
    rw [get?_remove, Tree.remove]
    split
    · simp only [List.mem_filter, h.registered, decide_eq_true_eq]
      split <;> simp_all
    · rename_i hc
      split
      · rename_i hq
        subst hq
        simpa using mt (fun hm => contains_iff.2 (h.registered.1 hm)) hc
      · exact h.registered
  nodup := by
    rw [Tree.remove]
    split
    · exact h.nodup.filter _
    · exact h.nodup

/-- Storing a well-formed record keeps a tree regular. -/
theorem Regular.upsert {t : Tree} (h : t.Regular) {r : EntityRecord} (hr : r.WellFormed) :
    (t.upsert r).Regular where
  named hg := by
    rw [get?_upsert] at hg
    split at hg
    · rename_i he
      exact (Option.some.inj hg) ▸ he.symm
    · exact h.named hg
  wellFormed hg := by
    rw [get?_upsert] at hg
    split at hg
    · exact (Option.some.inj hg) ▸ hr
    · exact h.wellFormed hg
  registered := (h.enrolled.upsert r).registered
  nodup := (h.enrolled.upsert r).nodup

/-- A record is added if its name is proper and new. -/
theorem add_eq_ok {t t' : Tree} {r : EntityRecord} (h : t.add r = .ok t') :
    Path.isEntityName r.name = true ∧ t.contains r.name = false ∧ t' = t.upsert r := by
  rw [add, checkName] at h
  by_cases hn : Path.isEntityName r.name = true
  · cases hc : t.contains r.name with
    | true =>
      rw [if_pos hn, hc] at h
      cases h
    | false =>
      rw [if_pos hn, hc] at h
      exact ⟨hn, rfl, (Except.ok.inj h).symm⟩
  · rw [if_neg hn] at h
    cases h

/-- The tree of accepted records whose keys are keys of paths is regular. -/
theorem regular_of_ofList? {records : List EntityRecord} {t : Tree}
    (hr : ∀ r ∈ records, r.entity.Tidy) (h : ofList? records = .ok t) : t.Regular := by
  suffices ∀ start : Tree, start.Regular → records.foldlM add start = .ok t → t.Regular from
    this empty regular_empty h
  clear h
  induction records with
  | nil =>
    rintro start hs h
    exact Except.ok.inj h ▸ hs
  | cons r records ih =>
    rintro start hs h
    obtain ⟨hr, hrest⟩ := List.forall_mem_cons.1 hr
    obtain ⟨next, ha, hlast⟩ := foldlM_cons_eq_ok.1 h
    obtain ⟨hn, -, rfl⟩ := add_eq_ok ha
    exact ih hrest _ (hs.upsert ⟨hn, hr⟩) hlast

/-- Dropping a record keeps a tree regular. -/
theorem Regular.remove {t : Tree} (h : t.Regular) (name : String) : (t.remove name).Regular where
  named hg := by
    rw [get?_remove] at hg
    split at hg
    · cases hg
    · exact h.named hg
  wellFormed hg := by
    rw [get?_remove] at hg
    split at hg
    · cases hg
    · exact h.wellFormed hg
  registered := (h.enrolled.remove name).registered
  nodup := (h.enrolled.remove name).nodup

namespace Regular

variable {t : Tree} (h : t.Regular)
include h

theorem mem_toList {r : EntityRecord} : r ∈ t.toList ↔ t.get? r.name = some r := by
  rw [toList, List.mem_filterMap]
  constructor
  · rintro ⟨name, -, hg⟩
    rw [h.named hg]
    exact hg
  · intro hg
    exact ⟨r.name, h.registered.2 ⟨r, hg⟩, hg⟩

/-- What is true of the record of the entity that a path belongs to is true of a listed record, and
the other way round if the record has the path. -/
theorem exists_mem_toList {path : String} {P : EntityRecord → Prop}
    (hP : ∀ r, r.WellFormed → P r → Path.entityOf path = r.name) :
    (∃ r, t.get? (Path.entityOf path) = some r ∧ P r) ↔ ∃ r ∈ t.toList, P r := by
  constructor
  · rintro ⟨r, hr, hp⟩
    exact ⟨r, h.mem_toList.2 ((h.named hr).symm ▸ hr), hp⟩
  · rintro ⟨r, hr, hp⟩
    have hr := h.mem_toList.1 hr
    exact ⟨r, hP r (h.wellFormed hr) hp ▸ hr, hp⟩

/-- The leaves of a tree are those of its records. -/
theorem leaf_iff_mem_leafPaths {path : String} :
    t.Leaf path ↔ ∃ r ∈ t.toList, path ∈ r.leafPaths :=
  h.exists_mem_toList fun _ hr hp => hr.entityOf_of_has (EntityRecord.has_of_mem_leafPaths hp)

/-- The names of the listed records are the registered names. -/
theorem map_name_toList : t.toList.map (·.name) = t.names := by
  rw [toList, List.map_filterMap]
  have hname : ∀ name ∈ t.names, (t.get? name).map (·.name) = some name := by
    intro name hn
    obtain ⟨r, hr⟩ := h.registered.1 hn
    rw [hr, Option.map_some, h.named hr]
  rw [List.filterMap_congr hname]
  exact List.filterMap_some

theorem has_of_record {name path : String} {r : EntityRecord} (hr : t.get? name = some r)
    (hp : r.Has path) : t.Has path := by
  have he := (h.wellFormed hr).entityOf_of_has hp
  rw [h.named hr] at he
  exact ⟨r, he.symm ▸ hr, hp⟩

/-- The paths of a tree are paths of keys. -/
theorem exists_keys_of_has {path : String} (hp : t.Has path) :
    ∃ name rest, path = Path.joinSegments (name :: rest) ∧ Path.Keys (name :: rest) := by
  obtain ⟨r, hr, hh⟩ := hp
  have hw := h.wellFormed hr
  rcases hw.has_iff.1 hh with rfl | ⟨segs, v, hv, rfl⟩
  · exact ⟨r.name, [], rfl, Path.keys_singleton.2 hw.name⟩
  · exact ⟨r.name, segs, rfl, hw.keys_of_at? hv⟩

/-- The paths of a tree, by their segments. -/
theorem has_joinSegments {name : String} {rest : List String} (hk : Path.Keys (name :: rest)) :
    t.Has (Path.joinSegments (name :: rest)) ↔ ∃ r, t.get? name = some r ∧
      (rest = [] ∨ ∃ v, Json.Fields.at? r.entity.fields rest = some v) := by
  rw [Has, Path.entityOf_joinSegments hk.not_mem_separator]
  refine exists_congr fun r => and_congr_right fun hr => ?_
  obtain rfl := h.named hr
  have hw := h.wellFormed hr
  rw [hw.has_iff]
  refine or_congr ⟨fun he => ?_, fun he => by rw [he]; rfl⟩ ⟨?_, ?_⟩
  · have hnil := Path.joinSegments_inj hk (Path.keys_singleton.2 hw.name) (by simp) (by simp) he
    exact (List.cons_eq_cons.1 hnil).2
  · rintro ⟨segs, v, hv, he⟩
    have hsegs := Path.joinSegments_inj hk (hw.keys_of_at? hv) (by simp) (by simp) he
    exact ⟨v, (List.cons_eq_cons.1 hsegs).2 ▸ hv⟩
  · rintro ⟨v, hv⟩
    exact ⟨rest, v, hv, rfl⟩

/-- The name of an entity of the tree is a path of the tree. -/
theorem has_of_contains {name : String} (hk : Path.IsKey name) (hc : t.contains name = true) :
    t.Has name := by
  obtain ⟨r, hr⟩ := contains_iff.1 hc
  exact (h.has_joinSegments (Path.keys_singleton.2 hk)).2 ⟨r, hr, .inl rfl⟩

/-- The leaves of a tree, by their segments. -/
theorem leaf_joinSegments {name : String} {rest : List String} (hk : Path.Keys (name :: rest)) :
    t.Leaf (Path.joinSegments (name :: rest)) ↔ ∃ r v, t.get? name = some r ∧
      Json.Fields.at? r.entity.fields rest = some v ∧ v.isComposite = false := by
  rw [Leaf, Path.entityOf_joinSegments hk.not_mem_separator]
  refine exists_congr fun r => ?_
  rw [exists_and_left]
  refine and_congr_right fun hr => ?_
  obtain rfl := h.named hr
  have hw := h.wellFormed hr
  rw [hw.mem_leafPaths_iff]
  constructor
  · rintro ⟨segs, v, hv, hc, he⟩
    have hsegs := Path.joinSegments_inj hk (hw.keys_of_at? hv) (by simp) (by simp) he
    exact ⟨v, (List.cons_eq_cons.1 hsegs).2 ▸ hv, hc⟩
  · rintro ⟨v, hv, hc⟩
    exact ⟨rest, v, hv, hc, rfl⟩

/-- The leaves of a tree, by their raw values. -/
theorem leaf_iff {path : String} : t.Leaf path ↔ ∃ r raw, t.LeafAt path r raw := by
  constructor
  · rintro ⟨r, hr, hp⟩
    have hw := h.wellFormed hr
    obtain ⟨-, v, hv, hc⟩ := hw.mem_leafPaths_iff_property?.1 hp
    refine ⟨r, v, hr, fun he => ?_, hv, hc⟩
    rw [he, hw.property?_empty] at hv
    cases hv
  · rintro ⟨r, v, hr, -, hv, hc⟩
    exact ⟨r, hr, (h.wellFormed hr).mem_leafPaths_iff_property?.2 ⟨(h.named hr).symm, v, hv, hc⟩⟩

theorem path_eq_of_leafAt {path : String} {r : EntityRecord} {raw : Json}
    (hl : t.LeafAt path r raw) : path = Path.join r.name (Path.split path).2 := by
  rw [h.named hl.found]
  exact Path.eq_join_of_split rfl hl.proper

/-- A property of a record of the tree that has no fields is a leaf. -/
theorem leafAt_join {r : EntityRecord} (hr : t.get? r.name = some r) {property : String}
    {raw : Json} (hv : r.entity.property? property = some raw) (hc : raw.isComposite = false) :
    t.LeafAt (Path.join r.name property) r raw := by
  obtain ⟨hsplit, hne⟩ := (h.wellFormed hr).split_join hv
  exact ⟨hsplit ▸ hr, hsplit ▸ hne, hsplit ▸ hv, hc⟩

/-- What lies above a path of the tree is a path of the tree, and no leaf. -/
theorem has_above {name : String} {rest more : List String}
    (hk : Path.Keys (name :: (rest ++ more))) (hm : more ≠ [])
    (hp : t.Has (Path.joinSegments (name :: (rest ++ more)))) :
    t.Has (Path.joinSegments (name :: rest)) ∧ ¬ t.Leaf (Path.joinSegments (name :: rest)) := by
  have hkeys : Path.Keys (name :: rest) :=
    (Path.keys_append.1 (show Path.Keys ((name :: rest) ++ more) from hk)).1
  rw [h.has_joinSegments hkeys, h.leaf_joinSegments hkeys]
  obtain ⟨r, hr, hp⟩ := (h.has_joinSegments hk).1 hp
  obtain ⟨v, hv⟩ := hp.resolve_left (by simp [hm])
  rcases eq_or_ne rest [] with rfl | hne
  · refine ⟨⟨r, hr, .inl rfl⟩, ?_⟩
    rintro ⟨r', w, -, hw, -⟩
    cases hw
  · obtain ⟨u, hu⟩ := Json.Fields.exists_at?_of_append hne hv
    refine ⟨⟨r, hr, .inr ⟨u, hu⟩⟩, ?_⟩
    rintro ⟨r', w, hr', hw, hc⟩
    obtain rfl := Option.some.inj (hr.symm.trans hr')
    rw [Json.Fields.at?_append _ hne, hw, Option.bind_some,
      Json.inside?_of_not_composite hc hm] at hv
    cases hv

/-- Below a path of the tree that is no leaf there is a leaf, unless it is an entity's own. -/
theorem exists_leaf_below {name : String} {rest : List String} (hk : Path.Keys (name :: rest))
    (hne : rest ≠ []) (hp : t.Has (Path.joinSegments (name :: rest))) :
    ∃ more, Path.Keys (name :: (rest ++ more)) ∧
      t.Leaf (Path.joinSegments (name :: (rest ++ more))) := by
  obtain ⟨r, hr, hp⟩ := (h.has_joinSegments hk).1 hp
  obtain ⟨v, hv⟩ := hp.resolve_left hne
  obtain ⟨more, leaf, hl, hc⟩ := v.exists_leaf_inside
  have hat : Json.Fields.at? r.entity.fields (rest ++ more) = some leaf := by
    rw [Json.Fields.at?_append _ hne, hv]
    exact hl
  obtain rfl := h.named hr
  have hkeys := (h.wellFormed hr).keys_of_at? hat
  exact ⟨more, hkeys, (h.leaf_joinSegments hkeys).2 ⟨r, leaf, hr, hat, hc⟩⟩

/-- **The known paths of a tree** are the paths of its records. -/
theorem contains_knownPaths {path : String} :
    t.knownPaths.contains path = true ↔ t.Has path := by
  suffices ∀ (records : List EntityRecord) (known : KnownPaths),
      (records.foldl (fun known r => known.insertEntity r.name r.entity) known).contains path =
        true ↔ known.contains path = true ∨ ∃ r ∈ records, r.Has path by
    rw [knownPaths, this]
    constructor
    · rintro (hn | ⟨r, hr, hp⟩)
      · exact absurd hn (SortedSet.not_mem_empty path)
      · exact h.has_of_record (h.mem_toList.1 hr) hp
    · rintro ⟨r, hr, hp⟩
      refine .inr ⟨r, h.mem_toList.2 ?_, hp⟩
      rw [h.named hr]
      exact hr
  intro records
  induction records with
  | nil => simp
  | cons r records ih =>
    intro known
    rw [List.foldl_cons, ih, KnownPaths.contains_insertEntity]
    simp only [List.mem_cons, exists_eq_or_imp, or_assoc]

end Regular

/-- A path with a record for its first segment is one of the tree if it is one of the record. -/
theorem has_iff {t : Tree} {path : String} {r : EntityRecord}
    (hr : t.get? (Path.entityOf path) = some r) : t.Has path ↔ r.Has path := by
  constructor
  · rintro ⟨r', hr', hp⟩
    rw [hr] at hr'
    exact (Option.some.inj hr') ▸ hp
  · exact fun hp => ⟨r, hr, hp⟩

end Tree

end Recalc
