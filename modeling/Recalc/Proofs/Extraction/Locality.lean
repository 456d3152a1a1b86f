import Recalc.Proofs.Extraction.Agreement
import Recalc.Proofs.Listed

/-!
# What an extractor needs to know

Of the known paths an extractor asks about few: those of the entity that it reads, and those of the
entities that are named at the start of a chain in its code or of a declared target
(`EntityRecord.Agree`). A declared target that is a property of the entity itself is settled by
that, so the entity called like its first segment need not count. Where two sets of known paths
agree on the entities that count, the extractor reports the same map (`extract_eq_of_agree`). So
when another entity comes or goes, only the records that name it have to be read again
(`extract_insertEntity`, `extract_removeEntity`), whether it was there when they were read or not.
-/

namespace Recalc

namespace EntityRecord

variable {r : EntityRecord} {known known' : KnownPaths}

/-- The map that is reported depends on the known paths of the entities that count only. -/
theorem Agree.extract (h : r.Agree known known') (hr : r.WellFormed)
    (hown : ∀ path, r.Has path → known.contains path = true) (kind : EntityKind) :
    (Registry.standard.get kind).extract r.entity r.config known =
      (Registry.standard.get kind).extract r.entity r.config known' := by
  refine SortedMap.ext_get? fun path => ?_
  rw [Extractor.get?_extract, Extractor.get?_extract, h.forPath hr hown]

/-- What is known of an entity that does not count makes no difference. -/
theorem agree_of_elsewhere {name : String} (hne : name ≠ r.name)
    (hroot : name ∉ Evaluator.referencedRoots r)
    (h : ∀ path, Path.entityOf path ≠ name → known.contains path = known'.contains path) :
    r.Agree known known' := by
  intro path hp
  refine h path fun he => ?_
  rw [he] at hp
  exact hp.elim hne hroot

variable {other : EntityRecord} (ho : Path.isEntityName other.name = true)
  (hne : other.name ≠ r.name) (hroot : other.name ∉ Evaluator.referencedRoots r)
include ho hne hroot

theorem agree_insertEntity : r.Agree known (known.insertEntity other.name other.entity) := by
  refine agree_of_elsewhere hne hroot fun path hp => ?_
  have hout : ¬ other.Has path := fun hhas => hp (entityOf_of_has ho hhas)
  rw [Bool.eq_iff_iff, KnownPaths.contains_insertEntity, or_iff_left hout]

theorem agree_removeEntity : r.Agree known (known.removeEntity other.name other.entity) := by
  refine agree_of_elsewhere hne hroot fun path hp => ?_
  have hout : ¬ other.Has path := fun hhas => hp (entityOf_of_has ho hhas)
  rw [Bool.eq_iff_iff, KnownPaths.contains_removeEntity, and_iff_left hout]

end EntityRecord

namespace Extractor

variable {r : EntityRecord} {e : Extractor} {known known' : KnownPaths}

/-- **What an extractor needs to know**: two sets of known paths that hold all paths of the entity,
and agree on every path that belongs to it or to an entity that its record names, give the same
map. -/
theorem extract_eq_of_agree (hr : r.WellFormed) (he : e ∈ bundled)
    (hown : ∀ path, r.Has path → known.contains path = true ∧ known'.contains path = true)
    (h : ∀ path, Path.entityOf path = r.name ∨ Path.entityOf path ∈ Evaluator.referencedRoots r →
      known.contains path = known'.contains path) :
    e.extract r.entity r.config known = e.extract r.entity r.config known' := by
  have hagree : r.Agree known known' := h
  obtain ⟨kind, rfl⟩ := exists_kind_of_mem_bundled he
  exact hagree.extract hr (fun path hp => (hown path hp).1) kind

/-- A query that is declared to read a property of its own, the value of an input, and the rows of a
table that may come later; its code reads the rows of another table. -/
def query : EntityRecord where
  config := (EntityConfig.ofName "Query1" .action)
    |>.withDynamicPath "run"
    |>.withDeclared "data" ["config.limit", "Input1.value", "Later.rows"]
  entity := ⟨[("config", .object [("limit", .number (.int 5))]), ("data", .null),
    ("run", .string "\x7b\x7bTable1.rows.length\x7d\x7d")]⟩

theorem wellFormed_query : query.WellFormed where
  proper := by decide +kernel
  entity := by
    refine ⟨by decide, by decide, ⟨?_, ?_⟩, by decide, trivial, by decide, trivial, trivial⟩
    · exact List.pairwise_singleton _ _
    · exact ⟨by decide, trivial, trivial⟩

/-- The paths of the query, of the input and of the table in its code. -/
def queryPaths : List String :=
  ["Query1", "Query1.config", "Query1.config.limit", "Query1.data", "Query1.run", "Input1",
    "Input1.value", "Table1", "Table1.rows"]

/-- Paths of entities that the query does not name, one of them called like a property of it. -/
def otherPaths : List String := ["config", "config.limit", "Table2", "Table2.rows"]

/-- The paths of the other entities change nothing, not even the one that a declared target spells,
since the property of the query goes before it. -/
theorem extract_eq_of_agree_query : query.WellFormed ∧ declared ∈ bundled ∧
    (∀ path, query.Has path → (KnownPaths.ofList queryPaths).contains path = true ∧
      (KnownPaths.ofList (queryPaths ++ otherPaths)).contains path = true) ∧
    (∀ path, Path.entityOf path = query.name ∨
      Path.entityOf path ∈ Evaluator.referencedRoots query →
        (KnownPaths.ofList queryPaths).contains path =
          (KnownPaths.ofList (queryPaths ++ otherPaths)).contains path) ∧
    declared.extract query.entity query.config (.ofList queryPaths) =
      declared.extract query.entity query.config (.ofList (queryPaths ++ otherPaths)) ∧
    (declared.extract query.entity query.config (.ofList queryPaths)).entries =
      [("Query1.data", ["Query1.config.limit", "Input1.value"]), ("Query1.run", ["Table1.rows"])] ∧
    Evaluator.referencedRoots query = ["Table1", "Input1", "Later"] := by
  have hmem : declared ∈ bundled := by simp [bundled]
  have hown : ∀ path, query.Has path → (KnownPaths.ofList queryPaths).contains path = true ∧
      (KnownPaths.ofList (queryPaths ++ otherPaths)).contains path = true := by
    have hall : ∀ p ∈ query.paths, (KnownPaths.ofList queryPaths).contains p.path = true ∧
        (KnownPaths.ofList (queryPaths ++ otherPaths)).contains p.path = true := by decide +kernel
    rintro path ⟨leaf, hp⟩
    exact hall _ hp
  have hagree : ∀ path, Path.entityOf path = query.name ∨
      Path.entityOf path ∈ Evaluator.referencedRoots query →
        (KnownPaths.ofList queryPaths).contains path =
          (KnownPaths.ofList (queryPaths ++ otherPaths)).contains path := by
    intro path hp
    have helse : ∀ q ∈ otherPaths, Path.entityOf q ≠ query.name ∧
        Path.entityOf q ∉ Evaluator.referencedRoots query := by decide +kernel
    have hout : path ∉ otherPaths := fun hm => hp.elim (helse path hm).1 (helse path hm).2
    have hset : path ∈ SortedSet.ofList queryPaths ↔
        path ∈ SortedSet.ofList (queryPaths ++ otherPaths) := by
      rw [SortedSet.mem_ofList, SortedSet.mem_ofList, List.mem_append, or_iff_left hout]
    exact Bool.eq_iff_iff.2 hset
  exact ⟨wellFormed_query, hmem, hown, hagree,
    extract_eq_of_agree wellFormed_query hmem hown hagree, by decide +kernel, by decide +kernel⟩

/-- When another entity comes that the record does not name, nothing has to be read again. -/
theorem extract_insertEntity (hr : r.WellFormed) (he : e ∈ bundled)
    (hown : ∀ path, r.Has path → known.contains path = true) {other : EntityRecord}
    (ho : Path.isEntityName other.name = true) (hne : other.name ≠ r.name)
    (hroot : other.name ∉ Evaluator.referencedRoots r) :
    e.extract r.entity r.config (known.insertEntity other.name other.entity) =
      e.extract r.entity r.config known := by
  obtain ⟨kind, rfl⟩ := exists_kind_of_mem_bundled he
  exact ((EntityRecord.agree_insertEntity ho hne hroot).extract hr hown kind).symm

/-- Nor when it goes. -/
theorem extract_removeEntity (hr : r.WellFormed) (he : e ∈ bundled)
    (hown : ∀ path, r.Has path → known.contains path = true) {other : EntityRecord}
    (ho : Path.isEntityName other.name = true) (hne : other.name ≠ r.name)
    (hroot : other.name ∉ Evaluator.referencedRoots r) :
    e.extract r.entity r.config (known.removeEntity other.name other.entity) =
      e.extract r.entity r.config known := by
  obtain ⟨kind, rfl⟩ := exists_kind_of_mem_bundled he
  exact ((EntityRecord.agree_removeEntity ho hne hroot).extract hr hown kind).symm

end Extractor

end Recalc
