import Recalc.Proofs.Extraction

/-!
# Reading an entity at once and path by path

A bundled extractor can be asked about a whole entity or about one path of it. The first walks over
the declared and the dynamic properties and skips a path that is listed already, the second starts
from any string. Both give the same lists (`Extractor.Agrees`), and these are in order: every path
that is listed belongs to the entity, every target is known, and no target is repeated.
-/

namespace Recalc.Extractor

/-! ### No target is repeated -/

theorem nodup_addReferences (entity : Entity) (config : EntityConfig) (property : String)
    (known : KnownPaths) {paths : List String} (h : paths.Nodup) :
    (addReferences entity config property known paths).Nodup := by
  rw [addReferences]
  split
  · split
    · exact nodup_foldl_resolved known.resolve? _ h
    · exact h
  · exact h

theorem nodup_declaredTargets (config : EntityConfig) (property : String) (known : KnownPaths) :
    (declaredTargets config property known).Nodup :=
  nodup_foldl_resolved (resolveTarget? config.name · known) _ List.nodup_nil

theorem nodup_allTargets (entity : Entity) (config : EntityConfig) (path : String)
    (known : KnownPaths) : (allTargets entity config path known).Nodup := by
  rw [allTargets]
  split
  · exact nodup_addReferences _ _ _ _ (nodup_declaredTargets _ _ _)
  · exact List.nodup_nil

theorem nodup_bindingTargets (entity : Entity) (config : EntityConfig) (path : String)
    (known : KnownPaths) : (bindingTargets entity config path known).Nodup := by
  rw [bindingTargets]
  split
  · exact nodup_addReferences _ _ _ _ List.nodup_nil
  · exact List.nodup_nil

/-- No bundled extractor repeats a target, wherever it finds it. -/
theorem nodup_forPath (kind : EntityKind) (entity : Entity) (config : EntityConfig)
    (path : String) (known : KnownPaths) :
    ((Registry.standard.get kind).forPath entity config path known).Nodup := by
  rcases Registry.standard_get_cases kind with hk | hk | hk <;> rw [hk]
  · exact nodup_bindingTargets entity config path known
  · exact nodup_allTargets entity config path known
  · change (moduleTargets entity config path known).Nodup
    rw [moduleTargets]
    split
    · exact nodup_allTargets entity config path known
    · exact List.nodup_nil

/-! ### The two ways agree -/

/-- The extractor says of an entity as a whole what it says of its paths, and its map is in
order. -/
structure Agrees (e : Extractor) (entity : Entity) (config : EntityConfig) (known : KnownPaths) :
    Prop where
  /-- A string is listed if something is read there, with what is read there. -/
  listed : ∀ path, (e.extract entity config known).get? path =
    if e.forPath entity config path known = [] then none
    else some (e.forPath entity config path known)
  /-- What is listed is a known path below the name of the entity. -/
  own : ∀ path ∈ (e.extract entity config known).keys, known.contains path = true ∧
    ∃ property, property ≠ "" ∧ path = Path.join config.name property
  /-- The targets of what is listed are known. -/
  targets : ∀ path targets, (e.extract entity config known).get? path = some targets →
    ∀ target ∈ targets, known.contains target = true
  /-- They are listed once. -/
  once : ∀ path targets, (e.extract entity config known).get? path = some targets → targets.Nodup
  /-- The integrity check has nothing to object to, whatever the policy. -/
  passes : ∀ policy, DependencyMap.checked config.name (e.extract entity config known) known
    policy = .ok (e.extract entity config known)

/-- Each bundled extractor is the one that reads the entities of some kind. -/
theorem exists_kind_of_mem_bundled {e : Extractor} (h : e ∈ bundled) :
    ∃ kind, Registry.standard.get kind = e := by
  simp only [bundled, List.mem_cons, List.not_mem_nil, or_false] at h
  rcases h with rfl | rfl | rfl
  · exact ⟨.widget, rfl⟩
  · exact ⟨.action, rfl⟩
  · exact ⟨.moduleInstance, rfl⟩

/-- Every bundled extractor agrees with itself, whatever entity it reads and whatever is known. -/
theorem agrees_of_mem_bundled {e : Extractor} (h : e ∈ bundled) (entity : Entity)
    (config : EntityConfig) (known : KnownPaths) : e.Agrees entity config known := by
  obtain ⟨kind, rfl⟩ := exists_kind_of_mem_bundled h
  have hlisted := get?_extract kind entity config known
  -- a list in the map is the list of its path, which is what the other lemmas are about
  have hforPath : ∀ path targets,
      ((Registry.standard.get kind).extract entity config known).get? path = some targets →
        (Registry.standard.get kind).forPath entity config path known = targets := by
    intro path targets ht
    rw [hlisted] at ht
    split at ht
    · cases ht
    · exact Option.some.inj ht
  refine ⟨hlisted, fun path hp => own_of_mem_keys hp, fun path targets ht target hm => ?_,
    fun path targets ht => ?_, checked_extract kind entity config known⟩
  · exact (covered_of_mem_forPath ((hforPath path targets ht).symm ▸ hm)).1
  · exact hforPath path targets ht ▸ nodup_forPath kind entity config path known

/-- An instance of a query module, with a property that is declared to read what its code reads
too. -/
def instanceConfig : EntityConfig :=
  (EntityConfig.ofName "Query1" .moduleInstance)
    |>.withModuleType .query
    |>.withDynamicPath "run.url"
    |>.withDeclared "run.config" ["Input1.value"]
    |>.withDeclared "run.url" ["Input1.value", "run.config"]

/-- Its properties: a property with a binding, and a plain one. -/
def instanceEntity : Entity :=
  .ofJson (.object [("run", .object [("url", .string "\x7b\x7bInput1.value\x7d\x7d"),
    ("config", .string "x")])])

/-- The paths of the instance and of the input that it reads. -/
def instanceKnown : KnownPaths :=
  .ofList ["Input1", "Input1.value", "Query1", "Query1.run", "Query1.run.url", "Query1.run.config"]

theorem agrees_instance : moduleInstance.Agrees instanceEntity instanceConfig instanceKnown ∧
    (moduleInstance.extract instanceEntity instanceConfig instanceKnown).entries =
      [("Query1.run.config", ["Input1.value"]),
       ("Query1.run.url", ["Input1.value", "Query1.run.config"])] ∧
    moduleInstance.forPath instanceEntity instanceConfig "Query1.run" instanceKnown = [] :=
  ⟨agrees_of_mem_bundled (by simp [bundled]) instanceEntity instanceConfig instanceKnown,
    by decide +kernel, by decide +kernel⟩

end Recalc.Extractor
