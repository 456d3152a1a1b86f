import Recalc.Evaluator.Change
import Recalc.Proofs.Tree
import Mathlib.Data.List.Basic
import Mathlib.Data.List.Find

/-!
# What an entity reads

The extractors of the standard registry report known paths for known paths of their own entity, so
the integrity check never refuses one of their maps (`checked_extracted`). Which paths they report
depends on the known paths of a few entities only: the entity itself and those that its code and its
declarations name (`EntityRecord.Agree.forPath`). This is what makes it enough to read an entity
again when one of these entities changes.
-/

namespace Recalc

namespace Extractor

section

variable (f : Entity → EntityConfig → String → KnownPaths → List String) (entity : Entity)
  (config : EntityConfig) (known : KnownPaths)

/-- The map with the targets of one more property, if it has any and is not listed. -/
def listTargets (map : DependencyMap) (property : String) : DependencyMap :=
  let path := Path.join config.name property
  if map.contains path then map
  else
    match f entity config path known with
    | [] => map
    | targets => map.insert path targets

variable {f entity config known}

theorem get?_listTargets {map : DependencyMap}
    (h : ∀ p targets, map.get? p = some targets → targets = f entity config p known)
    (property path : String) : (listTargets f entity config known map property).get? path =
      if path = Path.join config.name property ∧ f entity config path known ≠ [] then
        some (f entity config path known) else map.get? path := by
  rw [listTargets]
  by_cases hc : map.contains (Path.join config.name property) = true
  · rw [if_pos hc]
    obtain ⟨targets, ht⟩ := SortedMap.contains_iff.1 hc
    split
    · rename_i hp
      rw [hp.1, ht, h _ _ ht]
    · rfl
  · rw [if_neg hc]
    split
    · rename_i hf
      rw [if_neg]
      rintro ⟨rfl, hne⟩
      exact hne hf
    · rename_i hf
      rw [SortedMap.get?_insert]
      by_cases hp : path = Path.join config.name property
      · rw [if_pos hp, if_pos ⟨hp, fun he => hf (hp ▸ he)⟩, hp]
      · rw [if_neg hp, if_neg fun hq => hp hq.1]

theorem get?_foldl_listTargets {map : DependencyMap}
    (h : ∀ p targets, map.get? p = some targets → targets = f entity config p known)
    (properties : List String) (path : String) :
    (properties.foldl (listTargets f entity config known) map).get? path =
      if (∃ property ∈ properties, path = Path.join config.name property) ∧
        f entity config path known ≠ [] then some (f entity config path known)
      else map.get? path := by
  induction properties generalizing map with
  | nil => simp
  | cons property properties ih =>
    have hstep : ∀ p targets, (listTargets f entity config known map property).get? p =
        some targets → targets = f entity config p known := by
      intro p targets ht
      rw [get?_listTargets h] at ht
      split at ht
      · exact (Option.some.inj ht).symm
      · exact h p targets ht
    rw [List.foldl_cons, ih hstep, get?_listTargets h]
    simp only [List.exists_mem_cons_iff]
    by_cases hf : f entity config path known = []
    · simp [hf]
    · by_cases hp : path = Path.join config.name property
      · have hnow : path = Path.join config.name property ∧ f entity config path known ≠ [] :=
          ⟨hp, hf⟩
        rw [if_pos hnow, ite_self, if_pos ⟨.inl hp, hf⟩]
      · simp only [hp, false_or, false_and, if_false]

end

/-- The extractor asks about one property after another, and a path is listed with its targets if it
has any. -/
theorem get?_extract_ofForPath (f : Entity → EntityConfig → String → KnownPaths → List String)
    (entity : Entity) (config : EntityConfig) (known : KnownPaths) (path : String) :
    ((ofForPath f).extract entity config known).get? path =
      if (∃ property ∈ candidates config, path = Path.join config.name property) ∧
        f entity config path known ≠ [] then some (f entity config path known) else none :=
  get?_foldl_listTargets (fun _ _ h => (by cases h)) (candidates config) path

/-- A property named by a known path. -/
theorem ownedProperty?_eq_some_iff {config : EntityConfig} {path property : String}
    {known : KnownPaths} : ownedProperty? config path known = some property ↔
      property ≠ "" ∧ path = Path.join config.name property ∧ known.contains path = true := by
  rw [ownedProperty?, Option.filter_eq_some_iff]
  simp only [Bool.and_eq_true, decide_eq_true_eq]
  constructor
  · rintro ⟨hp, hne, hk⟩
    exact ⟨hne, (Path.propertyOf_eq_some_iff hne).1 hp, hk⟩
  · rintro ⟨hne, hp, hk⟩
    exact ⟨(Path.propertyOf_eq_some_iff hne).2 hp, hne, hk⟩

end Extractor

namespace Registry

/-- The standard registry knows three extractors. -/
theorem standard_get_cases (kind : EntityKind) : standard.get kind = .binding ∨
    standard.get kind = .declared ∨ standard.get kind = .moduleInstance := by
  simp only [standard, get, register, empty, SortedMap.getD, SortedMap.get?_insert,
    SortedMap.get?_empty]
  repeat' split
  all_goals simp

/-- Only module instances are read by their module type. -/
theorem standard_get_of_ne {kind : EntityKind} (h : kind ≠ .moduleInstance) :
    standard.get kind = .binding ∨ standard.get kind = .declared := by
  have htag : kind.tag ≠ EntityKind.moduleInstance.tag := fun he => h (congrArg EntityKind.mk he)
  simp only [standard, get, register, empty, SortedMap.getD, SortedMap.get?_insert,
    SortedMap.get?_empty, if_neg htag]
  repeat' split
  all_goals simp

theorem standard_get_moduleInstance : standard.get .moduleInstance = .moduleInstance := rfl

/-- Each of them asks about every property that may read something. -/
theorem standard_extract (kind : EntityKind) : (standard.get kind).extract =
    (Extractor.ofForPath (standard.get kind).forPath).extract := by
  rcases standard_get_cases kind with h | h | h <;> rw [h] <;> rfl

end Registry

/-! ### Targets are known -/

theorem KnownPaths.contains_of_resolve? {known : KnownPaths} {chain path : String}
    (h : known.resolve? chain = some path) : known.contains path = true :=
  List.find?_some h

/-- What some of the targets resolve to is added. -/
theorem mem_foldl_resolved (resolve : String → Option String) (targets paths : List String)
    {path : String} : path ∈ targets.foldl (fun paths target =>
        match resolve target with
        | some path => appendNew paths path
        | none => paths) paths ↔
      path ∈ paths ∨ ∃ target ∈ targets, resolve target = some path := by
  induction targets generalizing paths with
  | nil => simp
  | cons target targets ih =>
    rw [List.foldl_cons, ih, List.exists_mem_cons_iff]
    cases resolve target with
    | none => simp
    | some p =>
      simp only [mem_appendNew, Option.some.injEq]
      grind

/-- What the targets resolve to is added once. -/
theorem nodup_foldl_resolved (resolve : String → Option String) (targets : List String)
    {paths : List String} (h : paths.Nodup) : (targets.foldl (fun paths target =>
        match resolve target with
        | some path => appendNew paths path
        | none => paths) paths).Nodup := by
  induction targets generalizing paths with
  | nil => exact h
  | cons target targets ih =>
    rw [List.foldl_cons]
    refine ih ?_
    split
    · exact nodup_appendNew h _
    · exact h

theorem Reference.mem_collect {value : Json} {reading : BindingSyntax} {known : KnownPaths}
    {paths : List String} {path : String} : path ∈ collect value reading known paths ↔
      path ∈ paths ∨ ∃ chain ∈ chains value reading, known.resolve? chain = some path :=
  mem_foldl_resolved known.resolve? _ paths

namespace Extractor

theorem mem_addReferences {entity : Entity} {config : EntityConfig} {property path : String}
    {known : KnownPaths} {paths : List String} :
    path ∈ addReferences entity config property known paths ↔ path ∈ paths ∨
      config.isDynamicPath property = true ∧ ∃ value, entity.property? property = some value ∧
        ∃ chain ∈ Reference.chains value config.bindingSyntax,
          known.resolve? chain = some path := by
  rw [addReferences]
  cases config.isDynamicPath property with
  | false => simp
  | true =>
    cases entity.property? property with
    | none => simp
    | some value => simp [Reference.mem_collect]

theorem mem_declaredTargets {config : EntityConfig} {property path : String}
    {known : KnownPaths} : path ∈ declaredTargets config property known ↔
      ∃ target ∈ config.dependencyMap.getD property [],
        resolveTarget? config.name target known = some path :=
  (mem_foldl_resolved _ _ []).trans (by simp)

theorem contains_of_resolveTarget? {name target path : String} {known : KnownPaths}
    (h : resolveTarget? name target known = some path) : known.contains path = true := by
  rw [resolveTarget?] at h
  split at h
  · exact (Option.some.inj h) ▸ ‹_›
  · split at h
    · exact (Option.some.inj h) ▸ ‹_›
    · cases h

theorem mem_candidates_of_isDynamicPath {config : EntityConfig} {property : String}
    (h : config.isDynamicPath property = true) : property ∈ candidates config := by
  rw [EntityConfig.isDynamicPath, Bool.or_eq_true] at h
  rw [candidates, List.mem_append, List.mem_append, SortedSet.mem_toList, SortedSet.mem_toList]
  exact h.elim .inr fun h => .inl (.inr h)

theorem mem_candidates_of_declared {config : EntityConfig} {property target : String}
    (h : target ∈ config.dependencyMap.getD property []) : property ∈ candidates config := by
  rw [candidates, List.mem_append, List.mem_append, SortedMap.mem_keys_iff]
  rw [SortedMap.getD] at h
  cases hg : config.dependencyMap.get? property with
  | none => simp [hg] at h
  | some targets => exact .inl (.inl ⟨targets, rfl⟩)

/-- What is true of a target that is found for a path: it is known, and the path names a property
that may read something. -/
def Covered (config : EntityConfig) (path : String) (known : KnownPaths) (target : String) : Prop :=
  known.contains target = true ∧
    ∃ property ∈ candidates config, ownedProperty? config path known = some property

theorem covered_of_mem_bindingTargets {entity : Entity} {config : EntityConfig} {path : String}
    {known : KnownPaths} {target : String}
    (h : target ∈ bindingTargets entity config path known) : Covered config path known target := by
  rw [bindingTargets] at h
  cases ho : ownedProperty? config path known with
  | none => simp [ho] at h
  | some property =>
    simp only [ho, mem_addReferences, List.not_mem_nil, false_or] at h
    obtain ⟨hd, value, -, chain, -, hc⟩ := h
    exact ⟨KnownPaths.contains_of_resolve? hc, property, mem_candidates_of_isDynamicPath hd, ho⟩

theorem covered_of_mem_allTargets {entity : Entity} {config : EntityConfig} {path : String}
    {known : KnownPaths} {target : String}
    (h : target ∈ allTargets entity config path known) : Covered config path known target := by
  rw [allTargets] at h
  cases ho : ownedProperty? config path known with
  | none => simp [ho] at h
  | some property =>
    simp only [ho, mem_addReferences, mem_declaredTargets] at h
    rcases h with ⟨declared, hm, hd⟩ | ⟨hd, value, -, chain, -, hc⟩
    · exact ⟨contains_of_resolveTarget? hd, property, mem_candidates_of_declared hm, ho⟩
    · exact ⟨KnownPaths.contains_of_resolve? hc, property, mem_candidates_of_isDynamicPath hd, ho⟩

/-- The targets of every bundled extractor are known and belong to properties of the entity. -/
theorem covered_of_mem_forPath {kind : EntityKind} {entity : Entity} {config : EntityConfig}
    {path : String} {known : KnownPaths} {target : String}
    (h : target ∈ (Registry.standard.get kind).forPath entity config path known) :
    Covered config path known target := by
  rcases Registry.standard_get_cases kind with hk | hk | hk <;> rw [hk] at h
  · exact covered_of_mem_bindingTargets h
  · exact covered_of_mem_allTargets h
  · change target ∈ moduleTargets entity config path known at h
    rw [moduleTargets] at h
    split at h
    · exact covered_of_mem_allTargets h
    · cases h

section

variable (kind : EntityKind) (entity : Entity) (config : EntityConfig) (known : KnownPaths)

/-- A bundled extractor lists the paths that have targets, with these. -/
theorem get?_extract (path : String) :
    ((Registry.standard.get kind).extract entity config known).get? path =
      if (Registry.standard.get kind).forPath entity config path known = [] then none
      else some ((Registry.standard.get kind).forPath entity config path known) := by
  rw [Registry.standard_extract, get?_extract_ofForPath]
  by_cases ht : (Registry.standard.get kind).forPath entity config path known = []
  · simp [ht]
  · obtain ⟨target, hm⟩ := List.exists_mem_of_ne_nil _ ht
    obtain ⟨-, property, hc, ho⟩ := covered_of_mem_forPath hm
    rw [if_pos ⟨⟨property, hc, (ownedProperty?_eq_some_iff.1 ho).2.1⟩, ht⟩, if_neg ht]

variable {kind entity config known}

/-- What a bundled extractor lists is a known path of a property of the entity. -/
theorem own_of_mem_keys {path : String}
    (h : path ∈ ((Registry.standard.get kind).extract entity config known).keys) :
    known.contains path = true ∧ ∃ property, property ≠ "" ∧
      path = Path.join config.name property := by
  obtain ⟨targets, ht⟩ := SortedMap.mem_keys_iff.1 h
  rw [get?_extract] at ht
  split at ht
  · cases ht
  · rename_i hne
    obtain ⟨target, hm⟩ := List.exists_mem_of_ne_nil _ hne
    obtain ⟨-, property, -, ho⟩ := covered_of_mem_forPath hm
    obtain ⟨hp, he, hc⟩ := ownedProperty?_eq_some_iff.1 ho
    exact ⟨hc, property, hp, he⟩

variable (kind entity config known)

/-- The integrity check passes, whatever the policy. -/
theorem checked_extract (policy : IntegrityPolicy) :
    DependencyMap.checked config.name ((Registry.standard.get kind).extract entity config known)
      known policy = .ok ((Registry.standard.get kind).extract entity config known) := by
  have hnone : DependencyMap.stranger? config.name
      ((Registry.standard.get kind).extract entity config known) known = none := by
    rw [DependencyMap.stranger?, List.find?_eq_none]
    intro path hp
    obtain ⟨hc, property, hne, he⟩ := own_of_mem_keys hp
    have hof : Path.propertyOf path config.name = some property :=
      (Path.propertyOf_eq_some_iff hne).2 he
    simp [DependencyMap.isOwn, hof, hc]
  rw [DependencyMap.checked, hnone]

end

/-- Where a target comes from: a declaration, or a chain in the code of a property. -/
def HasSource (entity : Entity) (config : EntityConfig) (known : KnownPaths) (target : String) :
    Prop :=
  (∃ property, ∃ declared ∈ config.dependencyMap.getD property [],
    resolveTarget? config.name declared known = some target) ∨
  ∃ property value chain, config.isDynamicPath property = true ∧
    entity.property? property = some value ∧
    chain ∈ Reference.chains value config.bindingSyntax ∧ known.resolve? chain = some target

/-- The targets of every bundled extractor come from a declaration or from the code. -/
theorem hasSource_of_mem_forPath {kind : EntityKind} {entity : Entity} {config : EntityConfig}
    {path : String} {known : KnownPaths} {target : String}
    (h : target ∈ (Registry.standard.get kind).forPath entity config path known) :
    HasSource entity config known target := by
  have hall : target ∈ allTargets entity config path known →
      HasSource entity config known target := by
    intro ht
    rw [allTargets] at ht
    cases ho : ownedProperty? config path known with
    | none => simp [ho] at ht
    | some property =>
      simp only [ho, mem_addReferences, mem_declaredTargets] at ht
      rcases ht with ⟨declared, hm, hd⟩ | ⟨hd, value, hv, chain, hc, hres⟩
      · exact .inl ⟨property, declared, hm, hd⟩
      · exact .inr ⟨property, value, chain, hd, hv, hc, hres⟩
  rcases Registry.standard_get_cases kind with hk | hk | hk <;> rw [hk] at h
  · change target ∈ bindingTargets entity config path known at h
    rw [bindingTargets] at h
    cases ho : ownedProperty? config path known with
    | none => simp [ho] at h
    | some property =>
      simp only [ho, mem_addReferences, List.not_mem_nil, false_or] at h
      obtain ⟨hd, value, hv, chain, hc, hres⟩ := h
      exact .inr ⟨property, value, chain, hd, hv, hc, hres⟩
  · exact hall h
  · change target ∈ moduleTargets entity config path known at h
    rw [moduleTargets] at h
    split at h
    · exact hall h
    · cases h

end Extractor

/-! ### Which known paths matter -/

namespace EntityRecord

/-- The two sets of known paths agree on the entities that matter for the record: its own, and those
that its code and its declarations name. -/
def Agree (r : EntityRecord) (known known' : KnownPaths) : Prop :=
  ∀ path, Path.entityOf path = r.name ∨ Path.entityOf path ∈ Evaluator.referencedRoots r →
    known.contains path = known'.contains path

theorem mem_referencedRoots {r : EntityRecord} {name : String} :
    name ∈ Evaluator.referencedRoots r ↔
      (name ∈ Evaluator.codeRoots r ∨ name ∈ Evaluator.declaredRoots r) ∧ name ≠ r.name := by
  rw [Evaluator.referencedRoots, mem_distinct, List.mem_filter, List.mem_append, decide_eq_true_eq]

/-- The first segment of a chain in the code of a record. -/
theorem mem_codeRoots {r : EntityRecord} {property chain : String} {value : Json}
    (hd : r.config.isDynamicPath property = true) (hv : r.entity.property? property = some value)
    (hc : chain ∈ Reference.chains value r.config.bindingSyntax) :
    Path.entityOf chain ∈ Evaluator.codeRoots r := by
  rw [Evaluator.codeRoots, List.mem_map]
  refine ⟨chain, List.mem_flatMap.2 ⟨value, ?_, hc⟩, rfl⟩
  rw [Evaluator.rawDynamic, List.mem_filterMap]
  refine ⟨property, List.mem_append.2 ?_, hv⟩
  rw [EntityConfig.isDynamicPath, Bool.or_eq_true] at hd
  exact hd.symm.imp SortedSet.mem_toList.2 SortedSet.mem_toList.2

/-- The first segment of a declared target that is no property of the record itself. -/
theorem mem_declaredRoots {r : EntityRecord} {property target : String}
    (ht : target ∈ r.config.dependencyMap.getD property [])
    (hn : r.entity.property? target = none) :
    Path.entityOf target ∈ Evaluator.declaredRoots r := by
  rw [Evaluator.declaredRoots, List.mem_map]
  refine ⟨target, List.mem_filter.2 ⟨?_, by simp [hn]⟩, rfl⟩
  rw [SortedMap.getD] at ht
  cases hg : r.config.dependencyMap.get? property with
  | none => simp [hg] at ht
  | some targets =>
    rw [hg, Option.getD_some] at ht
    rw [List.mem_flatten]
    exact ⟨targets, List.mem_map.2 ⟨_, (SortedMap.get?_eq_some_iff _).1 hg, rfl⟩, ht⟩

namespace Agree

variable {r : EntityRecord} {known known' : KnownPaths} (h : r.Agree known known')
include h

theorem of_root {path : String}
    (hp : Path.entityOf path ∈ Evaluator.codeRoots r ∨
      Path.entityOf path ∈ Evaluator.declaredRoots r) :
    known.contains path = known'.contains path := by
  by_cases hn : Path.entityOf path = r.name
  · exact h path (.inl hn)
  · exact h path (.inr (mem_referencedRoots.2 ⟨hp, hn⟩))

theorem resolve? {chain : String} (hc : Path.entityOf chain ∈ Evaluator.codeRoots r) :
    known.resolve? chain = known'.resolve? chain := by
  rw [KnownPaths.resolve?, KnownPaths.resolve?]
  refine List.find?_congr fun part hp => h.of_root (.inl ?_)
  rw [Path.entityOf_of_mem_prefixes hp]
  exact hc

theorem addReferences {property : String} (paths : List String) :
    Extractor.addReferences r.entity r.config property known paths =
      Extractor.addReferences r.entity r.config property known' paths := by
  rw [Extractor.addReferences, Extractor.addReferences]
  split
  · rename_i hd
    split
    · rename_i value hv
      rw [Reference.collect, Reference.collect]
      refine List.foldl_ext _ _ _ fun paths chain hc => ?_
      rw [h.resolve? (mem_codeRoots hd hv hc)]
    · rfl
  · rfl

theorem declaredTargets (hr : r.WellFormed) (hown : ∀ path, r.Has path → known.contains path = true)
    (property : String) : Extractor.declaredTargets r.config property known =
      Extractor.declaredTargets r.config property known' := by
  rw [Extractor.declaredTargets, Extractor.declaredTargets]
  refine List.foldl_ext _ _ _ fun paths target ht => ?_
  have hinside : known.contains (Path.join r.config.name target) =
      known'.contains (Path.join r.config.name target) :=
    h _ (.inl (Path.entityOf_join hr.name.2 target))
  have hresolve : Extractor.resolveTarget? r.config.name target known =
      Extractor.resolveTarget? r.config.name target known' := by
    rw [Extractor.resolveTarget?, Extractor.resolveTarget?, ← hinside]
    cases hp : r.entity.property? target with
    | none => rw [h.of_root (.inr (mem_declaredRoots ht hp))]
    | some value =>
      -- A target that is a property of the record is known as such.
      have hhas : r.Has (Path.join r.config.name target) := hr.has_of_property? hp
      rw [if_pos (hown _ hhas), if_pos (hown _ hhas)]
  rw [hresolve]

/-- The targets of a path depend on the known paths of the entities that matter only. -/
theorem forPath (hr : r.WellFormed) (hown : ∀ path, r.Has path → known.contains path = true)
    (kind : EntityKind) (path : String) :
    (Registry.standard.get kind).forPath r.entity r.config path known =
      (Registry.standard.get kind).forPath r.entity r.config path known' := by
  have howned : Extractor.ownedProperty? r.config path known =
      Extractor.ownedProperty? r.config path known' := by
    have hiff : ∀ property, Extractor.ownedProperty? r.config path known = some property ↔
        Extractor.ownedProperty? r.config path known' = some property := by
      intro property
      rw [Extractor.ownedProperty?_eq_some_iff, Extractor.ownedProperty?_eq_some_iff]
      refine and_congr Iff.rfl (and_congr_right fun hp => ?_)
      rw [h path (.inl (hp ▸ Path.entityOf_join hr.name.2 property))]
    exact Option.ext hiff
  have hall : Extractor.allTargets r.entity r.config path known =
      Extractor.allTargets r.entity r.config path known' := by
    rw [Extractor.allTargets, Extractor.allTargets, howned]
    split
    · rw [h.declaredTargets hr hown, h.addReferences]
    · rfl
  rcases Registry.standard_get_cases kind with hk | hk | hk <;> rw [hk]
  · change Extractor.bindingTargets _ _ _ _ = Extractor.bindingTargets _ _ _ _
    rw [Extractor.bindingTargets, Extractor.bindingTargets, howned]
    split
    · rw [h.addReferences]
    · rfl
  · exact hall
  · change Extractor.moduleTargets _ _ _ _ = Extractor.moduleTargets _ _ _ _
    rw [Extractor.moduleTargets, Extractor.moduleTargets]
    split
    · exact hall
    · rfl

end Agree

/-! ### The wiring of a record -/

/-- The paths that a path of the record reads, by the extractor of its kind. -/
def targets (r : EntityRecord) (known : KnownPaths) (path : String) : List String :=
  (Registry.standard.get r.config.kind).forPath r.entity r.config path known

/-- What the extractor of its kind reports about the record. -/
def extracted (r : EntityRecord) (known : KnownPaths) : DependencyMap :=
  (Registry.standard.get r.config.kind).extract r.entity r.config known

/-- All paths of the record with what they read. -/
def wiring (r : EntityRecord) (known : KnownPaths) : DependencyMap :=
  r.paths.foldl Progress.addStructure (r.extracted known)

theorem get?_extracted (r : EntityRecord) (known : KnownPaths) (path : String) :
    (r.extracted known).get? path =
      if r.targets known path = [] then none else some (r.targets known path) :=
  Extractor.get?_extract r.config.kind r.entity r.config known path

theorem getD_extracted (r : EntityRecord) (known : KnownPaths) (path : String) :
    (r.extracted known).getD path [] = r.targets known path := by
  rw [SortedMap.getD, get?_extracted]
  split
  · rename_i h
    exact h.symm
  · rfl

/-- **The integrity check passes** for what a bundled extractor reports, whatever the policy. -/
theorem checked_extracted (r : EntityRecord) (known : KnownPaths) (policy : IntegrityPolicy) :
    DependencyMap.checked r.name (r.extracted known) known policy = .ok (r.extracted known) :=
  Extractor.checked_extract r.config.kind r.entity r.config known policy

/-- The known paths of the record's own entity are exactly the paths of the record. -/
def Exact (r : EntityRecord) (known : KnownPaths) : Prop :=
  ∀ path, Path.entityOf path = r.name → (known.contains path = true ↔ r.Has path)

namespace WellFormed

variable {r : EntityRecord} (h : r.WellFormed) {known : KnownPaths} (hk : r.Exact known)
include h hk

theorem contains_of_has {path : String} (hp : r.Has path) : known.contains path = true :=
  (hk path (h.entityOf_of_has hp)).2 hp

/-- Only paths of the record have targets. -/
theorem has_of_mem_targets {path target : String} (ht : target ∈ r.targets known path) :
    r.Has path := by
  obtain ⟨-, property, -, ho⟩ := Extractor.covered_of_mem_forPath ht
  obtain ⟨-, rfl, hc⟩ := Extractor.ownedProperty?_eq_some_iff.1 ho
  exact (hk _ (Path.entityOf_join h.name.2 property)).1 hc

end WellFormed

theorem foldl_addStructure (paths : List EntityPath) (map : DependencyMap) :
    (∀ q, q ∈ (paths.foldl Progress.addStructure map).keys ↔
      q ∈ map.keys ∨ ∃ e ∈ paths, q = e.path ∨ Path.parent? e.path = some q) ∧
    ∀ p q, q ∈ (paths.foldl Progress.addStructure map).getD p [] ↔
      q ∈ map.getD p [] ∨ ∃ e ∈ paths, q = e.path ∧ Path.parent? q = some p := by
  induction paths generalizing map with
  | nil => simp
  | cons e paths ih =>
    obtain ⟨hk, hr⟩ := ih (Progress.addStructure map e)
    have hkeys : ∀ q, q ∈ (Progress.addStructure map e).keys ↔
        q ∈ map.keys ∨ q = e.path ∨ Path.parent? e.path = some q := by
      intro q
      rw [Progress.addStructure, SortedMap.mem_keys_iff_contains, SortedMap.mem_keys_iff_contains,
        SortedMap.contains, SortedMap.contains]
      split
      · rename_i above ha
        rw [SortedMap.get?_modifyD, SortedMap.get?_modifyD, ha]
        grind
      · rename_i ha
        rw [SortedMap.get?_modifyD, ha]
        grind
    have hreads : ∀ p q, q ∈ (Progress.addStructure map e).getD p [] ↔
        q ∈ map.getD p [] ∨ q = e.path ∧ Path.parent? q = some p := by
      intro p q
      rw [Progress.addStructure]
      split
      · rename_i above ha
        rw [SortedMap.getD_modifyD, SortedMap.getD_modifyD, SortedMap.getD_modifyD]
        simp only [id]
        split
        · rename_i hp
          subst hp
          rw [mem_appendNew]
          split <;> grind
        · split <;> grind
      · rename_i ha
        rw [SortedMap.getD_modifyD]
        simp only [id]
        split <;> grind
    refine ⟨fun q => ?_, fun p q => ?_⟩
    · rw [List.foldl_cons, hk, hkeys, List.exists_mem_cons_iff, or_assoc]
    · rw [List.foldl_cons, hr, hreads, List.exists_mem_cons_iff, or_assoc]

namespace WellFormed

variable {r : EntityRecord} (h : r.WellFormed) {known : KnownPaths} (hk : r.Exact known)
include h hk

/-- The wiring lists exactly the paths of the record. -/
theorem mem_keys_wiring {path : String} : path ∈ (r.wiring known).keys ↔ r.Has path := by
  rw [wiring, (foldl_addStructure _ _).1, SortedMap.mem_keys_iff]
  constructor
  · rintro (⟨targets, ht⟩ | ⟨e, he, rfl | ha⟩)
    · rw [get?_extracted] at ht
      split at ht
      · cases ht
      · rename_i hne
        obtain ⟨target, hm⟩ := List.exists_mem_of_ne_nil _ hne
        exact h.has_of_mem_targets hk hm
    · exact ⟨e.isLeaf, he⟩
    · exact h.has_parent ⟨e.isLeaf, he⟩ ha
  · rintro ⟨leaf, hp⟩
    exact .inr ⟨_, hp, .inl rfl⟩

omit h hk in
/-- A path reads its targets and the paths right below it. -/
theorem mem_getD_wiring {path target : String} : target ∈ (r.wiring known).getD path [] ↔
    target ∈ r.targets known path ∨ r.Has target ∧ Path.parent? target = some path := by
  rw [wiring, (foldl_addStructure _ _).2, getD_extracted]
  refine or_congr Iff.rfl ?_
  constructor
  · rintro ⟨⟨p, leaf⟩, he, rfl, ha⟩
    exact ⟨⟨leaf, he⟩, ha⟩
  · rintro ⟨⟨leaf, hp⟩, ha⟩
    exact ⟨_, hp, rfl, ha⟩

/-- What the paths of the record read is known. -/
theorem contains_of_mem_wiring {path target : String}
    (ht : target ∈ (r.wiring known).getD path []) : known.contains target = true := by
  rcases mem_getD_wiring.1 ht with ht | ⟨hp, -⟩
  · exact (Extractor.covered_of_mem_forPath ht).1
  · exact h.contains_of_has hk hp

end WellFormed

/-- A path of the record reads another path: as a target, or because that one is right below it. -/
def Edge (r : EntityRecord) (known : KnownPaths) (path target : String) : Prop :=
  target ∈ r.targets known path ∨ r.Has target ∧ Path.parent? target = some path

/-- What the paths of a record read belongs to the record itself or to an entity that it names. -/
theorem WellFormed.entityOf_of_edge {r : EntityRecord} (h : r.WellFormed) {known : KnownPaths}
    (hk : r.Exact known) {path target : String} (he : r.Edge known path target) :
    Path.entityOf target = r.name ∨ Path.entityOf target ∈ Evaluator.referencedRoots r := by
  rcases he with ht | ⟨hp, -⟩
  · have hroot : ∀ {q}, Path.entityOf q ∈ Evaluator.codeRoots r ∨
        Path.entityOf q ∈ Evaluator.declaredRoots r →
        Path.entityOf q = r.name ∨ Path.entityOf q ∈ Evaluator.referencedRoots r := by
      intro q hq
      by_cases hn : Path.entityOf q = r.name
      · exact .inl hn
      · exact .inr (mem_referencedRoots.2 ⟨hq, hn⟩)
    rcases Extractor.hasSource_of_mem_forPath ht with
      ⟨property, declared, hd, hres⟩ | ⟨property, value, chain, hdyn, hv, hc, hres⟩
    · rw [Extractor.resolveTarget?] at hres
      split at hres
      · obtain rfl := Option.some.inj hres
        exact .inl (Path.entityOf_join h.name.2 declared)
      · rename_i hout
        split at hres
        · obtain rfl := Option.some.inj hres
          cases hp : r.entity.property? declared with
          | none => exact hroot (.inr (mem_declaredRoots hd hp))
          | some value => exact absurd (h.contains_of_has hk (h.has_of_property? hp)) hout
        · cases hres
    · have he : Path.entityOf target = Path.entityOf chain :=
        Path.entityOf_of_mem_prefixes (List.mem_of_find?_eq_some hres)
      rw [he] at *
      exact hroot (.inl (mem_codeRoots hdyn hv hc))
  · exact .inl (h.entityOf_of_has hp)

/-! ### Writes that keep the shape -/

theorem chains_of_isComposite {value : Json} (h : value.isComposite = true)
    (reading : BindingSyntax) : Reference.chains value reading = [] := by
  obtain ⟨f, fields, rfl⟩ := Json.isComposite_eq_true_iff.1 h
  rfl

namespace KeepsShape

variable {r : EntityRecord} {property : String} {value : Json} (h : r.KeepsShape property value)
  (hd : r.config.isDynamicPath property = false)
include h hd

/-- A write to a property that is not dynamic leaves the code of the dynamic ones alone. -/
theorem chains_property?_set {q : String} (hq : r.config.isDynamicPath q = true) :
    ((r.set property value).entity.property? q).map (Reference.chains · r.config.bindingSyntax) =
      (r.entity.property? q).map (Reference.chains · r.config.bindingSyntax) := by
  have hne : q ≠ property := by
    rintro rfl
    rw [hd] at hq
    cases hq
  rcases h.property?_set_of_ne hne with he | ⟨u, w, hu, hw, hcu, hcw⟩
  · rw [he]
  · rw [hu, hw, Option.map_some, Option.map_some, chains_of_isComposite hcu,
      chains_of_isComposite hcw]

theorem addReferences_set (q : String) (known : KnownPaths) (paths : List String) :
    Extractor.addReferences (r.set property value).entity r.config q known paths =
      Extractor.addReferences r.entity r.config q known paths := by
  rw [Extractor.addReferences, Extractor.addReferences]
  split
  · rename_i hq
    have hc := h.chains_property?_set hd hq
    cases hn : (r.set property value).entity.property? q <;> cases ho : r.entity.property? q <;>
      rw [hn, ho] at hc
    · cases hc
    · cases hc
    · simp only [Reference.collect]
      rw [Option.map_some, Option.map_some, Option.some.injEq] at hc
      rw [hc]
  · rfl

/-- Such a write changes no target. -/
theorem targets_set (known : KnownPaths) (path : String) :
    (r.set property value).targets known path = r.targets known path := by
  have hall : Extractor.allTargets (r.set property value).entity r.config path known =
      Extractor.allTargets r.entity r.config path known := by
    rw [Extractor.allTargets, Extractor.allTargets]
    split
    · rw [h.addReferences_set hd]
    · rfl
  change (Registry.standard.get r.config.kind).forPath _ r.config path known =
    (Registry.standard.get r.config.kind).forPath _ r.config path known
  rcases Registry.standard_get_cases r.config.kind with hk | hk | hk <;> rw [hk]
  · change Extractor.bindingTargets _ _ _ _ = Extractor.bindingTargets _ _ _ _
    rw [Extractor.bindingTargets, Extractor.bindingTargets]
    split
    · rw [h.addReferences_set hd]
    · rfl
  · exact hall
  · change Extractor.moduleTargets _ _ _ _ = Extractor.moduleTargets _ _ _ _
    rw [Extractor.moduleTargets, Extractor.moduleTargets]
    split
    · exact hall
    · rfl

/-- Such a write changes no name that the record names. -/
theorem referencedRoots_set :
    Evaluator.referencedRoots (r.set property value) = Evaluator.referencedRoots r := by
  have hcode : Evaluator.codeRoots (r.set property value) = Evaluator.codeRoots r := by
    have hlist : ∀ list : List String, (∀ q ∈ list, r.config.isDynamicPath q = true) →
        (list.filterMap (r.set property value).entity.property?).flatMap
          (Reference.chains · r.config.bindingSyntax) =
        (list.filterMap r.entity.property?).flatMap
          (Reference.chains · r.config.bindingSyntax) := by
      intro list
      induction list with
      | nil => exact fun _ => rfl
      | cons q list ih =>
        intro hl
        have hrest := ih fun q hq => hl q (List.mem_cons_of_mem _ hq)
        have hc := h.chains_property?_set hd (hl q List.mem_cons_self)
        rw [List.filterMap_cons, List.filterMap_cons]
        cases hn : (r.set property value).entity.property? q <;>
          cases ho : r.entity.property? q <;> rw [hn, ho] at hc
        · exact hrest
        · cases hc
        · cases hc
        · rw [Option.map_some, Option.map_some, Option.some.injEq] at hc
          simp only [List.flatMap_cons]
          rw [hc, hrest]
    refine congrArg (List.map Path.entityOf) (hlist _ fun q hq => ?_)
    rw [EntityConfig.isDynamicPath, Bool.or_eq_true]
    exact (List.mem_append.1 hq).symm.imp SortedSet.mem_toList.1 SortedSet.mem_toList.1
  have hdeclared : Evaluator.declaredRoots (r.set property value) =
      Evaluator.declaredRoots r := by
    refine congrArg (List.map Path.entityOf) (List.filter_congr fun target _ => ?_)
    have hm := congrArg Option.isNone (h.map_isComposite_property?_set target)
    rwa [Option.isNone_map, Option.isNone_map] at hm
  rw [Evaluator.referencedRoots, Evaluator.referencedRoots, hcode, hdeclared]
  rfl

end KeepsShape

end EntityRecord

end Recalc
