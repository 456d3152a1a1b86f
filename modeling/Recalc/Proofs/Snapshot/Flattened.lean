import Recalc.Proofs.Snapshot.Nested

/-!
# Assembling undoes flattening

A snapshot that stores the raw values of an entity's leaves, next to paths of other entities, shows
the entity again: at each of its paths the raw value is assembled, and at its name the whole object
(`Snapshot.Holds.assembles`). Flattening a value below a list of segments is described by look-ups
inside it (`Snapshot.Bears`); the object of the leaves below has its fields again, key by key
(`Snapshot.Bears.fieldsAt_eq`). Other entities need not be well-formed, so what belongs to the
entity is first picked out (`Snapshot.ofEntity`).
-/

namespace Recalc

open Json

namespace Snapshot

/-! ### A value stored leaf by leaf -/

/-- The leaves of a value, and nothing else, are stored at and below a list of segments. -/
def Bears (s : Snapshot) (base : List String) (value : Json) : Prop :=
  ∀ segs, Path.Keys segs → s.get? (Path.joinSegments (base ++ segs)) =
    ((value.inside? segs).filter fun v => !v.isComposite).map .data

variable {s : Snapshot} {base : List String} {value : Json}

/-- Nothing is written into an object under what is no key. -/
theorem Flat.get?_fieldsAt_of_not_isKey (h : s.Flat) (hne : base ≠ []) (hk : Path.Keys base)
    {key : String} (hkey : ¬ Path.IsKey key) : Entries.get? key (s.fieldsAt base) = none := by
  have hnothing : (s.writesAt base).filterMap (Fields.enter? key) = [] := by
    refine List.filterMap_eq_nil_iff.2 fun write hw => Option.eq_none_iff_forall_ne_some.2 ?_
    rintro ⟨rest, payload⟩ he
    obtain ⟨leaf, hl, hwrite⟩ := List.mem_filterMap.1 hw
    obtain ⟨more, stored, hm, hkm, rfl, -⟩ := h.exists_of_mem_below hne hk hl
    rw [write?_joinSegments hne hm hkm] at hwrite
    obtain ⟨payload, -, rfl⟩ := Option.map_eq_some_iff.1 hwrite
    obtain ⟨rfl, -⟩ := Prod.mk.inj (Fields.enter?_eq_some_iff.1 he)
    exact hkey (Path.keys_cons.1 hkm).1
  rw [fieldsAt, Fields.get?_setAll, hnothing]
  rfl

theorem ascending_fieldsAt (s : Snapshot) (base : List String) :
    Entries.Ascending (s.fieldsAt base) :=
  Fields.ascending_setAll Entries.ascending_nil _

namespace Bears

/-- A part of the value is stored further down. -/
theorem inside (h : s.Bears base value) {segs : List String} (hk : Path.Keys segs) {v : Json}
    (hv : value.inside? segs = some v) : s.Bears (base ++ segs) v := by
  intro more hm
  rw [List.append_assoc, h _ (Path.keys_append.2 ⟨hk, hm⟩), inside?_append, hv]
  rfl

theorem get?_of_leaf (h : s.Bears base value) (hc : value.isComposite = false) :
    s.get? (Path.joinSegments base) = some (.data value) := by
  have hself := h [] (List.forall_mem_nil _)
  rw [List.append_nil, inside?, Option.filter_some_pos (by rw [hc]; rfl)] at hself
  exact hself

theorem get?_of_composite (h : s.Bears base value) (hc : value.isComposite = true) :
    s.get? (Path.joinSegments base) = none := by
  have hself := h [] (List.forall_mem_nil _)
  rw [List.append_nil, inside?, Option.filter_some_neg (by rw [hc]; simp)] at hself
  exact hself

/-- Where the value has nothing, nothing is stored. -/
theorem get?_of_nothing (h : s.Bears base value) {segs : List String} (hk : Path.Keys segs)
    (hv : value.inside? segs = none) : s.get? (Path.joinSegments (base ++ segs)) = none := by
  rw [h segs hk, hv]
  rfl

section Flat

variable (hs : s.Flat) (hne : base ≠ []) (hk : Path.Keys base)
include hs hne hk

/-- Where the value has nothing, nothing is written into an object. -/
theorem writesAt_of_nothing (h : s.Bears base value) {segs : List String} (hks : Path.Keys segs)
    (hv : value.inside? segs = none) : s.writesAt (base ++ segs) = [] := by
  have hbelow : s.below (Path.joinSegments (base ++ segs)) = [] := by
    refine Decidable.byContradiction fun hb => ?_
    obtain ⟨more, stored, -, hkm, hget⟩ := hs.exists_of_below_ne_nil
      (List.append_ne_nil_of_left_ne_nil hne segs) (Path.keys_append.2 ⟨hk, hks⟩) hb
    rw [List.append_assoc, h.get?_of_nothing (Path.keys_append.2 ⟨hks, hkm⟩)
      (by rw [inside?_append, hv]; rfl)] at hget
    cases hget
  rw [writesAt, hbelow, List.filterMap_nil]

omit hs in
/-- A value with fields has a leaf that is written into its object. -/
theorem writesAt_ne_nil (h : s.Bears base value) (ht : value.Tidy)
    (hc : value.isComposite = true) : s.writesAt base ≠ [] := by
  obtain ⟨segs, leaf, hl, hleaf⟩ := value.exists_leaf_inside
  have hks := (ht.of_inside? hl).1
  have hsegs : segs ≠ [] := by
    rintro rfl
    rw [← Option.some.inj hl, hc] at hleaf
    cases hleaf
  have hget : s.get? (Path.joinSegments (base ++ segs)) = some (.data leaf) :=
    (h.inside hks hl).get?_of_leaf hleaf
  exact List.ne_nil_of_mem
    (mem_writesAt_of_get? hne hsegs (Path.keys_append.2 ⟨hk, hks⟩) hget rfl)

end Flat

/-- **The object of the leaves below has the fields that were stored.** -/
theorem fieldsAt_eq (hs : s.Flat) {base : List String} (hne : base ≠ []) (hk : Path.Keys base)
    {fields : List (String × Json)} (h : s.Bears base (.object fields))
    (ht : (Json.object fields).Tidy) : s.fieldsAt base = fields := by
  refine Entries.ext_get? (s.ascending_fieldsAt base) ht.1 fun key => ?_
  by_cases hkey : Path.IsKey key
  · have hks : Path.Keys [key] := Path.keys_singleton.2 hkey
    have hkeys : Path.Keys (base ++ [key]) := Path.keys_append.2 ⟨hk, hks⟩
    have hinside : (Json.object fields).inside? [key] = Entries.get? key fields := rfl
    cases hg : Entries.get? key fields with
    | none =>
      rw [hs.get?_fieldsAt_of_none hne hkeys (h.get?_of_nothing hks (hinside.trans hg)),
        if_pos (h.writesAt_of_nothing hs hne hk hks (hinside.trans hg))]
    | some child =>
      have hchild : s.Bears (base ++ [key]) child := h.inside hks (hinside.trans hg)
      have htidy : child.Tidy := (ht.of_inside? (hinside.trans hg)).2
      cases hc : child.isComposite with
      | false => rw [hs.get?_fieldsAt hne hkeys (hchild.get?_of_leaf hc), Value.payload?]
      | true =>
        obtain ⟨f, inner, rfl⟩ := isComposite_eq_true_iff.1 hc
        have hmem : (key, Json.object (f :: inner)) ∈ fields := Entries.mem_of_get?_eq_some hg
        rw [hs.get?_fieldsAt_of_none hne hkeys (hchild.get?_of_composite hc),
          if_neg (hchild.writesAt_ne_nil (by simp) hkeys htidy hc),
          fieldsAt_eq hs (by simp) hkeys hchild htidy]
  · rw [hs.get?_fieldsAt_of_not_isKey hne hk hkey, eq_comm, Entries.get?_eq_none_iff]
    exact fun v hv => hkey (tidyFields_iff.1 ht.2 _ hv).1
termination_by sizeOf fields
decreasing_by
  have hsize := List.sizeOf_lt_of_mem hmem
  simp only [Prod.mk.sizeOf_spec, Json.object.sizeOf_spec] at hsize
  omega

/-- What is stored leaf by leaf is assembled as a whole. -/
theorem assemble?_eq (hs : s.Flat) (hne : base ≠ []) (hk : Path.Keys base)
    (h : s.Bears base value) (ht : value.Tidy) :
    s.assemble? (Path.joinSegments base) = some (.data value) := by
  cases hc : value.isComposite with
  | false => rw [assemble?, h.get?_of_leaf hc]
  | true =>
    obtain ⟨f, fields, rfl⟩ := isComposite_eq_true_iff.1 hc
    have hbelow : s.below (Path.joinSegments base) ≠ [] := by
      intro hb
      refine h.writesAt_ne_nil hne hk ht hc ?_
      rw [writesAt, hb, List.filterMap_nil]
    rw [assemble?_of_below (h.get?_of_composite hc) hbelow, h.fieldsAt_eq hs hne hk ht]

end Bears

/-! ### An entity next to others -/

/-- The values at paths of one entity. -/
def ofEntity (s : Snapshot) (name : String) : Snapshot :=
  ⟨s.values.filter fun path _ => Path.entityOf path = name⟩

theorem get?_ofEntity (s : Snapshot) (name path : String) :
    (s.ofEntity name).get? path = if Path.entityOf path = name then s.get? path else none := by
  refine (SortedMap.get?_filter _ _ path).trans ?_
  change (s.get? path).filter _ = _
  by_cases hp : Path.entityOf path = name <;> cases s.get? path <;> simp [hp]

/-- Other entities do not matter at the paths of an entity. -/
theorem equalFrom_ofEntity (s : Snapshot) {name path : String} (hp : Path.entityOf path = name) :
    s.EqualFrom (s.ofEntity name) path := by
  rintro q (rfl | hq)
  · rw [get?_ofEntity, if_pos hp]
  · rw [get?_ofEntity, if_pos ((Path.entityOf_of_isDescendant hq).trans hp)]

/-- The raw values of the leaves of an entity are stored, and else values of other entities only. -/
structure Holds (s : Snapshot) (name : String) (e : Entity) : Prop where
  /-- Each leaf has its raw value. -/
  leaf : ∀ path ∈ e.leafPaths name, ∃ raw,
    e.property? (Path.split path).2 = some raw ∧ s.get? path = some (.data raw)
  /-- Every other path belongs to another entity. -/
  other : ∀ path value, s.get? path = some value → path ∉ e.leafPaths name →
    Path.entityOf path ≠ name

namespace Holds

variable {name : String} {e : Entity} (h : s.Holds name e) (hn : Path.isEntityName name = true)
  (he : e.Tidy)

include h in
theorem mem_leafPaths {path : String} {value : Value}
    (hv : (s.ofEntity name).get? path = some value) : path ∈ e.leafPaths name := by
  rw [get?_ofEntity] at hv
  split at hv
  · rename_i hp
    exact Decidable.byContradiction fun hout => h.other path value hv hout hp
  · cases hv

include h hn he

/-- The segments of a leaf lead to it. -/
theorem exists_at? {path : String} {value : Value} (hv : (s.ofEntity name).get? path = some value) :
    ∃ segs leaf, Fields.at? e.fields segs = some leaf ∧ leaf.isComposite = false ∧
      Path.Keys (name :: segs) ∧ path = Path.joinSegments (name :: segs) := by
  obtain ⟨segs, leaf, hl, hc, hp⟩ := he.mem_leafPaths.1 (h.mem_leafPaths hv)
  exact ⟨segs, leaf, hl, hc,
    Path.keys_cons.2 ⟨Path.isKey_of_isEntityName hn, (Fields.tidy_of_at? he.2 hl).1⟩, hp⟩

theorem flat : (s.ofEntity name).Flat where
  keys leaf hm := by
    obtain ⟨segs, -, -, -, hk, hp⟩ := h.exists_at? hn he (mem_toList.1 hm)
    rwa [hp, Path.segments_join (List.cons_ne_nil _ _) hk]
  apart leaf hm other ho := by
    obtain ⟨segs, v, hv, hc, hk, hp⟩ := h.exists_at? hn he (mem_toList.1 hm)
    obtain ⟨segs', w, hw, -, hk', hp'⟩ := h.exists_at? hn he (mem_toList.1 ho)
    refine Bool.eq_false_iff.2 fun hd => ?_
    rw [hp, hp', Path.isDescendant_joinSegments (List.cons_ne_nil _ _) hk (List.cons_ne_nil _ _)
      hk'] at hd
    obtain ⟨more, hm, heq⟩ := hd
    obtain rfl : segs' = segs ++ more := (List.cons_eq_cons.1 heq).2
    -- There is nothing inside a leaf.
    rw [Fields.at?_append _ (Fields.at?_ne_nil hv), hv, Option.bind_some,
      inside?_of_not_composite hc hm] at hw
    cases hw

/-- The values of the entity are those of its leaves. -/
theorem bears (hne : e.fields ≠ []) : (s.ofEntity name).Bears [name] e.toJson := by
  intro segs hk
  have hkeys : Path.Keys (name :: segs) :=
    Path.keys_cons.2 ⟨Path.isKey_of_isEntityName hn, hk⟩
  rw [List.singleton_append]
  cases hl : (e.toJson.inside? segs).filter fun v => !v.isComposite with
  | none =>
    refine Option.eq_none_iff_forall_ne_some.2 fun value hv => ?_
    obtain ⟨segs', leaf, hat, hc, hk', hp⟩ := h.exists_at? hn he hv
    have hsegs := Path.joinSegments_inj hkeys hk' (List.cons_ne_nil _ _) (List.cons_ne_nil _ _) hp
    obtain rfl : segs = segs' := (List.cons_eq_cons.1 hsegs).2
    rw [Entity.toJson, inside?_object (Fields.at?_ne_nil hat), hat,
      Option.filter_some_pos (by rw [hc]; rfl)] at hl
    cases hl
  | some leaf =>
    obtain ⟨hin, hc⟩ := Option.filter_eq_some_iff.1 hl
    rw [Bool.not_eq_true'] at hc
    -- The whole entity is no leaf.
    have hsegs : segs ≠ [] := by
      rintro rfl
      obtain ⟨f, fields, hf⟩ := List.exists_cons_of_ne_nil hne
      rw [← Option.some.inj hin, Entity.toJson, hf] at hc
      cases hc
    have hat : Fields.at? e.fields segs = some leaf := (inside?_object hsegs).symm.trans hin
    obtain ⟨raw, hraw, hget⟩ :=
      h.leaf _ (he.mem_leafPaths.2 ⟨segs, leaf, hat, hc, rfl⟩)
    rw [he.property?_split hkeys, hat] at hraw
    rw [get?_ofEntity, if_pos (Path.entityOf_joinSegments hkeys.not_mem_separator), hget,
      Option.some.inj hraw]
    rfl

/-- What the segments lead to is assembled at their path. -/
theorem assemble?_eq (hne : e.fields ≠ []) {segs : List String} (hk : Path.Keys segs) {v : Json}
    (hv : e.toJson.inside? segs = some v) :
    s.assemble? (Path.joinSegments (name :: segs)) = some (.data v) := by
  have hname : Path.Keys [name] := Path.keys_singleton.2 (Path.isKey_of_isEntityName hn)
  have hkeys : Path.Keys ([name] ++ segs) := Path.keys_append.2 ⟨hname, hk⟩
  have hentity : Path.entityOf (Path.joinSegments (name :: segs)) = name :=
    Path.entityOf_joinSegments hkeys.not_mem_separator
  rw [(s.equalFrom_ofEntity hentity).assemble?_eq]
  exact ((h.bears hn he hne).inside hk hv).assemble?_eq (h.flat hn he) (List.cons_ne_nil _ _) hkeys
    (Json.Tidy.of_inside? he hv).2

/-- **Assembling undoes flattening**: with the leaves of an entity stored next to other entities,
the whole object is assembled at its name, and at each other of its paths the raw value there. -/
theorem assembles (hne : e.fields ≠ []) :
    s.assemble? name = some (.data e.toJson) ∧
    ∀ p ∈ e.paths name, p.path ≠ name → ∃ raw, e.property? (Path.split p.path).2 = some raw ∧
      s.assemble? p.path = some (.data raw) := by
  refine ⟨h.assemble?_eq hn he hne (List.forall_mem_nil _) rfl, fun p hp hpath => ?_⟩
  obtain rfl | ⟨segs, v, hv, rfl⟩ := he.mem_paths.1 hp
  · exact absurd rfl hpath
  · have hk := (Fields.tidy_of_at? he.2 hv).1
    have hkeys : Path.Keys (name :: segs) :=
      Path.keys_cons.2 ⟨Path.isKey_of_isEntityName hn, hk⟩
    refine ⟨v, by rw [he.property?_split hkeys, hv], h.assemble?_eq hn he hne hk ?_⟩
    rw [Entity.toJson, inside?_object (Fields.at?_ne_nil hv), hv]

end Holds

/-- A page, no tags yet, and a list of rows. -/
def pagedEntity : Entity :=
  ⟨[("meta", .object [("page", .ofNat 2), ("tags", .object [])]),
    ("rows", .array [.object [("id", .ofNat 1)]])]⟩

/-- The leaves of the entity `Table1` among those of entities with similar names. -/
def pagedLeaves : Snapshot :=
  [("Table1.rows", .data (.array [.object [("id", .ofNat 1)]])), ("Table10.rows", .undefined),
    ("Table1.meta.page", .data (.ofNat 2)), ("Table1_.meta", .data .null),
    ("Table1.meta.tags", .data (.object [])), ("Table", .undefined)].foldl
      (fun s leaf => s.insert leaf.1 leaf.2) empty

theorem holds_pagedLeaves : pagedLeaves.Holds "Table1" pagedEntity where
  leaf path hp := by
    have hpaths : pagedEntity.leafPaths "Table1" =
        ["Table1.meta.page", "Table1.meta.tags", "Table1.rows"] := by decide
    simp only [hpaths, List.mem_cons, List.not_mem_nil, or_false] at hp
    rcases hp with rfl | rfl | rfl
    · exact ⟨_, rfl, rfl⟩
    · exact ⟨_, rfl, rfl⟩
    · exact ⟨_, rfl, rfl⟩
  other path value hv hout := by
    have hothers : ∀ leaf ∈ pagedLeaves.toList, leaf.1 ∉ pagedEntity.leafPaths "Table1" →
        Path.entityOf leaf.1 ≠ "Table1" := by decide
    exact hothers (path, value) (mem_toList.2 hv) hout

theorem tidy_pagedEntity : pagedEntity.Tidy := by
  refine ⟨by decide, by decide, ⟨by decide, ?_⟩, by decide, trivial, trivial⟩
  exact ⟨by decide, trivial, by decide, ⟨by decide, trivial⟩, trivial⟩

/-- The object under `meta` is not stored, but it is found with its empty object inside. -/
theorem assembles_paged : pagedLeaves.Holds "Table1" pagedEntity ∧
    Path.isEntityName "Table1" = true ∧ pagedEntity.Tidy ∧ pagedEntity.fields ≠ [] ∧
    ⟨"Table1.meta", false⟩ ∈ pagedEntity.paths "Table1" ∧
    pagedLeaves.assemble? "Table1" = some (.data pagedEntity.toJson) ∧
    pagedLeaves.assemble? "Table1.meta" =
      some (.data (.object [("page", .ofNat 2), ("tags", .object [])])) := by
  have hname : Path.isEntityName "Table1" = true := by decide
  have hne : pagedEntity.fields ≠ [] := List.cons_ne_nil _ _
  have hmeta : ⟨"Table1.meta", false⟩ ∈ pagedEntity.paths "Table1" := by decide
  obtain ⟨hwhole, hpaths⟩ := holds_pagedLeaves.assembles hname tidy_pagedEntity hne
  obtain ⟨raw, hraw, hassembled⟩ := hpaths _ hmeta (by decide)
  have hproperty : pagedEntity.property? (Path.split "Table1.meta").2 =
      some (.object [("page", .ofNat 2), ("tags", .object [])]) := rfl
  obtain rfl := Option.some.inj (hproperty.symm.trans hraw)
  exact ⟨holds_pagedLeaves, hname, tidy_pagedEntity, hne, hmeta, hwhole, hassembled⟩

end Snapshot

end Recalc
