import Recalc.Entity.Config
import Recalc.Proofs.Collection.Sorted
import Recalc.Proofs.Path

/-!
# Tidy entities

A value is tidy if the keys of every object that a path can lead into are keys of paths, each once
and in order. In a tidy entity the list of paths and the look-up of properties say the same
(`mem_paths`), writing keeps the entity tidy, and a write that keeps the shape changes nothing about
which properties are there and have fields (`KeepsShape.map_isComposite_property?_set`).
-/

namespace Recalc

namespace Json

mutual

/-- The objects in the value, lists apart, have keys of paths in ascending order. -/
def Tidy : Json → Prop
  | .object fields => Entries.Ascending fields ∧ TidyFields fields
  | _ => True

/-- The keys are keys of paths and the values are tidy. -/
def TidyFields : List (String × Json) → Prop
  | [] => True
  | (key, value) :: rest => Path.IsKey key ∧ Tidy value ∧ TidyFields rest

end

theorem tidyFields_iff {fields : List (String × Json)} :
    TidyFields fields ↔ ∀ f ∈ fields, Path.IsKey f.1 ∧ Tidy f.2 := by
  induction fields with
  | nil => simp [TidyFields]
  | cons f fields ih =>
    obtain ⟨key, value⟩ := f
    rw [TidyFields, ih, List.forall_mem_cons, and_assoc]

/-- What the segments lead to, through objects only. -/
def inside? (value : Json) : List String → Option Json
  | [] => some value
  | segs => Fields.at? (value.fields?.getD []) segs

theorem inside?_of_ne_nil {value : Json} {segs : List String} (h : segs ≠ []) :
    value.inside? segs = Fields.at? (value.fields?.getD []) segs := by
  cases segs with
  | nil => exact absurd rfl h
  | cons s segs => rfl

theorem inside?_object {fields : List (String × Json)} {segs : List String} (h : segs ≠ []) :
    (object fields).inside? segs = Fields.at? fields segs := by
  cases segs with
  | nil => exact absurd rfl h
  | cons s segs => rfl

theorem isComposite_eq_true_iff {value : Json} :
    value.isComposite = true ↔ ∃ f fields, value = .object (f :: fields) := by
  cases value with
  | object fields => cases fields <;> simp [isComposite]
  | _ => simp [isComposite]

/-- Only composite values have something inside. -/
theorem inside?_of_not_composite {value : Json} (h : value.isComposite = false)
    {segs : List String} (hs : segs ≠ []) : value.inside? segs = none := by
  cases segs with
  | nil => exact absurd rfl hs
  | cons s segs =>
    rw [inside?]
    · cases value with
      | object fields =>
        cases fields with
        | nil => exact Fields.at?_nil_fields _
        | cons f fields => cases h
      | _ => exact Fields.at?_nil_fields _
    · simp

namespace Fields

/-- A look-up goes through the value of the first segment. -/
theorem at?_cons (fields : List (String × Json)) (key : String) (rest : List String) :
    at? fields (key :: rest) = (Entries.get? key fields).bind (·.inside? rest) := by
  cases rest with
  | nil =>
    rw [at?]
    cases Entries.get? key fields <;> rfl
  | cons next rest =>
    rw [← at?_inner, inner]
    cases hg : Entries.get? key fields with
    | none => exact at?_nil_fields _
    | some value =>
      cases value with
      | object fields => rfl
      | _ => rfl

/-- A look-up at more segments goes through what lies at the first ones. -/
theorem at?_append (fields : List (String × Json)) {segs : List String} (hs : segs ≠ [])
    (more : List String) : at? fields (segs ++ more) = (at? fields segs).bind (·.inside? more) := by
  induction segs generalizing fields with
  | nil => exact absurd rfl hs
  | cons key rest ih =>
    rw [List.cons_append, at?_cons, at?_cons, Option.bind_assoc]
    refine Option.bind_congr fun value hv => ?_
    rcases eq_or_ne rest [] with rfl | hne
    · rfl
    · rcases eq_or_ne (rest ++ more) [] with he | he
      · exact absurd (List.append_eq_nil_iff.1 he).1 hne
      · rw [inside?_of_ne_nil he, inside?_of_ne_nil hne]
        exact ih _ hne

theorem at?_ne_nil {fields : List (String × Json)} {segs : List String} {value : Json}
    (h : at? fields segs = some value) : segs ≠ [] := by
  rintro rfl
  cases h

/-- There is something at the segments on the way to something. -/
theorem exists_at?_of_append {fields : List (String × Json)} {segs more : List String}
    {value : Json} (hs : segs ≠ []) (hv : at? fields (segs ++ more) = some value) :
    ∃ v, at? fields segs = some v := by
  induction segs generalizing fields with
  | nil => exact absurd rfl hs
  | cons key rest ih =>
    rw [List.cons_append, at?_cons] at hv
    obtain ⟨v, hg, hin⟩ := Option.bind_eq_some_iff.1 hv
    rcases eq_or_ne rest [] with rfl | hne
    · exact ⟨v, by rw [at?_cons, hg]; rfl⟩
    · cases hf : v.fields? with
      | none =>
        cases rest with
        | nil => exact absurd rfl hne
        | cons next rest =>
          rw [List.cons_append, inside?, hf, Option.getD_none, at?_nil_fields] at hin
          · cases hin
          · simp
      | some inner =>
        cases v <;> cases hf
        rw [inside?_object (by simp [hne])] at hin
        obtain ⟨w, hw⟩ := ih hne hin
        exact ⟨w, by rw [at?_cons, hg, Option.bind_some, inside?_object hne, hw]⟩

/-- What a look-up in tidy fields finds lies at a list of keys and is tidy. -/
theorem tidy_of_at? {fields : List (String × Json)} (h : TidyFields fields) {segs : List String}
    {value : Json} (hv : at? fields segs = some value) : Path.Keys segs ∧ value.Tidy := by
  induction segs generalizing fields with
  | nil => cases hv
  | cons key rest ih =>
    rw [at?_cons, Option.bind_eq_some_iff] at hv
    obtain ⟨v, hg, hv⟩ := hv
    obtain ⟨hkey, htidy⟩ := tidyFields_iff.1 h _ (Entries.mem_of_get?_eq_some hg)
    cases rest with
    | nil =>
      obtain rfl := Option.some.inj hv
      exact ⟨Path.keys_singleton.2 hkey, htidy⟩
    | cons next rest =>
      cases v with
      | object inner =>
        obtain ⟨hk, ht⟩ := ih htidy.2 hv
        exact ⟨Path.keys_cons.2 ⟨hkey, hk⟩, ht⟩
      | _ => cases (at?_nil_fields _).symm.trans hv

end Fields

theorem inside?_append (value : Json) (segs more : List String) :
    value.inside? (segs ++ more) = (value.inside? segs).bind (·.inside? more) := by
  rcases eq_or_ne segs [] with rfl | hne
  · rfl
  · rw [inside?_of_ne_nil hne, inside?_of_ne_nil (List.append_ne_nil_of_left_ne_nil hne more)]
    exact Fields.at?_append _ hne more

theorem Tidy.of_inside? {value : Json} (h : value.Tidy) {segs : List String} {v : Json}
    (hv : value.inside? segs = some v) : Path.Keys segs ∧ v.Tidy := by
  rcases eq_or_ne segs [] with rfl | hne
  · obtain rfl := Option.some.inj hv
    exact ⟨List.forall_mem_nil _, h⟩
  · cases value with
    | object fields => exact Fields.tidy_of_at? h.2 ((inside?_object hne).symm.trans hv)
    | _ => cases (inside?_of_not_composite rfl hne).symm.trans hv

/-- Inside every value lies one without fields. -/
theorem exists_leaf_inside (value : Json) :
    ∃ segs leaf, value.inside? segs = some leaf ∧ leaf.isComposite = false := by
  cases hc : value.isComposite with
  | false => exact ⟨[], value, rfl, hc⟩
  | true =>
    obtain ⟨⟨key, first⟩, fields, rfl⟩ := isComposite_eq_true_iff.1 hc
    obtain ⟨segs, leaf, hl, hleaf⟩ := exists_leaf_inside first
    refine ⟨key :: segs, leaf, ?_, hleaf⟩
    rw [inside?_object (List.cons_ne_nil key segs), Fields.at?_cons, Entries.get?_cons, if_pos rfl]
    exact hl

/-! ### Paths and look-ups -/

/-- The objects that a look-up can lead into have ascending keys. -/
def Navigable (value : Json) : Prop :=
  ∀ segs fields, value.inside? segs = some (.object fields) → Entries.Ascending fields

theorem Tidy.navigable {value : Json} (h : value.Tidy) : value.Navigable :=
  fun _ _ hv => (h.of_inside? hv).2.1

namespace Navigable

variable {fields : List (String × Json)} (h : (Json.object fields).Navigable)
include h

theorem ascending : Entries.Ascending fields := h [] fields rfl

theorem inside?_cons {f : String × Json} (hf : f ∈ fields) (segs : List String) :
    (Json.object fields).inside? (f.1 :: segs) = f.2.inside? segs := by
  rw [inside?_object (List.cons_ne_nil _ _), Fields.at?_cons,
    Entries.get?_eq_some_of_mem h.ascending hf, Option.bind_some]

theorem of_mem {f : String × Json} (hf : f ∈ fields) : f.2.Navigable :=
  fun segs inner hv => h (f.1 :: segs) inner ((h.inside?_cons hf segs).trans hv)

end Navigable

mutual

/-- The value that stands at a list of keys and those inside it, each with the keys that lead to
it. -/
def places (above : List String) : Json → List (List String × Json)
  | .object fields => (above, .object fields) :: fieldPlaces above fields
  | value => [(above, value)]

/-- The values of fields and those inside them, each with the keys that lead to it. -/
def fieldPlaces (above : List String) : List (String × Json) → List (List String × Json)
  | [] => []
  | (key, value) :: rest => places (above ++ [key]) value ++ fieldPlaces above rest

end

/-- What is listed for a place: the path that its keys spell. -/
def placePath (start : String) (place : List String × Json) : EntityPath :=
  ⟨place.1.foldl Path.join start, !place.2.isComposite⟩

mutual

/-- The paths of a value are those of the places inside it. -/
theorem pathsAt_eq_map_places (start : String) (above : List String) (value : Json) :
    pathsAt (above.foldl Path.join start) value =
      (places above value).map (placePath start) := by
  match value with
  | .object [] => rfl
  | .object (f :: fields) =>
    rw [pathsAt, places, List.map_cons, fieldPaths_eq_map_fieldPlaces start above (f :: fields)]
    rfl
  | .null | .bool _ | .number _ | .string _ | .array _ => rfl

theorem fieldPaths_eq_map_fieldPlaces (start : String) (above : List String)
    (fields : List (String × Json)) : fieldPaths (above.foldl Path.join start) fields =
      (fieldPlaces above fields).map (placePath start) := by
  match fields with
  | [] => rfl
  | (key, value) :: rest =>
    have hvalue := pathsAt_eq_map_places start (above ++ [key]) value
    rw [List.foldl_append] at hvalue
    rw [fieldPlaces, List.map_append, ← hvalue,
      ← fieldPaths_eq_map_fieldPlaces start above rest]
    rfl

end

theorem fieldPlaces_eq_flatMap (above : List String) (fields : List (String × Json)) :
    fieldPlaces above fields = fields.flatMap fun f => places (above ++ [f.1]) f.2 := by
  induction fields with
  | nil => rfl
  | cons f fields ih => rw [List.flatMap_cons, ← ih]; rfl

theorem sizeOf_snd_lt {f : String × Json} {fields : List (String × Json)} (h : f ∈ fields) :
    sizeOf f.2 < sizeOf fields := by
  have hsmaller := List.sizeOf_lt_of_mem h
  obtain ⟨key, value⟩ := f
  rw [Prod.mk.sizeOf_spec] at hsmaller
  change sizeOf value < sizeOf fields
  omega

mutual

/-- The places inside a value are those where a look-up finds something. -/
theorem mem_places (value : Json) (h : value.Navigable) {above : List String}
    {place : List String × Json} : place ∈ places above value ↔
      ∃ segs v, value.inside? segs = some v ∧ place = (above ++ segs, v) := by
  match value with
  | .object fields =>
    rw [places, List.mem_cons, mem_fieldPlaces fields h]
    constructor
    · rintro (rfl | ⟨segs, v, hv, rfl⟩)
      · exact ⟨[], _, rfl, by rw [List.append_nil]⟩
      · exact ⟨segs, v, (inside?_object (Fields.at?_ne_nil hv)).trans hv, rfl⟩
    · rintro ⟨segs, v, hv, rfl⟩
      rcases eq_or_ne segs [] with rfl | hs
      · obtain rfl := Option.some.inj hv
        exact .inl (by rw [List.append_nil])
      · exact .inr ⟨segs, v, (inside?_object hs).symm.trans hv, rfl⟩
  | .null | .bool _ | .number _ | .string _ | .array _ =>
    rw [places, List.mem_singleton]
    · constructor
      · rintro rfl
        exact ⟨[], _, rfl, by rw [List.append_nil]⟩
      · rintro ⟨segs, v, hv, rfl⟩
        rcases eq_or_ne segs [] with rfl | hs
        · obtain rfl := Option.some.inj hv
          rw [List.append_nil]
        · rw [inside?_of_not_composite rfl hs] at hv
          cases hv
    · simp
termination_by sizeOf value

theorem mem_fieldPlaces (fields : List (String × Json)) (h : (Json.object fields).Navigable)
    {above : List String} {place : List String × Json} : place ∈ fieldPlaces above fields ↔
      ∃ segs v, Fields.at? fields segs = some v ∧ place = (above ++ segs, v) := by
  rw [fieldPlaces_eq_flatMap, List.mem_flatMap]
  constructor
  · rintro ⟨f, hf, hp⟩
    have hsmaller := sizeOf_snd_lt hf
    obtain ⟨segs, v, hv, rfl⟩ := (mem_places f.2 (h.of_mem hf)).1 hp
    refine ⟨f.1 :: segs, v, ?_, by rw [List.append_assoc, List.singleton_append]⟩
    rw [← inside?_object (List.cons_ne_nil _ _), h.inside?_cons hf, hv]
  · rintro ⟨segs, v, hv, rfl⟩
    cases segs with
    | nil => cases hv
    | cons key segs =>
      rw [Fields.at?_cons, Option.bind_eq_some_iff] at hv
      obtain ⟨value, hg, hv⟩ := hv
      have hf := Entries.mem_of_get?_eq_some hg
      have hsmaller : sizeOf value < sizeOf fields := sizeOf_snd_lt hf
      refine ⟨(key, value), hf, (mem_places value (h.of_mem hf)).2 ⟨segs, v, hv, ?_⟩⟩
      rw [List.append_assoc, List.singleton_append]
termination_by sizeOf fields

end

/-! ### Writing -/

theorem tidyFields_insert {fields : List (String × Json)} (h : TidyFields fields) {key : String}
    {value : Json} (hk : Path.IsKey key) (hv : value.Tidy) :
    TidyFields (Entries.insert key value fields) := by
  rw [tidyFields_iff] at h ⊢
  intro f hf
  rcases Entries.mem_insert hf with rfl | hf
  · exact ⟨hk, hv⟩
  · exact h f hf

namespace Fields

theorem tidy_inner {fields : List (String × Json)} (h : TidyFields fields) (key : String) :
    (Json.object (inner key fields)).Tidy := by
  rw [inner]
  split
  · rename_i fields' hg
    exact (tidyFields_iff.1 h _ (Entries.mem_of_get?_eq_some hg)).2
  · exact ⟨Entries.ascending_nil, trivial⟩

/-- Writing a tidy value at a list of keys keeps fields tidy. -/
theorem tidy_setAt {fields : List (String × Json)} {value : Json} (hv : value.Tidy)
    {segs : List String} (hs : Path.Keys segs) (h : (Json.object fields).Tidy) :
    (Json.object (setAt value fields segs)).Tidy := by
  induction segs generalizing fields with
  | nil => exact h
  | cons key rest ih =>
    obtain ⟨hkey, hrest⟩ := Path.keys_cons.1 hs
    cases rest with
    | nil => exact ⟨Entries.ascending_insert h.1 key value, tidyFields_insert h.2 hkey hv⟩
    | cons next rest =>
      exact ⟨Entries.ascending_insert h.1 key _,
        tidyFields_insert h.2 hkey (ih hrest (tidy_inner h.2 key))⟩

theorem setAt_ne_nil (value : Json) (fields : List (String × Json)) {segs : List String}
    (h : segs ≠ []) : ∃ f fields', setAt value fields segs = f :: fields' := by
  have hinsert : ∀ (key : String) (v : Json), ∃ f fields', Entries.insert key v fields =
      f :: fields' := by
    intro key v
    cases fields with
    | nil => exact ⟨_, _, rfl⟩
    | cons f fields =>
      rw [Entries.insert]
      split <;> exact ⟨_, _, rfl⟩
  cases segs with
  | nil => exact absurd rfl h
  | cons key rest =>
    cases rest with
    | nil => exact hinsert key value
    | cons next rest => exact hinsert key _

/-- A value without fields that replaces one without fields changes nothing at other segments,
except for what the objects on the way hold. -/
theorem at?_setAt_of_ne {fields : List (String × Json)} {value old : Json} {segs q : List String}
    (hnew : value.isComposite = false) (hold : at? fields segs = some old)
    (holdc : old.isComposite = false) (hq : q ≠ segs) :
    at? (setAt value fields segs) q = at? fields q ∨
      ∃ u w, at? (setAt value fields segs) q = some u ∧ at? fields q = some w ∧
        u.isComposite = true ∧ w.isComposite = true := by
  induction segs generalizing fields q with
  | nil => cases hold
  | cons key rest ih =>
    cases q with
    | nil => exact .inl rfl
    | cons key' rest' =>
      rw [at?_cons] at hold
      obtain ⟨w, hw, hin⟩ := Option.bind_eq_some_iff.1 hold
      by_cases hk : key' = key
      · subst hk
        have hrest : rest' ≠ rest := fun he => hq (he ▸ rfl)
        rw [at?_cons, at?_cons, hw]
        cases rest with
        | nil =>
          obtain rfl : w = old := Option.some.inj hin
          rw [setAt, Entries.get?_insert_self]
          left
          rw [Option.bind_some, Option.bind_some, inside?_of_not_composite hnew hrest,
            inside?_of_not_composite holdc hrest]
        | cons next rest =>
          have hcomposite : w.isComposite = true := by
            cases hc : w.isComposite with
            | true => rfl
            | false =>
              rw [inside?_of_not_composite hc (List.cons_ne_nil _ _)] at hin
              cases hin
          obtain ⟨f, inner', rfl⟩ := isComposite_eq_true_iff.1 hcomposite
          have hinner : inner key' fields = f :: inner' := by rw [inner, hw]
          rw [setAt, Entries.get?_insert_self, hinner, Option.bind_some, Option.bind_some]
          rcases eq_or_ne rest' [] with rfl | hne
          · obtain ⟨g, more, hset⟩ := setAt_ne_nil value (f :: inner') (List.cons_ne_nil next rest)
            exact .inr ⟨_, _, rfl, rfl, by rw [hset]; rfl, rfl⟩
          · rw [inside?_object hne, inside?_object hne]
            exact ih hin hrest
      · left
        rw [at?_cons, at?_cons]
        have hget : Entries.get? key' (setAt value fields (key :: rest)) =
            Entries.get? key' fields := by
          cases rest <;> rw [setAt, Entries.get?_insert_of_ne hk]
        rw [hget]

end Fields

end Json

/-! ### Entities -/

namespace Entity

/-- The properties of the entity are tidy. -/
def Tidy (e : Entity) : Prop := e.toJson.Tidy

theorem Tidy.property?_eq {e : Entity} (h : e.Tidy) {rest : List String}
    (hr : ∀ s ∈ rest, Path.separator ∉ s.toList) :
    e.property? (Path.joinSegments rest) = Json.Fields.at? e.fields rest := by
  rw [property?]
  rcases eq_or_ne rest [] with rfl | hne
  · -- The empty property has one segment, which is empty and so not a key.
    cases hv : Json.Fields.at? e.fields (Path.segments (Path.joinSegments [])) with
    | none => rfl
    | some v =>
      have hk := (Json.Fields.tidy_of_at? h.2 hv).1
      exact absurd (hk "" (by decide)) fun hk => hk.1 rfl
  · rw [Path.segments_joinSegments hne hr]

/-- The property that a path of keys splits off is found at the keys behind the name. -/
theorem Tidy.property?_split {e : Entity} (h : e.Tidy) {name : String} {segs : List String}
    (hk : Path.Keys (name :: segs)) :
    e.property? (Path.split (Path.joinSegments (name :: segs))).2 =
      Json.Fields.at? e.fields segs := by
  rw [Path.split_joinSegments hk.not_mem_separator,
    h.property?_eq (Path.keys_cons.1 hk).2.not_mem_separator]

/-- The paths of an entity: its own, and those of the places inside it. -/
theorem paths_eq (e : Entity) (name : String) : e.paths name =
    ⟨name, false⟩ :: (Json.fieldPlaces [] e.fields).map (Json.placePath name) := by
  rw [paths, ← Json.fieldPaths_eq_map_fieldPlaces]
  rfl

/-- The paths of a tidy entity: its own, and one for each property. -/
theorem Tidy.mem_paths {e : Entity} (h : e.Tidy) {name : String} {p : EntityPath} :
    p ∈ e.paths name ↔ p = ⟨name, false⟩ ∨ ∃ segs v, Json.Fields.at? e.fields segs = some v ∧
      p = ⟨Path.joinSegments (name :: segs), !v.isComposite⟩ := by
  have hspelled : ∀ {segs v}, Json.Fields.at? e.fields segs = some v →
      Json.placePath name (segs, v) = ⟨Path.joinSegments (name :: segs), !v.isComposite⟩ := by
    intro segs v hv
    have hk := (Json.Fields.tidy_of_at? h.2 hv).1
    exact congrArg (EntityPath.mk · _)
      (Path.foldl_join (List.cons_ne_nil name []) hk.not_mem_empty)
  rw [paths_eq, List.mem_cons, List.mem_map]
  refine or_congr Iff.rfl ?_
  constructor
  · rintro ⟨place, hp, rfl⟩
    obtain ⟨segs, v, hv, rfl⟩ := (Json.mem_fieldPlaces e.fields h.navigable).1 hp
    exact ⟨segs, v, hv, hspelled hv⟩
  · rintro ⟨segs, v, hv, rfl⟩
    exact ⟨_, (Json.mem_fieldPlaces e.fields h.navigable).2 ⟨segs, v, hv, rfl⟩, hspelled hv⟩

/-- The leaf paths of a tidy entity: one for each property without fields. -/
theorem Tidy.mem_leafPaths {e : Entity} (h : e.Tidy) {name path : String} :
    path ∈ e.leafPaths name ↔ ∃ segs v, Json.Fields.at? e.fields segs = some v ∧
      v.isComposite = false ∧ path = Path.joinSegments (name :: segs) := by
  simp only [leafPaths, List.mem_map, List.mem_filter, h.mem_paths]
  constructor
  · rintro ⟨p, ⟨rfl | ⟨segs, v, hv, rfl⟩, hleaf⟩, rfl⟩
    · cases hleaf
    · exact ⟨segs, v, hv, by simpa using hleaf, rfl⟩
  · rintro ⟨segs, v, hv, hc, rfl⟩
    exact ⟨_, ⟨.inr ⟨segs, v, hv, rfl⟩, by simp [hc]⟩, rfl⟩

/-- Writing a tidy value to a property of keys keeps an entity tidy. -/
theorem Tidy.set {e : Entity} (h : e.Tidy) {property : String} {value : Json}
    (hp : Path.Keys (Path.segments property)) (hv : value.Tidy) : (e.set property value).Tidy :=
  Json.Fields.tidy_setAt hv hp h

end Entity

/-! ### Records -/

namespace EntityRecord

/-- The record has the name of an entity and its entity is tidy. -/
structure WellFormed (r : EntityRecord) : Prop where
  /-- The name can start a path. -/
  proper : Path.isEntityName r.name = true
  /-- The properties are tidy. -/
  entity : r.entity.Tidy

theorem WellFormed.name {r : EntityRecord} (h : r.WellFormed) : Path.IsKey r.name :=
  Path.isKey_of_isEntityName h.proper

/-- The path is one of the record's. -/
def Has (r : EntityRecord) (path : String) : Prop := ∃ leaf, ⟨path, leaf⟩ ∈ r.paths

theorem mem_leafPaths {r : EntityRecord} {path : String} :
    path ∈ r.leafPaths ↔ ⟨path, true⟩ ∈ r.paths := by
  simp only [leafPaths, Entity.leafPaths, List.mem_map, List.mem_filter, paths]
  constructor
  · rintro ⟨⟨p, leaf⟩, ⟨hp, rfl⟩, rfl⟩
    exact hp
  · intro hp
    exact ⟨_, ⟨hp, rfl⟩, rfl⟩

theorem has_of_mem_leafPaths {r : EntityRecord} {path : String} (h : path ∈ r.leafPaths) :
    r.Has path := ⟨true, mem_leafPaths.1 h⟩

namespace WellFormed

variable {r : EntityRecord} (h : r.WellFormed)
include h

theorem property?_empty : r.entity.property? "" = none := by
  have hp : r.entity.property? (Path.joinSegments []) = none :=
    h.entity.property?_eq (List.forall_mem_nil _)
  exact hp

theorem keys_of_at? {segs : List String} {v : Json}
    (hv : Json.Fields.at? r.entity.fields segs = some v) : Path.Keys (r.name :: segs) :=
  Path.keys_cons.2 ⟨h.name, (Json.Fields.tidy_of_at? h.entity.2 hv).1⟩

/-- The paths of a record, by their segments behind the name. -/
theorem has_iff {path : String} : r.Has path ↔ path = r.name ∨
    ∃ segs v, Json.Fields.at? r.entity.fields segs = some v ∧
      path = Path.joinSegments (r.name :: segs) := by
  simp only [Has, EntityRecord.paths, h.entity.mem_paths, EntityPath.mk.injEq]
  constructor
  · rintro ⟨leaf, ⟨hp, -⟩ | ⟨segs, v, hv, hp, -⟩⟩
    · exact .inl hp
    · exact .inr ⟨segs, v, hv, hp⟩
  · rintro (hp | ⟨segs, v, hv, hp⟩)
    · exact ⟨false, .inl ⟨hp, rfl⟩⟩
    · exact ⟨_, .inr ⟨segs, v, hv, hp, rfl⟩⟩

/-- The leaf paths of a record, by their segments behind the name. -/
theorem mem_leafPaths_iff {path : String} : path ∈ r.leafPaths ↔
    ∃ segs v, Json.Fields.at? r.entity.fields segs = some v ∧ v.isComposite = false ∧
      path = Path.joinSegments (r.name :: segs) :=
  h.entity.mem_leafPaths

theorem split_of_at? {segs : List String} {v : Json}
    (hv : Json.Fields.at? r.entity.fields segs = some v) :
    Path.split (Path.joinSegments (r.name :: segs)) = (r.name, Path.joinSegments segs) ∧
      r.entity.property? (Path.joinSegments segs) = some v ∧ Path.joinSegments segs ≠ "" := by
  have hk := h.keys_of_at? hv
  refine ⟨Path.split_joinSegments hk.not_mem_separator, ?_,
    Path.joinSegments_ne_empty (Json.Fields.at?_ne_nil hv) (Path.keys_cons.1 hk).2⟩
  rw [h.entity.property?_eq (Path.keys_cons.1 hk).2.not_mem_separator, hv]

theorem split_name : Path.split r.name = (r.name, "") :=
  Path.split_joinSegments (Path.keys_singleton.2 h.name).not_mem_separator

/-- A path leads to a property of the record if and only if looking the property up finds it. -/
theorem exists_at?_iff (path : String) (v : Json) :
    (∃ segs, Json.Fields.at? r.entity.fields segs = some v ∧
      path = Path.joinSegments (r.name :: segs)) ↔
    Path.entityOf path = r.name ∧ r.entity.property? (Path.split path).2 = some v := by
  constructor
  · rintro ⟨segs, hv, rfl⟩
    obtain ⟨hs, hp, -⟩ := h.split_of_at? hv
    exact ⟨by rw [Path.entityOf, hs], by rw [hs]; exact hp⟩
  · rintro ⟨hn, hp⟩
    obtain ⟨name, rest, rfl, hno⟩ := Path.exists_segments path
    rw [Path.entityOf_joinSegments hno] at hn
    subst hn
    rw [Path.split_joinSegments hno,
      h.entity.property?_eq fun s hs => hno s (List.mem_cons_of_mem _ hs)] at hp
    exact ⟨rest, hp, rfl⟩

theorem has_iff_property? {path : String} : r.Has path ↔ path = r.name ∨
    Path.entityOf path = r.name ∧ ∃ v, r.entity.property? (Path.split path).2 = some v := by
  rw [h.has_iff]
  refine or_congr Iff.rfl ?_
  rw [exists_comm, ← exists_and_left]
  exact exists_congr fun v => h.exists_at?_iff path v

theorem mem_leafPaths_iff_property? {path : String} : path ∈ r.leafPaths ↔
    Path.entityOf path = r.name ∧
      ∃ v, r.entity.property? (Path.split path).2 = some v ∧ v.isComposite = false := by
  rw [h.mem_leafPaths_iff, ← exists_and_left, exists_comm]
  refine exists_congr fun v => ?_
  have hv := h.exists_at?_iff path v
  grind

/-- A property of the record has a path of the record. -/
theorem has_of_property? {property : String} {v : Json}
    (hv : r.entity.property? property = some v) : r.Has (Path.join r.name property) := by
  obtain ⟨first, rest, rfl, hno⟩ := Path.exists_segments property
  rw [h.entity.property?_eq hno] at hv
  rw [Path.join_joinSegments (Path.keys_cons.1 (h.keys_of_at? hv)).2]
  exact h.has_iff.2 (.inr ⟨_, v, hv, rfl⟩)

/-- The path of a property of the record splits into the record and the property. -/
theorem split_join {property : String} {v : Json} (hv : r.entity.property? property = some v) :
    Path.split (Path.join r.name property) = (r.name, property) ∧ property ≠ "" := by
  obtain ⟨first, rest, rfl, hno⟩ := Path.exists_segments property
  rw [h.entity.property?_eq hno] at hv
  rw [Path.join_joinSegments (Path.keys_cons.1 (h.keys_of_at? hv)).2]
  obtain ⟨hsplit, -, hne⟩ := h.split_of_at? hv
  exact ⟨hsplit, hne⟩

theorem entityOf_of_has {path : String} (hp : r.Has path) : Path.entityOf path = r.name := by
  rcases h.has_iff_property?.1 hp with rfl | ⟨hn, -⟩
  · rw [Path.entityOf, h.split_name]
  · exact hn

/-- What a path is right below is a path too. -/
theorem has_parent {path above : String} (hp : r.Has path) (ha : Path.parent? path = some above) :
    r.Has above := by
  rcases h.has_iff.1 hp with rfl | ⟨segs, v, hv, rfl⟩
  · rw [Path.parent?_singleton h.name] at ha
    cases ha
  · have hk := h.keys_of_at? hv
    rcases List.eq_nil_or_concat segs with rfl | ⟨init, last, rfl⟩
    · cases hv
    · rw [List.concat_eq_append] at hv hk
      have hcons : r.name :: (init ++ [last]) = (r.name :: init) ++ [last] := rfl
      rw [List.concat_eq_append, hcons, Path.parent?_concat (List.cons_ne_nil _ _) hk,
        Option.some.injEq] at ha
      subst ha
      rcases eq_or_ne init [] with rfl | hi
      · exact h.has_iff.2 (.inl rfl)
      · obtain ⟨w, hw⟩ := Json.Fields.exists_at?_of_append hi hv
        exact h.has_iff.2 (.inr ⟨init, w, hw, rfl⟩)

end WellFormed

/-! ### Writes that keep the shape -/

/-- A value without fields is written over another one. -/
structure KeepsShape (r : EntityRecord) (property : String) (value : Json) : Prop where
  /-- The new value has no fields. -/
  new : value.isComposite = false
  /-- There is an old value, and it has no fields. -/
  old : ∃ old, r.entity.property? property = some old ∧ old.isComposite = false

theorem property?_set_self (r : EntityRecord) (property : String) (value : Json) :
    (r.set property value).entity.property? property = some value :=
  Json.Fields.at?_setAt_self value (Path.segments_ne_nil property) r.entity.fields

namespace KeepsShape

variable {r : EntityRecord} {property : String} {value : Json} (h : r.KeepsShape property value)
include h

/-- Other properties are as they were, except that objects with fields may hold the new value. -/
theorem property?_set_of_ne {q : String} (hq : q ≠ property) :
    (r.set property value).entity.property? q = r.entity.property? q ∨
      ∃ u w, (r.set property value).entity.property? q = some u ∧
        r.entity.property? q = some w ∧ u.isComposite = true ∧ w.isComposite = true := by
  obtain ⟨old, hold, hc⟩ := h.old
  refine Json.Fields.at?_setAt_of_ne h.new hold hc fun he => hq ?_
  rw [← Path.joinSegments_segments q, he, Path.joinSegments_segments]

/-- Other values without fields are as they were. -/
theorem property?_set_eq_some_iff {q : String} (hq : q ≠ property) {v : Json}
    (hv : v.isComposite = false) : (r.set property value).entity.property? q = some v ↔
      r.entity.property? q = some v := by
  rcases h.property?_set_of_ne hq with he | ⟨u, w, hu, hw, hcu, hcw⟩
  · rw [he]
  · rw [hu, hw]
    refine iff_of_false (fun heq => ?_) fun heq => ?_
    · rw [Option.some.inj heq, hv] at hcu
      cases hcu
    · rw [Option.some.inj heq, hv] at hcw
      cases hcw

/-- A property is there before and after, and it has fields before and after. -/
theorem map_isComposite_property?_set (q : String) :
    ((r.set property value).entity.property? q).map Json.isComposite =
      (r.entity.property? q).map Json.isComposite := by
  by_cases hq : q = property
  · subst hq
    obtain ⟨old, hold, hc⟩ := h.old
    rw [property?_set_self, hold, Option.map_some, Option.map_some, h.new, hc]
  · rcases h.property?_set_of_ne hq with he | ⟨u, w, hu, hw, hcu, hcw⟩
    · rw [he]
    · rw [hu, hw, Option.map_some, Option.map_some, hcu, hcw]

end KeepsShape

theorem WellFormed.set {r : EntityRecord} (h : r.WellFormed) {property : String} {value : Json}
    (hp : Path.Keys (Path.segments property)) (hv : value.Tidy) :
    (r.set property value).WellFormed :=
  ⟨h.proper, h.entity.set hp hv⟩

end EntityRecord

end Recalc
