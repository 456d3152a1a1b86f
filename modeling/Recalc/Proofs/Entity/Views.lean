import Recalc.Proofs.Entity
import Mathlib.Data.List.Nodup

/-!
# Listed paths against look-ups

The list of paths joins the raw keys of objects, a look-up splits a text and walks. The two views of
an entity agree (`Entity.ViewsAgree`) exactly if the keys are keys of paths (`viewsAgree_iff`): an
empty key is listed under the path of the object that holds it, and a key with a separator is listed
under a path that leads elsewhere or nowhere.
-/

namespace Recalc

namespace Json

theorem orderedFields_iff {fields : List (String × Json)} :
    OrderedFields fields ↔ ∀ f ∈ fields, Ordered f.2 := by
  induction fields with
  | nil => simp [OrderedFields]
  | cons f fields ih =>
    obtain ⟨key, value⟩ := f
    rw [OrderedFields, ih, List.forall_mem_cons]

/-- What a look-up finds in an ordered value is ordered. -/
theorem Ordered.of_inside? {value : Json} (h : value.Ordered) {segs : List String} {v : Json}
    (hv : value.inside? segs = some v) : v.Ordered := by
  induction segs generalizing value with
  | nil => exact Option.some.inj hv ▸ h
  | cons key segs ih =>
    cases value with
    | object fields =>
      rw [inside?_object (List.cons_ne_nil _ _), Fields.at?_cons, Option.bind_eq_some_iff] at hv
      obtain ⟨w, hw, hin⟩ := hv
      exact ih (orderedFields_iff.1 h.2 _ (Entries.mem_of_get?_eq_some hw)) hin
    | _ => cases (inside?_of_not_composite rfl (List.cons_ne_nil _ _)).symm.trans hv

theorem Ordered.navigable {value : Json} (h : value.Ordered) : value.Navigable :=
  fun _ _ hv => (h.of_inside? hv).1

/-- Fields are tidy if look-ups find something at lists of keys only. -/
theorem tidyFields_of_keys {fields : List (String × Json)} (h : (Json.object fields).Navigable)
    (hkeys : ∀ segs v, Fields.at? fields segs = some v → Path.Keys segs) : TidyFields fields := by
  rw [tidyFields_iff]
  intro f hf
  have hget : ∀ segs, Fields.at? fields (f.1 :: segs) = f.2.inside? segs :=
    fun segs => (inside?_object (List.cons_ne_nil _ _)).symm.trans (h.inside?_cons hf segs)
  have hself : Fields.at? fields [f.1] = some f.2 := Entries.get?_eq_some_of_mem h.ascending hf
  refine ⟨Path.keys_singleton.1 (hkeys _ _ hself), ?_⟩
  have hsmaller := sizeOf_snd_lt hf
  cases hv : f.2 with
  | object inner =>
    rw [hv] at hget
    rw [hv, Json.object.sizeOf_spec] at hsmaller
    have hless : sizeOf inner < sizeOf fields := by omega
    have hinner : (Json.object inner).Navigable := hv ▸ h.of_mem hf
    refine ⟨hinner.ascending, tidyFields_of_keys hinner fun segs v hs => ?_⟩
    have hne := Fields.at?_ne_nil hs
    have hfull := hkeys (f.1 :: segs) v ((hget segs).trans ((inside?_object hne).trans hs))
    exact (Path.keys_cons.1 hfull).2
  | _ => trivial
termination_by sizeOf fields

/-! ### No place is listed twice -/

mutual

theorem nodup_places (value : Json) (h : value.Navigable) (above : List String) :
    ((places above value).map Prod.fst).Nodup := by
  match value with
  | .object fields =>
    rw [places, List.map_cons, List.nodup_cons]
    refine ⟨fun hm => ?_, nodup_fieldPlaces fields h above⟩
    obtain ⟨place, hp, he⟩ := List.mem_map.1 hm
    obtain ⟨segs, v, hv, rfl⟩ := (mem_fieldPlaces fields h).1 hp
    exact Fields.at?_ne_nil hv (List.append_right_eq_self.1 he)
  | .null | .bool _ | .number _ | .string _ | .array _ => exact List.nodup_singleton _
termination_by sizeOf value

/-- The places inside fields have different lists of keys. -/
theorem nodup_fieldPlaces (fields : List (String × Json)) (h : (Json.object fields).Navigable)
    (above : List String) : ((fieldPlaces above fields).map Prod.fst).Nodup := by
  rw [fieldPlaces_eq_flatMap, List.map_flatMap, List.nodup_flatMap]
  constructor
  · intro f hf
    have hsmaller := sizeOf_snd_lt hf
    exact nodup_places f.2 (h.of_mem hf) _
  · -- places in different fields part at the keys of the fields
    refine h.ascending.imp_of_mem fun {f g} hf hg hlt => ?_
    refine List.disjoint_left.2 ?_
    intro segs hs ht
    obtain ⟨place, hp, rfl⟩ := List.mem_map.1 hs
    obtain ⟨place', hp', he⟩ := List.mem_map.1 ht
    obtain ⟨segs, v, -, rfl⟩ := (mem_places f.2 (h.of_mem hf)).1 hp
    obtain ⟨segs', v', -, rfl⟩ := (mem_places g.2 (h.of_mem hg)).1 hp'
    simp only [List.append_assoc, List.append_cancel_left_eq, List.singleton_append,
      List.cons.injEq] at he
    rw [he.1, Std.LawfulEqOrd.compare_eq_iff_eq.2 rfl] at hlt
    cases hlt
termination_by sizeOf fields

end

end Json

namespace Entity

/-- The list of paths and the look-up of properties say the same about an entity called `name`. -/
structure ViewsAgree (e : Entity) (name : String) : Prop where
  /-- No path is listed twice. -/
  distinct : ((e.paths name).map (·.path)).Nodup
  /-- The path of a property is listed if the property is there, and it is listed as a leaf unless
  its value is an object with fields. -/
  listed : ∀ property, property ≠ "" → ∀ leaf, ⟨Path.join name property, leaf⟩ ∈ e.paths name ↔
    ∃ v, e.property? property = some v ∧ leaf = !v.isComposite

/-- The lists of keys at which a look-up finds something, the empty list for the entity itself. -/
def keyLists (e : Entity) : List (List String) := (Json.places [] e.toJson).map Prod.fst

theorem map_path_paths (e : Entity) (name : String) :
    (e.paths name).map (·.path) = e.keyLists.map (·.foldl Path.join name) := by
  rw [paths_eq, keyLists, toJson, Json.places, List.map_cons, List.map_cons, List.map_cons,
    List.map_map, List.map_map]
  rfl

section

variable {e : Entity} (hnav : e.toJson.Navigable)
include hnav

theorem mem_keyLists {segs : List String} :
    segs ∈ e.keyLists ↔ ∃ v, e.toJson.inside? segs = some v := by
  rw [keyLists, List.mem_map]
  constructor
  · rintro ⟨place, hp, rfl⟩
    obtain ⟨segs, v, hv, rfl⟩ := (Json.mem_places e.toJson hnav).1 hp
    exact ⟨v, hv⟩
  · rintro ⟨v, hv⟩
    exact ⟨(segs, v), (Json.mem_places e.toJson hnav).2 ⟨segs, v, hv, rfl⟩, rfl⟩

namespace ViewsAgree

variable {name : String} (h : e.ViewsAgree name)
include h

omit hnav in
/-- Different lists of keys spell different paths. -/
theorem eq_of_foldl_join {segs other : List String} (hs : segs ∈ e.keyLists)
    (ho : other ∈ e.keyLists)
    (he : segs.foldl Path.join name = other.foldl Path.join name) : segs = other := by
  have hdistinct := h.distinct
  rw [map_path_paths] at hdistinct
  exact List.inj_on_of_nodup_map hdistinct hs ho he

/-- No key is empty: its path would be that of the object that holds it. -/
theorem not_mem_empty {segs : List String} (hs : segs ∈ e.keyLists) : "" ∉ segs := by
  intro hm
  obtain ⟨above, rest, rfl⟩ := List.append_of_mem hm
  obtain ⟨v, hv⟩ := (mem_keyLists hnav).1 hs
  rw [List.append_cons, Json.inside?_append, Option.bind_eq_some_iff] at hv
  obtain ⟨inner, hinner, -⟩ := hv
  have hlower := (mem_keyLists hnav).2 ⟨inner, hinner⟩
  rw [Json.inside?_append, Option.bind_eq_some_iff] at hinner
  obtain ⟨outer, houter, -⟩ := hinner
  have hupper := (mem_keyLists hnav).2 ⟨outer, houter⟩
  have hsame : (above ++ [""]).foldl Path.join name = above.foldl Path.join name := by
    rw [List.foldl_append]
    rfl
  have hlen := congrArg List.length (h.eq_of_foldl_join hlower hupper hsame)
  simp at hlen

/-- No key holds a separator: its path would lead elsewhere. -/
theorem keys {segs : List String} (hs : segs ∈ e.keyLists) : Path.Keys segs := by
  rcases eq_or_ne segs [] with rfl | hne
  · exact List.forall_mem_nil _
  have hempty := h.not_mem_empty hnav hs
  have hproperty := Path.joinSegments_ne_empty_of_not_mem hne hempty
  have hspelled : ∀ {segs : List String}, segs ≠ [] → "" ∉ segs →
      segs.foldl Path.join name = Path.join name (Path.joinSegments segs) := by
    intro segs hne hempty
    rw [Path.join, if_neg (Path.joinSegments_ne_empty_of_not_mem hne hempty),
      ← Path.joinSegments_cons hne]
    exact Path.foldl_join (List.cons_ne_nil name []) hempty
  obtain ⟨v, hv⟩ := (mem_keyLists hnav).1 hs
  have hlisted : ⟨Path.join name (Path.joinSegments segs), !v.isComposite⟩ ∈ e.paths name := by
    rw [paths_eq, ← hspelled hne hempty]
    have hat := (Json.inside?_object hne).symm.trans hv
    exact List.mem_cons_of_mem _ (List.mem_map.2
      ⟨(segs, v), (Json.mem_fieldPlaces e.fields hnav).2 ⟨segs, v, hat, rfl⟩, rfl⟩)
  -- the look-up of the listed path finds something, at the pieces of the text that was joined
  obtain ⟨w, hw, -⟩ := (h.listed _ hproperty _).1 hlisted
  have hpieces : Path.segments (Path.joinSegments segs) ∈ e.keyLists :=
    (mem_keyLists hnav).2 ⟨w, (Json.inside?_object (Path.segments_ne_nil _)).trans hw⟩
  have hsame : Path.segments (Path.joinSegments segs) = segs := by
    refine h.eq_of_foldl_join hpieces hs ?_
    rw [hspelled (Path.segments_ne_nil _) (h.not_mem_empty hnav hpieces),
      Path.joinSegments_segments, hspelled hne hempty]
  intro s hm
  refine ⟨fun he => hempty (he ▸ hm), ?_⟩
  rw [← hsame] at hm
  exact Path.separator_not_mem_of_mem_segments hm

end ViewsAgree

end

namespace Tidy

variable {e : Entity} (h : e.Tidy) {name : String} (hn : Path.IsKey name)
include h hn

/-- No path of a tidy entity is listed twice. -/
theorem nodup_map_path_paths : ((e.paths name).map (·.path)).Nodup := by
  rw [map_path_paths]
  refine (Json.nodup_places e.toJson h.navigable []).map_on fun segs hs other ho he => ?_
  obtain ⟨v, hv⟩ := (mem_keyLists h.navigable).1 hs
  obtain ⟨w, hw⟩ := (mem_keyLists h.navigable).1 ho
  have hk : Path.Keys segs := (Json.Tidy.of_inside? h hv).1
  have hko : Path.Keys other := (Json.Tidy.of_inside? h hw).1
  have hspelled : ∀ {segs : List String}, Path.Keys segs →
      segs.foldl Path.join name = Path.joinSegments (name :: segs) := fun hk =>
    Path.foldl_join (List.cons_ne_nil name []) hk.not_mem_empty
  rw [hspelled hk, hspelled hko] at he
  exact (List.cons.inj (Path.joinSegments_inj (Path.keys_cons.2 ⟨hn, hk⟩)
    (Path.keys_cons.2 ⟨hn, hko⟩) (List.cons_ne_nil _ _) (List.cons_ne_nil _ _) he)).2

omit hn in
/-- A tidy entity lists the paths of its properties. -/
theorem mem_paths_join_iff {property : String} (hp : property ≠ "") {leaf : Bool} :
    ⟨Path.join name property, leaf⟩ ∈ e.paths name ↔
      ∃ v, e.property? property = some v ∧ leaf = !v.isComposite := by
  have hroot : (⟨Path.join name property, leaf⟩ : EntityPath) ≠ ⟨name, false⟩ := by
    intro he
    have hof := (Path.propertyOf_eq_some_iff hp).2 (EntityPath.mk.inj he).1.symm
    rw [Path.propertyOf, if_pos rfl] at hof
    exact hp (Option.some.inj hof).symm
  rw [h.mem_paths, or_iff_right hroot]
  constructor
  · rintro ⟨segs, v, hv, he⟩
    have hk := (Json.Fields.tidy_of_at? h.2 hv).1
    obtain ⟨hpath, rfl⟩ := EntityPath.mk.inj he
    have hne := Path.joinSegments_ne_empty (Json.Fields.at?_ne_nil hv) hk
    rw [← Path.join_joinSegments hk, ← Path.propertyOf_eq_some_iff hne,
      (Path.propertyOf_eq_some_iff hp).2 rfl, Option.some.injEq] at hpath
    exact ⟨v, by rw [hpath, h.property?_eq hk.not_mem_separator, hv], rfl⟩
  · rintro ⟨v, hv, rfl⟩
    have hk := (Json.Fields.tidy_of_at? h.2 hv).1
    refine ⟨Path.segments property, v, hv, ?_⟩
    rw [← Path.join_joinSegments hk, Path.joinSegments_segments]

theorem viewsAgree : e.ViewsAgree name :=
  ⟨h.nodup_map_path_paths hn, fun _ hp _ => h.mem_paths_join_iff hp⟩

end Tidy

/-- The two views agree exactly if no key, in any object that a path can lead into, is empty or
holds a separator. -/
theorem viewsAgree_iff {fields : List (String × Json)} (ho : (Json.object fields).Ordered)
    {name : String} (hn : Path.isEntityName name = true) :
    (ofJson (.object fields)).ViewsAgree name ↔ Json.TidyFields fields := by
  have hnav : (ofJson (.object fields)).toJson.Navigable := ho.navigable
  constructor
  · intro h
    refine Json.tidyFields_of_keys ho.navigable fun segs v hv => h.keys hnav ?_
    exact (mem_keyLists hnav).2 ⟨v, (Json.inside?_object (Json.Fields.at?_ne_nil hv)).trans hv⟩
  · intro h
    have htidy : (ofJson (.object fields)).Tidy := ⟨ho.1, h⟩
    exact htidy.viewsAgree (Path.isKey_of_isEntityName hn)

/-- The views agree on a table with an object in it, and they do not on one that spells the same
path twice. -/
theorem viewsAgree_iff_table :
    let table := [("meta", Json.object [("page", .null), ("tags", .array [.null])]),
      ("rows", .object [])]
    let spelled := [("meta", Json.object [("page", .null)]), ("meta.page", .null)]
    ((Json.object table).Ordered ∧ (ofJson (.object table)).ViewsAgree "Table") ∧
      (Json.object spelled).Ordered ∧ ¬ (ofJson (.object spelled)).ViewsAgree "Table" := by
  intro table spelled
  have hname : Path.isEntityName "Table" = true := by decide
  have htable : (Json.object table).Ordered :=
    ⟨by decide, ⟨by decide, trivial, ⟨trivial, trivial⟩, trivial⟩, ⟨.nil, trivial⟩, trivial⟩
  have hspelled : (Json.object spelled).Ordered :=
    ⟨by decide, ⟨by decide, trivial, trivial⟩, trivial, trivial⟩
  have htidy : Json.TidyFields table :=
    ⟨by decide, ⟨by decide, by decide, trivial, by decide, trivial, trivial⟩, by decide,
      ⟨.nil, trivial⟩, trivial⟩
  refine ⟨⟨htable, (viewsAgree_iff htable hname).2 htidy⟩, hspelled, fun h => ?_⟩
  have hkey : Path.IsKey "meta.page" := ((viewsAgree_iff hspelled hname).1 h).2.2.1
  exact absurd hkey (by decide)

/-- A key with a separator is listed, but a look-up of its path splits it and finds nothing. -/
theorem not_viewsAgree_dotted : (Json.object [("a.b", .bool true)]).Ordered ∧
    Path.isEntityName "E" = true ∧ ¬ (ofJson (.object [("a.b", .bool true)])).ViewsAgree "E" := by
  refine ⟨⟨List.pairwise_singleton _ _, trivial, trivial⟩, by decide, fun h => ?_⟩
  have hlisted : ⟨"E.a.b", true⟩ ∈ (ofJson (.object [("a.b", .bool true)])).paths "E" := by decide
  obtain ⟨v, hv, -⟩ := (h.listed "a.b" (by decide) true).1 hlisted
  have hnone : (ofJson (.object [("a.b", .bool true)])).property? "a.b" = none := rfl
  rw [hnone] at hv
  cases hv

end Entity

end Recalc
