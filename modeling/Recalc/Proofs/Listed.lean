import Recalc.Proofs.Entity
import Mathlib.Data.List.Basic

/-!
# Which paths an entity lists

Whatever the keys of its objects are, the paths of an entity begin with its name
(`EntityRecord.entityOf_of_has`). A write makes its own path one of them (`has_set_self`), and can
add or drop only paths at, above or below it (`has_set_of_apart`); a value without fields that
replaces one without fields changes nothing about them (`KeepsShape.mem_paths_set`). A key may hold
a separator, so these are statements about texts and not about lists of keys.
-/

namespace Recalc

namespace Path

/-! ### Texts below a path -/

theorem pieces_append (cs ds : List Char) :
    pieces (cs ++ separator :: ds) = pieces cs ++ pieces ds := by
  induction cs with
  | nil => simp [pieces]
  | cons c cs ih =>
    rw [List.cons_append, pieces, pieces, ih]
    by_cases hc : c = separator
    · rw [if_pos hc, if_pos hc, List.cons_append]
    · rw [if_neg hc, if_neg hc]
      cases hp : pieces cs with
      | nil => exact absurd hp (pieces_ne_nil cs)
      | cons piece rest => rfl

theorem segments_append (above relative : String) :
    segments (above ++ "." ++ relative) = segments above ++ segments relative := by
  have htext : (above ++ "." ++ relative).toList =
      above.toList ++ separator :: relative.toList := by simp [separator]
  rw [segments, htext, pieces_append, List.map_append]
  rfl

/-- The path is the first one, or continues it behind a separator. -/
def Under (above path : String) : Prop := path = above ∨ isDescendant path above = true

namespace Under

theorem refl (path : String) : Under path path := .inl rfl

theorem segments_prefix {above path : String} (h : Under above path) :
    segments above <+: segments path := by
  rcases h with rfl | h
  · exact List.prefix_rfl
  · obtain ⟨relative, hr⟩ := Option.isSome_iff_exists.1 h
    rw [below?_eq_some_iff.1 hr, segments_append]
    exact List.prefix_append _ _

theorem of_segments_prefix {above path : String} (h : segments above <+: segments path) :
    Under above path := by
  obtain ⟨more, hm⟩ := h
  rw [← joinSegments_segments path, ← joinSegments_segments above, ← hm]
  rcases eq_or_ne more [] with rfl | hne
  · exact .inl (by rw [List.append_nil])
  · exact .inr (isDescendant_append (segments_ne_nil above) hne)

theorem trans {above mid path : String} (h : Under above mid) (h' : Under mid path) :
    Under above path := of_segments_prefix (h.segments_prefix.trans h'.segments_prefix)

theorem entityOf_eq {above path : String} (h : Under above path) :
    entityOf path = entityOf above := by
  rcases h with rfl | h
  · rfl
  · exact entityOf_of_isDescendant h

end Under

theorem under_join (above key : String) : Under above (join above key) := by
  rw [join]
  split
  · exact .refl above
  · exact .inr (Option.isSome_iff_exists.2 ⟨key, below?_eq_some_iff.2 rfl⟩)

theorem segments_join_of_ne (above : String) {property : String} (h : property ≠ "") :
    segments (join above property) = segments above ++ segments property := by
  rw [join, if_neg h, segments_append]

theorem segments_key {key : String} (h : IsKey key) : segments key = [key] :=
  segments_joinSegments (List.cons_ne_nil key []) (by simpa using h.2)

theorem segments_join_key (above : String) {key : String} (h : IsKey key) :
    segments (join above key) = segments above ++ [key] := by
  rw [segments_join_of_ne above h.1, segments_key h]

end Path

namespace Entries

/-- An insertion keeps all entries but the one that a look-up of the key finds. -/
theorem mem_insert_or {V : Type} (key : String) (value : V) {entries : List (String × V)}
    {e : String × V} (h : e ∈ entries) :
    e ∈ insert key value entries ∨ e.1 = key ∧ get? key entries = some e.2 := by
  induction entries with
  | nil => cases h
  | cons first rest ih =>
    obtain ⟨k, v⟩ := first
    rw [insert, get?_cons]
    cases hk : compare key k with
    | lt => exact .inl (List.mem_cons_of_mem _ h)
    | eq =>
      obtain rfl := Std.LawfulEqOrd.compare_eq_iff_eq.1 hk
      rcases List.mem_cons.1 h with rfl | h
      · exact .inr ⟨rfl, if_pos rfl⟩
      · exact .inl (List.mem_cons_of_mem _ h)
    | gt =>
      have hne : key ≠ k := by
        rintro rfl
        rw [Std.LawfulEqOrd.compare_eq_iff_eq.2 rfl] at hk
        cases hk
      rw [if_neg hne]
      rcases List.mem_cons.1 h with rfl | h
      · exact .inl List.mem_cons_self
      · exact (ih h).imp_left (List.mem_cons_of_mem _)

theorem mem_insert_self {V : Type} (key : String) (value : V) (entries : List (String × V)) :
    (key, value) ∈ insert key value entries :=
  mem_of_get?_eq_some (get?_insert_self key value entries)

end Entries

namespace Json

/-- The fields of an object, and no fields for other values. -/
def innerFields (value : Json) : List (String × Json) := value.fields?.getD []

theorem innerFields_eq_nil_iff {value : Json} :
    value.innerFields = [] ↔ value.isComposite = false := by
  cases value with
  | object fields => cases fields <;> simp [innerFields, fields?, isComposite]
  | _ => simp [innerFields, fields?, isComposite]

/-- The path is listed for the fields of an object that stands at a path. -/
def Lists (above : String) (fields : List (String × Json)) (path : String) : Prop :=
  ∃ leaf, ⟨path, leaf⟩ ∈ fieldPaths above fields

theorem mem_pathsAt_iff {above : String} {value : Json} {path : String} :
    (∃ leaf, ⟨path, leaf⟩ ∈ pathsAt above value) ↔
      path = above ∨ Lists above value.innerFields path := by
  cases value with
  | object fields => simp [pathsAt, Lists, innerFields, fields?, exists_or]
  | _ => simp [pathsAt, Lists, innerFields, fields?, fieldPaths]

theorem not_lists_nil {above path : String} : ¬ Lists above [] path := by
  rintro ⟨leaf, h⟩
  cases h

theorem lists_iff {above path : String} {fields : List (String × Json)} :
    Lists above fields path ↔ ∃ f ∈ fields,
      path = Path.join above f.1 ∨ Lists (Path.join above f.1) f.2.innerFields path := by
  induction fields with
  | nil => simp [not_lists_nil]
  | cons f fields ih =>
    obtain ⟨key, value⟩ := f
    have hcons : Lists above ((key, value) :: fields) path ↔
        (∃ leaf, ⟨path, leaf⟩ ∈ pathsAt (Path.join above key) value) ∨
          Lists above fields path := by
      simp only [Lists, fieldPaths, List.mem_append, exists_or]
    rw [hcons, mem_pathsAt_iff, ih, List.exists_mem_cons_iff]

theorem sizeOf_innerFields_lt {f : String × Json} {fields : List (String × Json)}
    (h : f ∈ fields) : sizeOf f.2.innerFields < sizeOf fields := by
  have hmem := List.sizeOf_lt_of_mem h
  obtain ⟨key, value⟩ := f
  cases value <;> simp [innerFields, fields?] at hmem ⊢ <;> omega

/-- What is listed below a path continues it. -/
theorem Lists.under {above path : String} {fields : List (String × Json)}
    (h : Lists above fields path) : Path.Under above path := by
  obtain ⟨f, hf, hp | hin⟩ := lists_iff.1 h
  · exact hp ▸ Path.under_join above f.1
  · have hsmaller := sizeOf_innerFields_lt hf
    exact (Path.under_join above f.1).trans (Lists.under hin)
termination_by sizeOf fields

/-! ### Writing -/

theorem inner_eq_innerFields {key : String} {value : Json} {fields : List (String × Json)}
    (h : Entries.get? key fields = some value) : Fields.inner key fields = value.innerFields := by
  rw [Fields.inner, h]
  cases value <;> rfl

theorem lists_of_inner {above key path : String} {fields : List (String × Json)}
    (h : Lists (Path.join above key) (Fields.inner key fields) path) : Lists above fields path := by
  cases hg : Entries.get? key fields with
  | none =>
    rw [Fields.inner, hg] at h
    exact absurd h not_lists_nil
  | some value =>
    rw [inner_eq_innerFields hg] at h
    exact lists_iff.2 ⟨_, Entries.mem_of_get?_eq_some hg, .inr h⟩

/-- A new value under a key lists the same paths if it lists the same ones below the key. -/
theorem lists_insert {above key path : String} {value : Json} {fields : List (String × Json)}
    (hself : path = Path.join above key → ∃ old, Entries.get? key fields = some old)
    (hin : Lists (Path.join above key) value.innerFields path ↔
      Lists (Path.join above key) (Fields.inner key fields) path) :
    Lists above (Entries.insert key value fields) path ↔ Lists above fields path := by
  constructor
  · intro h
    obtain ⟨f, hf, hp⟩ := lists_iff.1 h
    rcases Entries.mem_insert hf with rfl | hf
    · rcases hp with hp | hp
      · obtain ⟨old, hold⟩ := hself hp
        exact lists_iff.2 ⟨_, Entries.mem_of_get?_eq_some hold, .inl hp⟩
      · exact lists_of_inner (hin.1 hp)
    · exact lists_iff.2 ⟨f, hf, hp⟩
  · intro h
    obtain ⟨f, hf, hp⟩ := lists_iff.1 h
    rcases Entries.mem_insert_or key value hf with hf | ⟨rfl, hg⟩
    · exact lists_iff.2 ⟨f, hf, hp⟩
    · refine lists_iff.2 ⟨_, Entries.mem_insert_self f.1 value fields, hp.imp_right fun hp => ?_⟩
      rw [hin, inner_eq_innerFields hg]
      exact hp

/-- A write lists and drops no path that parts from its own. -/
theorem lists_setAt_of_diverge (value : Json) {above path : String} {segs : List String}
    (hk : Path.Keys segs) (hd : Fields.Diverge (Path.segments above ++ segs) (Path.segments path))
    (fields : List (String × Json)) :
    Lists above (Fields.setAt value fields segs) path ↔ Lists above fields path := by
  induction segs generalizing above fields with
  | nil => rfl
  | cons key rest ih =>
    obtain ⟨hkey, hrest⟩ := Path.keys_cons.1 hk
    have hsegs := Path.segments_join_key above hkey
    have hnot : path ≠ Path.join above key := by
      rintro rfl
      refine hd.2 ?_
      rw [hsegs]
      simp
    cases rest with
    | nil =>
      have hout : ∀ {inner}, ¬ Lists (Path.join above key) inner path := fun hl =>
        hd.1 (hsegs ▸ hl.under.segments_prefix)
      exact lists_insert (fun hp => absurd hp hnot) (iff_of_false hout hout)
    | cons next more =>
      refine lists_insert (fun hp => absurd hp hnot) (ih hrest ?_ (Fields.inner key fields))
      rw [hsegs]
      simpa using hd

/-- A write lists its own path. -/
theorem lists_setAt_self (value : Json) {above path : String} {segs : List String}
    (hk : Path.Keys segs) (hs : segs ≠ []) (hp : Path.segments path = Path.segments above ++ segs)
    (fields : List (String × Json)) : Lists above (Fields.setAt value fields segs) path := by
  induction segs generalizing above fields with
  | nil => exact absurd rfl hs
  | cons key rest ih =>
    obtain ⟨hkey, hrest⟩ := Path.keys_cons.1 hk
    have hsegs := Path.segments_join_key above hkey
    cases rest with
    | nil =>
      refine lists_iff.2 ⟨_, Entries.mem_insert_self key value fields, .inl ?_⟩
      rw [← Path.joinSegments_segments path, hp, ← hsegs, Path.joinSegments_segments]
    | cons next more =>
      refine lists_iff.2 ⟨_, Entries.mem_insert_self key _ fields, .inr ?_⟩
      refine ih hrest (List.cons_ne_nil _ _) ?_ (Fields.inner key fields)
      rw [hp, hsegs, List.append_assoc]
      rfl

/-! ### Writing over a value without fields -/

theorem mem_fieldPaths_iff {above : String} {fields : List (String × Json)} {p : EntityPath} :
    p ∈ fieldPaths above fields ↔ ∃ f ∈ fields, p ∈ pathsAt (Path.join above f.1) f.2 := by
  induction fields with
  | nil => simp [fieldPaths]
  | cons f fields ih =>
    rw [fieldPaths, List.mem_append, ih, List.exists_mem_cons_iff]

theorem Fields.isEmpty_eq_false_of_at? {fields : List (String × Json)} {segs : List String}
    {value : Json} (h : at? fields segs = some value) : fields.isEmpty = false := by
  cases fields with
  | nil =>
    rw [at?_nil_fields] at h
    cases h
  | cons f fields => rfl

/-- A new value under a key has the same paths if it has them at the key. -/
theorem mem_fieldPaths_insert {above key : String} {value old : Json}
    {fields : List (String × Json)} {p : EntityPath} (hold : Entries.get? key fields = some old)
    (hp : p ∈ pathsAt (Path.join above key) value ↔ p ∈ pathsAt (Path.join above key) old) :
    p ∈ fieldPaths above (Entries.insert key value fields) ↔ p ∈ fieldPaths above fields := by
  rw [mem_fieldPaths_iff, mem_fieldPaths_iff]
  constructor
  · rintro ⟨f, hf, hin⟩
    rcases Entries.mem_insert hf with rfl | hf
    · exact ⟨_, Entries.mem_of_get?_eq_some hold, hp.1 hin⟩
    · exact ⟨f, hf, hin⟩
  · rintro ⟨f, hf, hin⟩
    rcases Entries.mem_insert_or key value hf with hf | ⟨rfl, hg⟩
    · exact ⟨f, hf, hin⟩
    · rw [hold, Option.some.injEq] at hg
      exact ⟨_, Entries.mem_insert_self f.1 value fields, hp.2 (hg ▸ hin)⟩

theorem pathsAt_of_not_composite {value : Json} (h : value.isComposite = false) (path : String) :
    pathsAt path value = [⟨path, true⟩] := by
  cases value with
  | object fields =>
    obtain rfl : fields = [] := innerFields_eq_nil_iff.2 h
    rfl
  | _ => rfl

/-- A value without fields in the place of one without fields leaves all paths, leaves or not. -/
theorem mem_fieldPaths_setAt_of_keeps {value old : Json} (hnew : value.isComposite = false)
    (hold : old.isComposite = false) {above : String} {segs : List String} {p : EntityPath}
    {fields : List (String × Json)} (hat : Fields.at? fields segs = some old) :
    p ∈ fieldPaths above (Fields.setAt value fields segs) ↔ p ∈ fieldPaths above fields := by
  induction segs generalizing above fields with
  | nil => rfl
  | cons key rest ih =>
    cases rest with
    | nil =>
      refine mem_fieldPaths_insert hat ?_
      rw [pathsAt_of_not_composite hnew, pathsAt_of_not_composite hold]
    | cons next more =>
      rw [Fields.at?] at hat
      split at hat
      · rename_i inner hinner
        have hset := Fields.at?_setAt_self value (List.cons_ne_nil next more) inner
        rw [Fields.setAt, inner_eq_innerFields hinner]
        refine mem_fieldPaths_insert hinner ?_
        change p ∈ pathsAt _ (.object (Fields.setAt value inner (next :: more))) ↔ _
        rw [pathsAt, pathsAt, List.mem_cons, List.mem_cons, ih hat,
          Fields.isEmpty_eq_false_of_at? hset, Fields.isEmpty_eq_false_of_at? hat]
      · cases hat

end Json

namespace EntityRecord

theorem has_iff_lists {r : EntityRecord} {path : String} :
    r.Has path ↔ path = r.name ∨ Json.Lists r.name r.entity.fields path := by
  simp [Has, paths, Entity.paths, Json.Lists, exists_or]

/-- The paths of a record begin with its name. -/
theorem entityOf_of_has {r : EntityRecord} (hr : Path.isEntityName r.name = true) {path : String}
    (h : r.Has path) : Path.entityOf path = r.name := by
  have hunder : Path.Under r.name path := by
    rcases has_iff_lists.1 h with rfl | h
    · exact .refl _
    · exact h.under
  have hkeys := Path.keys_singleton.2 (Path.isKey_of_isEntityName hr)
  have hself : Path.entityOf (Path.joinSegments [r.name]) = r.name :=
    Path.entityOf_joinSegments hkeys.not_mem_separator
  exact hunder.entityOf_eq.trans hself

namespace KeepsShape

variable {r : EntityRecord} {property path : String} {value : Json}
  (h : r.KeepsShape property value)
include h

/-- A value without fields in the place of one without fields leaves all paths, leaves or not. -/
theorem mem_paths_set {p : EntityPath} : p ∈ (r.set property value).paths ↔ p ∈ r.paths := by
  obtain ⟨old, hat, hold⟩ := h.old
  have hfields : p ∈ Json.fieldPaths r.name (r.set property value).entity.fields ↔ _ :=
    Json.mem_fieldPaths_setAt_of_keeps h.new hold hat
  rw [paths, paths, Entity.paths, Entity.paths, List.mem_cons, List.mem_cons]
  exact or_congr_right hfields

theorem has_set : (r.set property value).Has path ↔ r.Has path :=
  exists_congr fun _ => h.mem_paths_set

theorem mem_leafPaths_set : path ∈ (r.set property value).leafPaths ↔ path ∈ r.leafPaths := by
  rw [mem_leafPaths, mem_leafPaths, h.mem_paths_set]

end KeepsShape

section Set

variable {r : EntityRecord} {property : String} (hk : Path.Keys (Path.segments property))
  (value : Json)
include hk

omit value in
theorem segments_join_name : Path.segments (Path.join r.name property) =
    Path.segments r.name ++ Path.segments property := by
  refine Path.segments_join_of_ne r.name fun he => ?_
  have hempty : "" ∈ Path.segments property := by
    rw [he]
    simp [Path.segments, Path.pieces]
  exact (hk "" hempty).1 rfl

/-- A write makes its own path one of the record. -/
theorem has_set_self : (r.set property value).Has (Path.join r.name property) :=
  has_iff_lists.2 (.inr (Json.lists_setAt_self value hk (Path.segments_ne_nil property)
    (segments_join_name hk) r.entity.fields))

/-- A write leaves the paths that are not its own, nor above or below it. -/
theorem has_set_of_apart {path : String} (hne : path ≠ Path.join r.name property)
    (hbelow : Path.isDescendant path (Path.join r.name property) = false)
    (habove : Path.isDescendant (Path.join r.name property) path = true → path = r.name) :
    (r.set property value).Has path ↔ r.Has path := by
  have hsame : (r.set property value).name = r.name := rfl
  rw [has_iff_lists, has_iff_lists, hsame]
  by_cases hname : path = r.name
  · exact iff_of_true (.inl hname) (.inl hname)
  refine or_congr_right (Json.lists_setAt_of_diverge value hk ?_ r.entity.fields)
  rw [← segments_join_name hk]
  constructor
  · intro hprefix
    rcases Path.Under.of_segments_prefix hprefix with he | hd
    · exact hne he
    · rw [hbelow] at hd
      cases hd
  · intro hprefix
    rcases Path.Under.of_segments_prefix hprefix with he | hd
    · exact hne he.symm
    · exact hname (habove hd)

end Set

end EntityRecord

end Recalc
