import Recalc.Proofs.Json.Writes
import Recalc.Proofs.Lookup

/-!
# Reading a snapshot leaf by leaf and as a whole

A path can be looked up in a snapshot by itself, or in the object that the snapshot makes of an
entity. In a flat snapshot, where no stored path lies below another, both ways lead to the same
payload, one segment after another (`Flat.shown_concat`). They part at hollow paths only: with
nothing but undefined values below it, such a path is an empty object by itself
(`Flat.lookup?_hollow`), but has no place in the object of its entity
(`Flat.shown_parent_of_hollow`).
-/

namespace Recalc

/-! ### Segments one after another -/

namespace Json

theorem descend?_append (value : Json) (first rest : List String) :
    value.descend? (first ++ rest) = (value.descend? first).bind (·.descend? rest) := by
  induction first generalizing value with
  | nil => rfl
  | cons segment first ih =>
    rw [List.cons_append, descend?, descend?]
    cases value.child? segment with
    | none => rfl
    | some next => exact ih next

theorem descend?_singleton (value : Json) (segment : String) :
    value.descend? [segment] = value.child? segment := by
  rw [descend?]
  cases value.child? segment with
  | none => rfl
  | some next => rfl

end Json

open Json

theorem Value.payload?_navigate (v : Value) (segments : List String) :
    (v.navigate segments).payload? = v.payload?.bind (·.descend? segments) := by
  rw [navigate]
  cases v.payload?.bind (·.descend? segments) with
  | none => rfl
  | some payload => rfl

/-- Segments lead on from where the segments before them led. -/
theorem Value.navigate_append (v : Value) (first rest : List String) :
    v.navigate (first ++ rest) = (v.navigate first).navigate rest := by
  have hsplit : v.payload?.bind (·.descend? (first ++ rest)) =
      (v.payload?.bind (·.descend? first)).bind (·.descend? rest) := by
    cases v.payload? with
    | none => rfl
    | some payload => exact payload.descend?_append first rest
  rw [navigate, hsplit, ← payload?_navigate]
  rfl

namespace Snapshot

/-- No stored path lies below another, and all segments of stored paths are keys. -/
structure Flat (s : Snapshot) : Prop where
  /-- The stored paths consist of keys. -/
  keys : ∀ leaf ∈ s.toList, Path.Keys (Path.segments leaf.1)
  /-- No stored path lies below another. -/
  apart : ∀ leaf ∈ s.toList, ∀ other ∈ s.toList, Path.isDescendant other.1 leaf.1 = false

/-- Values are stored below the path, but all of them are undefined. -/
structure Hollow (s : Snapshot) (path : String) : Prop where
  /-- There is something below the path. -/
  below : s.below path ≠ []
  /-- Nothing below the path has a payload. -/
  undefined : ∀ leaf ∈ s.below path, leaf.2.payload? = none

instance (s : Snapshot) (path : String) : Decidable (s.Hollow path) :=
  decidable_of_iff (s.below path ≠ [] ∧ ∀ leaf ∈ s.below path, leaf.2.payload? = none)
    ⟨fun h => ⟨h.1, h.2⟩, fun h => ⟨h.below, h.undefined⟩⟩

/-- Each path above a stored one has a value stored below it that is not undefined. -/
def Filled (s : Snapshot) : Prop :=
  ∀ leaf ∈ s.toList, ∀ above ∈ Path.prefixes leaf.1, above ≠ leaf.1 →
    ∃ other ∈ s.below above, other.2.isUndefined = false

instance (s : Snapshot) : Decidable s.Filled :=
  inferInstanceAs (Decidable (∀ leaf ∈ s.toList, _))

/-- The payload found at a list of segments. Here an undefined value counts as nothing. -/
def shown (s : Snapshot) (segs : List String) : Option Json := (s.lookup? segs).bind Value.payload?

variable {s : Snapshot} {segs : List String} {key : String}

theorem mem_toList {path : String} {value : Value} :
    (path, value) ∈ s.toList ↔ s.get? path = some value := (SortedMap.get?_eq_some_iff _).symm

namespace Flat

/-- A stored path is one of keys. -/
theorem exists_keys (h : s.Flat) {path : String} {value : Value} (hv : s.get? path = some value) :
    ∃ segs, segs ≠ [] ∧ Path.Keys segs ∧ path = Path.joinSegments segs :=
  ⟨Path.segments path, Path.segments_ne_nil path, h.keys _ (mem_toList.2 hv),
    (Path.joinSegments_segments path).symm⟩

/-- Nothing is stored above a stored path. -/
theorem get?_above (h : s.Flat) {more : List String} (hne : segs ≠ []) (hm : more ≠ [])
    {value : Value} (hv : s.get? (Path.joinSegments (segs ++ more)) = some value) :
    s.get? (Path.joinSegments segs) = none := by
  refine Option.eq_none_iff_forall_ne_some.2 fun above ha => ?_
  have hd := h.apart _ (mem_toList.2 ha) _ (mem_toList.2 hv)
  rw [Path.isDescendant_append hne hm] at hd
  cases hd

/-- The leaves below a path continue its segments. -/
theorem exists_of_mem_below (h : s.Flat) (hne : segs ≠ []) (hk : Path.Keys segs)
    {leaf : String × Value} (hl : leaf ∈ s.below (Path.joinSegments segs)) :
    ∃ more value, more ≠ [] ∧ Path.Keys more ∧ leaf = (Path.joinSegments (segs ++ more), value) ∧
      s.get? (Path.joinSegments (segs ++ more)) = some value := by
  obtain ⟨path, value⟩ := leaf
  obtain ⟨hv, hd⟩ := mem_below.1 hl
  obtain ⟨other, ho, hko, rfl⟩ := h.exists_keys hv
  obtain ⟨more, hm, rfl⟩ := (Path.isDescendant_joinSegments hne hk ho hko).1 hd
  exact ⟨more, value, hm, (Path.keys_append.1 hko).2, rfl, hv⟩

theorem exists_of_below_ne_nil (h : s.Flat) (hne : segs ≠ []) (hk : Path.Keys segs)
    (hb : s.below (Path.joinSegments segs) ≠ []) : ∃ more value, more ≠ [] ∧ Path.Keys more ∧
      s.get? (Path.joinSegments (segs ++ more)) = some value := by
  obtain ⟨leaf, hl⟩ := List.exists_mem_of_ne_nil _ hb
  obtain ⟨more, value, hm, hkm, -, hv⟩ := h.exists_of_mem_below hne hk hl
  exact ⟨more, value, hm, hkm, hv⟩

/-- In a filled snapshot no path is hollow. -/
theorem not_hollow (h : s.Flat) (hf : s.Filled) (hne : segs ≠ []) (hk : Path.Keys segs) :
    ¬ s.Hollow (Path.joinSegments segs) := by
  intro hh
  obtain ⟨more, value, hm, hkm, hv⟩ := h.exists_of_below_ne_nil hne hk hh.below
  have hkeys : Path.Keys (segs ++ more) := Path.keys_append.2 ⟨hk, hkm⟩
  have habove : Path.joinSegments segs ∈ Path.prefixes (Path.joinSegments (segs ++ more)) := by
    rw [Path.prefixes, Path.segments_join (by simp [hne]) hkeys]
    exact List.mem_map_of_mem (Path.mem_initialParts.2 ⟨hne, List.prefix_append _ _⟩)
  have hproper : Path.joinSegments segs ≠ Path.joinSegments (segs ++ more) := by
    intro he
    have hsame := Path.joinSegments_inj hk hkeys hne (by simp [hne]) he
    exact hm (List.append_right_eq_self.1 hsame.symm)
  obtain ⟨other, ho, hdefined⟩ := hf _ (mem_toList.2 hv) _ habove hproper
  rw [Value.isUndefined_iff.2 (hh.undefined other ho)] at hdefined
  cases hdefined

end Flat

/-- A snapshot with values for leaves of a regular tree only is flat. -/
theorem Within.flat {t : Tree} (hs : s.Within t) (ht : t.Regular) : s.Flat where
  keys leaf hl := by
    obtain ⟨name, rest, hp, hk⟩ := ht.exists_keys_of_has (hs _ _ (mem_toList.1 hl)).has
    rwa [hp, Path.segments_join (List.cons_ne_nil _ _) hk]
  apart leaf hl other ho := by
    have hleaf := hs _ _ (mem_toList.1 hl)
    have hother := hs _ _ (mem_toList.1 ho)
    obtain ⟨name, rest, hp, hk⟩ := ht.exists_keys_of_has hleaf.has
    obtain ⟨name', rest', hp', hk'⟩ := ht.exists_keys_of_has hother.has
    refine Bool.eq_false_iff.2 fun hd => ?_
    rw [hp, hp', Path.isDescendant_joinSegments (List.cons_ne_nil _ _) hk (List.cons_ne_nil _ _)
      hk'] at hd
    obtain ⟨more, hm, he⟩ := hd
    rw [List.cons_append] at he
    rw [hp', he] at hother
    exact (ht.has_above (he ▸ hk') hm hother.has).2 (hp ▸ hleaf)

/-! ### The object of the leaves below a path -/

/-- What a leaf below a path writes into the object at the path. -/
def write? (path : String) (leaf : String × Value) : Option (List String × Json) :=
  match leaf.2.payload?, Path.below? leaf.1 path with
  | some payload, some relative => some (Path.segments relative, payload)
  | _, _ => none

/-- What the leaves below a path write into the object at the path. -/
def writesAt (s : Snapshot) (segs : List String) : List (List String × Json) :=
  (s.below (Path.joinSegments segs)).filterMap (write? (Path.joinSegments segs))

/-- The fields of the object at a path. -/
def fieldsAt (s : Snapshot) (segs : List String) : List (String × Json) :=
  Fields.setAll [] (s.writesAt segs)

theorem foldl_placeLeaf (path : String) (leaves : List (String × Value))
    (fields : List (String × Json)) :
    leaves.foldl (placeLeaf path) fields =
      Fields.setAll fields (leaves.filterMap (write? path)) := by
  induction leaves generalizing fields with
  | nil => rfl
  | cons leaf leaves ih =>
    rw [List.foldl_cons, ih, List.filterMap_cons, placeLeaf, write?]
    cases leaf.2.payload? with
    | none => rfl
    | some payload =>
      cases Path.below? leaf.1 path with
      | none => rfl
      | some relative => rfl

/-- Above stored values an object is assembled. -/
theorem assemble?_of_below (hn : s.get? (Path.joinSegments segs) = none)
    (hb : s.below (Path.joinSegments segs) ≠ []) :
    s.assemble? (Path.joinSegments segs) = some (.data (.object (s.fieldsAt segs))) := by
  rw [assemble?, hn, fieldsAt, writesAt, ← foldl_placeLeaf]
  cases he : s.below (Path.joinSegments segs) with
  | nil => exact absurd he hb
  | cons leaf leaves => rfl

theorem write?_joinSegments {more : List String} (hne : segs ≠ []) (hm : more ≠ [])
    (hk : Path.Keys more) (value : Value) :
    write? (Path.joinSegments segs) (Path.joinSegments (segs ++ more), value) =
      value.payload?.map (more, ·) := by
  rw [write?, Path.below?_joinSegments_append hne hm]
  cases value.payload? with
  | none => rfl
  | some payload => exact congrArg (fun more => some (more, payload)) (Path.segments_join hm hk)

/-- The leaves below a path one segment longer are among those below the path. -/
theorem below_concat (hne : segs ≠ []) (key : String) :
    s.below (Path.joinSegments (segs ++ [key])) = (s.below (Path.joinSegments segs)).filter
      fun leaf => Path.isDescendant leaf.1 (Path.joinSegments (segs ++ [key])) := by
  rw [below_eq_filter, below_eq_filter, List.filter_filter]
  refine List.filter_congr fun leaf _ => ?_
  cases hd : Path.isDescendant leaf.1 (Path.joinSegments (segs ++ [key])) with
  | false => rfl
  | true =>
    rw [Path.isDescendant_of_append hne hd]
    rfl

/-- A stored value with a payload below a path is one of the writes there. -/
theorem mem_writesAt_of_get? {more : List String} (hne : segs ≠ []) (hm : more ≠ [])
    (hk : Path.Keys (segs ++ more)) {value : Value}
    (hv : s.get? (Path.joinSegments (segs ++ more)) = some value) {payload : Json}
    (hp : value.payload? = some payload) : (more, payload) ∈ s.writesAt segs := by
  refine List.mem_filterMap.2 ⟨_, mem_below.2 ⟨hv, Path.isDescendant_append hne hm⟩, ?_⟩
  rw [write?_joinSegments hne hm (Path.keys_append.1 hk).2, hp]
  rfl

namespace Flat

/-- The writes are the payloads of the leaves, at what their paths have behind the path. -/
theorem mem_writesAt (h : s.Flat) (hne : segs ≠ []) (hk : Path.Keys segs) {more : List String}
    {payload : Json} (hw : (more, payload) ∈ s.writesAt segs) :
    more ≠ [] ∧ ∃ value, s.get? (Path.joinSegments (segs ++ more)) = some value ∧
      value.payload? = some payload := by
  obtain ⟨leaf, hl, hwrite⟩ := List.mem_filterMap.1 hw
  obtain ⟨other, value, hm, hko, rfl, hv⟩ := h.exists_of_mem_below hne hk hl
  rw [write?_joinSegments hne hm hko] at hwrite
  obtain ⟨payload, hp, he⟩ := Option.map_eq_some_iff.1 hwrite
  obtain ⟨rfl, rfl⟩ := Prod.mk.inj he
  exact ⟨hm, value, hv, hp⟩

/-- Below a path without a value the writes under a key are those one segment further down. -/
theorem filterMap_enter? (h : s.Flat) (hne : segs ≠ []) (hk : Path.Keys (segs ++ [key]))
    (hn : s.get? (Path.joinSegments (segs ++ [key])) = none) :
    (s.writesAt segs).filterMap (Fields.enter? key) = s.writesAt (segs ++ [key]) := by
  have hsegs := (Path.keys_append.1 hk).1
  rw [writesAt, writesAt, below_concat hne, List.filterMap_filter, List.filterMap_filterMap]
  refine List.filterMap_congr fun leaf hl => ?_
  obtain ⟨more, value, hm, hkm, rfl, hv⟩ := h.exists_of_mem_below hne hsegs hl
  obtain ⟨segment, more, rfl⟩ := List.exists_cons_of_ne_nil hm
  rw [write?_joinSegments hne hm hkm]
  rcases eq_or_ne segment key with rfl | hs
  · -- Nothing is stored at the longer path itself.
    have hmore : more ≠ [] := by
      rintro rfl
      rw [hn] at hv
      cases hv
    rw [List.append_cons] at hv ⊢
    rw [Path.isDescendant_append (by simp) hmore,
      write?_joinSegments (by simp) hmore (Path.keys_cons.1 hkm).2]
    cases value.payload? with
    | none => rfl
    | some payload => simp [Fields.enter?]
  · have hd : Path.isDescendant (Path.joinSegments (segs ++ segment :: more))
        (Path.joinSegments (segs ++ [key])) = false := by
      refine Bool.eq_false_iff.2 fun hd => ?_
      rw [Path.isDescendant_joinSegments (by simp) hk (by simp)
        (Path.keys_append.2 ⟨hsegs, hkm⟩)] at hd
      obtain ⟨rest, -, he⟩ := hd
      rw [List.append_assoc, List.append_cancel_left_eq] at he
      exact hs (List.cons_eq_cons.1 he).1
    rw [hd]
    cases value.payload? with
    | none => rfl
    | some payload => simp [Fields.enter?, hs]

/-- At or below a key whose path has a value, nothing but the value is written. -/
theorem eq_of_mem_filterMap_enter? (h : s.Flat) (hne : segs ≠ [])
    (hk : Path.Keys (segs ++ [key])) {value : Value}
    (hv : s.get? (Path.joinSegments (segs ++ [key])) = some value) {write : List String × Json}
    (hw : write ∈ (s.writesAt segs).filterMap (Fields.enter? key)) :
    write.1 = [] ∧ value.payload? = some write.2 := by
  obtain ⟨more, payload⟩ := write
  obtain ⟨whole, hm, he⟩ := List.mem_filterMap.1 hw
  rw [Fields.enter?_eq_some_iff.1 he] at hm
  obtain ⟨-, other, ho, hp⟩ := h.mem_writesAt hne (Path.keys_append.1 hk).1 hm
  rw [List.append_cons] at ho
  rcases eq_or_ne more [] with rfl | hmore
  · rw [List.append_nil, hv] at ho
    exact ⟨rfl, Option.some.inj ho ▸ hp⟩
  · rw [h.get?_above (by simp) hmore ho] at hv
    cases hv

/-- Under a key whose path has a value, the object has the payload of the value. -/
theorem get?_fieldsAt (h : s.Flat) (hne : segs ≠ []) (hk : Path.Keys (segs ++ [key]))
    {value : Value} (hv : s.get? (Path.joinSegments (segs ++ [key])) = some value) :
    Entries.get? key (s.fieldsAt segs) = value.payload? := by
  rw [fieldsAt, Fields.get?_setAll, Entries.get?_nil]
  cases hp : value.payload? with
  | none =>
    have hnil : (s.writesAt segs).filterMap (Fields.enter? key) = [] := by
      refine List.eq_nil_iff_forall_not_mem.2 fun write hw => ?_
      rw [(h.eq_of_mem_filterMap_enter? hne hk hv hw).2] at hp
      cases hp
    rw [hnil]
    rfl
  | some payload =>
    have hmem : ([], payload) ∈ (s.writesAt segs).filterMap (Fields.enter? key) :=
      List.mem_filterMap.2 ⟨([key], payload), mem_writesAt_of_get? hne (by simp) hk hv hp,
        Fields.enter?_eq_some_iff.2 rfl⟩
    refine Fields.putAll_replace (fun write hw => ?_) (List.ne_nil_of_mem hmem) none
    obtain ⟨hnil, hpayload⟩ := h.eq_of_mem_filterMap_enter? hne hk hv hw
    exact Prod.ext hnil (Option.some.inj (hpayload.symm.trans hp))

/-- Under a key whose path has no value, the object has the object at that path, if anything is
written into it. -/
theorem get?_fieldsAt_of_none (h : s.Flat) (hne : segs ≠ []) (hk : Path.Keys (segs ++ [key]))
    (hn : s.get? (Path.joinSegments (segs ++ [key])) = none) :
    Entries.get? key (s.fieldsAt segs) =
      if s.writesAt (segs ++ [key]) = [] then none
      else some (.object (s.fieldsAt (segs ++ [key]))) := by
  rw [fieldsAt, Fields.get?_setAll, Entries.get?_nil, h.filterMap_enter? hne hk hn]
  split
  · rename_i hw
    rw [hw]
    rfl
  · rename_i hw
    exact Fields.putAll_none (fun write hm => (h.mem_writesAt (by simp) hk hm).1) hw

end Flat

/-! ### One segment more -/

/-- The part of the nearest value stored above a path. -/
def nearest? (s : Snapshot) (segs : List String) : Option Value :=
  (List.range' 1 (segs.length - 1)).reverse.findSome? fun count =>
    (s.get? (Path.joinSegments (segs.take count))).map (·.navigate (segs.drop count))

theorem lookup?_eq (s : Snapshot) (segs : List String) :
    s.lookup? segs = (s.assemble? (Path.joinSegments segs)).or (s.nearest? segs) := by
  rw [lookup?, nearest?]
  cases s.assemble? (Path.joinSegments segs) with
  | none => rfl
  | some value => rfl

/-- The nearest value above a longer path is stored at the path or above it. -/
theorem nearest?_concat (s : Snapshot) (hne : segs ≠ []) (key : String) :
    s.nearest? (segs ++ [key]) =
      ((s.get? (Path.joinSegments segs)).or (s.nearest? segs)).map (·.navigate [key]) := by
  obtain ⟨n, hn⟩ := Nat.exists_eq_add_of_le' (List.length_pos_iff.2 hne)
  have hrange : List.range' 1 ((segs ++ [key]).length - 1) = List.range' 1 n ++ [1 + n] := by
    rw [List.length_append, List.length_singleton, Nat.add_sub_cancel, hn, List.range'_1_concat]
  have htake : (segs ++ [key]).take (1 + n) = segs := List.take_left' (by omega)
  have hdrop : (segs ++ [key]).drop (1 + n) = [key] := List.drop_left' (by omega)
  have hrest : ∀ count ∈ (List.range' 1 n).reverse,
      (s.get? (Path.joinSegments ((segs ++ [key]).take count))).map
          (·.navigate ((segs ++ [key]).drop count)) =
        ((s.get? (Path.joinSegments (segs.take count))).map
          (·.navigate (segs.drop count))).map (·.navigate [key]) := by
    intro count hc
    rw [List.mem_reverse, List.mem_range'_1] at hc
    rw [List.take_append_of_le_length (by omega), List.drop_append_of_le_length (by omega),
      Option.map_map]
    exact congrArg (Option.map · _) (funext fun v => v.navigate_append _ _)
  rw [nearest?, nearest?, hrange, List.reverse_append, List.reverse_singleton,
    List.singleton_append, List.findSome?_cons, htake, hdrop, hn, Nat.add_sub_cancel,
    findSome?_congr hrest]
  cases s.get? (Path.joinSegments segs) with
  | none => exact List.map_findSome?.symm
  | some value => rfl

theorem Hollow.writesAt_eq_nil (h : s.Hollow (Path.joinSegments segs)) : s.writesAt segs = [] := by
  refine List.filterMap_eq_nil_iff.2 fun leaf hl => ?_
  rw [write?, h.undefined leaf hl]

namespace Flat

/-- With something below it a path is hollow or something is written into its object. -/
theorem hollow_of_writesAt_eq_nil (h : s.Flat) (hne : segs ≠ []) (hk : Path.Keys segs)
    (hb : s.below (Path.joinSegments segs) ≠ []) (hw : s.writesAt segs = []) :
    s.Hollow (Path.joinSegments segs) := by
  refine ⟨hb, fun leaf hl => ?_⟩
  obtain ⟨more, value, hm, hkm, rfl, hv⟩ := h.exists_of_mem_below hne hk hl
  have hwrite := List.filterMap_eq_nil_iff.1 hw _ hl
  rw [write?_joinSegments hne hm hkm, Option.map_eq_none_iff] at hwrite
  exact hwrite

/-- Above what is stored below a path nothing is stored. -/
theorem nearest?_eq_none (h : s.Flat) {more : List String} (hm : more ≠ []) {value : Value}
    (hv : s.get? (Path.joinSegments (segs ++ more)) = some value) : s.nearest? segs = none := by
  refine List.findSome?_eq_none_iff.2 fun count hc => ?_
  rw [List.mem_reverse, List.mem_range'_1] at hc
  have hne : segs.take count ≠ [] := by
    rw [← List.length_pos_iff, List.length_take]
    omega
  rw [← List.take_append_drop count segs, List.append_assoc] at hv
  rw [h.get?_above hne (List.append_ne_nil_of_right_ne_nil _ hm) hv]
  rfl

/-- Above a stored value the object of all leaves there is looked up. -/
theorem lookup?_above (h : s.Flat) (hne : segs ≠ []) {more : List String} (hm : more ≠ [])
    {value : Value} (hv : s.get? (Path.joinSegments (segs ++ more)) = some value) :
    s.lookup? segs = some (.data (.object (s.fieldsAt segs))) := by
  have hmem : (Path.joinSegments (segs ++ more), value) ∈ s.below (Path.joinSegments segs) :=
    mem_below.2 ⟨hv, Path.isDescendant_append hne hm⟩
  rw [lookup?_eq, assemble?_of_below (h.get?_above hne hm hv) (List.ne_nil_of_mem hmem)]
  rfl

end Flat

theorem lookup?_of_get? {value : Value} (hv : s.get? (Path.joinSegments segs) = some value) :
    s.lookup? segs = some value := by
  rw [lookup?_eq, assemble?, hv]
  rfl

/-- At or above a stored value there is something to assemble. -/
theorem exists_assemble? {path q : String} {value : Value} (hv : s.get? q = some value)
    (hq : q = path ∨ Path.isDescendant q path = true) : ∃ whole, s.assemble? path = some whole := by
  rw [assemble?]
  cases hs : s.get? path with
  | some stored => exact ⟨stored, rfl⟩
  | none =>
    cases hb : s.below path with
    | cons leaf leaves => exact ⟨_, rfl⟩
    | nil =>
      rcases hq with rfl | hd
      · rw [hv] at hs
        cases hs
      · have hmem := mem_below.2 ⟨hv, hd⟩
        rw [hb] at hmem
        cases hmem

theorem lookup?_of_nothing (hn : s.get? (Path.joinSegments segs) = none)
    (hb : s.below (Path.joinSegments segs) = []) : s.lookup? segs = s.nearest? segs := by
  rw [lookup?_eq, assemble?, hn, hb]
  rfl

/-- A segment more leads into what was found, where nothing is stored at or below it. -/
theorem shown_concat_of_nothing (hne : segs ≠ [])
    (hn : s.get? (Path.joinSegments (segs ++ [key])) = none)
    (hb : s.below (Path.joinSegments (segs ++ [key])) = []) :
    s.shown (segs ++ [key]) =
      (((s.get? (Path.joinSegments segs)).or (s.nearest? segs)).bind Value.payload?).bind
        (·.child? key) := by
  have hstep : ∀ v : Value, (v.navigate [key]).payload? = v.payload?.bind (·.child? key) := by
    intro v
    simp only [Value.payload?_navigate, descend?_singleton]
  rw [shown, lookup?_of_nothing hn hb, nearest?_concat s hne, Option.bind_map, Option.bind_assoc]
  exact congrArg _ (funext hstep)

namespace Flat

section Step

variable (h : s.Flat) (hne : segs ≠ []) (hk : Path.Keys (segs ++ [key]))
include h hne hk

/-- **Below a path its child is found**: unless the longer path is hollow, the payload found there
is the child of the payload found at the path. -/
theorem shown_concat (hh : ¬ s.Hollow (Path.joinSegments (segs ++ [key]))) :
    s.shown (segs ++ [key]) = (s.shown segs).bind (·.child? key) := by
  have hsegs : segs ++ [key] ≠ [] := by simp
  cases hv : s.get? (Path.joinSegments (segs ++ [key])) with
  | some value =>
    rw [shown, shown, lookup?_of_get? hv, h.lookup?_above hne (List.cons_ne_nil key []) hv]
    exact (h.get?_fieldsAt hne hk hv).symm
  | none =>
    rcases eq_or_ne (s.below (Path.joinSegments (segs ++ [key]))) [] with hb | hb
    · rw [shown_concat_of_nothing hne hv hb]
      cases hw : s.get? (Path.joinSegments segs) with
      | some value => rw [shown, lookup?_of_get? hw, Option.some_or]
      | none =>
        rw [Option.none_or]
        rcases eq_or_ne (s.below (Path.joinSegments segs)) [] with hs | hs
        · rw [shown, lookup?_of_nothing hw hs]
        · -- The object at the path has nothing under the key.
          obtain ⟨more, value, hm, -, hmore⟩ :=
            h.exists_of_below_ne_nil hne (Path.keys_append.1 hk).1 hs
          have hchild := h.get?_fieldsAt_of_none hne hk hv
          rw [writesAt, hb, List.filterMap_nil, if_pos rfl] at hchild
          rw [h.nearest?_eq_none hm hmore, shown, h.lookup?_above hne hm hmore]
          exact hchild.symm
    · obtain ⟨more, value, hm, -, hmore⟩ := h.exists_of_below_ne_nil hsegs hk hb
      have hchild := h.get?_fieldsAt_of_none hne hk hv
      rw [if_neg fun hw => hh (h.hollow_of_writesAt_eq_nil hsegs hk hb hw)] at hchild
      rw [shown, h.lookup?_above hsegs hm hmore, shown]
      rw [List.append_assoc] at hmore
      rw [h.lookup?_above hne (by simp) hmore]
      exact hchild.symm

/-- The object above a hollow path has no place for it. -/
theorem shown_parent_of_hollow (hh : s.Hollow (Path.joinSegments (segs ++ [key]))) :
    (s.shown segs).bind (·.child? key) = none := by
  have hsegs : segs ++ [key] ≠ [] := by simp
  obtain ⟨more, value, hm, -, hmore⟩ := h.exists_of_below_ne_nil hsegs hk hh.below
  have hchild := h.get?_fieldsAt_of_none hne hk (h.get?_above hsegs hm hmore)
  rw [if_pos hh.writesAt_eq_nil] at hchild
  rw [List.append_assoc] at hmore
  rw [shown, h.lookup?_above hne (by simp) hmore]
  exact hchild

end Step

/-- A hollow path is an empty object by itself. -/
theorem lookup?_hollow (h : s.Flat) (hne : segs ≠ []) (hk : Path.Keys segs)
    (hh : s.Hollow (Path.joinSegments segs)) : s.lookup? segs = some (.data (.object [])) := by
  obtain ⟨more, value, hm, -, hmore⟩ := h.exists_of_below_ne_nil hne hk hh.below
  rw [h.lookup?_above hne hm hmore, fieldsAt, hh.writesAt_eq_nil]
  rfl

end Flat

/-- Nothing is above a single segment. -/
theorem lookup?_singleton (s : Snapshot) (name : String) :
    s.lookup? [name] = s.assemble? name := by
  rw [lookup?_eq]
  exact Option.or_none

/-- The payload that the segments lead to in the assembled entity. -/
def nested (s : Snapshot) (name : String) (rest : List String) : Option Json :=
  ((s.assemble? name).map (·.navigate rest)).bind Value.payload?

theorem nested_nil (s : Snapshot) (name : String) : s.nested name [] = s.shown [name] := by
  rw [nested, shown, lookup?_singleton, Option.bind_map]
  refine congrArg _ (funext fun v => (v.payload?_navigate []).trans ?_)
  cases v.payload? with
  | none => rfl
  | some payload => rfl

theorem nested_concat (s : Snapshot) (name : String) (rest : List String) (key : String) :
    s.nested name (rest ++ [key]) = (s.nested name rest).bind (·.child? key) := by
  rw [nested, nested, Option.bind_map, Option.bind_map, Option.bind_assoc]
  refine congrArg _ (funext fun v => ?_)
  simp only [Function.comp_apply, Value.navigate_append, Value.payload?_navigate _ [key],
    descend?_singleton]

namespace Flat

/-- What is found at segments, against what they lead to in the assembled entity. -/
theorem shown_cons (h : s.Flat) {name : String} {rest : List String}
    (hk : Path.Keys (name :: rest)) :
    (¬ (rest ≠ [] ∧ s.Hollow (Path.joinSegments (name :: rest))) →
      s.shown (name :: rest) = s.nested name rest) ∧
    (rest ≠ [] ∧ s.Hollow (Path.joinSegments (name :: rest)) → s.nested name rest = none) := by
  -- From the end, since a path is compared with the one that is a segment shorter.
  induction rest using List.reverseRecOn with
  | nil => exact ⟨fun _ => (s.nested_nil name).symm, fun hh => absurd rfl hh.1⟩
  | append_singleton rest key ih =>
    have hrest : Path.Keys (name :: rest) :=
      (Path.keys_append.1 (show Path.Keys ((name :: rest) ++ [key]) from hk)).1
    obtain ⟨hsame, hnone⟩ := ih hrest
    -- A hollow part does not matter: there is nothing in an empty object.
    have hchild : s.nested name (rest ++ [key]) =
        (s.shown (name :: rest)).bind (·.child? key) := by
      rw [nested_concat]
      by_cases hh : rest ≠ [] ∧ s.Hollow (Path.joinSegments (name :: rest))
      · rw [hnone hh, shown, h.lookup?_hollow (by simp) hrest hh.2]
        rfl
      · rw [hsame hh]
    rw [hchild]
    constructor
    · intro hh
      exact h.shown_concat (List.cons_ne_nil name rest) hk fun hc => hh ⟨by simp, hc⟩
    · exact fun hh => h.shown_parent_of_hollow (List.cons_ne_nil name rest) hk hh.2

/-- In a filled snapshot nothing is found but what is in the assembled entity. -/
theorem shown_cons_of_filled (h : s.Flat) (hf : s.Filled) {name : String} {rest : List String}
    (hk : Path.Keys (name :: rest)) : s.shown (name :: rest) = s.nested name rest :=
  (h.shown_cons hk).1 fun hh => h.not_hollow hf (List.cons_ne_nil name rest) hk hh.2

/-- **Reading leaf by leaf and as a whole.** What is found at segments in a flat snapshot has the
payload that the segments lead to in the assembled entity, where nothing counts as an undefined
value. Hollow paths of more than one segment differ: by themselves they are empty objects, and
nothing in their entity. -/
theorem lookup?_navigate (h : s.Flat) {name : String} {rest : List String}
    (hk : Path.Keys (name :: rest)) :
    (¬ (rest ≠ [] ∧ s.Hollow (Path.joinSegments (name :: rest))) →
      (s.lookup? (name :: rest)).bind Value.payload? =
        ((s.assemble? name).map (·.navigate rest)).bind Value.payload?) ∧
    (rest ≠ [] ∧ s.Hollow (Path.joinSegments (name :: rest)) →
      s.lookup? (name :: rest) = some (.data (.object [])) ∧
        ((s.assemble? name).map (·.navigate rest)).bind Value.payload? = none) := by
  obtain ⟨hsame, hnone⟩ := h.shown_cons hk
  exact ⟨hsame, fun hh => ⟨h.lookup?_hollow (by simp) hk hh.2, hnone hh⟩⟩

end Flat

/-- Rows, a page, and a draft in which nothing has a value. -/
def tableWithDraft : Snapshot :=
  ((((empty.insert "Table.rows" (.data (.array [.object [("id", .ofNat 1)]]))).insert
    "Table.meta.page" (.data (.ofNat 2))).insert "Table.meta.size" .undefined).insert
    "Table.draft.note" .undefined)

theorem flat_tableWithDraft : tableWithDraft.Flat where
  keys := by decide +kernel
  apart := by decide +kernel

/-- A number inside a leaf is the same both ways; of a draft without values there is an empty object
by itself. -/
theorem lookup?_navigate_table : Path.Keys ["Table", "rows", "0", "id"] ∧
    ¬ tableWithDraft.Hollow "Table.rows.0.id" ∧
    (tableWithDraft.lookup? ["Table", "rows", "0", "id"]).bind Value.payload? =
      ((tableWithDraft.assemble? "Table").map (·.navigate ["rows", "0", "id"])).bind
        Value.payload? ∧
    tableWithDraft.Hollow "Table.draft" ∧
    tableWithDraft.lookup? ["Table", "draft"] = some (.data (.object [])) := by
  have hrow : Path.Keys ["Table", "rows", "0", "id"] := by decide +kernel
  have hsolid : ¬ tableWithDraft.Hollow "Table.rows.0.id" := by decide +kernel
  have hdraft : tableWithDraft.Hollow "Table.draft" := by decide +kernel
  have hkeys : Path.Keys ["Table", "draft"] := by decide +kernel
  exact ⟨hrow, hsolid, (flat_tableWithDraft.lookup?_navigate hrow).1 fun hh => hsolid hh.2, hdraft,
    ((flat_tableWithDraft.lookup?_navigate hkeys).2 ⟨by simp, hdraft⟩).1⟩

/-- Reading the draft both ways makes a difference. -/
theorem lookup?_ne_navigate_draft : tableWithDraft.Flat ∧ Path.Keys ["Table", "draft"] ∧
    (tableWithDraft.lookup? ["Table", "draft"]).bind Value.payload? ≠
      ((tableWithDraft.assemble? "Table").map (·.navigate ["draft"])).bind Value.payload? := by
  have hfound : tableWithDraft.lookup? ["Table", "draft"] = some (.data (.object [])) := by rfl
  have hnothing : ((tableWithDraft.assemble? "Table").map (·.navigate ["draft"])).bind
      Value.payload? = none := by rfl
  refine ⟨flat_tableWithDraft, by decide +kernel, ?_⟩
  rw [hfound, hnothing]
  simp [Value.payload?]

end Snapshot

end Recalc
