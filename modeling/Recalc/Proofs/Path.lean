import Recalc.Path
import Mathlib.Logic.Basic

/-!
# Paths of keys

A key is a segment that is not empty and holds no separator. On lists of keys `Path.joinSegments` is
injective, and the other questions about paths have the answers one expects: what a path belongs to
is its first key, and what it is right below is the path without its last key.
-/

namespace Recalc.Path

/-- The text is not empty and holds no separator. -/
def IsKey (s : String) : Prop := s ≠ "" ∧ separator ∉ s.toList

instance (s : String) : Decidable (IsKey s) := inferInstanceAs (Decidable (_ ∧ _))

/-- All texts of the list are keys. -/
def Keys (segs : List String) : Prop := ∀ s ∈ segs, IsKey s

instance (segs : List String) : Decidable (Keys segs) :=
  inferInstanceAs (Decidable (∀ s ∈ segs, IsKey s))

theorem keys_cons {s : String} {segs : List String} : Keys (s :: segs) ↔ IsKey s ∧ Keys segs :=
  List.forall_mem_cons

theorem keys_append {a b : List String} : Keys (a ++ b) ↔ Keys a ∧ Keys b :=
  List.forall_mem_append

theorem keys_singleton {s : String} : Keys [s] ↔ IsKey s := by simp [Keys]

theorem Keys.not_mem_separator {segs : List String} (h : Keys segs) :
    ∀ s ∈ segs, separator ∉ s.toList := fun s hs => (h s hs).2

theorem Keys.not_mem_empty {segs : List String} (h : Keys segs) : "" ∉ segs :=
  fun hs => (h "" hs).1 rfl

/-- The name of an entity is a key. -/
theorem isKey_of_isEntityName {name : String} (h : isEntityName name = true) : IsKey name := by
  rw [isEntityName] at h
  have hstart : Text.isNameStart separator = false := by decide
  have hpart : Text.isNamePart separator = false := by decide
  constructor
  · rintro rfl
    cases h
  · intro hs
    cases hc : name.toList with
    | nil => simp [hc] at hs
    | cons c cs =>
      rw [hc, Text.isName, Bool.and_eq_true, List.all_eq_true] at h
      rw [hc] at hs
      rcases List.mem_cons.1 hs with rfl | hs
      · rw [hstart] at h
        cases h.1
      · have := h.2 _ hs
        rw [hpart] at this
        cases this

theorem segments_join {segs : List String} (hne : segs ≠ []) (h : Keys segs) :
    segments (joinSegments segs) = segs := segments_joinSegments hne h.not_mem_separator

/-- Different lists of keys spell different paths. -/
theorem joinSegments_inj {a b : List String} (ha : Keys a) (hb : Keys b) (hane : a ≠ [])
    (hbne : b ≠ []) (h : joinSegments a = joinSegments b) : a = b := by
  rw [← segments_join hane ha, h, segments_join hbne hb]

theorem joinSegments_ne_empty_of_not_mem {segs : List String} (hne : segs ≠ []) (h : "" ∉ segs) :
    joinSegments segs ≠ "" := by
  match segs with
  | [] => exact absurd rfl hne
  | [s] => exact fun he => h (he ▸ List.mem_singleton_self s)
  | s :: t :: rest =>
    intro he
    have hlen := congrArg String.toList he
    rw [toList_joinSegments_cons_cons] at hlen
    simp at hlen

theorem joinSegments_ne_empty {segs : List String} (hne : segs ≠ []) (h : Keys segs) :
    joinSegments segs ≠ "" := joinSegments_ne_empty_of_not_mem hne h.not_mem_empty

theorem split_joinSegments {name : String} {rest : List String}
    (h : ∀ s ∈ name :: rest, separator ∉ s.toList) :
    split (joinSegments (name :: rest)) = (name, joinSegments rest) := by
  rw [split, segments_joinSegments (List.cons_ne_nil _ _) h]

/-- A path belongs to the entity that its first segment names. -/
theorem entityOf_joinSegments {name : String} {rest : List String}
    (h : ∀ s ∈ name :: rest, separator ∉ s.toList) :
    entityOf (joinSegments (name :: rest)) = name := by
  rw [entityOf, split_joinSegments h]

theorem joinSegments_cons {name : String} {rest : List String} (hne : rest ≠ []) :
    joinSegments (name :: rest) = name ++ "." ++ joinSegments rest := by
  cases rest with
  | nil => exact absurd rfl hne
  | cons _ _ => rfl

theorem joinSegments_append {segs more : List String} (hs : segs ≠ []) (hm : more ≠ []) :
    joinSegments (segs ++ more) = joinSegments segs ++ "." ++ joinSegments more := by
  induction segs with
  | nil => exact absurd rfl hs
  | cons s segs ih =>
    rcases eq_or_ne segs [] with rfl | hne
    · exact joinSegments_cons hm
    · rw [List.cons_append, joinSegments_cons hne, joinSegments_cons (by simp [hne]), ih hne]
      simp only [String.append_assoc]

/-- The path of a property is that of its segments behind the name of the entity. -/
theorem join_joinSegments {name : String} {rest : List String} (h : Keys rest) :
    join name (joinSegments rest) = joinSegments (name :: rest) := by
  rcases eq_or_ne rest [] with rfl | hne
  · rfl
  · rw [join, if_neg (joinSegments_ne_empty hne h), joinSegments_cons hne]

/-- One segment more at the end of a path. -/
theorem join_concat {segs : List String} (hne : segs ≠ []) {key : String} (hk : key ≠ "") :
    join (joinSegments segs) key = joinSegments (segs ++ [key]) := by
  rw [join, if_neg hk]
  induction segs with
  | nil => exact absurd rfl hne
  | cons s segs ih =>
    rcases eq_or_ne segs [] with rfl | hs
    · rfl
    · rw [List.cons_append, joinSegments_cons hs, joinSegments_cons (by simp), ← ih hs]
      simp only [String.append_assoc]

theorem parent?_concat {segs : List String} (hne : segs ≠ []) {key : String}
    (h : Keys (segs ++ [key])) :
    parent? (joinSegments (segs ++ [key])) = some (joinSegments segs) := by
  rw [parent?, segments_join (by simp) h]
  cases segs with
  | nil => exact absurd rfl hne
  | cons s segs =>
    cases segs with
    | nil => rfl
    | cons t segs =>
      have hdrop : (s :: t :: segs ++ [key]).dropLast = s :: t :: segs := List.dropLast_concat
      exact congrArg (fun segs => some (joinSegments segs)) hdrop

theorem parent?_singleton {name : String} (h : IsKey name) : parent? name = none := by
  have hs := segments_join (List.cons_ne_nil name []) (keys_singleton.2 h)
  rw [show name = joinSegments [name] from rfl, parent?, hs]

/-- Joining one key after the other spells the whole path. -/
theorem foldl_join {base segs : List String} (hb : base ≠ []) (h : "" ∉ segs) :
    segs.foldl join (joinSegments base) = joinSegments (base ++ segs) := by
  induction segs generalizing base with
  | nil => rw [List.append_nil]; rfl
  | cons key segs ih =>
    have hkey : key ≠ "" := fun he => h (he ▸ List.mem_cons_self)
    have hlonger : base ++ [key] ≠ [] := by simp
    rw [List.foldl_cons, join_concat hb hkey,
      ih hlonger fun hm => h (List.mem_cons_of_mem _ hm), List.append_assoc,
      List.singleton_append]

/-- The segments above the last separator and the one behind it are the segments of the path. -/
theorem segments_parent?_concat (path : String) :
    ((parent? path).map segments).getD [] ++ [lastSegment path] = segments path := by
  have hno : ∀ s ∈ segments path, separator ∉ s.toList := fun s hs =>
    separator_not_mem_of_mem_segments hs
  rw [parent?, lastSegment]
  cases hs : segments path with
  | nil => exact absurd hs (segments_ne_nil path)
  | cons first rest =>
    cases rest with
    | nil => rfl
    | cons next rest =>
      rw [hs] at hno
      have habove : segments (joinSegments (first :: next :: rest).dropLast) =
          (first :: next :: rest).dropLast :=
        segments_joinSegments (by simp) fun s hm => hno s (List.dropLast_subset _ hm)
      rw [Option.map_some, Option.getD_some, habove, List.getLastD_cons,
        List.getLastD_eq_getLast?, List.getLast?_eq_some_getLast (List.cons_ne_nil next rest)]
      exact List.dropLast_concat_getLast (List.cons_ne_nil first _)

theorem below?_eq_some_iff {path ancestor relative : String} :
    below? path ancestor = some relative ↔ path = ancestor ++ "." ++ relative := by
  have hsep : ("." : String).toList = [separator] := rfl
  rw [below?]
  simp only [List.isPrefixOf_iff_prefix]
  constructor
  · intro h
    split at h
    · rename_i hp
      obtain ⟨rest, hr⟩ := hp
      rw [← hr, List.drop_left, Option.some.injEq] at h
      rw [← String.toList_inj, String.toList_append, String.toList_append, hsep, ← hr, ← h,
        String.toList_ofList]
    · cases h
  · rintro rfl
    have he : (ancestor ++ "." ++ relative).toList =
        (ancestor.toList ++ [separator]) ++ relative.toList := by
      rw [String.toList_append, String.toList_append, hsep]
    rw [if_pos (by rw [he]; exact List.prefix_append _ _), he, List.drop_left,
      String.ofList_toList]

theorem below?_joinSegments_append {segs more : List String} (hs : segs ≠ []) (hm : more ≠ []) :
    below? (joinSegments (segs ++ more)) (joinSegments segs) = some (joinSegments more) :=
  below?_eq_some_iff.2 (joinSegments_append hs hm)

theorem isDescendant_append {segs more : List String} (hs : segs ≠ []) (hm : more ≠ []) :
    isDescendant (joinSegments (segs ++ more)) (joinSegments segs) = true := by
  rw [isDescendant, below?_joinSegments_append hs hm]
  rfl

/-- Strictly below a path are the paths with more segments. -/
theorem isDescendant_joinSegments {segs other : List String} (hs : segs ≠ []) (hk : Keys segs)
    (ho : other ≠ []) (hko : Keys other) :
    isDescendant (joinSegments other) (joinSegments segs) = true ↔
      ∃ more, more ≠ [] ∧ other = segs ++ more := by
  constructor
  · intro h
    obtain ⟨relative, hr⟩ := Option.isSome_iff_exists.1 h
    refine ⟨segments relative, segments_ne_nil relative, ?_⟩
    rw [below?_eq_some_iff, ← joinSegments_segments relative,
      ← joinSegments_append hs (segments_ne_nil relative)] at hr
    rw [← segments_join ho hko, hr, segments_joinSegments (by simp [hs])]
    intro s hm
    rcases List.mem_append.1 hm with hm | hm
    · exact hk.not_mem_separator s hm
    · exact separator_not_mem_of_mem_segments hm
  · rintro ⟨more, hm, rfl⟩
    exact isDescendant_append hs hm

/-- A path names a property if it is the path of the property. -/
theorem propertyOf_eq_some_iff {path name property : String} (hp : property ≠ "") :
    propertyOf path name = some property ↔ path = join name property := by
  rw [propertyOf, join, if_neg hp]
  split
  · rename_i he
    subst he
    refine iff_of_false (fun h => hp (Option.some.inj h).symm) fun h => ?_
    have hlen := congrArg (fun s => s.toList.length) h
    simp only [String.toList_append, List.length_append] at hlen
    have hsep : ("." : String).toList.length = 1 := rfl
    omega
  · exact below?_eq_some_iff

/-- A path has segments, and none of them holds a separator. -/
theorem exists_segments (path : String) : ∃ name rest, path = joinSegments (name :: rest) ∧
    ∀ s ∈ name :: rest, separator ∉ s.toList := by
  cases hs : segments path with
  | nil => exact absurd hs (segments_ne_nil path)
  | cons name rest =>
    refine ⟨name, rest, ?_, fun s hm => separator_not_mem_of_mem_segments (hs ▸ hm)⟩
    rw [← hs, joinSegments_segments]

/-- A path belongs to the same entity as what it is right below. -/
theorem entityOf_of_parent? {path above : String} (h : parent? path = some above) :
    entityOf above = entityOf path := by
  obtain ⟨name, rest, rfl, hno⟩ := exists_segments path
  rw [parent?, segments_joinSegments (List.cons_ne_nil _ _) hno] at h
  cases rest with
  | nil => cases h
  | cons key rest =>
    obtain rfl := Option.some.inj h
    rw [List.dropLast_cons_cons, entityOf_joinSegments hno, entityOf_joinSegments]
    intro s hs
    rcases List.mem_cons.1 hs with rfl | hs
    · exact hno _ List.mem_cons_self
    · exact hno s (List.mem_cons_of_mem _ (List.dropLast_subset _ hs))

/-- A path belongs to the same entity as what it is below. -/
theorem entityOf_of_isDescendant {path ancestor : String} (h : isDescendant path ancestor = true) :
    entityOf path = entityOf ancestor := by
  obtain ⟨relative, hr⟩ := Option.isSome_iff_exists.1 h
  obtain ⟨name, rest, rfl, hno⟩ := exists_segments ancestor
  rw [below?_eq_some_iff, ← joinSegments_segments relative,
    ← joinSegments_append (List.cons_ne_nil _ _) (segments_ne_nil relative)] at hr
  rw [hr, entityOf_joinSegments hno, List.cons_append, entityOf_joinSegments]
  intro s hs
  rw [← List.cons_append, List.mem_append] at hs
  exact hs.elim (hno s) separator_not_mem_of_mem_segments

/-- The name of the entity that a path belongs to is a path of that entity. -/
theorem entityOf_entityOf (path : String) : entityOf (entityOf path) = entityOf path := by
  obtain ⟨name, rest, rfl, hno⟩ := exists_segments path
  rw [entityOf_joinSegments hno]
  have hname : ∀ s ∈ [name], separator ∉ s.toList := by
    simpa using hno name List.mem_cons_self
  exact (entityOf_joinSegments hname : entityOf (joinSegments [name]) = name)

/-- A path that splits into an entity and a property is the path of the property. -/
theorem eq_join_of_split {path name property : String} (h : split path = (name, property))
    (hp : property ≠ "") : path = join name property := by
  obtain ⟨first, rest, rfl, hno⟩ := exists_segments path
  rw [split_joinSegments hno, Prod.mk.injEq] at h
  obtain ⟨rfl, rfl⟩ := h
  rw [join, if_neg hp, joinSegments_cons]
  rintro rfl
  exact hp rfl

/-- The path of a property belongs to the entity, whatever the property is. -/
theorem entityOf_join {name : String} (h : separator ∉ name.toList) (property : String) :
    entityOf (join name property) = name := by
  rw [join]
  split
  · exact (entityOf_joinSegments (by simpa using h) : entityOf (joinSegments [name]) = name)
  · obtain ⟨first, rest, rfl, hno⟩ := exists_segments property
    rw [← joinSegments_cons (List.cons_ne_nil first rest)]
    exact entityOf_joinSegments (List.forall_mem_cons.2 ⟨h, hno⟩)

/-! ### Initial parts -/

theorem mem_initialParts {α : Type} {list part : List α} :
    part ∈ initialParts list ↔ part ≠ [] ∧ part <+: list := by
  induction list generalizing part with
  | nil => simp [initialParts]
  | cons a list ih =>
    simp only [initialParts, List.mem_append, List.mem_map, List.mem_singleton, ih]
    constructor
    · rintro (⟨part, ⟨-, hp⟩, rfl⟩ | rfl)
      · exact ⟨by simp, List.cons_prefix_cons.2 ⟨rfl, hp⟩⟩
      · exact ⟨by simp, List.cons_prefix_cons.2 ⟨rfl, List.nil_prefix⟩⟩
    · rintro ⟨hne, hp⟩
      cases part with
      | nil => exact absurd rfl hne
      | cons b part =>
        obtain ⟨rfl, hrest⟩ := List.cons_prefix_cons.1 hp
        rcases eq_or_ne part [] with rfl | hpart
        · exact .inr rfl
        · exact .inl ⟨part, ⟨hpart, hrest⟩, rfl⟩

/-- All initial parts of a path belong to the same entity. -/
theorem entityOf_of_mem_prefixes {path part : String} (h : part ∈ prefixes path) :
    entityOf part = entityOf path := by
  rw [prefixes, List.mem_map] at h
  obtain ⟨segs, hs, rfl⟩ := h
  obtain ⟨hne, hp⟩ := mem_initialParts.1 hs
  obtain ⟨name, rest, rfl, hno⟩ := exists_segments path
  rw [segments_joinSegments (List.cons_ne_nil _ _) hno] at hp
  cases segs with
  | nil => exact absurd rfl hne
  | cons first segs =>
    obtain ⟨rfl, hrest⟩ := List.cons_prefix_cons.1 hp
    rw [entityOf_joinSegments hno, entityOf_joinSegments]
    intro s hs
    rcases List.mem_cons.1 hs with rfl | hs
    · exact hno _ List.mem_cons_self
    · exact hno s (List.mem_cons_of_mem _ (hrest.subset hs))

end Recalc.Path
