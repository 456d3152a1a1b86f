import Recalc.Collection.SortedSet

/-!
# Look-ups in sorted maps and sets

The laws of `SortedMap` and `SortedSet` that speak of several keys at once: what is left after a
filter, what a list of insertions or erasures leaves, and how the listings `keys` and `toList`
relate to look-ups.
-/

namespace Recalc

universe u v

namespace SortedMap

variable {K : Type u} {V : Type v} [Ord K] [DecidableEq K]

theorem contains_iff {m : SortedMap K V} {key : K} :
    m.contains key = true ↔ ∃ value, m.get? key = some value := by
  rw [contains, Option.isSome_iff_exists]

theorem contains_eq_false_iff {m : SortedMap K V} {key : K} :
    m.contains key = false ↔ m.get? key = none := by
  rw [contains, Option.isSome_eq_false_iff, Option.isNone_iff_eq_none]

variable [Std.LawfulEqOrd K]

/-- A key is listed if something is stored under it. -/
theorem mem_keys_iff {m : SortedMap K V} {key : K} :
    key ∈ m.keys ↔ ∃ value, m.get? key = some value := by
  simp only [keys, List.mem_map, get?_eq_some_iff]
  constructor
  · rintro ⟨⟨k, v⟩, h, rfl⟩
    exact ⟨v, h⟩
  · rintro ⟨v, h⟩
    exact ⟨(key, v), h, rfl⟩

theorem mem_keys_iff_contains {m : SortedMap K V} {key : K} :
    key ∈ m.keys ↔ m.contains key = true := by
  rw [mem_keys_iff, contains_iff]

omit [DecidableEq K] in
/-- No key is listed twice. -/
theorem nodup_keys (m : SortedMap K V) : m.keys.Nodup := by
  rw [keys, List.Nodup, List.pairwise_map]
  refine m.ascending.imp ?_
  rintro ⟨a, _⟩ ⟨b, _⟩ (h : compare a b = .lt) (rfl : a = b)
  rw [Std.LawfulEqOrd.compare_eq_iff_eq.2 rfl] at h
  cases h

omit [DecidableEq K] [Std.LawfulEqOrd K] in
/-- Maps with the same keys list them in the same order. -/
theorem keys_congr [Std.TransOrd K] {m n : SortedMap K V} (h : ∀ key, key ∈ m.keys ↔ key ∈ n.keys) :
    m.keys = n.keys := by
  have hkeys : ∀ m : SortedMap K V,
      (m.map fun _ _ => PUnit.unit.{v + 1}).entries.map (·.1) = m.keys := by
    intro m
    simp [map, keys]
  have hmem : ∀ (m : SortedMap K V) (e : K × PUnit.{v + 1}),
      e ∈ (m.map fun _ _ => PUnit.unit).entries ↔ e.1 ∈ m.keys := by
    rintro m ⟨key, -⟩
    simp [map, keys]
  rw [← hkeys m, ← hkeys n]
  refine congrArg _ (Entries.ext_mem (ascending _) (ascending _) fun e => ?_)
  rw [hmem, hmem, h]

/-- A filter keeps an entry or hides it. -/
theorem get?_filter (m : SortedMap K V) (p : K → V → Bool) (key : K) :
    (m.filter p).get? key = (m.get? key).filter (p key) := by
  ext value
  rw [get?_eq_some_iff, Option.filter_eq_some_iff, get?_eq_some_iff]
  simp [filter]

variable [Std.TransOrd K]

@[simp] theorem get?_modifyD (m : SortedMap K V) (key : K) (default : V) (f : V → V) (q : K) :
    (m.modifyD key default f).get? q =
      if q = key then some (f (m.getD key default)) else m.get? q := by
  rw [modifyD, get?_insert]

theorem getD_modifyD (m : SortedMap K V) (key : K) (default : V) (f : V → V) (q : K) (d : V) :
    (m.modifyD key default f).getD q d =
      if q = key then f (m.getD key default) else m.getD q d := by
  rw [getD, get?_modifyD]
  split <;> rfl

/-- A map built from the values of a function holds them at the listed keys. -/
theorem get?_ofList_map {A : Type u} (key : A → K) (value : K → V) (list : List A) (q : K) :
    (ofList (list.map fun a => (key a, value (key a)))).get? q =
      if q ∈ list.map key then some (value q) else none := by
  suffices ∀ entries : List (K × V),
      Entries.get? q ((list.map fun a => (key a, value (key a))).foldl
        (fun entries e => Entries.insert e.1 e.2 entries) entries) =
        if q ∈ list.map key then some (value q) else Entries.get? q entries from
    this []
  induction list with
  | nil => intro entries; simp
  | cons a list ih =>
    intro entries
    rw [List.map_cons, List.foldl_cons, ih, Entries.get?_insert]
    by_cases hq : q = key a
    · subst hq
      simp
    · simp [hq]

/-- A map built from pairs with different keys holds exactly these pairs. -/
theorem get?_ofList_eq_some_iff {pairs : List (K × V)} (h : (pairs.map (·.1)).Nodup) {key : K}
    {value : V} : (ofList pairs).get? key = some value ↔ (key, value) ∈ pairs := by
  suffices ∀ entries : List (K × V), (∀ e ∈ pairs, Entries.get? e.1 entries = none) →
      (Entries.get? key (pairs.foldl (fun entries e => Entries.insert e.1 e.2 entries) entries) =
        some value ↔ Entries.get? key entries = some value ∨ (key, value) ∈ pairs) by
    have hnil := this [] (by simp)
    simp only [Entries.get?_nil, reduceCtorEq, false_or] at hnil
    exact hnil
  induction pairs with
  | nil => simp
  | cons e pairs ih =>
    intro entries he
    obtain ⟨hn, hp⟩ := List.nodup_cons.1 h
    have hother : ∀ f ∈ pairs, f.1 ≠ e.1 := by
      intro f hf heq
      exact hn (List.mem_map.2 ⟨f, hf, heq⟩)
    rw [List.foldl_cons, ih hp _ fun f hf => by
      rw [Entries.get?_insert, if_neg (hother f hf), he f (List.mem_cons_of_mem _ hf)],
      Entries.get?_insert, List.mem_cons]
    have hfresh := he e List.mem_cons_self
    by_cases hk : key = e.1
    · subst hk
      have : (e.1, value) ∉ pairs := fun hm => hother _ hm rfl
      simp [this, hfresh, Prod.ext_iff, eq_comm]
    · simp [hk, Prod.ext_iff]

end SortedMap

namespace SortedSet

variable {K : Type u} [Ord K] [DecidableEq K] [Std.LawfulEqOrd K]

omit [DecidableEq K] in
/-- No element is listed twice. -/
theorem nodup_toList (s : SortedSet K) : s.toList.Nodup := s.toMap.nodup_keys

omit [DecidableEq K] [Std.LawfulEqOrd K] in
theorem length_toList (s : SortedSet K) : s.toList.length = s.size := by
  simp [toList, SortedMap.keys, size, SortedMap.size]

theorem isEmpty_iff {s : SortedSet K} : s.isEmpty = true ↔ ∀ key, key ∉ s := by
  have h : s.isEmpty = s.toList.isEmpty := by
    simp [isEmpty, SortedMap.isEmpty, toList, SortedMap.keys]
  rw [h, List.isEmpty_iff, List.eq_nil_iff_forall_not_mem]
  simp

theorem min?_eq_none_iff {s : SortedSet K} : s.min? = none ↔ ∀ key, key ∉ s := by
  rw [min?, List.head?_eq_none_iff, List.eq_nil_iff_forall_not_mem]
  simp

theorem mem_of_min?_eq_some {s : SortedSet K} {key : K} (h : s.min? = some key) : key ∈ s := by
  rw [← mem_toList]
  exact List.mem_of_head? h

theorem lt_of_min?_eq_some {s : SortedSet K} {key q : K} (h : s.min? = some key) (hq : q ∈ s)
    (hne : q ≠ key) : compare key q = .lt := by
  have hasc : s.toList.Pairwise fun a b => compare a b = .lt := by
    rw [toList, SortedMap.keys, List.pairwise_map]
    exact s.toMap.ascending
  obtain ⟨rest, hrest⟩ := List.head?_eq_some_iff.1 h
  rw [← mem_toList, hrest] at hq
  rw [hrest] at hasc
  exact (List.pairwise_cons.1 hasc).1 q ((List.mem_cons.1 hq).resolve_left hne)

variable [Std.TransOrd K]

theorem mem_foldl_insert {keys : List K} {s : SortedSet K} {q : K} :
    q ∈ keys.foldl insert s ↔ q ∈ s ∨ q ∈ keys := by
  induction keys generalizing s with
  | nil => simp
  | cons key keys ih =>
    rw [List.foldl_cons, ih, mem_insert, List.mem_cons, or_comm (a := q = key), or_assoc]

theorem mem_ofList {keys : List K} {q : K} : q ∈ ofList keys ↔ q ∈ keys := by
  rw [ofList, mem_foldl_insert]
  simp

end SortedSet

end Recalc
