import Recalc.Collection.Distinct
import Recalc.Collection.Interner
import Recalc.Proofs.Collection.Sorted

/-!
# Interning is a bijection

`Interner.Sound` says that the buckets of a table find exactly its keys. From it follow the three
facts that everything else uses: a look-up inverts `get?`, interning a key makes it found, and no
key ever changes its id.
-/

namespace Recalc.Interner

universe u

variable {K : Type u}

/-- No key is stored twice, and the buckets hold the places of all keys by their hash. -/
structure Sound (t : Interner K) : Prop where
  /-- Each key has one place. -/
  injective : ∀ {i j : Nat} {key : K}, t.keys[i]? = some key → t.keys[j]? = some key → i = j
  /-- The bucket of a hash holds the places of the keys with that hash. -/
  mem_bucket : ∀ (hash : UInt64) (id : Nat),
    id ∈ t.buckets.getD hash [] ↔ ∃ key, t.keys[id]? = some key ∧ t.hash key = hash

theorem sound_empty (hash : K → UInt64) : (empty hash).Sound where
  injective h := by simp [empty] at h
  mem_bucket bucket id := by simp [empty, SortedMap.getD]

variable [DecidableEq K]

/-- A look-up finds the place of a key. -/
theorem Sound.lookup_eq_some_iff {t : Interner K} (h : t.Sound) {key : K} {id : Nat} :
    t.lookup key = some id ↔ t.get? id = some key := by
  rw [lookup, get?]
  constructor
  · intro hf
    simpa using List.find?_some hf
  · intro hk
    have hm : id ∈ t.buckets.getD (t.hash key) [] := (h.mem_bucket _ _).2 ⟨key, hk, rfl⟩
    have hs : ((t.buckets.getD (t.hash key) []).find? fun id => t.keys[id]? = some key).isSome := by
      rw [List.find?_isSome]
      exact ⟨id, hm, by simpa using hk⟩
    obtain ⟨found, hf⟩ := Option.isSome_iff_exists.1 hs
    have hfk : t.keys[found]? = some key := by simpa using List.find?_some hf
    rw [hf, h.injective hfk hk]

/-- Interning a key leaves the table a sound one. -/
theorem Sound.intern {t : Interner K} (h : t.Sound) (key : K) : (t.intern key).2.Sound := by
  rw [Interner.intern]
  split
  · exact h
  · rename_i hn
    have fresh : ∀ i : Nat, t.keys[i]? ≠ some key := fun i hi => by
      have hs : t.lookup key = some i := h.lookup_eq_some_iff.2 hi
      rw [hs] at hn
      cases hn
    refine ⟨?_, ?_⟩
    · intro i j k hi hj
      simp only [Array.getElem?_push] at hi hj
      split at hi <;> split at hj
      · omega
      · exact absurd (Option.some.inj hi ▸ hj) (fresh j)
      · exact absurd (Option.some.inj hj ▸ hi) (fresh i)
      · exact h.injective hi hj
    · intro hash id
      simp only [SortedMap.getD_modifyD, Array.getElem?_push]
      have hold := h.mem_bucket hash id
      by_cases hid : id = t.keys.size
      · have hout : id ∉ t.buckets.getD hash [] := fun hb => by
          obtain ⟨k, hk, -⟩ := hold.1 hb
          rw [hid, Array.getElem?_eq_none (Nat.le_refl _)] at hk
          cases hk
        rw [if_pos hid]
        split
        · rename_i hh
          rw [← hh]
          exact iff_of_true (by simp [hid]) ⟨key, rfl, hh.symm⟩
        · rename_i hh
          refine iff_of_false hout ?_
          rintro ⟨k, hk, hkh⟩
          exact hh (Option.some.inj hk ▸ hkh.symm)
      · rw [if_neg hid]
        split
        · rename_i hh
          rw [← hold, ← hh, List.mem_append, List.mem_singleton, or_iff_left hid]
        · exact hold

/-- A key keeps its id when another key is interned. -/
theorem get?_intern_of_some {t : Interner K} {key k : K} {id : Nat} (hk : t.get? id = some k) :
    (t.intern key).2.get? id = some k := by
  rw [Interner.intern]
  split
  · exact hk
  · have hlt : id < t.keys.size := by
      rw [get?, Array.getElem?_eq_some_iff] at hk
      exact hk.1
    rw [get?, Array.getElem?_push, if_neg (by omega)]
    exact hk

/-- Interning a key gives its id. -/
theorem Sound.get?_intern_self {t : Interner K} (h : t.Sound) (key : K) :
    (t.intern key).2.get? (t.intern key).1 = some key := by
  rw [Interner.intern]
  split
  · rename_i id hid
    exact h.lookup_eq_some_iff.1 hid
  · rw [get?, Array.getElem?_push, if_pos rfl]

/-- The table lists the key behind those that it has seen, unless it is one of them. -/
theorem Sound.toList_keys_intern {t : Interner K} (h : t.Sound) (key : K) :
    (t.intern key).2.keys.toList = appendNew t.keys.toList key := by
  have hmem : key ∈ t.keys.toList ↔ ∃ id, t.lookup key = some id := by
    simp only [h.lookup_eq_some_iff, get?, Array.mem_toList_iff, Array.mem_iff_getElem?]
  rw [Interner.intern, appendNew]
  split
  · rename_i id hid
    rw [if_pos (hmem.2 ⟨id, hid⟩)]
  · rename_i hn
    have hout : key ∉ t.keys.toList := fun hk => by
      obtain ⟨id, hid⟩ := hmem.1 hk
      rw [hn] at hid
      cases hid
    rw [if_neg hout, Array.toList_push]

/-- Interning keys leaves the table a sound one. -/
theorem Sound.internAll {t : Interner K} (h : t.Sound) (keys : List K) :
    (t.internAll keys).2.Sound := by
  induction keys generalizing t with
  | nil => exact h
  | cons key keys ih => exact ih (h.intern key)

theorem Sound.toList_keys_internAll {t : Interner K} (h : t.Sound) (keys : List K) :
    (t.internAll keys).2.keys.toList = keys.foldl appendNew t.keys.toList := by
  induction keys generalizing t with
  | nil => rfl
  | cons key keys ih =>
    rw [List.foldl_cons, ← h.toList_keys_intern]
    exact ih (h.intern key)

/-- A key keeps its id when other keys are interned. -/
theorem get?_internAll_of_some {t : Interner K} (keys : List K) {k : K} {id : Nat}
    (hk : t.get? id = some k) : (t.internAll keys).2.get? id = some k := by
  induction keys generalizing t with
  | nil => exact hk
  | cons key keys ih => exact ih (get?_intern_of_some hk)

/-- Interning keys gives their ids, in order. -/
theorem Sound.map_get?_internAll {t : Interner K} (h : t.Sound) (keys : List K) :
    (t.internAll keys).1.map (t.internAll keys).2.get? = keys.map some := by
  induction keys generalizing t with
  | nil => rfl
  | cons key keys ih =>
    have hself := get?_internAll_of_some keys (h.get?_intern_self key)
    exact List.cons_eq_cons.2 ⟨hself, ih (h.intern key)⟩

/-- The ids given to keys are the ids of these keys. -/
theorem Sound.mem_internAll {t : Interner K} (h : t.Sound) {keys : List K} {id : Nat} :
    id ∈ (t.internAll keys).1 ↔ ∃ key ∈ keys, (t.internAll keys).2.get? id = some key := by
  have hmap := h.map_get?_internAll keys
  constructor
  · intro hid
    have hm : (t.internAll keys).2.get? id ∈ keys.map some := hmap ▸ List.mem_map_of_mem hid
    obtain ⟨key, hk, he⟩ := List.mem_map.1 hm
    exact ⟨key, hk, he.symm⟩
  · rintro ⟨key, hk, he⟩
    have hm : some key ∈ (t.internAll keys).1.map (t.internAll keys).2.get? :=
      hmap ▸ List.mem_map_of_mem hk
    obtain ⟨other, ho, he'⟩ := List.mem_map.1 hm
    exact (h.internAll keys).injective he' he ▸ ho

/-- Every interned key has an id among those given. -/
theorem Sound.exists_mem_internAll {t : Interner K} (h : t.Sound) {keys : List K} {key : K}
    (hk : key ∈ keys) :
    ∃ id ∈ (t.internAll keys).1, (t.internAll keys).2.get? id = some key := by
  have hm : some key ∈ (t.internAll keys).1.map (t.internAll keys).2.get? :=
    h.map_get?_internAll keys ▸ List.mem_map_of_mem hk
  exact List.mem_map.1 hm

end Recalc.Interner
