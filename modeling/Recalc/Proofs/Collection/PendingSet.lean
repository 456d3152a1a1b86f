import Mathlib.Data.List.Perm.Basic
import Recalc.Collection.Distinct
import Recalc.Collection.PendingSet
import Recalc.Proofs.Collection.Sorted

/-!
# Pending sets are sets

The list and the index of a pending set hold the same keys, each once (`PendingSet.InStep`), and
marking and dropping keys keep this. So the list says everything about the set
(`InStep.ext_keys`): marking puts the new keys behind the others (`InStep.keys_extend`), which makes
it associative (`InStep.extend_extend`), and keys may be dropped before or after it
(`InStep.retain_extend`). A predicate that remembers what it was asked keeps the keys that it
accepts in their turn (`InStep.retainWith_eq`).
-/

namespace Recalc.PendingSet

universe u v

variable {K : Type u} [Ord K] [DecidableEq K]

/-- The list and the index hold the same keys, and no key is listed twice. -/
structure InStep (s : PendingSet K) : Prop where
  /-- The index holds what is listed. -/
  mem_index : ∀ key, key ∈ s.index ↔ key ∈ s.keys
  /-- No key is listed twice. -/
  nodup : s.keys.Nodup

theorem inStep_empty : (empty : PendingSet K).InStep :=
  ⟨fun key => by simp [empty], List.nodup_nil⟩

theorem InStep.isEmpty_iff {s : PendingSet K} (h : s.InStep) :
    s.isEmpty = true ↔ ∀ key, s.contains key = false := by
  rw [isEmpty, List.isEmpty_iff, List.eq_nil_iff_forall_not_mem]
  refine forall_congr' fun key => ?_
  rw [← h.mem_index, ← SortedSet.contains_eq_true_iff, Bool.not_eq_true]
  rfl

/-- The index holds as many keys as are listed. -/
theorem InStep.index_size [Std.LawfulEqOrd K] {s : PendingSet K} (h : s.InStep) :
    s.index.size = s.keys.length := by
  rw [← SortedSet.length_toList]
  refine ((List.perm_ext_iff_of_nodup (SortedSet.nodup_toList _) h.nodup).2 fun key => ?_).length_eq
  exact SortedSet.mem_toList.trans (h.mem_index key)

theorem mem_foldl_erase {keys : List K} {s : SortedSet K} {q : K} :
    q ∈ keys.foldl SortedSet.erase s ↔ q ∉ keys ∧ q ∈ s := by
  induction keys generalizing s with
  | nil => simp
  | cons key keys ih =>
    rw [List.foldl_cons, ih, SortedSet.mem_erase, List.mem_cons, not_or, and_assoc,
      and_left_comm]

/-- The list and the index keep the same keys. -/
theorem InStep.retain {s : PendingSet K} (h : s.InStep) (keep : K → Bool) :
    (s.retain keep).InStep := by
  refine ⟨fun key => ?_, h.nodup.filter _⟩
  rw [PendingSet.retain, mem_foldl_erase, h.mem_index, List.mem_filter, List.mem_filter]
  cases keep key <;> simp

theorem InStep.remove {s : PendingSet K} (h : s.InStep) (key : K) : (s.remove key).2.InStep := by
  rw [PendingSet.remove]
  split
  · refine ⟨fun q => ?_, h.nodup.filter _⟩
    rw [SortedSet.mem_erase, h.mem_index, List.mem_filter, decide_eq_true_iff, and_comm]
  · exact h

/-- Taking a key out leaves the other ones listed. -/
theorem InStep.keys_remove {s : PendingSet K} (h : s.InStep) (key : K) :
    (s.remove key).2.keys = s.keys.filter (· ≠ key) := by
  rw [PendingSet.remove]
  split
  · rfl
  · rename_i hk
    have hout : key ∉ s.keys := fun hm => hk ((h.mem_index key).2 hm)
    refine (List.filter_eq_self.2 fun q hq => ?_).symm
    exact decide_eq_true fun he => hout (he ▸ hq)

/-- It is answered with whether the key was listed. -/
theorem InStep.remove_fst {s : PendingSet K} (h : s.InStep) {key : K} :
    (s.remove key).1 = true ↔ key ∈ s.keys := by
  rw [PendingSet.remove, ← h.mem_index, ← SortedSet.contains_eq_true_iff]
  split <;> simp [*]

/-! ### Predicates that remember -/

section Verdict

variable {S : Type v} {keep : S → K → Bool × S} {state : S} {keys : List K} {key q : K}

/-- What `keep` says of `key` when it is asked about the listed keys in order: by then it was asked
about those in front of `key`. -/
def verdict (keep : S → K → Bool × S) (state : S) (keys : List K) (key : K) : Bool :=
  (keep ((keys.takeWhile (· ≠ key)).foldl (fun state q => (keep state q).2) state) key).1

omit [Ord K] in
theorem verdict_cons_self : verdict keep state (key :: keys) key = (keep state key).1 := by
  simp [verdict]

omit [Ord K] in
theorem verdict_cons_of_ne (h : q ≠ key) :
    verdict keep state (key :: keys) q = verdict keep (keep state key).2 keys q := by
  simp [verdict, h.symm]

/-- Keys that are different are kept if they are accepted in their turn, and the others leave the
index. -/
theorem sift_eq (h : keys.Nodup) (index : SortedSet K) :
    (sift keep state keys index).2 =
      ⟨keys.filter (verdict keep state keys),
        (keys.filter (!verdict keep state keys ·)).foldl SortedSet.erase index⟩ := by
  induction keys generalizing state index with
  | nil => rfl
  | cons key keys ih =>
    obtain ⟨hout, hn⟩ := List.nodup_cons.1 h
    -- Of the other keys it is asked in the state that it is in after the first one.
    have hrest : ∀ q ∈ keys, verdict keep state (key :: keys) q =
        verdict keep (keep state key).2 keys q := fun q hq =>
      verdict_cons_of_ne fun he => hout (he ▸ hq)
    have hdropped : ∀ q ∈ keys, (!verdict keep state (key :: keys) q) =
        !verdict keep (keep state key).2 keys q := fun q hq => congrArg (!·) (hrest q hq)
    rw [List.filter_cons, List.filter_cons, verdict_cons_self, List.filter_congr hrest,
      List.filter_congr hdropped, sift]
    rcases hk : keep state key with ⟨_ | _, next⟩
    · simpa using ih hn (index.erase key)
    · simp [ih hn index]

end Verdict

/-- A predicate that remembers keeps the keys that it accepts in their turn. -/
theorem InStep.retainWith_eq {S : Type v} {s : PendingSet K} (h : s.InStep)
    (keep : S → K → Bool × S) (state : S) :
    (s.retainWith keep state).2 = s.retain (verdict keep state s.keys) :=
  sift_eq h.nodup s.index

variable [Std.LawfulEqOrd K] [Std.TransOrd K]

/-- Sets that list the same keys are equal. -/
theorem InStep.ext_keys {s t : PendingSet K} (hs : s.InStep) (ht : t.InStep)
    (h : s.keys = t.keys) : s = t := by
  obtain ⟨keys, index⟩ := s
  obtain ⟨keys', index'⟩ := t
  obtain rfl : keys = keys' := h
  congr
  exact SortedSet.ext_mem fun key => (hs.mem_index key).trans (ht.mem_index key).symm

theorem InStep.insert {s : PendingSet K} (h : s.InStep) (key : K) : (s.insert key).InStep := by
  rw [PendingSet.insert, mark]
  split
  · exact h
  · rename_i hk
    have hk' : key ∉ s.keys := fun hm => hk ((h.mem_index key).2 hm)
    refine ⟨fun q => ?_, ?_⟩
    · rw [SortedSet.mem_insert, h.mem_index, List.mem_append, List.mem_singleton, or_comm]
    · exact List.nodup_append.2 ⟨h.nodup, by simp, by
        rintro a ha b hb rfl
        exact hk' (List.mem_singleton.1 hb ▸ ha)⟩

/-- Marking a key is answered with whether it was not listed. -/
theorem InStep.mark_fst {s : PendingSet K} (h : s.InStep) {key : K} :
    (s.mark key).1 = true ↔ key ∉ s.keys := by
  rw [mark, ← h.mem_index, ← SortedSet.contains_eq_true_iff]
  split <;> simp [*]

/-- A marked key is put behind the others, if it is new. -/
theorem InStep.keys_insert {s : PendingSet K} (h : s.InStep) (key : K) :
    (s.insert key).keys = if key ∈ s.keys then s.keys else s.keys ++ [key] := by
  rw [PendingSet.insert, mark]
  have hindex : s.index.contains key = true ↔ key ∈ s.keys := h.mem_index key
  by_cases hk : key ∈ s.keys
  · rw [if_pos hk, if_pos (hindex.2 hk)]
  · rw [if_neg hk, if_neg (mt hindex.1 hk)]

/-- Marking a key adds it to the listed ones. -/
theorem InStep.mem_keys_insert {s : PendingSet K} (h : s.InStep) {key q : K} :
    q ∈ (s.insert key).keys ↔ q ∈ s.keys ∨ q = key := by
  rw [h.keys_insert]
  exact mem_appendNew

/-- Marking a key lists nothing else. -/
theorem mem_keys_of_insert {s : PendingSet K} {key q : K} (h : q ∈ (s.insert key).keys) :
    q ∈ s.keys ∨ q = key := by
  rw [PendingSet.insert, mark] at h
  split at h
  · exact .inl h
  · exact (List.mem_append.1 h).imp_right List.mem_singleton.1

/-- Marking keys lists nothing else. -/
theorem mem_keys_of_extend {s : PendingSet K} {keys : List K} {q : K}
    (h : q ∈ (s.extend keys).keys) : q ∈ s.keys ∨ q ∈ keys := by
  induction keys generalizing s with
  | nil => exact .inl h
  | cons key keys ih =>
    rcases ih (s := s.insert key) h with hq | hq
    · refine (mem_keys_of_insert hq).imp_right ?_
      rintro rfl
      exact List.mem_cons_self
    · exact .inr (List.mem_cons_of_mem _ hq)

theorem InStep.extend {s : PendingSet K} (h : s.InStep) (keys : List K) :
    (s.extend keys).InStep := by
  induction keys generalizing s with
  | nil => exact h
  | cons key keys ih => exact ih (h.insert key)

/-- Marking keys appends what is new. -/
theorem InStep.keys_extend_eq {s : PendingSet K} (h : s.InStep) (keys : List K) :
    (s.extend keys).keys = keys.foldl appendNew s.keys := by
  induction keys generalizing s with
  | nil => rfl
  | cons key keys ih =>
    have step : s.extend (key :: keys) = (s.insert key).extend keys := rfl
    rw [step, ih (h.insert key), h.keys_insert, List.foldl_cons, appendNew]

/-- Marking keys adds them to the listed ones. -/
theorem InStep.mem_keys_extend {s : PendingSet K} (h : s.InStep) {keys : List K} {q : K} :
    q ∈ (s.extend keys).keys ↔ q ∈ s.keys ∨ q ∈ keys := by
  rw [h.keys_extend_eq, mem_foldl_appendNew]

/-- Marking leaves nothing out. -/
theorem InStep.eq_nil_of_extend {s : PendingSet K} (h : s.InStep) {keys : List K}
    (he : (s.extend keys).keys = []) : keys = [] := by
  refine List.eq_nil_iff_forall_not_mem.2 fun key hk => ?_
  have hmarked : key ∈ (s.extend keys).keys := h.mem_keys_extend.2 (.inr hk)
  rw [he] at hmarked
  cases hmarked

/-! ### The order of the keys -/

/-- Of different keys the new ones are put behind the others, in their order. -/
theorem InStep.keys_extend {s : PendingSet K} (h : s.InStep) {keys : List K} (hn : keys.Nodup) :
    (s.extend keys).keys = s.keys ++ keys.filter (· ∉ s.keys) := by
  rw [h.keys_extend_eq, foldl_appendNew, eraseDups_of_nodup (hn.filter _)]

theorem InStep.empty_extend {s : PendingSet K} (h : s.InStep) :
    (empty : PendingSet K).extend s.keys = s := by
  refine (inStep_empty.extend s.keys).ext_keys h ?_
  rw [inStep_empty.keys_extend h.nodup]
  simp [empty]

/-- Marking is associative. -/
theorem InStep.extend_extend {s t u : PendingSet K} (hs : s.InStep) (ht : t.InStep)
    (hu : u.InStep) : (s.extend t.keys).extend u.keys = s.extend (t.extend u.keys).keys := by
  refine ((hs.extend _).extend _).ext_keys (hs.extend _) ?_
  rw [(hs.extend _).keys_extend hu.nodup, hs.keys_extend ht.nodup,
    hs.keys_extend (ht.extend _).nodup, ht.keys_extend hu.nodup, List.filter_append,
    List.filter_filter, List.append_assoc]
  congr 2
  -- A key of `u` is new behind the other two lists if neither of them holds it.
  refine List.filter_congr fun key _ => ?_
  simp only [List.mem_append, List.mem_filter, decide_eq_true_eq]
  grind

/-- Keys may be dropped before others are marked. -/
theorem InStep.retain_extend {s t : PendingSet K} (hs : s.InStep) (ht : t.InStep)
    (keep : K → Bool) :
    (s.extend t.keys).retain keep = (s.retain keep).extend (t.retain keep).keys := by
  refine ((hs.extend _).retain keep).ext_keys ((hs.retain keep).extend _) ?_
  have hkeys : ∀ s : PendingSet K, (s.retain keep).keys = s.keys.filter keep := fun _ => rfl
  rw [(hs.retain keep).keys_extend (ht.retain keep).nodup, hkeys, hkeys, hkeys,
    hs.keys_extend ht.nodup, List.filter_append, List.filter_filter, List.filter_filter]
  congr 1
  refine List.filter_congr fun key _ => ?_
  cases hk : keep key <;> simp [hk]

end Recalc.PendingSet
