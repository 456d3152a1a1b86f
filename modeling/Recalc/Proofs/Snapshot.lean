import Recalc.Patch
import Recalc.Proofs.Collection.Sorted

/-!
# Equal values and equal snapshots

Every evaluated value equals itself: the floats in a JSON value are finite. Two snapshots are equal
if they have equal values at every path (`Snapshot.beq_of_alike`), and patches that bring paths to
their values in another snapshot lead to that snapshot, if the paths without a patch have equal
values already (`Patch.replay_beq`).
-/

namespace Recalc

/-! ### Values equal themselves -/

namespace Json

theorem Number.beq_self (n : Number) : (n == n) = true := by
  cases n with
  | int value => exact beq_self_eq_true value
  | float value finite =>
    change (value.toModel.unpack.compare value.toModel.unpack == some .eq) = true
    have hf : value.toModel.unpack.isFinite = true := finite
    cases hu : value.toModel.unpack with
    | infinity sign =>
      rw [hu] at hf
      cases hf
    | notANumber =>
      rw [hu] at hf
      cases hf
    | zero sign => rfl
    | finite sign mantissa exponent pos =>
      have hself : (compare exponent exponent).then (compare mantissa mantissa) = .eq := by
        rw [Std.ReflOrd.compare_self, Std.ReflOrd.compare_self, Ordering.then]
      cases sign with
      | positive => exact beq_iff_eq.2 (congrArg some hself)
      | negative => exact beq_iff_eq.2 (congrArg (fun o : Ordering => some o.swap) hself)

mutual

theorem beq_self (value : Json) : beq value value = true := by
  match value with
  | .null => rfl
  | .bool b => exact beq_self_eq_true b
  | .number n => exact n.beq_self
  | .string s => exact beq_self_eq_true s
  | .array items => exact beqItems_self items
  | .object fields => exact beqFields_self fields

theorem beqItems_self (items : List Json) : beqItems items items = true := by
  match items with
  | [] => rfl
  | item :: rest =>
    rw [beqItems, beq_self item, beqItems_self rest]
    rfl

theorem beqFields_self (fields : List (String × Json)) : beqFields fields fields = true := by
  match fields with
  | [] => rfl
  | (key, value) :: rest =>
    rw [beqFields, beq_self value, beqFields_self rest, beq_self_eq_true key]
    rfl

end

end Json

theorem Value.beq_self (v : Value) : (v == v) = true := by
  cases v with
  | undefined => rfl
  | data payload => exact payload.beq_self
  | bulk identity payload => exact beq_self_eq_true identity

/-! ### Snapshots -/

namespace Snapshot

theorem get?_insert (s : Snapshot) (path : String) (value : Value) (q : String) :
    (s.insert path value).get? q = if q = path then some value else s.get? q :=
  SortedMap.get?_insert s.values path value q

theorem get?_erase (s : Snapshot) (path q : String) :
    (s.erase path).get? q = if q = path then none else s.get? q :=
  SortedMap.get?_erase s.values path q

theorem contains_iff {s : Snapshot} {path : String} :
    s.contains path = true ↔ ∃ value, s.get? path = some value := SortedMap.contains_iff

theorem contains_eq_false_iff {s : Snapshot} {path : String} :
    s.contains path = false ↔ s.get? path = none := SortedMap.contains_eq_false_iff

/-- Snapshots with the same values are equal. -/
theorem ext_get? {s t : Snapshot} (h : ∀ path, s.get? path = t.get? path) : s = t :=
  congrArg Snapshot.mk (SortedMap.ext_get? h)

/-- Both values are missing or both are there and equal. -/
def Alike : Option Value → Option Value → Prop
  | none, none => True
  | some a, some b => (a == b) = true
  | _, _ => False

theorem Alike.refl (v : Option Value) : Alike v v := by
  cases v with
  | none => trivial
  | some v => exact v.beq_self

/-- Entries with the same keys have the same key side by side. -/
theorem key_eq_of_mem_zip {a b : List (String × Value)} (h : a.map (·.1) = b.map (·.1)) :
    ∀ p ∈ a.zip b, p.1.1 = p.2.1 := by
  induction a generalizing b with
  | nil => simp
  | cons x a ih =>
    cases b with
    | nil => simp
    | cons y b =>
      rw [List.map_cons, List.map_cons, List.cons.injEq] at h
      exact List.forall_mem_cons.2 ⟨h.1, ih h.2⟩

/-- **Snapshots with equal values at every path are equal.** -/
theorem beq_of_alike {s t : Snapshot} (h : ∀ path, Alike (s.get? path) (t.get? path)) :
    (s == t) = true := by
  have hkeys : s.values.keys = t.values.keys := SortedMap.keys_congr fun path => by
    have hp := h path
    rw [SortedMap.mem_keys_iff, SortedMap.mem_keys_iff]
    change (∃ v, s.get? path = _) ↔ ∃ v, t.get? path = _
    cases hs : s.get? path <;> cases ht : t.get? path <;> simp_all [Alike]
  have hlength : s.toList.length = t.toList.length := by
    simpa [SortedMap.keys, toList] using congrArg List.length hkeys
  change (s.toList.length == t.toList.length && (s.toList.zip t.toList).all _) = true
  rw [Bool.and_eq_true, beq_iff_eq, List.all_eq_true]
  refine ⟨hlength, ?_⟩
  rintro ⟨⟨p, v⟩, ⟨q, w⟩⟩ hpair
  obtain rfl : p = q := key_eq_of_mem_zip hkeys _ hpair
  obtain ⟨hv, hw⟩ := List.of_mem_zip hpair
  have hv : s.get? p = some v := (SortedMap.get?_eq_some_iff _).2 hv
  have hw : t.get? p = some w := (SortedMap.get?_eq_some_iff _).2 hw
  have hp := h p
  rw [hv, hw] at hp
  rw [Bool.and_eq_true]
  exact ⟨beq_self_eq_true p, hp⟩

end Snapshot

/-! ### Replaying patches -/

namespace Patch

/-- The value that a path has after the patch. -/
def value? : Patch → Option Value
  | set _ value => some value
  | delete _ => none

theorem get?_perform (s : Snapshot) (patch : Patch) (path : String) :
    (perform s patch).get? path = if path = patch.path then patch.value? else s.get? path := by
  cases patch with
  | set p value => exact s.get?_insert p value path
  | delete p => exact s.get?_erase p path

theorem replay_cons (s : Snapshot) (patch : Patch) (patches : List Patch) :
    replay s (patch :: patches) = replay (perform s patch) patches := rfl

/-- A path without a patch keeps its value. -/
theorem get?_replay_of_forall_ne {patches : List Patch} {path : String}
    (h : ∀ patch ∈ patches, patch.path ≠ path) (s : Snapshot) :
    (replay s patches).get? path = s.get? path := by
  induction patches generalizing s with
  | nil => rfl
  | cons patch patches ih =>
    obtain ⟨hp, h⟩ := List.forall_mem_cons.1 h
    rw [replay_cons, ih h, get?_perform, if_neg fun he => hp he.symm]

/-- A path with one patch has the value of the patch. -/
theorem get?_replay_of_mem {patches : List Patch} (hn : (patches.map path).Nodup) {patch : Patch}
    (hm : patch ∈ patches) (s : Snapshot) :
    (replay s patches).get? patch.path = patch.value? := by
  induction patches generalizing s with
  | nil => cases hm
  | cons head patches ih =>
    obtain ⟨hout, hn⟩ := List.nodup_cons.1 hn
    rw [replay_cons]
    rcases List.mem_cons.1 hm with rfl | hm
    · rw [get?_replay_of_forall_ne, get?_perform, if_pos rfl]
      exact fun other ho he => hout (List.mem_map.2 ⟨other, ho, he⟩)
    · exact ih hn hm _

/-- **Patches that bring paths to their values in another snapshot** lead to it, if the paths
without a patch have equal values already. -/
theorem replay_beq {s t : Snapshot} {patches : List Patch} (hn : (patches.map path).Nodup)
    (hv : ∀ patch ∈ patches, patch.value? = t.get? patch.path)
    (hs : ∀ p, (∀ patch ∈ patches, patch.path ≠ p) → Snapshot.Alike (s.get? p) (t.get? p)) :
    (replay s patches == t) = true := by
  refine Snapshot.beq_of_alike fun p => ?_
  by_cases hp : ∃ patch ∈ patches, patch.path = p
  · obtain ⟨patch, hm, rfl⟩ := hp
    rw [get?_replay_of_mem hn hm, hv patch hm]
    exact .refl _
  · have hp : ∀ patch ∈ patches, patch.path ≠ p := fun patch hm he => hp ⟨patch, hm, he⟩
    rw [get?_replay_of_forall_ne hp]
    exact hs p hp

/-! ### The patches of an update -/

theorem path_of_at? {previous current : Snapshot} {p : String} {patch : Patch}
    (h : at? previous current p = some patch) : patch.path = p := by
  rw [at?] at h
  split at h
  · cases h
    rfl
  · split at h
    · cases h
    · cases h
      rfl
  · cases h
    rfl
  · cases h

theorem value?_of_at? {previous current : Snapshot} {p : String} {patch : Patch}
    (h : at? previous current p = some patch) : patch.value? = current.get? p := by
  rw [at?] at h
  split at h
  · cases h
    simp [value?, *]
  · split at h
    · cases h
    · cases h
      simp [value?, *]
  · cases h
    simp [value?, *]
  · cases h

/-- A path needs no patch exactly if the snapshots are alike there. -/
theorem at?_eq_none_iff {previous current : Snapshot} {p : String} :
    at? previous current p = none ↔ Snapshot.Alike (previous.get? p) (current.get? p) := by
  rw [at?]
  cases previous.get? p with
  | none =>
    cases current.get? p with
    | none => exact iff_of_true rfl trivial
    | some now => exact iff_of_false (by simp) id
  | some before =>
    cases current.get? p with
    | none => exact iff_of_false (by simp) id
    | some now =>
      change (if (before == now) = true then none else some (set p now)) = none ↔
        (before == now) = true
      rw [ite_eq_left_iff, imp_iff_not (by simp), Decidable.not_not]

/-- A path needs no patch if its value stays. -/
theorem at?_eq_none {previous current : Snapshot} {p : String}
    (h : previous.get? p = current.get? p) : at? previous current p = none :=
  at?_eq_none_iff.2 (h ▸ .refl _)

theorem mem_diff {previous current : Snapshot} {paths : List String} {patch : Patch} :
    patch ∈ diff previous current paths ↔ ∃ p ∈ paths, at? previous current p = some patch := by
  simp only [diff, List.mem_filterMap, mem_distinct]

/-- No path has two patches in a list of differences. -/
theorem nodup_diff (previous current : Snapshot) (paths : List String) :
    ((diff previous current paths).map path).Nodup := by
  rw [diff, List.map_filterMap]
  refine List.Pairwise.filterMap _ (fun p q hne a ha b hb he => hne ?_) (nodup_distinct paths)
  obtain ⟨patch, hp, rfl⟩ := Option.map_eq_some_iff.1 ha
  obtain ⟨other, hq, rfl⟩ := Option.map_eq_some_iff.1 hb
  rw [← path_of_at? hp, ← path_of_at? hq, he]

end Patch

end Recalc
