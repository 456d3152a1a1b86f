import Mathlib.Data.List.DropRight
import Mathlib.Data.List.Induction
import Recalc.Collection.Interner.Calls
import Recalc.Proofs.Collection.Interner

/-!
# Ids are dense and stable

After any calls, and with any hash function, the table is the list of the keys that were interned
since it was cleared, each at its first appearance (`keys_after`), and the id of a key is its place
there. Everything that a call answers is read off that list.

The strict calls come to the same tables with the same answers as long as the ids last
(`after?_eq_some_iff`): the buckets hold places only, so that no search fails, and what is left to
fail is a key or a listing that needs more ids than there are (`Exceeds`). The main result,
`dense_after`, puts these together.
-/

namespace Recalc.Interner

universe u

variable {K : Type u} [DecidableEq K] {hash : K → UInt64}

/-! ### The keys seen -/

/-- Whether the call forgets the keys. -/
def Call.isClear : Call K → Bool
  | clear => true
  | _ => false

/-- The key that a call interns. -/
def Call.interned? : Call K → Option K
  | intern key => some key
  | _ => none

/-- The keys interned since the table was cleared last, each at its first appearance. -/
def seen (calls : List (Call K)) : List K :=
  distinct ((calls.rtakeWhile fun call => !call.isClear).filterMap Call.interned?)

theorem seen_concat_clear (calls : List (Call K)) : seen (calls ++ [.clear]) = [] := by
  rw [seen, List.rtakeWhile_concat_neg _ _ _ (by simp [Call.isClear])]
  rfl

/-- Behind a call that does not clear the table, the keys seen are those from before and the one
that it interns. -/
theorem seen_concat {calls : List (Call K)} {call : Call K} (h : call.isClear = false) :
    seen (calls ++ [call]) = call.interned?.toList.foldl appendNew (seen calls) := by
  rw [seen, List.rtakeWhile_concat_pos _ _ _ (by simp [h]), List.filterMap_append, distinct,
    List.foldl_append, ← distinct, ← seen]
  cases call <;> rfl

/-- Each call shows one key at most. -/
theorem length_seen_le (calls : List (Call K)) : (seen calls).length ≤ calls.length := by
  induction calls using List.reverseRecOn with
  | nil => exact Nat.le_refl 0
  | append_singleton calls call ih =>
    rw [List.length_append, List.length_singleton]
    cases call with
    | clear =>
      rw [seen_concat_clear]
      exact Nat.zero_le _
    | intern key =>
      rw [seen_concat rfl, Call.interned?, Option.toList_some, List.foldl_cons, List.foldl_nil,
        appendNew]
      split
      · omega
      · rw [List.length_append, List.length_singleton]
        omega
    | _ =>
      rw [seen_concat rfl]
      exact Nat.le_succ_of_le ih

theorem nodup_seen (calls : List (Call K)) : (seen calls).Nodup := nodup_distinct _

/-- A key keeps its place until the table is cleared. -/
theorem seen_append (calls : List (Call K)) {later : List (Call K)} (h : .clear ∉ later) :
    seen calls <+: seen (calls ++ later) := by
  induction later using List.reverseRecOn with
  | nil => simp
  | append_singleton later call ih =>
    have hlater : .clear ∉ later := fun hm => h (List.mem_append_left _ hm)
    have hcall : call.isClear = false := by
      cases call with
      | clear => exact absurd (List.mem_append_right _ List.mem_cons_self) h
      | _ => rfl
    rw [← List.append_assoc, seen_concat hcall, foldl_appendNew]
    exact (ih hlater).trans (List.prefix_append _ _)

/-! ### The table is the list of the keys seen -/

theorem after_concat (calls : List (Call K)) (call : Call K) :
    after hash (calls ++ [call]) = (call.perform (after hash calls)).2 := by
  rw [after, List.foldl_concat, ← after]

omit [DecidableEq K] in
theorem Sound.clear {t : Interner K} : t.clear.Sound := sound_empty t.hash

theorem Sound.perform {t : Interner K} (h : t.Sound) (call : Call K) :
    (call.perform t).2.Sound := by
  cases call with
  | intern key => exact h.intern key
  | lookup key => exact h
  | get id => exact h
  | toList => exact h
  | clear => exact .clear

theorem sound_after (calls : List (Call K)) : (after hash calls).Sound := by
  induction calls using List.reverseRecOn with
  | nil => exact sound_empty hash
  | append_singleton calls call ih => exact after_concat calls call ▸ ih.perform call

/-- The table holds the keys seen, in order. -/
theorem keys_after (calls : List (Call K)) : (after hash calls).keys.toList = seen calls := by
  induction calls using List.reverseRecOn with
  | nil => rfl
  | append_singleton calls call ih =>
    rw [after_concat]
    cases call with
    | intern key => rw [seen_concat rfl, ← ih]; exact (sound_after calls).toList_keys_intern key
    | clear => rw [seen_concat_clear]; rfl
    | _ => rw [seen_concat rfl]; exact ih

theorem size_after (calls : List (Call K)) : (after hash calls).size = (seen calls).length := by
  rw [size, ← Array.length_toList, keys_after]

theorem isEmpty_after (calls : List (Call K)) :
    (after hash calls).isEmpty = (seen calls).isEmpty := by
  rw [isEmpty, ← Array.isEmpty_toList, keys_after]

theorem get?_after (calls : List (Call K)) (id : Nat) :
    (after hash calls).get? id = (seen calls)[id]? := by
  rw [get?, ← Array.getElem?_toList, keys_after]

theorem lookup_after {calls : List (Call K)} {key : K} {id : Nat} :
    (after hash calls).lookup key = some id ↔ (seen calls)[id]? = some key := by
  rw [(sound_after calls).lookup_eq_some_iff, get?_after]

theorem lookup_after_eq_none {calls : List (Call K)} {key : K} :
    (after hash calls).lookup key = none ↔ key ∉ seen calls := by
  rw [Option.eq_none_iff_forall_ne_some, List.mem_iff_getElem?, not_exists]
  simp only [ne_eq, lookup_after]

/-- A key that was seen has an id, and interning it changes nothing. -/
theorem intern_after_of_seen {calls : List (Call K)} {key : K} {id : Nat}
    (h : (seen calls)[id]? = some key) :
    (after hash calls).intern key = (id, after hash calls) := by
  rw [intern, lookup_after.2 h]

/-- Another key gets the next id. -/
theorem intern_after_of_not_seen {calls : List (Call K)} {key : K} (h : key ∉ seen calls) :
    ((after hash calls).intern key).1 = (seen calls).length := by
  rw [intern, lookup_after_eq_none.2 h]
  exact size_after calls

/-- A key that was found by an id is found by it until the table is cleared, and the id by the
key. -/
theorem get?_append {calls later : List (Call K)} (h : .clear ∉ later) {id : Nat} {key : K}
    (hk : (after hash calls).get? id = some key) :
    (after hash (calls ++ later)).get? id = some key ∧
      (after hash (calls ++ later)).lookup key = some id := by
  obtain ⟨rest, hrest⟩ := seen_append calls h
  have hkept : (seen (calls ++ later))[id]? = some key := by
    rw [get?_after] at hk
    rw [← hrest, List.getElem?_append_left (List.getElem?_eq_some_iff.1 hk).1, hk]
  exact ⟨(get?_after _ id).trans hkept, lookup_after.2 hkept⟩

omit [DecidableEq K] in
/-- The listing of a table numbers its keys. -/
theorem toList_eq (t : Interner K) : t.toList = t.keys.toList.mapIdx Prod.mk := by
  refine List.ext_getElem (by simp [toList]) fun id hid _ => ?_
  simp [toList]

theorem toList_after (calls : List (Call K)) :
    (after hash calls).toList = (seen calls).mapIdx Prod.mk := by
  rw [toList_eq, keys_after]

/-! ### Strict calls -/

/-- A search among places finds the first one that matches. -/
theorem search?_eq {keys : Array K} {key : K} {ids : List Nat}
    (h : ∀ id ∈ ids, ∃ k, keys[id]? = some k) :
    search? keys key ids = some (ids.find? fun id => keys[id]? = some key) := by
  induction ids with
  | nil => rfl
  | cons id ids ih =>
    obtain ⟨found, hfound⟩ := h id List.mem_cons_self
    have hrest := ih fun i hi => h i (List.mem_cons_of_mem _ hi)
    rw [search?, hfound, List.find?_cons, hfound]
    by_cases hk : found = key
    · simp [hk]
    · simp [hk, hrest]

/-- The buckets hold places only, so no look-up fails. -/
theorem Sound.lookup?_eq {t : Interner K} (h : t.Sound) (key : K) :
    t.lookup? key = some (t.lookup key) := by
  refine search?_eq fun id hid => ?_
  obtain ⟨k, hk, -⟩ := (h.mem_bucket _ id).1 hid
  exact ⟨k, hk⟩

/-- Interning fails at a new key for which no id is left. -/
theorem Sound.intern?_eq {t : Interner K} (h : t.Sound) (key : K) :
    t.intern? key =
      if t.lookup key = none ∧ UInt32.size ≤ t.size then none else some (t.intern key) := by
  rw [intern?, h.lookup?_eq, Interner.intern, size]
  cases t.lookup key with
  | some id => simp
  | none =>
    by_cases hfull : UInt32.size ≤ t.keys.size
    · simp [hfull, Nat.not_lt.2 hfull]
    · simp [hfull, Nat.not_le.1 hfull]

omit [DecidableEq K] in
theorem number?_eq {keys : List K} {id : Nat} (h : id + keys.length < UInt32.size) :
    number? id keys = some (keys.mapIdx fun i key => (id + i, key)) := by
  induction keys generalizing id with
  | nil => rfl
  | cons key keys ih =>
    rw [List.length_cons] at h
    have hshift : ∀ i, id + 1 + i = id + (i + 1) := fun i => by omega
    rw [number?, if_pos (by omega), ih (by omega), List.mapIdx_cons]
    simp [hshift]

omit [DecidableEq K] in
/-- The counter has to move on behind the last key. -/
theorem number?_eq_none {keys : List K} {id : Nat} (hid : id < UInt32.size)
    (h : UInt32.size ≤ id + keys.length) : number? id keys = none := by
  induction keys generalizing id with
  | nil => exact absurd h (Nat.not_le.2 hid)
  | cons key keys ih =>
    rw [List.length_cons] at h
    rw [number?]
    split
    · rename_i hnext
      rw [ih hnext (by omega), Option.map_none]
    · rfl

omit [DecidableEq K] in
/-- A listing fails when there are as many keys as ids. -/
theorem toList?_eq (t : Interner K) :
    t.toList? = if UInt32.size ≤ t.size then none else some t.toList := by
  have hsize : t.keys.toList.length = t.size := Array.length_toList
  rw [toList?]
  by_cases hfull : UInt32.size ≤ t.size
  · rw [if_pos hfull, number?_eq_none (by decide) (by omega)]
  · rw [if_neg hfull, number?_eq (by omega), toList_eq]
    simp

/-- The call needs more ids than there are: its key is new and all ids are given, or it lists a
table in which all of them are given, so that its counter overflows behind the last one. -/
def Exceeds (before : List (Call K)) : Call K → Prop
  | .intern key => key ∉ seen before ∧ UInt32.size ≤ (seen before).length
  | .toList => UInt32.size ≤ (seen before).length
  | _ => False

theorem map_ite_none_eq_some_iff {A B : Type u} {p : Prop} [Decidable p] {f : A → B} {a : A}
    {b : B} : (if p then none else some a).map f = some b ↔ ¬ p ∧ b = f a := by
  split <;> simp [*, eq_comm]

/-- A strict call fails when it needs more ids than there are, and is like the other one else. -/
theorem perform?_after_eq_some_iff {calls : List (Call K)} {call : Call K}
    {reply : Answer K × Interner K} :
    call.perform? (after hash calls) = some reply ↔
      ¬ Exceeds calls call ∧ reply = call.perform (after hash calls) := by
  have h : (after hash calls).Sound := sound_after calls
  cases call with
  | intern key =>
    rw [Call.perform?, h.intern?_eq, map_ite_none_eq_some_iff, lookup_after_eq_none, size_after]
    exact Iff.rfl
  | lookup key =>
    rw [Call.perform?, h.lookup?_eq]
    simp [Exceeds, Call.perform, eq_comm]
  | get id => simp [Call.perform?, Exceeds, Call.perform, eq_comm]
  | toList =>
    rw [Call.perform?, toList?_eq, map_ite_none_eq_some_iff, size_after]
    exact Iff.rfl
  | clear => simp [Call.perform?, Exceeds, Call.perform, eq_comm]

/-- No call needs more ids than there are. -/
def WithinIds (calls : List (Call K)) : Prop :=
  ∀ before call, before ++ [call] <+: calls → ¬ Exceeds before call

theorem withinIds_concat {calls : List (Call K)} {call : Call K} :
    WithinIds (calls ++ [call]) ↔ WithinIds calls ∧ ¬ Exceeds calls call := by
  constructor
  · intro h
    exact ⟨fun before first hp => h before first (hp.trans (List.prefix_append _ _)),
      h calls call List.prefix_rfl⟩
  · rintro ⟨h, hcall⟩ before first hp
    rcases List.prefix_concat_iff.1 hp with he | hp
    · obtain ⟨rfl, hc⟩ := List.append_inj' he rfl
      exact List.singleton_inj.1 hc ▸ hcall
    · exact h before first hp

/-- The ids last for as many calls as there are ids. -/
theorem withinIds_of_length_le {calls : List (Call K)} (h : calls.length ≤ UInt32.size) :
    WithinIds calls := by
  intro before call hp hx
  have hbefore := hp.length_le
  rw [List.length_append, List.length_singleton] at hbefore
  have hseen : UInt32.size ≤ (seen before).length := by
    cases call with
    | intern key => exact hx.2
    | toList => exact hx
    | _ => exact hx.elim
  have hle := length_seen_le before
  omega

theorem after?_concat (calls : List (Call K)) (call : Call K) :
    after? hash (calls ++ [call]) =
      (after? hash calls).bind fun t => (call.perform? t).map (·.2) := by
  rw [after?, List.foldlM_append, ← after?]
  simp

/-- Strict calls come to the same table, unless one of them needs more ids than there are. -/
theorem after?_eq_some_iff {calls : List (Call K)} {t : Interner K} :
    after? hash calls = some t ↔ WithinIds calls ∧ t = after hash calls := by
  induction calls using List.reverseRecOn generalizing t with
  | nil =>
    have hnil : WithinIds ([] : List (Call K)) := fun before call hp => by simp at hp
    rw [and_iff_right hnil, eq_comm]
    exact Option.some_inj
  | append_singleton calls call ih =>
    rw [after?_concat, after_concat, withinIds_concat]
    constructor
    · intro h
      obtain ⟨u, hu, h⟩ := Option.bind_eq_some_iff.1 h
      obtain ⟨reply, hreply, rfl⟩ := Option.map_eq_some_iff.1 h
      obtain ⟨hwithin, rfl⟩ := ih.1 hu
      obtain ⟨hcall, rfl⟩ := perform?_after_eq_some_iff.1 hreply
      exact ⟨⟨hwithin, hcall⟩, rfl⟩
    · rintro ⟨⟨hwithin, hcall⟩, rfl⟩
      rw [ih.2 ⟨hwithin, rfl⟩, Option.bind_some, perform?_after_eq_some_iff.2 ⟨hcall, rfl⟩]
      rfl

/-! ### Histories -/

/-- What a history of calls has led to: the keys seen are numbered in order, by ids that last. -/
structure Dense (hash : K → UInt64) (calls : List (Call K)) : Prop where
  /-- No key is seen twice. -/
  nodup : (seen calls).Nodup
  /-- There are as many keys as were seen. -/
  size : (after hash calls).size = (seen calls).length
  /-- There is none if none was seen. -/
  isEmpty : (after hash calls).isEmpty = (seen calls).isEmpty
  /-- The keys seen are listed in order, with the ids from zero on. -/
  toList : (after hash calls).toList = (seen calls).mapIdx Prod.mk
  /-- Interning a key that was seen answers its place, and changes nothing. -/
  intern_seen : ∀ key id, (seen calls)[id]? = some key →
    (after hash calls).intern key = (id, after hash calls)
  /-- Interning another key answers the number of keys seen. -/
  intern_new : ∀ key, key ∉ seen calls → ((after hash calls).intern key).1 = (seen calls).length
  /-- A look-up finds the place of a key that was seen. -/
  lookup : ∀ key id, (after hash calls).lookup key = some id ↔ (seen calls)[id]? = some key
  /-- It finds nothing for another key. -/
  lookup_new : ∀ key, (after hash calls).lookup key = none ↔ key ∉ seen calls
  /-- An id stands for the key in its place, or for none behind them. -/
  get : ∀ id, (after hash calls).get? id = (seen calls)[id]?
  /-- The id of an interned key stands for that key. -/
  get_intern : ∀ key,
    ((after hash calls).intern key).2.get? ((after hash calls).intern key).1 = some key
  /-- An id stands for its key until the table is cleared. -/
  kept : ∀ later, .clear ∉ later → ∀ id key, (after hash calls).get? id = some key →
    (after hash (calls ++ later)).get? id = some key ∧
      (after hash (calls ++ later)).lookup key = some id
  /-- The ids last for as many calls as there are ids. -/
  within : calls.length ≤ UInt32.size → WithinIds calls
  /-- Strict calls come to the same table, unless one of them needs more ids than there are. -/
  strict : ∀ t, after? hash calls = some t ↔ WithinIds calls ∧ t = after hash calls
  /-- So does the next call, with the same answer. -/
  strict_next : ∀ call reply, call.perform? (after hash calls) = some reply ↔
    ¬ Exceeds calls call ∧ reply = call.perform (after hash calls)

/-- **Ids are dense and stable**, whatever calls were made and however keys collide in the buckets:
the keys interned since the table was cleared have the ids from zero on, in the order in which they
were first seen, look-ups and ids tell them apart, and they keep their ids until the table is
cleared. Strict calls do the same, and fail only where 32 bits are not enough for an id. -/
theorem dense_after (hash : K → UInt64) (calls : List (Call K)) : Dense hash calls where
  nodup := nodup_seen calls
  size := size_after calls
  isEmpty := isEmpty_after calls
  toList := toList_after calls
  intern_seen _ _ := intern_after_of_seen
  intern_new _ := intern_after_of_not_seen
  lookup _ _ := lookup_after
  lookup_new _ := lookup_after_eq_none
  get := get?_after calls
  get_intern := (sound_after calls).get?_intern_self
  kept _ h _ _ := get?_append h
  within := withinIds_of_length_le
  strict _ := after?_eq_some_iff
  strict_next _ _ := perform?_after_eq_some_iff

/-- Keys in one bucket are told apart, and a key that comes back behind a clearing gets a new id. -/
example : let calls := [.intern "A.x", .intern "B.y", .clear, .intern "B.y", .intern "A.x",
      .intern "B.y"]
    (after (fun _ => 0) calls).toList = [(0, "B.y"), (1, "A.x")] ∧
      (after (fun _ => 0) calls).lookup "A.x" = some 1 := by decide +kernel

end Recalc.Interner
