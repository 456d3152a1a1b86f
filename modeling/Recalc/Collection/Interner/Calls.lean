import Recalc.Collection.Interner

/-!
# Calls of an interner

An interner is used by calls: keys are interned and looked up, ids are turned back into keys, the
table is listed, and now and then it is cleared.

`Call.perform` takes ids for numbers without a bound, and a candidate that is the place of no key
for one that does not match. `Call.perform?` is the strict form: an id has 32 bits, and every
candidate has to be a place. It fails at a candidate that is none, at a new key for which no id is
left, and at the end of a listing if the counter cannot move on behind the last key.
-/

namespace Recalc.Interner

universe u

variable {K : Type u}

/-- A call of an interner. -/
inductive Call (K : Type u) where
  /-- The id of a key, which may be a new one. -/
  | intern (key : K)
  /-- What is the id of a key? -/
  | lookup (key : K)
  /-- What is the key with an id? -/
  | get (id : Nat)
  /-- What are the ids and keys? -/
  | toList
  /-- Forget every key. -/
  | clear

/-- What a call answers. -/
inductive Answer (K : Type u) where
  /-- Nothing. -/
  | done
  /-- The id of an interned key. -/
  | id (id : Nat)
  /-- An id, if there is one. -/
  | id? (id : Option Nat)
  /-- A key, if there is one. -/
  | key? (key : Option K)
  /-- Ids and keys. -/
  | entries (entries : List (Nat × K))

/-- The listed keys with their ids, counted from `id` on. The counter moves on behind each key, and
must have 32 bits there, too. -/
def number? (id : Nat) : List K → Option (List (Nat × K))
  | [] => some []
  | key :: rest =>
    if id + 1 < UInt32.size then (number? (id + 1) rest).map ((id, key) :: ·) else none

/-- The ids with their keys, unless the counter overflows. -/
def toList? (t : Interner K) : Option (List (Nat × K)) := number? 0 t.keys.toList

variable [DecidableEq K]

/-- The first of the candidates that is the place of `key`, unless one before it is no place. -/
def search? (keys : Array K) (key : K) : List Nat → Option (Option Nat)
  | [] => some none
  | id :: rest =>
    match keys[id]? with
    | none => none
    | some found => if found = key then some (some id) else search? keys key rest

/-- The id of `key`, if it was seen. -/
def lookup? (t : Interner K) (key : K) : Option (Option Nat) :=
  search? t.keys key (t.buckets.getD (t.hash key) [])

/-- The id of `key`, which is a new one if `key` was not seen before, unless no id is left. -/
def intern? (t : Interner K) (key : K) : Option (Nat × Interner K) :=
  match t.lookup? key with
  | none => none
  | some (some id) => some (id, t)
  | some none =>
    let id := t.keys.size
    if id < UInt32.size then
      some (id, { t with
        keys := t.keys.push key
        buckets := t.buckets.modifyD (t.hash key) [] (· ++ [id]) })
    else none

namespace Call

/-- What a call answers, and the table after it. -/
def perform (t : Interner K) : Call K → Answer K × Interner K
  | intern key =>
    let (id, t) := t.intern key
    (.id id, t)
  | lookup key => (.id? (t.lookup key), t)
  | get id => (.key? (t.get? id), t)
  | toList => (.entries t.toList, t)
  | clear => (.done, t.clear)

/-- What a call answers, and the table after it, unless the call fails. -/
def perform? (t : Interner K) : Call K → Option (Answer K × Interner K)
  | intern key => (t.intern? key).map fun (id, t) => (.id id, t)
  | lookup key => (t.lookup? key).map fun id => (.id? id, t)
  | get id => some (.key? (t.get? id), t)
  | toList => t.toList?.map fun entries => (.entries entries, t)
  | clear => some (.done, t.clear)

end Call

/-- The table after calls of the empty table. -/
def after (hash : K → UInt64) (calls : List (Call K)) : Interner K :=
  calls.foldl (fun t call => (call.perform t).2) (empty hash)

/-- The table after calls of the empty table, unless one of them fails. -/
def after? (hash : K → UInt64) (calls : List (Call K)) : Option (Interner K) :=
  calls.foldlM (fun t call => (call.perform? t).map (·.2)) (empty hash)

end Recalc.Interner
