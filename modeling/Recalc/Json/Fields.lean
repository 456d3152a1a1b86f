import Recalc.Json.Printer

/-!
# Fields inside fields

Reading and writing the value at a list of segments inside the fields of an object. `at?` looks into
objects only, never into lists. `setAt` makes a way for the value: what stands on the way and is no
object is replaced by an empty one.

The laws `at?_setAt_self`, `at?_setAt_of_diverge` and `setAt_setAt_self` say that writing at a list
of segments is read back there, is not seen at segments that part from it, and forgets an earlier
write there.
-/

namespace Recalc.Json.Fields

/-- The value at a list of segments. -/
def at? (fields : List (String × Json)) : List String → Option Json
  | [] => none
  | [key] => Entries.get? key fields
  | key :: next :: rest =>
    match Entries.get? key fields with
    | some (.object inner) => at? inner (next :: rest)
    | _ => none

/-- The fields of the object under `key`, and no fields if there is no object. -/
def inner (key : String) (fields : List (String × Json)) : List (String × Json) :=
  match Entries.get? key fields with
  | some (.object inner) => inner
  | _ => []

/-- The fields after `value` was written at a list of segments. -/
def setAt (value : Json) (fields : List (String × Json)) : List String → List (String × Json)
  | [] => fields
  | [key] => Entries.insert key value fields
  | key :: next :: rest =>
    Entries.insert key (.object (setAt value (inner key fields) (next :: rest))) fields

/-- Puts `value` under `last` into the object that the segments lead to, and tells what stood there.
As `setAt`, this makes a way for the value. -/
def exchange (last : String) (value : Json) (fields : List (String × Json)) :
    List String → Option Json × List (String × Json)
  | [] => (Entries.get? last fields, Entries.insert last value fields)
  | key :: rest =>
    let (old, changed) := exchange last value (inner key fields) rest
    (old, Entries.insert key (.object changed) fields)

/-- What is written at a list of segments is read back there. -/
theorem at?_setAt_self (value : Json) {segments : List String} (h : segments ≠ [])
    (fields : List (String × Json)) : at? (setAt value fields segments) segments = some value := by
  induction segments generalizing fields with
  | nil => exact absurd rfl h
  | cons key rest ih =>
    cases rest with
    | nil => simp [setAt, at?]
    | cons next rest => simp [setAt, at?, ih]

/-- Two lists of segments part if neither continues the other. -/
def Diverge (p q : List String) : Prop := ¬ p <+: q ∧ ¬ q <+: p

instance (p q : List String) : Decidable (Diverge p q) := inferInstanceAs (Decidable (_ ∧ _))

theorem at?_nil_fields (segments : List String) : at? [] segments = none := by
  match segments with
  | [] => rfl
  | [_] => rfl
  | _ :: _ :: _ => rfl

theorem at?_inner (key next : String) (rest : List String) (fields : List (String × Json)) :
    at? (inner key fields) (next :: rest) = at? fields (key :: next :: rest) := by
  rw [at?, inner]
  split
  · rfl
  · exact at?_nil_fields _

/-- An exchange hands out what was read, and leaves what writing leaves. -/
theorem exchange_eq (last : String) (value : Json) (fields : List (String × Json))
    (segments : List String) : exchange last value fields segments =
      (at? fields (segments ++ [last]), setAt value fields (segments ++ [last])) := by
  induction segments generalizing fields with
  | nil => rfl
  | cons key rest ih =>
    rw [exchange, ih]
    -- what follows the first segment is not empty, so both sides go into the object under it
    cases rest with
    | nil => rw [List.nil_append, at?_inner]; rfl
    | cons next rest => rw [List.cons_append, at?_inner]; rfl

/-- What is written at a list of segments is not seen at segments that part from it. -/
theorem at?_setAt_of_diverge (value : Json) {p q : List String} (h : Diverge p q)
    (fields : List (String × Json)) : at? (setAt value fields p) q = at? fields q := by
  induction p generalizing q fields with
  | nil => exact absurd List.nil_prefix h.1
  | cons key p ih =>
    cases q with
    | nil => exact absurd List.nil_prefix h.2
    | cons key' q =>
      by_cases hk : key' = key
      · subst hk
        have hd : Diverge p q := by simpa [Diverge, List.cons_prefix_cons] using h
        cases p with
        | nil => exact absurd List.nil_prefix hd.1
        | cons a p =>
          cases q with
          | nil => exact absurd List.nil_prefix hd.2
          | cons b q =>
            have hi := ih hd (inner key' fields)
            rw [← at?_inner key' b q fields, ← hi, ← at?_inner]
            simp [setAt, inner]
      · cases p with
        | nil =>
          cases q with
          | nil => simp [setAt, at?, Entries.get?_insert, hk]
          | cons b q => simp [setAt, at?, Entries.get?_insert, hk]
        | cons a p =>
          cases q with
          | nil => simp [setAt, at?, Entries.get?_insert, hk]
          | cons b q => simp [setAt, at?, Entries.get?_insert, hk]

/-- A second write at a list of segments makes the first one irrelevant. -/
theorem setAt_setAt_self (first second : Json) (segments : List String)
    (fields : List (String × Json)) :
    setAt second (setAt first fields segments) segments = setAt second fields segments := by
  induction segments generalizing fields with
  | nil => rfl
  | cons key rest ih =>
    cases rest with
    | nil => simp [setAt, Entries.insert_insert_self]
    | cons next rest => simp [setAt, inner, ih, Entries.insert_insert_self]

end Recalc.Json.Fields
