import Recalc.Json.Fields
import Mathlib.Data.List.Infix

/-!
# Writes into the same fields

What a write at a list of segments does goes through the value under the first segment
(`setAt_cons`). Hence writes at segments that part from each other can be exchanged
(`setAt_comm`), and a write at or above the segments of an earlier one leaves no trace of it
(`setAt_absorb`). Of many writes those behind a key decide the value under it (`get?_setAll`).
Nothing is assumed about the order of the fields.
-/

namespace Recalc

universe u v

namespace Entries

variable {K : Type u} {V : Type v} [Ord K] [Std.LawfulEqOrd K] [Std.TransOrd K]

theorem insert_comm_of_lt {a b : K} (h : compare a b = .lt) (x y : V) (entries : List (K × V)) :
    insert a x (insert b y entries) = insert b y (insert a x entries) := by
  have hback : compare b a = .gt := Std.OrientedCmp.gt_iff_lt.2 h
  induction entries with
  | nil => simp [insert, h, hback]
  | cons e rest ih =>
    obtain ⟨k, v⟩ := e
    cases hb : compare b k with
    | lt =>
      have ha : compare a k = .lt := Std.TransCmp.lt_trans h hb
      simp [insert, hb, ha, h, hback]
    | eq =>
      obtain rfl := Std.LawfulEqOrd.compare_eq_iff_eq.1 hb
      simp [insert, h, hback]
    | gt =>
      cases ha : compare a k with
      | lt => simp [insert, hb, ha, hback]
      | eq => simp [insert, hb, ha, hback]
      | gt => simp [insert, hb, ha, ih]

/-- Insertions under different keys can be exchanged. -/
theorem insert_comm {a b : K} (h : a ≠ b) (x y : V) (entries : List (K × V)) :
    insert a x (insert b y entries) = insert b y (insert a x entries) := by
  cases hc : compare a b with
  | lt => exact insert_comm_of_lt hc x y entries
  | eq => exact absurd (Std.LawfulEqOrd.compare_eq_iff_eq.1 hc) h
  | gt => exact (insert_comm_of_lt (Std.OrientedCmp.gt_iff_lt.1 hc) y x entries).symm

end Entries

namespace Json.Fields

/-- The value after `value` was written inside it, and `value` itself if there is no segment. -/
def putInside (value : Json) (old : Option Json) : List String → Json
  | [] => value
  | next :: rest => .object (setAt value ((old.bind Json.fields?).getD []) (next :: rest))

theorem inner_eq (key : String) (fields : List (String × Json)) :
    inner key fields = ((Entries.get? key fields).bind Json.fields?).getD [] := by
  rw [inner]
  split
  · rename_i inner h
    rw [h]
    rfl
  · rename_i h
    cases hv : Entries.get? key fields with
    | none => rfl
    | some old =>
      cases old with
      | object inner => exact absurd hv (h inner)
      | _ => rfl

/-- A write goes through the value of the first segment. -/
theorem setAt_cons (value : Json) (fields : List (String × Json)) (key : String)
    (rest : List String) : setAt value fields (key :: rest) =
      Entries.insert key (putInside value (Entries.get? key fields) rest) fields := by
  cases rest with
  | nil => rfl
  | cons next rest => rw [setAt, putInside, inner_eq]

theorem putInside_putInside (first second : Json) (old : Option Json) {p q : List String}
    (hq : q ≠ []) (hp : p ≠ []) : putInside second (some (putInside first old p)) q =
      .object (setAt second (setAt first ((old.bind Json.fields?).getD []) p) q) := by
  obtain ⟨a, p, rfl⟩ := List.exists_cons_of_ne_nil hp
  obtain ⟨b, q, rfl⟩ := List.exists_cons_of_ne_nil hq
  rfl

/-- A write at or above the segments of an earlier write leaves no trace of it. -/
theorem setAt_absorb (first second : Json) {p q : List String} (hq : q ≠ []) (hp : q <+: p)
    (fields : List (String × Json)) :
    setAt second (setAt first fields p) q = setAt second fields q := by
  induction q generalizing p fields with
  | nil => exact absurd rfl hq
  | cons key q ih =>
    obtain ⟨more, rfl⟩ := hp
    rw [List.cons_append, setAt_cons, setAt_cons, setAt_cons, Entries.get?_insert_self,
      Entries.insert_insert_self]
    congr 1
    rcases eq_or_ne q [] with rfl | hne
    · rfl
    · rw [putInside_putInside _ _ _ hne (List.append_ne_nil_of_left_ne_nil hne more),
        ih hne (List.prefix_append q more)]
      obtain ⟨b, q, rfl⟩ := List.exists_cons_of_ne_nil hne
      rfl

/-- Writes at segments that part from each other can be exchanged. -/
theorem setAt_comm (first second : Json) {p q : List String} (h : Diverge p q)
    (fields : List (String × Json)) :
    setAt second (setAt first fields p) q = setAt first (setAt second fields q) p := by
  induction p generalizing q fields with
  | nil => exact absurd List.nil_prefix h.1
  | cons key p ih =>
    cases q with
    | nil => exact absurd List.nil_prefix h.2
    | cons key' q =>
      simp only [setAt_cons]
      rcases eq_or_ne key key' with rfl | hk
      · have hd : Diverge p q := by simpa [Diverge, List.cons_prefix_cons] using h
        have hp : p ≠ [] := fun he => hd.1 (he ▸ List.nil_prefix)
        have hq : q ≠ [] := fun he => hd.2 (he ▸ List.nil_prefix)
        rw [Entries.get?_insert_self, Entries.get?_insert_self, Entries.insert_insert_self,
          Entries.insert_insert_self, putInside_putInside _ _ _ hq hp,
          putInside_putInside _ _ _ hp hq, ih hd]
      · rw [Entries.get?_insert_of_ne hk.symm, Entries.get?_insert_of_ne hk,
          Entries.insert_comm hk.symm]

/-! ### Many writes -/

/-- The fields after several writes, one after another. -/
def setAll (fields : List (String × Json)) (writes : List (List String × Json)) :
    List (String × Json) :=
  writes.foldl (fun fields write => setAt write.2 fields write.1) fields

theorem ascending_setAt {fields : List (String × Json)} (h : Entries.Ascending fields)
    (value : Json) (segments : List String) : Entries.Ascending (setAt value fields segments) := by
  cases segments with
  | nil => exact h
  | cons key rest =>
    rw [setAt_cons]
    exact Entries.ascending_insert h key _

/-- Writes keep the keys ascending. -/
theorem ascending_setAll {fields : List (String × Json)} (h : Entries.Ascending fields)
    (writes : List (List String × Json)) : Entries.Ascending (setAll fields writes) := by
  induction writes generalizing fields with
  | nil => exact h
  | cons write writes ih => exact ih (ascending_setAt h write.2 write.1)

/-- What a write is behind its first segment, if that is the key. -/
def enter? (key : String) : List String × Json → Option (List String × Json)
  | ([], _) => none
  | (segment :: rest, value) => if segment = key then some (rest, value) else none

theorem enter?_eq_some_iff {key : String} {write : List String × Json} {rest : List String}
    {value : Json} : enter? key write = some (rest, value) ↔ write = (key :: rest, value) := by
  obtain ⟨segments, old⟩ := write
  cases segments with
  | nil => simp [enter?]
  | cons segment segments =>
    rcases eq_or_ne segment key with rfl | hne
    · simp [enter?]
    · simp [enter?, hne]

/-- The value under a key after several writes inside it. -/
def putAll (old : Option Json) (writes : List (List String × Json)) : Option Json :=
  writes.foldl (fun old write => some (putInside write.2 old write.1)) old

/-- Under a key the writes that go through it are seen, and no others. -/
theorem get?_setAll (key : String) (fields : List (String × Json))
    (writes : List (List String × Json)) :
    Entries.get? key (setAll fields writes) =
      putAll (Entries.get? key fields) (writes.filterMap (enter? key)) := by
  induction writes generalizing fields with
  | nil => rfl
  | cons write writes ih =>
    obtain ⟨segments, value⟩ := write
    rw [setAll, List.foldl_cons, ← setAll, ih]
    cases segments with
    | nil => rfl
    | cons segment rest =>
      rw [List.filterMap_cons, setAt_cons]
      rcases eq_or_ne segment key with rfl | hne
      · simp only [enter?, if_true]
        rw [Entries.get?_insert_self, putAll, putAll, List.foldl_cons]
      · simp only [enter?, if_neg hne]
        rw [Entries.get?_insert_of_ne hne.symm]

/-- Of writes of one value in place of the old one the value stays. -/
theorem putAll_replace {writes : List (List String × Json)} {value : Json}
    (h : ∀ write ∈ writes, write = ([], value)) (hw : writes ≠ []) (old : Option Json) :
    putAll old writes = some value := by
  induction writes generalizing old with
  | nil => exact absurd rfl hw
  | cons write writes ih =>
    obtain ⟨rfl, hrest⟩ := List.forall_mem_cons.1 h
    rcases eq_or_ne writes [] with rfl | hne
    · rfl
    · exact ih hrest hne _

/-- Writes inside an object are writes into its fields. -/
theorem putAll_object {writes : List (List String × Json)} (hne : ∀ write ∈ writes, write.1 ≠ [])
    (fields : List (String × Json)) :
    putAll (some (.object fields)) writes = some (.object (setAll fields writes)) := by
  induction writes generalizing fields with
  | nil => rfl
  | cons write writes ih =>
    obtain ⟨hwrite, hrest⟩ := List.forall_mem_cons.1 hne
    obtain ⟨segments, value⟩ := write
    obtain ⟨segment, rest, rfl⟩ := List.exists_cons_of_ne_nil hwrite
    exact ih hrest _

/-- Writes that go on behind the key make an object of nothing. -/
theorem putAll_none {writes : List (List String × Json)} (hne : ∀ write ∈ writes, write.1 ≠ [])
    (hw : writes ≠ []) : putAll none writes = some (.object (setAll [] writes)) := by
  obtain ⟨⟨segments, value⟩, writes, rfl⟩ := List.exists_cons_of_ne_nil hw
  obtain ⟨hwrite, hrest⟩ := List.forall_mem_cons.1 hne
  obtain ⟨segment, rest, rfl⟩ := List.exists_cons_of_ne_nil hwrite
  exact putAll_object hrest _

end Json.Fields

end Recalc
