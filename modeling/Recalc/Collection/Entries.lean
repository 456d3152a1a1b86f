/-!
# Entry lists in ascending key order

An entry list holds key–value pairs. `insert` puts a pair at the place of its key and replaces a
pair with the same key, so that a list built by `insert` is ascending and holds each key once
(`ascending_insert`).

The laws of look-up, `get?_insert` and `get?_erase`, hold of every entry list, ascending or not;
two ascending lists that answer every look-up alike are equal (`ext_get?`).
-/

namespace Recalc.Entries

universe u v

variable {K : Type u} {V : Type v}

section Lookup

variable [DecidableEq K]

/-- The value stored under `key`. -/
def get? (key : K) : List (K × V) → Option V
  | [] => none
  | (k, v) :: rest => if key = k then some v else get? key rest

/-- Drops every pair stored under `key`. -/
def erase (key : K) (entries : List (K × V)) : List (K × V) :=
  entries.filter fun e => !decide (key = e.1)

@[simp] theorem get?_nil (key : K) : get? key ([] : List (K × V)) = none := rfl

theorem get?_cons (key k : K) (v : V) (rest : List (K × V)) :
    get? key ((k, v) :: rest) = if key = k then some v else get? key rest := rfl

theorem mem_of_get?_eq_some {key : K} {value : V} {entries : List (K × V)}
    (h : get? key entries = some value) : (key, value) ∈ entries := by
  induction entries with
  | nil => simp at h
  | cons e rest ih =>
    obtain ⟨k, v⟩ := e
    rw [get?_cons] at h
    split at h
    · simp_all
    · exact List.mem_cons_of_mem _ (ih h)

theorem get?_eq_none_iff {key : K} {entries : List (K × V)} :
    get? key entries = none ↔ ∀ value, (key, value) ∉ entries := by
  induction entries with
  | nil => simp
  | cons e rest ih =>
    obtain ⟨k, v⟩ := e
    rw [get?_cons]
    split
    · rename_i h
      exact iff_of_false (by simp) fun hv => hv v (by simp [h])
    · simp_all

/-- A look-up after an erasure finds nothing at the key and the old answer elsewhere. -/
theorem get?_erase (key : K) (entries : List (K × V)) (q : K) :
    get? q (erase key entries) = if q = key then none else get? q entries := by
  induction entries with
  | nil => simp [erase]
  | cons e rest ih =>
    obtain ⟨k, v⟩ := e
    by_cases hk : key = k
    · have : erase key ((k, v) :: rest) = erase key rest := by simp [erase, hk]
      rw [this, ih, get?_cons]
      grind
    · have : erase key ((k, v) :: rest) = (k, v) :: erase key rest := by simp [erase, hk]
      rw [this, get?_cons, get?_cons, ih]
      grind

end Lookup

section Order

variable [Ord K]

/-- Stores `value` under `key`, in place of the value stored there before. -/
def insert (key : K) (value : V) : List (K × V) → List (K × V)
  | [] => [(key, value)]
  | (k, v) :: rest =>
    match compare key k with
    | .lt => (key, value) :: (k, v) :: rest
    | .eq => (key, value) :: rest
    | .gt => (k, v) :: insert key value rest

/-- Inserts the pairs one after another, so that of two pairs with one key the later stays. -/
def ofList (pairs : List (K × V)) : List (K × V) :=
  pairs.foldl (fun entries e => insert e.1 e.2 entries) []

/-- The keys ascend strictly. -/
def Ascending (entries : List (K × V)) : Prop :=
  entries.Pairwise fun a b => compare a.1 b.1 = .lt

instance (entries : List (K × V)) : Decidable (Ascending entries) :=
  inferInstanceAs (Decidable (entries.Pairwise fun a b => compare a.1 b.1 = .lt))

theorem mem_insert {key : K} {value : V} {entries : List (K × V)} {e : K × V}
    (h : e ∈ insert key value entries) : e = (key, value) ∨ e ∈ entries := by
  induction entries with
  | nil => simpa [insert] using h
  | cons e' rest ih =>
    obtain ⟨k, v⟩ := e'
    rw [insert] at h
    split at h <;> grind

theorem ascending_nil : Ascending ([] : List (K × V)) := List.Pairwise.nil

theorem ascending_sublist {entries kept : List (K × V)} (h : Ascending entries)
    (hs : kept.Sublist entries) : Ascending kept :=
  List.Pairwise.sublist hs h

theorem ascending_erase [DecidableEq K] {entries : List (K × V)} (h : Ascending entries) (key : K) :
    Ascending (erase key entries) :=
  ascending_sublist h List.filter_sublist

/-- Replacing values keeps the keys ascending. -/
theorem ascending_map {W : Type v} {entries : List (K × V)} (h : Ascending entries)
    (f : K → V → W) : Ascending (entries.map fun e => (e.1, f e.1 e.2)) :=
  List.pairwise_map.2 h

end Order

section Laws

variable [Ord K] [Std.LawfulEqOrd K] [DecidableEq K]

/-- A look-up after an insertion finds the new value at its key and the old answer elsewhere. -/
theorem get?_insert (key : K) (value : V) (entries : List (K × V)) (q : K) :
    get? q (insert key value entries) = if q = key then some value else get? q entries := by
  induction entries with
  | nil => simp [insert, get?_cons]
  | cons e rest ih =>
    obtain ⟨k, v⟩ := e
    rw [insert]
    split
    · simp [get?_cons]
    · rename_i h
      rw [Std.LawfulEqOrd.compare_eq_iff_eq] at h
      subst h
      grind [get?_cons]
    · rename_i h
      have : key ≠ k := by
        rintro rfl
        rw [Std.LawfulEqOrd.compare_eq_iff_eq.2 rfl] at h
        cases h
      grind [get?_cons]

@[simp] theorem get?_insert_self (key : K) (value : V) (entries : List (K × V)) :
    get? key (insert key value entries) = some value := by
  simp [get?_insert]

theorem get?_insert_of_ne {key q : K} (h : q ≠ key) (value : V) (entries : List (K × V)) :
    get? q (insert key value entries) = get? q entries := by
  simp [get?_insert, h]

omit [DecidableEq K] in
/-- Inserting twice under one key is inserting the later value. -/
theorem insert_insert_self (key : K) (first second : V) (entries : List (K × V)) :
    insert key second (insert key first entries) = insert key second entries := by
  induction entries with
  | nil => simp [insert]
  | cons e rest ih =>
    obtain ⟨k, v⟩ := e
    rcases hc : compare key k with _ | _ | _ <;> simp [insert, hc, ih]

theorem get?_eq_some_of_mem {entries : List (K × V)} (h : Ascending entries) {key : K} {value : V}
    (hm : (key, value) ∈ entries) : get? key entries = some value := by
  induction entries with
  | nil => simp at hm
  | cons e rest ih =>
    obtain ⟨k, v⟩ := e
    rw [get?_cons]
    rcases List.mem_cons.1 hm with heq | hm
    · simp_all
    · have hlt : compare k key = .lt := (List.pairwise_cons.1 h).1 _ hm
      have hne : key ≠ k := by
        rintro rfl
        rw [Std.LawfulEqOrd.compare_eq_iff_eq.2 rfl] at hlt
        cases hlt
      rw [if_neg hne]
      exact ih (List.pairwise_cons.1 h).2 hm

theorem get?_eq_some_iff {entries : List (K × V)} (h : Ascending entries) {key : K} {value : V} :
    get? key entries = some value ↔ (key, value) ∈ entries :=
  ⟨mem_of_get?_eq_some, get?_eq_some_of_mem h⟩

variable [Std.TransOrd K]

omit [DecidableEq K] in
/-- An insertion keeps the keys ascending. -/
theorem ascending_insert {entries : List (K × V)} (h : Ascending entries) (key : K) (value : V) :
    Ascending (insert key value entries) := by
  induction entries with
  | nil => simp [insert, Ascending]
  | cons e rest ih =>
    obtain ⟨k, v⟩ := e
    have hrest : Ascending rest := (List.pairwise_cons.1 h).2
    have hhead : ∀ e ∈ rest, compare k e.1 = .lt := (List.pairwise_cons.1 h).1
    rw [insert]
    split
    · rename_i hlt
      refine List.pairwise_cons.2 ⟨?_, h⟩
      intro e he
      rcases List.mem_cons.1 he with rfl | he
      · exact hlt
      · exact Std.TransCmp.lt_trans hlt (hhead e he)
    · rename_i heq
      rw [Std.LawfulEqOrd.compare_eq_iff_eq] at heq
      subst heq
      exact List.pairwise_cons.2 ⟨hhead, hrest⟩
    · rename_i hgt
      refine List.pairwise_cons.2 ⟨?_, ih hrest⟩
      intro e he
      rcases mem_insert he with rfl | he
      · exact Std.OrientedCmp.lt_of_gt hgt
      · exact hhead e he

omit [DecidableEq K] in
theorem ascending_ofList (pairs : List (K × V)) : Ascending (ofList pairs) := by
  suffices ∀ entries : List (K × V), Ascending entries →
      Ascending (pairs.foldl (fun entries e => insert e.1 e.2 entries) entries) from
    this [] ascending_nil
  induction pairs with
  | nil => exact fun _ h => h
  | cons e rest ih => exact fun _ h => ih _ (ascending_insert h e.1 e.2)

omit [DecidableEq K] [Std.LawfulEqOrd K] in
theorem not_lt_of_lt {a b : K × V} (hab : compare a.1 b.1 = .lt) : compare b.1 a.1 ≠ .lt := by
  rw [Std.OrientedCmp.gt_of_lt hab]
  simp

omit [DecidableEq K] [Std.LawfulEqOrd K] in
/-- Ascending lists with the same pairs are equal. -/
theorem ext_mem {left right : List (K × V)} (hl : Ascending left) (hr : Ascending right)
    (h : ∀ e, e ∈ left ↔ e ∈ right) : left = right := by
  induction left generalizing right with
  | nil => exact (List.eq_nil_iff_forall_not_mem.2 fun e he => by simpa using (h e).2 he).symm
  | cons a left ih =>
    cases right with
    | nil => simpa using (h a).1 List.mem_cons_self
    | cons b right =>
      have ⟨ha, hl'⟩ := List.pairwise_cons.1 hl
      have ⟨hb, hr'⟩ := List.pairwise_cons.1 hr
      obtain rfl : a = b := by
        rcases List.mem_cons.1 ((h a).1 List.mem_cons_self) with h1 | h1
        · exact h1
        · rcases List.mem_cons.1 ((h b).2 List.mem_cons_self) with h2 | h2
          · exact h2.symm
          · exact (not_lt_of_lt (hb a h1) (ha b h2)).elim
      congr 1
      refine ih hl' hr' fun e => ⟨fun he => ?_, fun he => ?_⟩
      · rcases List.mem_cons.1 ((h e).1 (List.mem_cons_of_mem _ he)) with rfl | h1
        · exact (not_lt_of_lt (ha _ he) (ha _ he)).elim
        · exact h1
      · rcases List.mem_cons.1 ((h e).2 (List.mem_cons_of_mem _ he)) with rfl | h1
        · exact (not_lt_of_lt (hb _ he) (hb _ he)).elim
        · exact h1

/-- Two ascending lists that answer every look-up alike are equal. -/
theorem ext_get? {left right : List (K × V)} (hl : Ascending left) (hr : Ascending right)
    (h : ∀ key, get? key left = get? key right) : left = right :=
  ext_mem hl hr fun (k, v) => by rw [← get?_eq_some_iff hl, ← get?_eq_some_iff hr, h]

end Laws

end Recalc.Entries
