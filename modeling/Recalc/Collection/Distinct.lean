/-!
# Lists without repetitions

`appendNew` appends an element that is not there yet, and `distinct` keeps each element at its first
occurrence.
-/

namespace Recalc

universe u

variable {K : Type u} [DecidableEq K]

/-- The list with `key` at its end, unless `key` is in it. -/
def appendNew (keys : List K) (key : K) : List K := if key ∈ keys then keys else keys ++ [key]

/-- The elements of a list, each at its first occurrence. -/
def distinct (keys : List K) : List K := keys.foldl appendNew []

theorem mem_appendNew {keys : List K} {key q : K} :
    q ∈ appendNew keys key ↔ q ∈ keys ∨ q = key := by
  rw [appendNew]
  split
  · constructor
    · exact Or.inl
    · rintro (h | rfl)
      · exact h
      · assumption
  · simp

theorem nodup_appendNew {keys : List K} (h : keys.Nodup) (key : K) :
    (appendNew keys key).Nodup := by
  rw [appendNew]
  split
  · exact h
  · rename_i hk
    refine List.nodup_append.2 ⟨h, by simp, ?_⟩
    intro a ha b hb
    rw [List.mem_singleton] at hb
    subst hb
    exact fun e => hk (e ▸ ha)

/-- Keys behind others stay where they are neither among these nor a repetition. -/
theorem foldl_appendNew (keys start : List K) :
    keys.foldl appendNew start = start ++ (keys.filter fun key => key ∉ start).eraseDups := by
  induction keys generalizing start with
  | nil => simp
  | cons key rest ih =>
    rw [List.foldl_cons, ih, appendNew]
    by_cases hk : key ∈ start
    · rw [if_pos hk, List.filter_cons_of_neg (by simpa using hk)]
    · rw [if_neg hk, List.filter_cons_of_pos (by simpa using hk), List.eraseDups_cons,
        List.filter_filter, List.append_assoc, List.singleton_append]
      congr 3
      refine List.filter_congr fun q _ => Bool.eq_iff_iff.2 ?_
      simp [and_comm]

/-- Elements are there if they were or are appended. -/
theorem mem_foldl_appendNew {keys start : List K} {q : K} :
    q ∈ keys.foldl appendNew start ↔ q ∈ start ∨ q ∈ keys := by
  induction keys generalizing start with
  | nil => simp
  | cons key rest ih => rw [List.foldl_cons, ih, mem_appendNew, List.mem_cons, or_assoc]

/-- Without repetitions there is nothing to erase. -/
theorem eraseDups_of_nodup {keys : List K} (h : keys.Nodup) : keys.eraseDups = keys := by
  induction keys with
  | nil => rfl
  | cons key rest ih =>
    obtain ⟨hout, hrest⟩ := List.nodup_cons.1 h
    have hkept : (rest.filter fun q => !q == key) = rest := List.filter_eq_self.2 fun q hq => by
      have hne : q ≠ key := fun he => hout (he ▸ hq)
      simpa using hne
    rw [List.eraseDups_cons, hkept, ih hrest]

theorem distinct_eq_eraseDups (keys : List K) : distinct keys = keys.eraseDups := by
  rw [distinct, foldl_appendNew, List.nil_append,
    List.filter_eq_self.2 fun _ _ => decide_eq_true List.not_mem_nil]

/-- A list keeps its elements. -/
theorem mem_distinct {keys : List K} {q : K} : q ∈ distinct keys ↔ q ∈ keys := by
  rw [distinct_eq_eraseDups, List.mem_eraseDups]

/-- No element is left twice. -/
theorem nodup_distinct (keys : List K) : (distinct keys).Nodup := by
  suffices ∀ start : List K, start.Nodup → (keys.foldl appendNew start).Nodup from
    this [] List.nodup_nil
  induction keys with
  | nil => exact fun _ h => h
  | cons key rest ih => exact fun _ h => ih _ (nodup_appendNew h key)

end Recalc
