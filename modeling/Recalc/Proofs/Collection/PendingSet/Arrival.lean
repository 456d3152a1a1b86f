import Mathlib.Data.List.Induction
import Mathlib.Logic.ExistsUnique
import Recalc.Collection.PendingSet.Calls
import Recalc.Proofs.Collection.PendingSet

/-!
# Keys stand in the order of their arrival

A call of a pending set first drops some of the listed keys and then marks others
(`InStep.keys_perform`); no call does more. So after any calls the list and the index are in step,
and which keys are listed is told one call at a time (`mem_keys_concat`).

A key arrives when it is marked while it is absent, and stays from then on (`Arrives`). For this,
calls that mark many keys are taken apart into steps that mark one. Every listed key has arrived in
one step (`mem_keys_iff_arrives`), and the list is in the order of these steps (`pairwise_after`).
The main result, `ordered_after`, puts these together.
-/

namespace Recalc.PendingSet

universe u

variable {K : Type u}

/-! ### What a call does to the list -/

namespace Call

/-- The keys that the call marks, in order. -/
def marks : Call K → List K
  | mark key => [key]
  | extend keys => keys
  | _ => []

/-- The call, taken apart so that each step marks one key at most. -/
def steps : Call K → List (Call K)
  | extend keys => keys.map mark
  | call => [call]

/-- The call marks one key at most. -/
def Single (call : Call K) : Prop := ∀ keys, call ≠ .extend keys

theorem single_of_mem_steps {calls : List (Call K)} :
    ∀ step ∈ calls.flatMap steps, step.Single := by
  intro step hstep keys he
  obtain ⟨call, -, hc⟩ := List.mem_flatMap.1 hstep
  cases call with
  | extend keys =>
    obtain ⟨key, -, rfl⟩ := List.mem_map.1 hc
    cases he
  | _ =>
    obtain rfl := List.mem_singleton.1 hc
    cases he

/-- Whether the call keeps a key that the set lists. -/
def keeps [Ord K] [DecidableEq K] (s : PendingSet K) : Call K → K → Bool
  | mark _ => fun _ => true
  | extend _ => fun _ => true
  | remove key => (· ≠ key)
  | retain keep state => verdict keep state s.keys
  | drain => fun _ => false
  | clear => fun _ => false

end Call

variable [Ord K] [DecidableEq K] [Std.LawfulEqOrd K] [Std.TransOrd K] {s : PendingSet K}

theorem InStep.perform (h : s.InStep) (call : Call K) : (call.perform s).2.InStep := by
  cases call with
  | mark key => exact h.insert key
  | extend keys => exact h.extend keys
  | remove key => exact h.remove key
  | retain keep state => exact h.retainWith_eq keep state ▸ h.retain _
  | drain => exact inStep_empty
  | clear => exact inStep_empty

/-- A call drops some of the listed keys and marks others behind the rest. -/
theorem InStep.keys_perform (h : s.InStep) (call : Call K) :
    (call.perform s).2.keys = call.marks.foldl appendNew (s.keys.filter (call.keeps s)) := by
  cases call with
  | mark key =>
    rw [Call.keeps, List.filter_true]
    exact h.keys_insert key
  | extend keys =>
    rw [Call.keeps, List.filter_true]
    exact h.keys_extend_eq keys
  | remove key => exact h.keys_remove key
  | retain keep state => exact congrArg PendingSet.keys (h.retainWith_eq keep state)
  | drain => rw [Call.keeps, List.filter_false]; rfl
  | clear => rw [Call.keeps, List.filter_false]; rfl

/-! ### What calls leave behind -/

theorem after_concat (calls : List (Call K)) (call : Call K) :
    after (calls ++ [call]) = (call.perform (after calls)).2 := by
  rw [after, List.foldl_concat, ← after]

theorem inStep_after (calls : List (Call K)) : (after calls).InStep := by
  induction calls using List.reverseRecOn with
  | nil => exact inStep_empty
  | append_singleton calls call ih => exact after_concat calls call ▸ ih.perform call

theorem keys_concat (calls : List (Call K)) (call : Call K) :
    (after (calls ++ [call])).keys =
      call.marks.foldl appendNew ((after calls).keys.filter (call.keeps (after calls))) := by
  rw [after_concat, (inStep_after calls).keys_perform]

/-- A key is listed after a call that marks it, or that finds it listed and keeps it. -/
theorem mem_keys_concat {calls : List (Call K)} {call : Call K} {key : K} :
    key ∈ (after (calls ++ [call])).keys ↔
      key ∈ call.marks ∨ key ∈ (after calls).keys ∧ call.keeps (after calls) key = true := by
  rw [keys_concat, mem_foldl_appendNew, List.mem_filter, or_comm]

/-- Taking calls apart makes no difference. -/
theorem after_flatMap_steps (calls : List (Call K)) :
    after (calls.flatMap Call.steps) = after calls := by
  induction calls using List.reverseRecOn with
  | nil => rfl
  | append_singleton calls call ih =>
    rw [List.flatMap_append, List.flatMap_singleton, after, List.foldl_append, ← after, ih,
      after_concat]
    cases call with
    | extend keys => exact List.foldl_map
    | _ => rfl

/-! ### Arrivals -/

/-- Step `i` marks the key, which is absent then, and the key has been listed ever since: it is the
first mark of the key since it was last absent. -/
structure Arrives (steps : List (Call K)) (key : K) (i : Nat) : Prop where
  /-- The step marks the key. -/
  marks : steps[i]? = some (.mark key)
  /-- Before it the key is absent. -/
  absent : key ∉ (after (steps.take i)).keys
  /-- Behind it the key is listed. -/
  stays : ∀ j, i < j → j ≤ steps.length → key ∈ (after (steps.take j)).keys

section Arrives

variable {steps : List (Call K)} {step : Call K} {key : K} {i j : Nat}

theorem Arrives.lt (h : Arrives steps key i) : i < steps.length :=
  (List.getElem?_eq_some_iff.1 h.marks).1

/-- A key that has arrived is listed. -/
theorem Arrives.mem (h : Arrives steps key i) : key ∈ (after steps).keys := by
  have hlast := h.stays steps.length h.lt (Nat.le_refl _)
  rwa [List.take_length] at hlast

theorem Arrives.le (hi : Arrives steps key i) (hj : Arrives steps key j) : j ≤ i :=
  Nat.not_lt.1 fun hlt => hj.absent (hi.stays j hlt (Nat.le_of_lt hj.lt))

/-- A key arrives once. -/
theorem Arrives.unique (hi : Arrives steps key i) (hj : Arrives steps key j) : i = j :=
  Nat.le_antisymm (hj.le hi) (hi.le hj)

/-- What was listed before the last step has arrived before it. -/
theorem Arrives.of_concat (h : Arrives (steps ++ [step]) key i) (hk : key ∈ (after steps).keys) :
    Arrives steps key i := by
  have hle : i ≤ steps.length := by
    have hlt := h.lt
    rw [List.length_append, List.length_singleton] at hlt
    omega
  have hne : i ≠ steps.length := by
    rintro rfl
    have habsent := h.absent
    rw [List.take_left] at habsent
    exact habsent hk
  have hlt : i < steps.length := by omega
  refine ⟨?_, ?_, fun j hij hj => ?_⟩
  · rw [← h.marks, List.getElem?_append_left hlt]
  · have habsent := h.absent
    rwa [List.take_append_of_le_length hle] at habsent
  · have hstays := h.stays j hij (by simp; omega)
    rwa [List.take_append_of_le_length hj] at hstays

/-- What has arrived and stays for another step has arrived all the same. -/
theorem Arrives.concat (h : Arrives steps key i) (hk : key ∈ (after (steps ++ [step])).keys) :
    Arrives (steps ++ [step]) key i := by
  have hlt : i < steps.length := h.lt
  refine ⟨?_, ?_, fun j hij hj => ?_⟩
  · rw [List.getElem?_append_left hlt, h.marks]
  · rw [List.take_append_of_le_length (Nat.le_of_lt hlt)]
    exact h.absent
  · rcases Nat.lt_or_ge steps.length j with hlast | hj'
    · rw [List.take_of_length_le (by simp; omega)]
      exact hk
    · rw [List.take_append_of_le_length hj']
      exact h.stays j hij hj'

/-- A key that is absent arrives when it is marked. -/
theorem arrives_concat_mark (hk : key ∉ (after steps).keys) :
    Arrives (steps ++ [.mark key]) key steps.length := by
  refine ⟨?_, ?_, fun j hij hj => ?_⟩
  · simp
  · rwa [List.take_left]
  · rw [List.take_of_length_le (by simp; omega), mem_keys_concat]
    exact .inl List.mem_cons_self

/-- Every listed key has arrived. -/
theorem exists_arrives (hs : ∀ step ∈ steps, step.Single) (hk : key ∈ (after steps).keys) :
    ∃ i, Arrives steps key i := by
  induction steps using List.reverseRecOn with
  | nil => cases hk
  | append_singleton steps step ih =>
    have hsteps : ∀ step ∈ steps, step.Single := fun s hm => hs s (List.mem_append_left _ hm)
    by_cases hold : key ∈ (after steps).keys
    · obtain ⟨i, hi⟩ := ih hsteps hold
      exact ⟨i, hi.concat hk⟩
    · have hmarks : key ∈ step.marks :=
        (mem_keys_concat.1 hk).resolve_right fun h => hold h.1
      cases step with
      | mark other =>
        obtain rfl := List.mem_singleton.1 hmarks
        exact ⟨steps.length, arrives_concat_mark hold⟩
      | extend keys => exact absurd rfl (hs _ (List.mem_append_right _ List.mem_cons_self) keys)
      | _ => cases hmarks

theorem mem_keys_iff_arrives (hs : ∀ step ∈ steps, step.Single) :
    key ∈ (after steps).keys ↔ ∃! i, Arrives steps key i := by
  constructor
  · intro hk
    obtain ⟨i, hi⟩ := exists_arrives hs hk
    exact ⟨i, hi, fun j hj => hj.unique hi⟩
  · rintro ⟨i, hi, -⟩
    exact hi.mem

/-- Keys stand in the order of their arrival. -/
theorem pairwise_after (hs : ∀ step ∈ steps, step.Single) :
    (after steps).keys.Pairwise fun a b =>
      ∀ i j, Arrives steps a i → Arrives steps b j → i < j := by
  induction steps using List.reverseRecOn with
  | nil => exact .nil
  | append_singleton steps step ih =>
    have hsteps : ∀ step ∈ steps, step.Single := fun s hm => hs s (List.mem_append_left _ hm)
    -- Whatever is still listed has not moved.
    have hkept : ∀ {keys : List K}, keys.Sublist (after steps).keys →
        keys.Pairwise fun a b => ∀ i j, Arrives (steps ++ [step]) a i →
          Arrives (steps ++ [step]) b j → i < j := by
      intro keys hsub
      refine ((ih hsteps).sublist hsub).imp_of_mem fun ha hb hlt i j hi hj => ?_
      exact hlt i j (hi.of_concat (hsub.subset ha)) (hj.of_concat (hsub.subset hb))
    have hkeys := keys_concat steps step
    cases step with
    | mark key =>
      rw [hkeys, Call.keeps, List.filter_true, Call.marks, List.foldl_cons, List.foldl_nil,
        appendNew]
      split
      · exact hkept (List.Sublist.refl _)
      · rename_i hnew
        refine List.pairwise_append.2 ⟨hkept (List.Sublist.refl _), List.pairwise_singleton _ _, ?_⟩
        intro a ha b hb i j hi hj
        obtain rfl := List.mem_singleton.1 hb
        rw [hj.unique (arrives_concat_mark hnew)]
        exact (hi.of_concat ha).lt
    | extend keys => exact absurd rfl (hs _ (List.mem_append_right _ List.mem_cons_self) keys)
    | _ => exact hkeys ▸ hkept List.filter_sublist

end Arrives

/-! ### Histories -/

/-- What a history of calls has led to: different keys, which the index holds, too, in the order of
their arrival. -/
structure Ordered (calls : List (Call K)) : Prop where
  /-- No key is listed twice. -/
  nodup : (after calls).keys.Nodup
  /-- The listed keys are those of the index. -/
  contains : ∀ key, (after calls).contains key = true ↔ key ∈ (after calls).keys
  /-- They are counted alike. -/
  size : (after calls).size = (after calls).keys.length ∧
    (after calls).index.size = (after calls).keys.length
  /-- There is none if none is marked. -/
  isEmpty : (after calls).isEmpty = true ↔ ∀ key, (after calls).contains key = false
  /-- Another call lists what it marks, and what was listed and is kept. -/
  mem_concat : ∀ call key, key ∈ (after (calls ++ [call])).keys ↔
    key ∈ call.marks ∨ key ∈ (after calls).keys ∧ call.keeps (after calls) key = true
  /-- Marking is answered with whether the key is new. -/
  mark : ∀ key, ((after calls).mark key).1 = true ↔ key ∉ (after calls).keys
  /-- Taking a key out is answered with whether it was listed. -/
  remove : ∀ key, ((after calls).remove key).1 = true ↔ key ∈ (after calls).keys
  /-- Marking keys one by one comes to the same set. -/
  steps : after (calls.flatMap Call.steps) = after calls
  /-- The listed keys are those that have arrived, each in one step. -/
  arrives : ∀ key, key ∈ (after calls).keys ↔ ∃! i, Arrives (calls.flatMap Call.steps) key i
  /-- They stand in the order of their arrival. -/
  order : (after calls).keys.Pairwise fun a b => ∀ i j,
    Arrives (calls.flatMap Call.steps) a i → Arrives (calls.flatMap Call.steps) b j → i < j
  /-- Draining lists them and leaves the empty set. -/
  drain : (after calls).drain = ((after calls).keys, empty)
  /-- Then any key can be marked anew. -/
  anew : ∀ key, ((after calls).drain.2.mark key).1 = true
  /-- Keys marked then are listed at their first marks. -/
  anew_extend : ∀ keys, ((after calls).drain.2.extend keys).keys = distinct keys

/-- **Pending keys stand in the order of their arrival**, whatever calls were made: each is listed
once, by the place of its first mark since it was last absent, the index holds the same keys, and
draining lists them all and leaves none. -/
theorem ordered_after (calls : List (Call K)) : Ordered calls where
  nodup := (inStep_after calls).nodup
  contains := (inStep_after calls).mem_index
  size := ⟨rfl, (inStep_after calls).index_size⟩
  isEmpty := (inStep_after calls).isEmpty_iff
  mem_concat _ _ := mem_keys_concat
  mark _ := (inStep_after calls).mark_fst
  remove _ := (inStep_after calls).remove_fst
  steps := after_flatMap_steps calls
  arrives key := by
    rw [← after_flatMap_steps]
    exact mem_keys_iff_arrives Call.single_of_mem_steps
  order := by
    rw [← after_flatMap_steps]
    exact pairwise_after Call.single_of_mem_steps
  drain := rfl
  anew _ := inStep_empty.mark_fst.2 List.not_mem_nil
  anew_extend := inStep_empty.keys_extend_eq

/-- The first title is marked again behind the others when it was taken out, and of the three keys
the second one is dropped by a predicate that counts. -/
def revision : List (Call String) :=
  [.extend ["A.title", "B.title", "A.title"], .remove "A.title", .mark "C.title", .mark "A.title",
    .mark "B.title", .retain (fun asked _ => (asked ≠ 1, asked + 1)) 0]

theorem ordered_after_revision :
    (after revision).keys = ["B.title", "A.title"] ∧ Ordered revision :=
  ⟨by decide +kernel, ordered_after revision⟩

end Recalc.PendingSet
