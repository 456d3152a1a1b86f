import Recalc.Graph.Order
import Recalc.Proofs.Collection.Sorted
import Mathlib.Data.Finset.Card
import Mathlib.Logic.Relation

/-!
# Walks along a stack

A walk takes the key on top of a stack, looks at its neighbours, and puts those that were not yet
visited on the stack. The walk that collects what roots affect goes along dependents, the one that
looks for cycles along dependencies; both are `walk` with their own neighbours.

A walk visits only what its neighbours lead to, whatever its fuel (`forall_mem_walk`). With enough
fuel it stops only when the stack is empty, and what it visited is closed (`walk_closed`): each step
takes one key off the stack and puts the newly found ones on, so the number of keys on the stack
together with the keys not yet visited goes down by one. So each key that such a walk finds is taken
off the stack exactly once (`taken_spec`).
-/

namespace Recalc.DependencyGraph

universe u

variable {K : Type u} [Ord K] [DecidableEq K]

omit [Ord K] [DecidableEq K] in
theorem mem_push {keys stack : List K} {q : K} : q ∈ push keys stack ↔ q ∈ keys ∨ q ∈ stack := by
  simp [push]

variable [Std.LawfulEqOrd K] [Std.TransOrd K]

/-! ### Sorting out what was visited -/

/-- The keys found and visited after one more key is looked at. -/
def sortOut (s : List K × SortedSet K) (key : K) : List K × SortedSet K :=
  if key ∈ s.2 then s else (s.1 ++ [key], s.2.insert key)

theorem unvisited_eq (visited : SortedSet K) (keys : List K) :
    unvisited visited keys = keys.foldl sortOut ([], visited) := rfl

/-- The keys found stay new and different, and they are visited afterwards. -/
theorem foldl_sortOut_spec {visited after : SortedSet K} {found : List K} (keys : List K)
    (hn : found.Nodup) (ha : ∀ q, q ∈ after ↔ q ∈ visited ∨ q ∈ found)
    (hf : ∀ q ∈ found, q ∉ visited) : (keys.foldl sortOut (found, after)).1.Nodup ∧
      (∀ q, q ∈ (keys.foldl sortOut (found, after)).1 ↔ q ∈ found ∨ q ∈ keys ∧ q ∉ visited) ∧
      ∀ q, q ∈ (keys.foldl sortOut (found, after)).2 ↔ q ∈ after ∨ q ∈ keys := by
  induction keys generalizing found after with
  | nil => exact ⟨hn, fun q => by simp, fun q => by simp⟩
  | cons key keys ih =>
    rw [List.foldl_cons, sortOut]
    simp only [List.mem_cons]
    by_cases hk : key ∈ after
    · rw [if_pos hk]
      obtain ⟨h1, h2, h3⟩ := ih hn ha hf
      have hk' := (ha key).1 hk
      exact ⟨h1, fun q => by rw [h2]; grind, fun q => by rw [h3]; grind⟩
    · rw [if_neg hk]
      have hk' : key ∉ visited ∧ key ∉ found := not_or.1 fun h => hk ((ha key).2 h)
      have hn' : (found ++ [key]).Nodup := List.nodup_append.2 ⟨hn, by simp, by grind⟩
      have ha' : ∀ q, q ∈ after.insert key ↔ q ∈ visited ∨ q ∈ found ++ [key] := by
        intro q
        rw [SortedSet.mem_insert, ha]
        grind
      obtain ⟨h1, h2, h3⟩ := ih hn' ha' (by grind)
      exact ⟨h1, fun q => by rw [h2]; grind, fun q => by rw [h3, SortedSet.mem_insert]; grind⟩

/-- Sorting out what was not visited: the keys found are new and different, and they are visited
afterwards. -/
theorem unvisited_spec (visited : SortedSet K) (keys : List K) :
    (unvisited visited keys).1.Nodup ∧
      (∀ q, q ∈ (unvisited visited keys).1 ↔ q ∈ keys ∧ q ∉ visited) ∧
      ∀ q, q ∈ (unvisited visited keys).2 ↔ q ∈ visited ∨ q ∈ keys := by
  rw [unvisited_eq]
  simpa using foldl_sortOut_spec keys List.nodup_nil
    (fun q => (or_iff_left List.not_mem_nil).symm) (fun q hq => absurd hq List.not_mem_nil)

/-! ### Walks -/

/-- The visited keys after everything on the stack and what `next` leads to from there was visited
too, in at most `fuel` steps. -/
def walk (next : K → List K) : Nat → SortedSet K → List K → SortedSet K
  | 0, visited, _ => visited
  | _, visited, [] => visited
  | fuel + 1, visited, key :: stack =>
    let (found, visited) := unvisited visited (next key)
    walk next fuel visited (push found stack)

theorem closureFrom_eq_walk (g : DependencyGraph K) (fuel : Nat) (visited : SortedSet K)
    (stack : List K) : g.closureFrom fuel visited stack = walk g.dependents fuel visited stack := by
  induction fuel generalizing visited stack with
  | zero => rfl
  | succ fuel ih =>
    cases stack with
    | nil => rfl
    | cons key stack => exact ih _ _

theorem reachWithin_eq_walk (g : DependencyGraph K) (within : SortedSet K) (fuel : Nat)
    (visited : SortedSet K) (stack : List K) :
    EvaluationOrder.reachWithin g within fuel visited stack =
      walk (fun key => (g.dependencies key).filter (· ∈ within)) fuel visited stack := by
  induction fuel generalizing visited stack with
  | zero => rfl
  | succ fuel ih =>
    cases stack with
    | nil => rfl
    | cons key stack => exact ih _ _

/-- A property that neighbours of keys on the stack have, and that is enough to be put on the stack,
holds of all keys that a walk visits. -/
theorem forall_mem_walk {next : K → List K} {P Q : K → Prop}
    (hP : ∀ a, Q a → ∀ b ∈ next a, P b) (hQ : ∀ a, P a → Q a) {fuel : Nat}
    {visited : SortedSet K} {stack : List K} (hv : ∀ q ∈ visited, P q) (hs : ∀ q ∈ stack, Q q) :
    ∀ q ∈ walk next fuel visited stack, P q := by
  induction fuel generalizing visited stack with
  | zero => exact hv
  | succ fuel ih =>
    cases stack with
    | nil => exact hv
    | cons key stack =>
      obtain ⟨-, hf, ha⟩ := unvisited_spec visited (next key)
      have hnext : ∀ q ∈ next key, P q := hP key (hs key List.mem_cons_self)
      refine ih (fun q hq => ?_) (fun q hq => ?_)
      · exact ((ha q).1 hq).elim (hv q) (hnext q)
      · rcases mem_push.1 hq with hq | hq
        · exact hQ q (hnext q ((hf q).1 hq).1)
        · exact hs q (List.mem_cons_of_mem _ hq)

/-- How many of the listed keys are not visited. -/
def waiting (all : List K) (visited : SortedSet K) : Nat :=
  (all.toFinset.filter (· ∉ visited)).card

omit [Std.LawfulEqOrd K] [Std.TransOrd K] in
theorem waiting_le (all : List K) (visited : SortedSet K) : waiting all visited ≤ all.length :=
  (Finset.card_filter_le _ _).trans (List.toFinset_card_le _)

omit [Std.LawfulEqOrd K] [Std.TransOrd K] in
/-- The keys newly found by a step no longer wait. -/
theorem waiting_add_length_le {all : List K} {visited after : SortedSet K} {found : List K}
    (hn : found.Nodup) (hd : ∀ q ∈ found, q ∈ all ∧ q ∉ visited)
    (ha : ∀ q, q ∈ after ↔ q ∈ visited ∨ q ∈ found) :
    waiting all after + found.length ≤ waiting all visited := by
  rw [waiting, waiting, ← List.toFinset_card_of_nodup hn, ← Finset.card_union_of_disjoint]
  · refine Finset.card_le_card fun q hq => ?_
    simp only [Finset.mem_union, Finset.mem_filter, List.mem_toFinset, ha] at hq ⊢
    have := hd q
    grind
  · rw [Finset.disjoint_left]
    intro q hq hf
    simp only [Finset.mem_filter, List.mem_toFinset, ha] at hq hf
    exact hq.2 (.inr hf)

/-- With enough fuel, a walk among the listed keys ends with a set that holds the neighbours of all
keys that it visited or that were on the stack. -/
theorem walk_closed {next : K → List K} {all : List K} (hall : ∀ a, ∀ b ∈ next a, b ∈ all)
    (fuel : Nat) (visited : SortedSet K) (stack : List K)
    (hfuel : stack.length + waiting all visited ≤ fuel)
    (hv : ∀ a ∈ visited, a ∉ stack → ∀ b ∈ next a, b ∈ visited) :
    (∀ q ∈ visited, q ∈ walk next fuel visited stack) ∧
      ∀ a, a ∈ walk next fuel visited stack ∨ a ∈ stack → ∀ b ∈ next a,
        b ∈ walk next fuel visited stack := by
  induction fuel generalizing visited stack with
  | zero =>
    have hnil : stack = [] := List.length_eq_zero_iff.1 (by omega)
    subst hnil
    exact ⟨fun _ h => h, fun a ha => hv a (ha.resolve_right List.not_mem_nil) List.not_mem_nil⟩
  | succ fuel ih =>
    cases stack with
    | nil =>
      exact ⟨fun _ h => h, fun a ha => hv a (ha.resolve_right List.not_mem_nil) List.not_mem_nil⟩
    | cons key stack =>
      obtain ⟨hn, hf, ha⟩ := unvisited_spec visited (next key)
      rw [walk]
      generalize unvisited visited (next key) = r at hn hf ha ⊢
      obtain ⟨found, after⟩ := r
      simp only at hn hf ha ⊢
      have hw : waiting all after + found.length ≤ waiting all visited :=
        waiting_add_length_le hn (fun q hq => ⟨hall key q ((hf q).1 hq).1, ((hf q).1 hq).2⟩)
          (fun q => by rw [ha, hf]; grind)
      obtain ⟨hin, hclosed⟩ := ih after (push found stack)
        (by simp only [push, List.length_append, List.length_reverse, List.length_cons] at hfuel ⊢
            omega)
        (fun a haa has b hb => by
          rw [mem_push, not_or] at has
          rw [ha]
          by_cases hak : a = key
          · exact .inr (hak ▸ hb)
          · have hvis : a ∈ visited := ((ha a).1 haa).elim id fun hd => by
              by_contra hnot
              exact has.1 ((hf a).2 ⟨hd, hnot⟩)
            exact .inl (hv a hvis (by simp [hak, has.2]) b hb))
      refine ⟨fun q hq => hin q ((ha q).2 (.inl hq)), fun a haw b hb => ?_⟩
      rcases haw with haw | has
      · exact hclosed a (.inl haw) b hb
      · rcases List.mem_cons.1 has with rfl | has
        · exact hin b ((ha b).2 (.inr hb))
        · exact hclosed a (.inr (mem_push.2 (.inr has))) b hb

/-! ### The keys a walk takes -/

/-- The keys that a walk takes off the stack, one after another. -/
def taken (next : K → List K) : Nat → SortedSet K → List K → List K
  | 0, _, _ => []
  | _, _, [] => []
  | fuel + 1, visited, key :: stack =>
    let (found, visited) := unvisited visited (next key)
    key :: taken next fuel visited (push found stack)

theorem mem_walk_of_mem {next : K → List K} (fuel : Nat) {visited : SortedSet K} {stack : List K}
    {q : K} (hq : q ∈ visited) : q ∈ walk next fuel visited stack := by
  induction fuel generalizing visited stack with
  | zero => exact hq
  | succ fuel ih =>
    cases stack with
    | nil => exact hq
    | cons key stack => exact ih (((unvisited_spec visited (next key)).2.2 q).2 (.inl hq))

/-- With enough fuel, a walk takes each key of its stack and each key that it newly visits exactly
once. -/
theorem taken_spec {next : K → List K} {all : List K} (hall : ∀ a, ∀ b ∈ next a, b ∈ all)
    (fuel : Nat) (visited : SortedSet K) (stack : List K)
    (hfuel : stack.length + waiting all visited ≤ fuel) (hn : stack.Nodup)
    (hv : ∀ q ∈ stack, q ∈ visited) :
    (taken next fuel visited stack).Nodup ∧
      ∀ q, q ∈ taken next fuel visited stack ↔
        q ∈ stack ∨ q ∈ walk next fuel visited stack ∧ q ∉ visited := by
  induction fuel generalizing visited stack with
  | zero =>
    have hnil : stack = [] := List.length_eq_zero_iff.1 (by omega)
    subst hnil
    exact ⟨List.nodup_nil, fun q => by simp [taken, walk]⟩
  | succ fuel ih =>
    cases stack with
    | nil => exact ⟨List.nodup_nil, fun q => by simp [taken, walk]⟩
    | cons key stack =>
      obtain ⟨hfn, hf, ha⟩ := unvisited_spec visited (next key)
      rw [taken, walk]
      generalize unvisited visited (next key) = r at hfn hf ha ⊢
      obtain ⟨found, after⟩ := r
      simp only at hfn hf ha ⊢
      obtain ⟨hkey, hstack⟩ := List.nodup_cons.1 hn
      have hw : waiting all after + found.length ≤ waiting all visited :=
        waiting_add_length_le hfn (fun q hq => ⟨hall key q ((hf q).1 hq).1, ((hf q).1 hq).2⟩)
          (fun q => by rw [ha, hf]; grind)
      have hpush : (push found stack).Nodup :=
        List.nodup_append.2 ⟨List.nodup_reverse.2 hfn, hstack, fun a hfa b hb e =>
          ((hf a).1 (List.mem_reverse.1 hfa)).2 (hv a (List.mem_cons_of_mem _ (e ▸ hb)))⟩
      obtain ⟨htn, ht⟩ := ih after (push found stack)
        (by simp only [push, List.length_append, List.length_reverse, List.length_cons] at hfuel ⊢
            omega)
        hpush
        (fun q hq => (ha q).2 <| (mem_push.1 hq).elim (fun h => .inr ((hf q).1 h).1)
          fun h => .inl (hv q (List.mem_cons_of_mem _ h)))
      have hvisited : key ∈ visited := hv key List.mem_cons_self
      refine ⟨List.nodup_cons.2 ⟨fun hk => ?_, htn⟩, fun q => ?_⟩
      · rcases (ht key).1 hk with hk | ⟨-, hk⟩
        · exact (mem_push.1 hk).elim (fun h => ((hf key).1 h).2 hvisited) hkey
        · exact hk ((ha key).2 (.inl hvisited))
      · -- What is found counts as taken off the stack later, and as newly visited now.
        have hin : ∀ q ∈ after, q ∈ walk next fuel after (push found stack) :=
          fun q hq => mem_walk_of_mem fuel hq
        rw [List.mem_cons, ht, mem_push, List.mem_cons]
        have := hf q
        have := ha q
        have := hin q
        grind

end Recalc.DependencyGraph
