import Recalc.Graph.Order
import Recalc.Proofs.Graph.Closure
import Mathlib.Data.List.Basic

/-!
# The evaluation order

A placement is determined by the keys that are placed: ready are the other keys without a
dependency that is not placed, and each further key waits for the number of its dependencies that
are not placed (`Placement.Valid`). The start is valid with nothing placed, and a step keeps it
valid with one more key placed. The run stops only when no key is ready, so the order lists every
key once, first the placed keys, each behind its dependencies, then the keys that wait for each
other.
-/

namespace Recalc

universe u

variable {K : Type u} [Ord K] [DecidableEq K]

namespace DependencyGraph

/-- The dependencies of `key` that are not in `done`. -/
def unplaced (g : DependencyGraph K) (done : List K) (key : K) : List K :=
  (g.dependencies key).filter (· ∉ done)

theorem mem_unplaced {g : DependencyGraph K} {done : List K} {key q : K} :
    q ∈ g.unplaced done key ↔ q ∈ g.dependencies key ∧ q ∉ done := by
  simp [unplaced]

theorem unplaced_eq_nil_iff {g : DependencyGraph K} {done : List K} {key : K} :
    g.unplaced done key = [] ↔ ∀ d ∈ g.dependencies key, d ∈ done := by
  simp [unplaced]

theorem unplaced_concat (g : DependencyGraph K) (done : List K) (new key : K) :
    g.unplaced (done ++ [new]) key = (g.unplaced done key).filter (· ≠ new) := by
  rw [unplaced, unplaced, List.filter_filter]
  refine List.filter_congr fun q _ => ?_
  by_cases hq : q = new <;> simp [hq]

/-- Placing a key that others depend on leaves each of them with one dependency less to wait for. -/
theorem Sound.length_unplaced_concat {g : DependencyGraph K} (h : g.Sound) {done : List K}
    {new : K} (hn : new ∉ done) (key : K) :
    (g.unplaced (done ++ [new]) key).length =
      if key ∈ g.dependents new then (g.unplaced done key).length - 1
      else (g.unplaced done key).length := by
  have hnd : (g.unplaced done key).Nodup := (h.nodup_dependencies key).filter _
  rw [unplaced_concat]
  by_cases hk : key ∈ g.dependents new
  · have hm : new ∈ g.unplaced done key := mem_unplaced.2 ⟨h.mirror.2 hk, hn⟩
    rw [if_pos hk, ← List.length_erase_of_mem hm, hnd.erase_eq_filter]
    congr 1
    refine List.filter_congr fun q _ => ?_
    by_cases hq : q = new <;> simp [hq]
  · rw [if_neg hk, List.filter_eq_self.2]
    intro q hq
    have hne : q ≠ new := fun he => hk (h.mirror.1 (he ▸ (mem_unplaced.1 hq).1))
    simpa using hne

end DependencyGraph

/-- Each key of a list stands behind its dependencies. -/
def DependencyGraph.Follows (g : DependencyGraph K) (keys : List K) : Prop :=
  ∀ pre key post, keys = pre ++ key :: post → ∀ d ∈ g.dependencies key, d ∈ pre

theorem DependencyGraph.Follows.concat {g : DependencyGraph K} {keys : List K} {new : K}
    (h : g.Follows keys) (hn : ∀ d ∈ g.dependencies new, d ∈ keys) : g.Follows (keys ++ [new]) := by
  intro pre key post he d hd
  rcases List.eq_nil_or_concat post with rfl | ⟨post, last, rfl⟩
  · obtain ⟨rfl, hk⟩ := List.append_inj' he rfl
    obtain rfl : new = key := by simpa using hk
    exact hn d hd
  · have he' : keys ++ [new] = (pre ++ key :: post) ++ [last] := by simpa using he
    exact h pre key post (List.append_inj' he' rfl).1 d hd

namespace Placement

/-- The placement is the one in which the keys of `done` are placed. -/
structure Valid (g : DependencyGraph K) (done : List K) (p : Placement K) : Prop where
  /-- No key is placed twice. -/
  nodup : done.Nodup
  /-- Only nodes are placed. -/
  nodes : ∀ q ∈ done, q ∈ g.nodes
  /-- Each placed key stands behind its dependencies. -/
  follows : g.Follows done
  /-- Ready are the other keys whose dependencies are placed. -/
  ready : ∀ q, q ∈ p.ready ↔ q ∈ g.nodes ∧ q ∉ done ∧ g.unplaced done q = []
  /-- The other keys wait for their dependencies that are not placed. -/
  waiting : ∀ q n, p.waiting.get? q = some n ↔
    q ∈ g.nodes ∧ q ∉ done ∧ n = (g.unplaced done q).length ∧ 0 < n

variable [Std.LawfulEqOrd K] [Std.TransOrd K]

/-- One key more is seen at the start. -/
def enter (g : DependencyGraph K) (p : Placement K) (key : K) : Placement K :=
  match g.inDegree key with
  | 0 => { p with ready := p.ready.insert key }
  | degree => { p with waiting := p.waiting.insert key degree }

theorem start_eq (g : DependencyGraph K) : start g = g.keys.foldl (enter g) ⟨.empty, .empty⟩ := rfl

theorem mem_ready_enter {g : DependencyGraph K} {p : Placement K} {key q : K} :
    q ∈ (enter g p key).ready ↔ q ∈ p.ready ∨ q = key ∧ g.inDegree q = 0 := by
  rw [enter]
  split
  · rw [SortedSet.mem_insert]
    grind
  · grind

theorem get?_waiting_enter {g : DependencyGraph K} {p : Placement K} {key q : K} :
    (enter g p key).waiting.get? q =
      if q = key ∧ g.inDegree q ≠ 0 then some (g.inDegree q) else p.waiting.get? q := by
  rw [enter]
  split
  · grind
  · rw [SortedMap.get?_insert]
    grind

theorem foldl_enter (g : DependencyGraph K) (keys : List K) (p : Placement K) :
    (∀ q, q ∈ (keys.foldl (enter g) p).ready ↔ q ∈ p.ready ∨ q ∈ keys ∧ g.inDegree q = 0) ∧
    ∀ q, (keys.foldl (enter g) p).waiting.get? q =
      if q ∈ keys ∧ g.inDegree q ≠ 0 then some (g.inDegree q) else p.waiting.get? q := by
  induction keys generalizing p with
  | nil => simp
  | cons key keys ih =>
    obtain ⟨hr, hw⟩ := ih (enter g p key)
    refine ⟨fun q => ?_, fun q => ?_⟩
    · rw [List.foldl_cons, hr, mem_ready_enter, List.mem_cons]
      grind
    · rw [List.foldl_cons, hw, get?_waiting_enter]
      grind

theorem start_valid (g : DependencyGraph K) : Valid g [] (start g) := by
  obtain ⟨hr, hw⟩ := foldl_enter g g.keys ⟨.empty, .empty⟩
  have hlen : ∀ q, g.inDegree q = (g.unplaced [] q).length := by
    simp [DependencyGraph.inDegree, DependencyGraph.unplaced]
  refine ⟨List.nodup_nil, by simp, fun pre key post he => by simp at he, fun q => ?_,
    fun q n => ?_⟩
  · rw [start_eq, hr, hlen, List.length_eq_zero_iff]
    simp [DependencyGraph.keys]
  · rw [start_eq, hw, ← hlen]
    simp only [DependencyGraph.keys, SortedSet.mem_toList, SortedMap.get?_empty]
    grind

/-- Settling a key makes it ready if it waits for at most one more key, and takes one away. -/
theorem settle_spec (p : Placement K) (key : K) :
    (∀ q, q ∈ (settle p key).ready ↔
      q ∈ p.ready ∨ q = key ∧ ∃ n, p.waiting.get? q = some n ∧ n ≤ 1) ∧
    ∀ q n, (settle p key).waiting.get? q = some n ↔
      if q = key then 0 < n ∧ p.waiting.get? q = some (n + 1) else p.waiting.get? q = some n := by
  rw [settle]
  cases hg : p.waiting.get? key with
  | none =>
    refine ⟨fun q => by grind, fun q n => ?_⟩
    simp only
    split
    · rename_i hq
      simp [hq, hg]
    · exact Iff.rfl
  | some degree =>
    by_cases hd : degree - 1 = 0
    · simp only [if_pos hd, SortedSet.mem_insert, SortedMap.get?_erase]
      refine ⟨fun q => by grind, fun q n => ?_⟩
      split
      · rename_i hq
        simp only [hq, hg, reduceCtorEq, Option.some.injEq, false_iff]
        omega
      · exact Iff.rfl
    · simp only [if_neg hd, SortedMap.get?_insert]
      refine ⟨fun q => by grind, fun q n => ?_⟩
      split
      · rename_i hq
        simp only [hq, hg, Option.some.injEq]
        omega
      · exact Iff.rfl

/-- Settling dependents, each at most once: those that wait for one key become ready, and the others
wait for one key less. -/
theorem foldl_settle {dependents : List K} (hn : dependents.Nodup) (p : Placement K) :
    let r := dependents.foldl settle p
    (∀ q, q ∈ r.ready ↔
      q ∈ p.ready ∨ q ∈ dependents ∧ ∃ n, p.waiting.get? q = some n ∧ n ≤ 1) ∧
    ∀ q n, r.waiting.get? q = some n ↔
      if q ∈ dependents then 0 < n ∧ p.waiting.get? q = some (n + 1)
      else p.waiting.get? q = some n := by
  induction dependents generalizing p with
  | nil => simp
  | cons key rest ih =>
    obtain ⟨hk, hn⟩ := List.nodup_cons.1 hn
    rw [List.foldl_cons]
    obtain ⟨hr, hw⟩ := ih hn (settle p key)
    obtain ⟨hready, hwaiting⟩ := settle_spec p key
    refine ⟨fun q => ?_, fun q n => ?_⟩
    · rw [hr, hready]
      have hother : q ≠ key → (settle p key).waiting.get? q = p.waiting.get? q := fun hq =>
        Option.ext fun n => (hwaiting q n).trans (by rw [if_neg hq])
      grind
    · rw [hw, hwaiting, hwaiting]
      by_cases hq : q = key
      · subst hq
        simp only [List.mem_cons, true_or, if_true, if_neg hk]
      · simp only [List.mem_cons, hq, false_or, if_false]

theorem Valid.step? {g : DependencyGraph K} (h : g.Sound) {done : List K} {p next : Placement K}
    {key : K} (hp : Valid g done p) (hs : p.step? g = some (key, next)) :
    Valid g (done ++ [key]) next := by
  rw [Placement.step?] at hs
  cases hm : p.ready.min? with
  | none => simp [hm] at hs
  | some least =>
    simp only [hm, Option.some.injEq, Prod.mk.injEq] at hs
    obtain ⟨rfl, rfl⟩ := hs
    obtain ⟨hnode, hnew, hdeps⟩ := (hp.ready least).1 (SortedSet.mem_of_min?_eq_some hm)
    obtain ⟨hr, hw⟩ := foldl_settle (h.nodup_dependents least)
      { p with ready := p.ready.erase least }
    have hself : least ∉ g.dependents least := fun hd =>
      hnew (DependencyGraph.unplaced_eq_nil_iff.1 hdeps least (h.mirror.2 hd))
    -- The placed key is ready and so nothing it waits for: no other key changes its state with it.
    have hlen := fun q => h.length_unplaced_concat hnew q
    refine ⟨?_, ?_, hp.follows.concat (DependencyGraph.unplaced_eq_nil_iff.1 hdeps), fun q => ?_,
      fun q n => ?_⟩
    · exact List.nodup_append.2 ⟨hp.nodup, by simp, by grind⟩
    · intro q hq
      rcases List.mem_append.1 hq with hq | hq
      · exact hp.nodes q hq
      · exact List.mem_singleton.1 hq ▸ hnode
    · rw [hr, SortedSet.mem_erase, hp.ready, ← List.length_eq_zero_iff, ← List.length_eq_zero_iff,
        hlen]
      simp only [hp.waiting, List.mem_append, List.mem_singleton]
      split <;> grind
    · rw [hw, hlen]
      simp only [hp.waiting, List.mem_append, List.mem_singleton]
      have hq : q = least → (g.unplaced done q).length = 0 := fun he => by
        rw [he, hdeps, List.length_nil]
      split <;> grind

theorem run_valid {g : DependencyGraph K} (h : g.Sound) (fuel : Nat) {done : List K}
    {p : Placement K} (hp : Valid g done p) :
    Valid g (done ++ (p.run g fuel).1) (p.run g fuel).2 ∧
      (g.size ≤ done.length + fuel → ∀ q, q ∉ (p.run g fuel).2.ready) := by
  induction fuel generalizing done p with
  | zero =>
    refine ⟨by simpa [run] using hp, fun hf q hq => ?_⟩
    -- As many keys are placed as there are nodes.
    have hall : done.Perm g.keys :=
      (hp.nodup.subperm fun q hq => SortedSet.mem_toList.2 (hp.nodes q hq)).perm_of_length_le
        (g.nodes.length_toList.trans_le hf)
    obtain ⟨hnode, hnew, -⟩ := (hp.ready q).1 hq
    exact hnew (hall.mem_iff.2 (SortedSet.mem_toList.2 hnode))
  | succ fuel ih =>
    rw [run]
    cases hs : p.step? g with
    | none =>
      refine ⟨by simpa using hp, fun _ q hq => ?_⟩
      rw [Placement.step?] at hs
      cases hm : p.ready.min? with
      | none => exact SortedSet.min?_eq_none_iff.1 hm q hq
      | some least => simp [hm] at hs
    | some r =>
      obtain ⟨key, next⟩ := r
      obtain ⟨hv, he⟩ := ih (hp.step? h hs)
      rw [List.append_assoc] at hv
      exact ⟨hv, fun hf => he (by rw [List.length_append, List.length_singleton]; omega)⟩

end Placement

namespace DependencyGraph

/-- Nothing that `key` depends on, through other keys or not, depends on itself: walks along
dependencies from `key` end. -/
def Grounded (g : DependencyGraph K) (key : K) : Prop :=
  Acc (fun d key => d ∈ g.dependencies key) key

end DependencyGraph

namespace EvaluationOrder

variable [Std.LawfulEqOrd K] [Std.TransOrd K]

/-- The keys that a run for the order of a graph places. -/
def placed (g : DependencyGraph K) : List K := ((Placement.start g).run g g.size).1

/-- The placed keys stand behind their dependencies, and every other node waits for one that is not
placed. -/
theorem placed_spec {g : DependencyGraph K} (h : g.Sound) :
    (placed g).Nodup ∧ (∀ q ∈ placed g, q ∈ g.nodes) ∧ g.Follows (placed g) ∧
      ∀ q ∈ g.nodes, q ∉ placed g → ∃ d ∈ g.dependencies q, d ∉ placed g := by
  obtain ⟨hv, he⟩ := Placement.run_valid h g.size (Placement.start_valid g)
  rw [List.nil_append] at hv
  refine ⟨hv.nodup, hv.nodes, hv.follows, fun q hq hn => ?_⟩
  have hne : g.unplaced (placed g) q ≠ [] := fun hu =>
    he (by rw [List.length_nil, Nat.zero_add]) q ((hv.ready q).2 ⟨hq, hn, hu⟩)
  obtain ⟨d, hd⟩ := List.exists_mem_of_ne_nil _ hne
  exact ⟨d, DependencyGraph.mem_unplaced.1 hd⟩

/-- The order is made of the placed keys and, behind them, the nodes that could not be placed. -/
theorem order_compute {g : DependencyGraph K} (h : g.Sound) :
    ∃ tail, (compute g).order = placed g ++ tail ∧ tail.Nodup ∧
      ∀ q, q ∈ tail ↔ q ∈ g.nodes ∧ q ∉ placed g := by
  obtain ⟨hv, he⟩ := Placement.run_valid h g.size (Placement.start_valid g)
  rw [List.nil_append] at hv
  refine ⟨_, rfl, SortedMap.nodup_keys _, fun q => ?_⟩
  rw [SortedMap.mem_keys_iff]
  constructor
  · rintro ⟨n, hn⟩
    exact ⟨((hv.waiting q n).1 hn).1, ((hv.waiting q n).1 hn).2.1⟩
  · rintro ⟨hq, hn⟩
    have hne : g.unplaced (placed g) q ≠ [] := fun hu =>
      he (by rw [List.length_nil, Nat.zero_add]) q ((hv.ready q).2 ⟨hq, hn, hu⟩)
    exact ⟨_, (hv.waiting q _).2 ⟨hq, hn, rfl, List.length_pos_iff.2 hne⟩⟩

/-- The order lists exactly the nodes. -/
theorem mem_order_compute {g : DependencyGraph K} (h : g.Sound) {q : K} :
    q ∈ (compute g).order ↔ q ∈ g.nodes := by
  obtain ⟨tail, ho, -, ht⟩ := order_compute h
  rw [ho, List.mem_append, ht]
  have := (placed_spec h).2.1 q
  grind

/-- No key is ordered twice. -/
theorem nodup_order_compute {g : DependencyGraph K} (h : g.Sound) : (compute g).order.Nodup := by
  obtain ⟨tail, ho, hn, ht⟩ := order_compute h
  rw [ho, List.nodup_append]
  refine ⟨(placed_spec h).1, hn, ?_⟩
  rintro a ha b hb rfl
  exact ((ht a).1 hb).2 ha

/-- A node from which all walks along dependencies end is placed. -/
theorem mem_placed_of_grounded {g : DependencyGraph K} (h : g.Sound) {key : K}
    (hk : g.Grounded key) (hn : key ∈ g.nodes) : key ∈ placed g := by
  induction hk with
  | intro key _ ih =>
    by_contra hp
    obtain ⟨d, hd, hdp⟩ := (placed_spec h).2.2.2 key hn hp
    exact hdp (ih d hd (h.target hd))

/-- **A grounded key stands behind its dependencies** in the order. -/
theorem dependencies_before {g : DependencyGraph K} (h : g.Sound) {key : K} (hk : g.Grounded key)
    {pre post : List K} (ho : (compute g).order = pre ++ key :: post) :
    ∀ d ∈ g.dependencies key, d ∈ pre := by
  obtain ⟨tail, he, -, ht⟩ := order_compute h
  have hmem : key ∈ g.nodes := (mem_order_compute h).1 (by rw [ho]; simp)
  have hplaced := mem_placed_of_grounded h hk hmem
  have hnd := nodup_order_compute h
  obtain ⟨pre', post', hsplit⟩ := List.append_of_mem hplaced
  -- A key occurs once, so both ways to cut the order at it are the same.
  have hpre : pre = pre' := by
    rw [he, hsplit, List.append_assoc, List.cons_append] at ho hnd
    have hcut := List.nodup_append.1 hnd
    exact ((List.append_cons_inj_of_notMem
      (fun hk => hcut.2.2 key hk key List.mem_cons_self rfl)
      (List.nodup_cons.1 hcut.2.1).1).1 ho).1.symm
  exact hpre ▸ (placed_spec h).2.2.1 pre' key post' hsplit

/-- Leaving keys out of the order leaves a grounded key behind those of its dependencies that
stay. -/
theorem dependencies_before_filter {g : DependencyGraph K} (h : g.Sound) {key : K}
    (hk : g.Grounded key) {keep : K → Bool} {pre post : List K}
    (ho : (compute g).order.filter keep = pre ++ key :: post) :
    ∀ d ∈ g.dependencies key, keep d = true → d ∈ pre := by
  obtain ⟨left, right, hsplit, rfl, hright⟩ := List.filter_eq_append_iff.1 ho
  obtain ⟨skip, rest, rfl, hskip, -, -⟩ := List.filter_eq_cons_iff.1 hright
  rw [← List.append_assoc] at hsplit
  intro d hd hkeep
  rcases List.mem_append.1 (dependencies_before h hk hsplit d hd) with hm | hm
  · exact List.mem_filter.2 ⟨hm, hkeep⟩
  · exact absurd hkeep (hskip d hm)

/-! ### Places and affected keys -/

/-- The place of a key is where the order has it. -/
theorem position?_compute {g : DependencyGraph K} (h : g.Sound) {key : K} {place : Nat} :
    (compute g).position? key = some place ↔ (compute g).order[place]? = some key := by
  have hn : ((compute g).order.zipIdx.map (·.1)).Nodup := by
    rw [List.zipIdx_map_fst]
    exact nodup_order_compute h
  rw [← List.mk_mem_zipIdx_iff_getElem?]
  exact SortedMap.get?_ofList_eq_some_iff hn

theorem contains_compute {g : DependencyGraph K} (h : g.Sound) {key : K} :
    (compute g).contains key = true ↔ key ∈ g.nodes := by
  rw [contains, SortedMap.contains_iff, ← mem_order_compute h, List.mem_iff_getElem?]
  exact exists_congr fun place => position?_compute h

omit [Ord K] [DecidableEq K] [Std.LawfulEqOrd K] [Std.TransOrd K] in
/-- A list that is sorted by place has only one order if no place is taken twice. -/
theorem eq_of_sorted_by_place {l r : List (Nat × K)} (hl : l.Pairwise fun a b => a.1 ≤ b.1)
    (hn : l.Nodup) (hr : r.Pairwise fun a b => a.1 < b.1) (hm : ∀ e, e ∈ l ↔ e ∈ r) : l = r := by
  have hplaces : (r.map (·.1)).Nodup := List.pairwise_map.2 (hr.imp Nat.ne_of_lt)
  have hnodup : r.Nodup := hplaces.of_map
  refine List.Perm.eq_of_pairwise (fun a b ha hb hab hba => ?_) hl (hr.imp Nat.le_of_lt)
    ((List.perm_ext_iff_of_nodup hn hnodup).2 hm)
  exact List.inj_on_of_nodup_map hplaces ((hm a).1 ha) hb (Nat.le_antisymm hab hba)

/-- The keys of a set that have a place, with their places. -/
def placesOf (o : EvaluationOrder K) (set : SortedSet K) : List (Nat × K) :=
  set.toList.filterMap fun key => (o.position? key).map fun place => (place, key)

theorem mem_placesOf_compute {g : DependencyGraph K} (h : g.Sound) {set : SortedSet K}
    {e : Nat × K} :
    e ∈ (compute g).placesOf set ↔ e.2 ∈ set ∧ (compute g).order[e.1]? = some e.2 := by
  obtain ⟨place, key⟩ := e
  simp only [placesOf, List.mem_filterMap, SortedSet.mem_toList, Option.map_eq_some_iff,
    Prod.mk.injEq, position?_compute h]
  grind

omit [Std.TransOrd K] in
theorem nodup_placesOf (o : EvaluationOrder K) (set : SortedSet K) : (o.placesOf set).Nodup := by
  refine List.Nodup.filterMap ?_ set.nodup_toList
  rintro a b ⟨place, key⟩ ha hb
  simp only [Option.mem_def, Option.map_eq_some_iff, Prod.mk.injEq] at ha hb
  grind

omit [Ord K] [DecidableEq K] [Std.LawfulEqOrd K] [Std.TransOrd K] in
theorem pairwise_mergeSort_place (l : List (Nat × K)) :
    (l.mergeSort fun a b => a.1 ≤ b.1).Pairwise fun a b => a.1 ≤ b.1 := by
  refine (List.pairwise_mergeSort ?_ ?_ l).imp ?_
  · intro a b c hab hbc
    simp only [decide_eq_true_eq] at hab hbc ⊢
    omega
  · intro a b
    simp only [Bool.or_eq_true, decide_eq_true_eq]
    omega
  · intro a b hab
    exact of_decide_eq_true hab

/-- The keys of a list that are in a set, with their places in the list. -/
def enumerate (keys : List K) (set : SortedSet K) : List (Nat × K) :=
  (keys.zipIdx.filter (·.1 ∈ set)).map Prod.swap

omit [Std.LawfulEqOrd K] [Std.TransOrd K] in
theorem mem_enumerate {keys : List K} {set : SortedSet K} {e : Nat × K} :
    e ∈ enumerate keys set ↔ e.2 ∈ set ∧ keys[e.1]? = some e.2 := by
  obtain ⟨place, key⟩ := e
  simp only [enumerate, List.mem_map, List.mem_filter, decide_eq_true_eq, Prod.exists,
    Prod.swap_prod_mk, Prod.mk.injEq, List.mk_mem_zipIdx_iff_getElem?]
  grind

omit [Std.LawfulEqOrd K] [Std.TransOrd K] in
theorem pairwise_enumerate (keys : List K) (set : SortedSet K) :
    (enumerate keys set).Pairwise fun a b => a.1 < b.1 := by
  have hz : (keys.zipIdx.map (·.2)).Pairwise (· < ·) := by
    rw [List.zipIdx_map_snd]
    exact List.pairwise_lt_range'
  rw [enumerate, List.pairwise_map]
  exact (List.pairwise_map.1 hz).filter _

omit [Std.LawfulEqOrd K] [Std.TransOrd K] in
theorem map_snd_enumerate (keys : List K) (set : SortedSet K) :
    (enumerate keys set).map (·.2) = keys.filter (· ∈ set) := by
  have hfst : (Prod.snd ∘ Prod.swap : K × Nat → K) = Prod.fst := rfl
  rw [enumerate, List.map_map, hfst]
  conv_rhs => rw [← List.zipIdx_map_fst 0 keys]
  rw [List.filter_map]
  rfl

/-- The keys of a set, sorted by place, are the keys of the order that are in the set. -/
theorem sorted_by_place {g : DependencyGraph K} (h : g.Sound) (set : SortedSet K) :
    (((compute g).placesOf set).mergeSort fun a b => a.1 ≤ b.1).map (·.2) =
      (compute g).order.filter (· ∈ set) := by
  have hsorted : ((compute g).placesOf set).mergeSort (fun a b => a.1 ≤ b.1) =
      enumerate (compute g).order set := by
    refine eq_of_sorted_by_place (pairwise_mergeSort_place _)
      ((List.mergeSort_perm _ _).nodup_iff.2 (nodup_placesOf _ set)) (pairwise_enumerate _ set) ?_
    intro e
    rw [List.mem_mergeSort, mem_placesOf_compute h, mem_enumerate]
  rw [hsorted, map_snd_enumerate]

/-- **What roots affect**, listed in the order: every node that is reached from a root which is a
node. -/
theorem affected_compute {g : DependencyGraph K} (h : g.Sound) (roots : List K) :
    (compute g).affected g roots =
      (compute g).order.filter (· ∈ g.closure (roots.filter (compute g).contains)) := by
  rw [affected, arrange]
  split
  · rfl
  · exact sorted_by_place h _

theorem nodup_affected_compute {g : DependencyGraph K} (h : g.Sound) (roots : List K) :
    ((compute g).affected g roots).Nodup := by
  rw [affected_compute h]
  exact (nodup_order_compute h).filter _

/-- A key is affected if it is a root or depends on one. -/
theorem mem_affected_compute {g : DependencyGraph K} (h : g.Sound) {roots : List K} {key : K} :
    key ∈ (compute g).affected g roots ↔
      ∃ root ∈ roots, root ∈ g.nodes ∧ g.Affects root key := by
  rw [affected_compute h, List.mem_filter, decide_eq_true_eq, DependencyGraph.mem_closure_iff,
    mem_order_compute h]
  simp only [List.mem_filter, contains_compute h]
  constructor
  · rintro ⟨-, root, ⟨hr, hn⟩, ha⟩
    exact ⟨root, hr, hn, ha⟩
  · rintro ⟨root, hr, hn, ha⟩
    refine ⟨?_, root, ⟨hr, hn⟩, ha⟩
    induction ha with
    | refl => exact hn
    | tail _ hb _ => exact h.source (h.mirror.2 hb)

end EvaluationOrder

end Recalc
