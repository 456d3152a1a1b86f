import Recalc.Proofs.Graph.Cycles

/-!
# The keys on cycles

The order of a graph marks exactly the keys that depend on themselves, at once or through other
keys (`Built.marks_cycles`). It looks for cycles among the keys of the tail only. No cycle is lost
that way: all that leads to a cycle is in the tail, so a walk around a cycle never leaves it. Keys
between cycles and behind them are in the tail as well and are not marked, since no walk leads back
to them.

The same keys are those in the strongly connected components of the tail that have several keys, or
one that depends on itself, however the components are listed (`Components.mem_circularKeys`).
-/

namespace Recalc

universe u

variable {K : Type u} [Ord K] [DecidableEq K]

namespace DependencyGraph

/-- The key depends on the other one, which is one of those of `within`. -/
def Inside (g : DependencyGraph K) (within : List K) (key other : K) : Prop :=
  other ∈ g.dependencies key ∧ other ∈ within

theorem dependsOn_of_inside {g : DependencyGraph K} {within : List K} {key other : K}
    (h : Relation.TransGen (g.Inside within) key other) : g.DependsOn key other :=
  h.lift id fun _ _ hab => hab.1

/-- What leads to a key that reaches a cycle leads to it through keys that reach a cycle. -/
theorem inside_of_dependsOn {g : DependencyGraph K} {within : List K}
    (hw : ∀ q, g.ReachesCycle q → q ∈ within) {key other : K} (h : g.DependsOn key other)
    (hc : g.ReachesCycle other) : Relation.TransGen (g.Inside within) key other := by
  obtain ⟨c, hreach, hcycle⟩ := hc
  induction h using Relation.TransGen.head_induction_on with
  | single hd => exact .single ⟨hd, hw _ ⟨c, hreach, hcycle⟩⟩
  | head hd hrest ih => exact .head ⟨hd, hw _ ⟨c, hrest.to_reflTransGen.trans hreach, hcycle⟩⟩ ih

/-- A cycle lies within the keys that reach one. -/
theorem dependsOn_self_iff {g : DependencyGraph K} {within : List K}
    (hw : ∀ q, g.ReachesCycle q ↔ q ∈ within) {key : K} : g.DependsOn key key ↔
      key ∈ within ∧ Relation.TransGen (g.Inside within) key key := by
  constructor
  · intro h
    have hc : g.ReachesCycle key := ⟨key, .refl, h⟩
    exact ⟨(hw key).1 hc, inside_of_dependsOn (fun q => (hw q).1) h hc⟩
  · exact fun h => dependsOn_of_inside h.2

/-! ### Strongly connected components -/

/-- The parts are the strongly connected components of the graph between the keys of `within`. -/
structure Components (g : DependencyGraph K) (within : List K) (parts : List (List K)) : Prop where
  /-- Each key of `within` is in one part, once. -/
  perm : parts.flatten.Perm within
  /-- A key shares its part with those that it leads to and that lead back to it. -/
  together : ∀ part ∈ parts, ∀ a ∈ part, ∀ b ∈ within, b ∈ part ↔
    Relation.ReflTransGen (g.Inside within) a b ∧ Relation.ReflTransGen (g.Inside within) b a

/-- Whether a component is a cycle: it has several keys, or its first one depends on itself. -/
def isCircular (g : DependencyGraph K) (part : List K) : Bool :=
  1 < part.length || part.head?.any fun key => key ∈ g.dependencies key

/-- The keys of the components that are cycles. -/
def circularKeys (g : DependencyGraph K) (parts : List (List K)) : List K :=
  (parts.filter g.isCircular).flatten

/-- In a component of several keys, each one leads to another one and back. -/
theorem Components.inside_of_one_lt {g : DependencyGraph K} {within : List K}
    {parts : List (List K)} (h : g.Components within parts) (hn : within.Nodup) {part : List K}
    (hp : part ∈ parts) (hl : 1 < part.length) {key : K} (hk : key ∈ part) :
    Relation.TransGen (g.Inside within) key key := by
  have hnodup : part.Nodup := (List.nodup_flatten.1 (h.perm.nodup_iff.2 hn)).1 part hp
  obtain ⟨b, hb, hne⟩ : ∃ b ∈ part, b ≠ key := by
    by_contra hall
    push Not at hall
    have hle : part.length ≤ [key].length :=
      (hnodup.subperm fun b hb => List.mem_singleton.2 (hall b hb)).length_le
    rw [List.length_singleton] at hle
    omega
  have hwithin : b ∈ within := h.perm.mem_iff.1 (List.mem_flatten.2 ⟨part, hp, hb⟩)
  obtain ⟨hto, hback⟩ := (h.together part hp key hk b hwithin).1 hb
  rcases Relation.reflTransGen_iff_eq_or_transGen.1 hto with heq | hto
  · exact absurd heq hne
  · exact hto.trans_left hback

/-- **Components that are cycles** hold the keys that lead back to themselves. -/
theorem Components.mem_circularKeys {g : DependencyGraph K} {within : List K}
    {parts : List (List K)} (h : g.Components within parts) (hn : within.Nodup) {key : K} :
    key ∈ g.circularKeys parts ↔
      key ∈ within ∧ Relation.TransGen (g.Inside within) key key := by
  simp only [circularKeys, List.mem_flatten, List.mem_filter, isCircular, Bool.or_eq_true,
    decide_eq_true_eq]
  have hmem : ∀ {q}, q ∈ within ↔ ∃ part ∈ parts, q ∈ part := fun {q} => by
    rw [← h.perm.mem_iff, List.mem_flatten]
  constructor
  · rintro ⟨part, ⟨hp, hcircular⟩, hk⟩
    refine ⟨hmem.2 ⟨part, hp, hk⟩, ?_⟩
    by_cases hl : 1 < part.length
    · exact h.inside_of_one_lt hn hp hl hk
    · -- The only key of the part is its first one.
      match part, hl, hcircular, hk with
      | [only], _, hcircular, hk =>
        obtain rfl := List.mem_singleton.1 hk
        have hself : key ∈ g.dependencies key := by simpa using hcircular
        exact .single ⟨hself, hmem.2 ⟨[key], hp, List.mem_cons_self⟩⟩
      | _ :: _ :: _, hl, _, _ => simp at hl
  · rintro ⟨hw, hcycle⟩
    obtain ⟨part, hp, hk⟩ := hmem.1 hw
    refine ⟨part, ⟨hp, ?_⟩, hk⟩
    by_cases hl : 1 < part.length
    · exact .inl hl
    · match part, hl, hk with
      | [only], _, hk =>
        obtain rfl := List.mem_singleton.1 hk
        -- The first step around the cycle leads to a key of the same part.
        obtain ⟨next, hnext, hback⟩ := Relation.TransGen.head'_iff.1 hcycle
        obtain rfl : next = key := List.mem_singleton.1
          ((h.together [key] hp key List.mem_cons_self next hnext.2).2 ⟨.single hnext, hback⟩)
        exact .inr (by simpa using hnext.1)
      | _ :: _ :: _, hl, _ => simp at hl

end DependencyGraph

namespace EvaluationOrder

open DependencyGraph

variable [Std.LawfulEqOrd K] [Std.TransOrd K]

/-! ### What the walk among the tail finds -/

/-- The walk from a key visits what the key leads to among the keys of a set. -/
theorem mem_reachWithin {g : DependencyGraph K} {within : List K} {key q : K} :
    q ∈ reachWithin g (.ofList within) ((SortedSet.ofList within).size + 2) .empty [key] ↔
      Relation.TransGen (g.Inside within) key q := by
  have hnext : ∀ a b, b ∈ (g.dependencies a).filter (· ∈ SortedSet.ofList within) ↔
      g.Inside within a b := fun a b => by
    rw [List.mem_filter, decide_eq_true_eq, SortedSet.mem_ofList, Inside]
  rw [reachWithin_eq_walk]
  constructor
  · refine forall_mem_walk (P := fun q => Relation.TransGen (g.Inside within) key q)
      (Q := fun q => Relation.ReflTransGen (g.Inside within) key q)
      (fun a ha b hb => .tail' ha ((hnext a b).1 hb)) (fun _ ha => ha.to_reflTransGen)
      (fun a ha => absurd ha (SortedSet.not_mem_empty a)) (fun a ha => ?_) q
    obtain rfl := List.mem_singleton.1 ha
    exact .refl
  · have hall : ∀ a, ∀ b ∈ (g.dependencies a).filter (· ∈ SortedSet.ofList within),
        b ∈ (SortedSet.ofList within).toList := fun a b hb =>
      SortedSet.mem_toList.2 (SortedSet.mem_ofList.2 ((hnext a b).1 hb).2)
    obtain ⟨-, hclosed⟩ := walk_closed hall ((SortedSet.ofList within).size + 2) .empty [key]
      (by have := waiting_le (SortedSet.ofList within).toList .empty
          rw [SortedSet.length_toList] at this
          rw [List.length_singleton]
          omega)
      (fun a ha => absurd ha (SortedSet.not_mem_empty a))
    intro h
    induction h with
    | single hb => exact hclosed key (.inr List.mem_cons_self) _ ((hnext _ _).2 hb)
    | tail _ hb ih => exact hclosed _ (.inl ih) _ ((hnext _ _).2 hb)

theorem mem_cycleMembers {g : DependencyGraph K} {tail : List K} {key : K} :
    key ∈ cycleMembers g tail ↔ key ∈ tail ∧ Relation.TransGen (g.Inside tail) key key := by
  rw [cycleMembers, SortedSet.mem_ofList, List.mem_filter, reachesItself]
  exact and_congr_right fun _ => SortedSet.contains_eq_true_iff.trans mem_reachWithin

/-! ### The marks of an order -/

theorem cyclic_compute (g : DependencyGraph K) :
    (compute g).cyclic = cycleMembers g (compute g).tail := by
  rw [tail_compute]
  rfl

/-- **Marked** are the keys that depend on themselves. -/
theorem isCyclic_compute {g : DependencyGraph K} (h : g.Sound) {key : K} :
    (compute g).isCyclic key = true ↔ g.DependsOn key key := by
  rw [isCyclic, SortedSet.contains_eq_true_iff, cyclic_compute, mem_cycleMembers,
    dependsOn_self_iff fun _ => (mem_tail_compute h).symm]

/-- The marks of an order of `g` are on the keys of the cycles of `g`. -/
structure Marks (o : EvaluationOrder K) (g : DependencyGraph K) : Prop where
  /-- Marked are the keys that depend on themselves. -/
  isCyclic : ∀ key, o.isCyclic key = true ↔ g.DependsOn key key
  /-- The marked keys are listed as they stand in the order. -/
  cyclicKeys : o.cyclicKeys = o.order.filter o.isCyclic
  /-- Listed are the keys that depend on themselves. -/
  mem_cyclicKeys : ∀ key, key ∈ o.cyclicKeys ↔ g.DependsOn key key
  /-- No marked key is listed twice. -/
  nodup : o.cyclicKeys.Nodup
  /-- The marked keys are counted. -/
  cyclicSize : o.cyclicSize = o.cyclicKeys.length
  /-- The same keys are in those components of the tail that are cycles. -/
  components : ∀ parts, g.Components o.tail parts →
    ∀ key, key ∈ g.circularKeys parts ↔ o.isCyclic key = true

theorem mem_cyclicKeys_compute {g : DependencyGraph K} (h : g.Sound) {key : K} :
    key ∈ (compute g).cyclicKeys ↔ g.DependsOn key key := by
  rw [cyclicKeys, List.mem_filter, isCyclic_compute h, mem_tail_compute h]
  exact and_iff_right_of_imp fun hk => ⟨key, .refl, hk⟩

/-- No key of the front is marked, so nothing is lost by looking at the tail only. -/
theorem cyclicKeys_compute {g : DependencyGraph K} (h : g.Sound) :
    (compute g).cyclicKeys = (compute g).order.filter (compute g).isCyclic := by
  have ho := orders_compute h
  have hfront : (compute g).acyclic.filter (compute g).isCyclic = [] := by
    refine List.filter_eq_nil_iff.2 fun key hk hc => ?_
    have htail : key ∈ (compute g).tail :=
      (mem_tail_compute h).2 ⟨key, .refl, (isCyclic_compute h).1 hc⟩
    exact (List.nodup_append.1 (ho.order_eq ▸ ho.nodup)).2.2 key hk key htail rfl
  rw [ho.order_eq, List.filter_append, hfront, List.nil_append, cyclicKeys]

theorem cyclicSize_compute {g : DependencyGraph K} (h : g.Sound) :
    (compute g).cyclicSize = (compute g).cyclicKeys.length := by
  have hn : (compute g).cyclicKeys.Nodup := by
    rw [cyclicKeys_compute h]
    exact (nodup_order_compute h).filter _
  rw [cyclicSize, ← SortedSet.length_toList]
  refine ((List.perm_ext_iff_of_nodup (SortedSet.nodup_toList _) hn).2 fun key => ?_).length_eq
  rw [SortedSet.mem_toList, ← SortedSet.contains_eq_true_iff, mem_cyclicKeys_compute h]
  exact isCyclic_compute h

theorem marks_compute {g : DependencyGraph K} (h : g.Sound) : (compute g).Marks g where
  isCyclic _ := isCyclic_compute h
  cyclicKeys := cyclicKeys_compute h
  mem_cyclicKeys _ := mem_cyclicKeys_compute h
  nodup := by
    rw [cyclicKeys_compute h]
    exact (nodup_order_compute h).filter _
  cyclicSize := cyclicSize_compute h
  components parts hp key := by
    have hn : (compute g).tail.Nodup := (List.drop_sublist _ _).nodup (nodup_order_compute h)
    rw [hp.mem_circularKeys hn, isCyclic_compute h,
      dependsOn_self_iff fun _ => (mem_tail_compute h).symm]

end EvaluationOrder

/-- **The marks of a built graph** are exact: marked are the keys that depend on themselves. -/
theorem DependencyGraph.Built.marks_cycles [Std.LawfulEqOrd K] [Std.TransOrd K]
    {g : DependencyGraph K} (h : g.Built) : (EvaluationOrder.compute g).Marks g :=
  EvaluationOrder.marks_compute h.sound

namespace EvaluationOrder

theorem components_tangled : tangled.Components (compute tangled).tail [[1, 2], [3], [6]] := by
  have htail : (compute tangled).tail = [1, 2, 3, 6] := by decide
  rw [htail]
  refine ⟨.refl _, ?_⟩
  simp only [Relation.reflTransGen_iff_eq_or_transGen, ← mem_reachWithin]
  decide

/-- The key that depends on a cycle without being part of one is not marked. -/
theorem marks_cycles_tangled : tangled.Built ∧ (compute tangled).Marks tangled ∧
    tangled.Components (compute tangled).tail [[1, 2], [3], [6]] ∧
    (∀ key, key ∈ tangled.circularKeys [[1, 2], [3], [6]] ↔
      (compute tangled).isCyclic key = true) ∧
    (compute tangled).cyclicKeys = [1, 2, 6] :=
  have h := built_tangled.marks_cycles
  ⟨built_tangled, h, components_tangled, h.components _ components_tangled, by decide⟩

end EvaluationOrder

end Recalc
