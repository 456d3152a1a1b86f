import Recalc.Proofs.Graph.Order
import Mathlib.Data.Fintype.Card
import Mathlib.Data.Set.Finite.Basic

/-!
# Cycles and the tail of the order

A node is placed exactly if walks along dependencies from it end (`Grounded`). In a finite graph
walks end unless they come to a cycle, so the tail of the order holds exactly the keys from which a
cycle can be reached (`mem_tail_compute`). This completes the description of the order that a graph
gets (`Built.orders`).

The run counts down, for each key that waits, the dependencies that are not placed. The states it
passes through, also between two dependents of the same placed key, are those of `Placement.Met`; a
counter is never zero in any of them, so none is counted below zero.
-/

namespace Recalc

universe u

/-! ### Walks that end -/

section Walks

variable {A : Type u} {r : A → A → Prop}

/-- A walk that has to end does not come to a cycle. -/
theorem not_transGen_of_acc {a b : A} (h : Acc (fun y x => r x y) a)
    (hw : Relation.ReflTransGen r a b) : ¬ Relation.TransGen r b b := by
  induction h generalizing b with
  | intro a _ ih =>
    intro hb
    rcases Relation.ReflTransGen.cases_head hw with rfl | ⟨next, hr, hrest⟩
    · obtain ⟨next, hr, hback⟩ := Relation.TransGen.head'_iff.1 hb
      exact ih next hr .refl (.tail' hback hr)
    · exact ih next hr hrest hb

/-- Walks end where they come to no cycle, if they come to finitely many places only. -/
theorem acc_of_acyclic {a : A} (hf : {b | Relation.ReflTransGen r a b}.Finite)
    (h : ∀ b, Relation.ReflTransGen r a b → ¬ Relation.TransGen r b b) :
    Acc (fun y x => r x y) a := by
  have : Finite {b | Relation.ReflTransGen r a b} := hf
  have hwf : WellFounded fun x y : {b | Relation.ReflTransGen r a b} =>
      Relation.TransGen r y.1 x.1 := by
    have : IsTrans {b | Relation.ReflTransGen r a b} fun x y => Relation.TransGen r y.1 x.1 :=
      ⟨fun _ _ _ hxy hyz => Relation.TransGen.trans hyz hxy⟩
    have : Std.Irrefl fun x y : {b | Relation.ReflTransGen r a b} => Relation.TransGen r y.1 x.1 :=
      ⟨fun x hx => h x.1 x.2 hx⟩
    exact Finite.wellFounded_of_trans_of_irrefl _
  suffices ∀ x : {b | Relation.ReflTransGen r a b}, Acc (fun y x => r x y) x.1 from this ⟨a, .refl⟩
  intro x
  induction x using hwf.induction with
  | _ x ih => exact Acc.intro x.1 fun y hy => ih ⟨y, x.2.tail hy⟩ (.single hy)

end Walks

variable {K : Type u} [Ord K] [DecidableEq K]

namespace DependencyGraph

/-- The key depends on the other one, itself or through other keys. -/
def DependsOn (g : DependencyGraph K) (key other : K) : Prop :=
  Relation.TransGen (fun a b => b ∈ g.dependencies a) key other

/-- Following dependencies from `key`, one can come to a key that depends on itself. -/
def ReachesCycle (g : DependencyGraph K) (key : K) : Prop :=
  ∃ c, Relation.ReflTransGen (fun a b => b ∈ g.dependencies a) key c ∧ g.DependsOn c c

/-- No key reaches a cycle exactly if no key depends on itself. -/
theorem forall_not_reachesCycle_iff {g : DependencyGraph K} :
    (∀ key, ¬ g.ReachesCycle key) ↔ ∀ key, ¬ g.DependsOn key key :=
  ⟨fun h key hk => h key ⟨key, .refl, hk⟩, fun h _ ⟨c, _, hc⟩ => h c hc⟩

/-- Only nodes reach a cycle. -/
theorem Sound.mem_nodes_of_reachesCycle {g : DependencyGraph K} (h : g.Sound) {key : K}
    (hk : g.ReachesCycle key) : key ∈ g.nodes := by
  obtain ⟨c, hw, hc⟩ := hk
  rcases Relation.ReflTransGen.cases_head hw with rfl | ⟨next, hd, -⟩
  · obtain ⟨next, hd, -⟩ := Relation.TransGen.head'_iff.1 hc
    exact h.source hd
  · exact h.source hd

/-- Walks from a key end unless they can come to a cycle, since a graph has finitely many nodes. -/
theorem Sound.grounded_iff [Std.LawfulEqOrd K] {g : DependencyGraph K} (h : g.Sound) {key : K} :
    g.Grounded key ↔ ¬ g.ReachesCycle key := by
  constructor
  · rintro hg ⟨c, hw, hc⟩
    exact not_transGen_of_acc hg hw hc
  · intro hc
    refine acc_of_acyclic ?_ fun c hw hcc => hc ⟨c, hw, hcc⟩
    refine (List.finite_toSet (key :: g.keys)).subset fun q hq => ?_
    rcases Relation.ReflTransGen.cases_tail hq with rfl | ⟨mid, -, hd⟩
    · exact List.mem_cons_self
    · exact List.mem_cons_of_mem _ (SortedSet.mem_toList.2 (h.target hd))

variable [Std.LawfulEqOrd K] [Std.TransOrd K]

/-- The graphs that the operations make out of the empty one. -/
inductive Built : DependencyGraph K → Prop where
  /-- Nothing was done. -/
  | empty : Built .empty
  /-- A key was made a node. -/
  | addNode {g : DependencyGraph K} (h : Built g) (key : K) : Built (g.addNode key).2
  /-- A dependency was added. -/
  | addDependency {g : DependencyGraph K} (h : Built g) (source target : K) :
      Built (g.addDependency source target).2
  /-- A dependency was taken away. -/
  | removeDependency {g : DependencyGraph K} (h : Built g) (source target : K) :
      Built (g.removeDependency source target).2
  /-- The dependencies of a key were replaced. -/
  | replaceDependencies {g : DependencyGraph K} (h : Built g) (source : K) (targets : List K) :
      Built (g.replaceDependencies source targets).2
  /-- A key was taken away. -/
  | removeKey {g : DependencyGraph K} (h : Built g) (key : K) : Built (g.removeKey key).2

theorem Built.sound {g : DependencyGraph K} (h : Built g) : g.Sound := by
  induction h with
  | empty => exact sound_empty
  | addNode _ key ih => exact ih.addNode key
  | addDependency _ source target ih => exact ih.addDependency source target
  | removeDependency _ source target ih => exact ih.removeDependency source target
  | replaceDependencies _ source targets ih => exact (ih.replaceDependencies_spec source targets).1
  | removeKey _ key ih => exact ih.removeKey key

theorem Built.foldl_addDependency {g : DependencyGraph K} (h : Built g) (pairs : List (K × K)) :
    Built (pairs.foldl (fun g pair => (g.addDependency pair.1 pair.2).2) g) :=
  List.foldlRecOn pairs _ h fun _ h pair _ => h.addDependency pair.1 pair.2

end DependencyGraph

/-! ### The states of a run -/

namespace Placement

variable [Std.LawfulEqOrd K] [Std.TransOrd K]

/-- The run for the order of `g` passes through the state, and has still to settle the listed
dependents of the key it placed last. -/
inductive Met (g : DependencyGraph K) : Placement K → List K → Prop where
  /-- Nothing is placed. -/
  | start : Met g (start g) []
  /-- The smallest ready key is placed. -/
  | place {p : Placement K} {key : K} (h : Met g p []) (hm : p.ready.min? = some key) :
      Met g { p with ready := p.ready.erase key } (g.dependents key)
  /-- The next dependent is settled. -/
  | settle {p : Placement K} {dependent : K} {rest : List K} (h : Met g p (dependent :: rest)) :
      Met g (settle p dependent) rest

theorem Met.foldl_settle {g : DependencyGraph K} {dependents : List K} {p : Placement K}
    (h : Met g p dependents) : Met g (dependents.foldl Placement.settle p) [] := by
  induction dependents generalizing p with
  | nil => exact h
  | cons dependent rest ih => exact ih h.settle

theorem Met.step? {g : DependencyGraph K} {p next : Placement K} {key : K} (h : Met g p [])
    (hs : p.step? g = some (key, next)) : Met g next [] := by
  rw [Placement.step?] at hs
  cases hm : p.ready.min? with
  | none => simp [hm] at hs
  | some least =>
    simp only [hm, Option.some.injEq, Prod.mk.injEq] at hs
    obtain ⟨rfl, rfl⟩ := hs
    exact (h.place hm).foldl_settle

/-- The run goes through such states until it stops. -/
theorem Met.run {g : DependencyGraph K} {p : Placement K} (h : Met g p []) (fuel : Nat) :
    Met g (p.run g fuel).2 [] := by
  induction fuel generalizing p with
  | zero => exact h
  | succ fuel ih =>
    rw [Placement.run]
    cases hs : p.step? g with
    | none => exact h
    | some r => exact ih (h.step? hs)

/-- What waits, waits for something, in the middle of a step as well. -/
theorem Met.pos {g : DependencyGraph K} {p : Placement K} {rest : List K} (h : Met g p rest)
    {key : K} {n : Nat} (hn : p.waiting.get? key = some n) : 0 < n := by
  induction h generalizing key n with
  | start => exact (((start_valid g).waiting key n).1 hn).2.2.2
  | place _ _ ih => exact ih hn
  | @settle p dependent _ _ ih =>
    have hw := ((settle_spec p dependent).2 key n).1 hn
    split at hw
    · exact hw.1
    · exact ih hw

end Placement

/-! ### The order of a graph -/

namespace EvaluationOrder

/-- The order is a topological order of `g`, with what cannot be ordered behind it. -/
structure Orders (o : EvaluationOrder K) (g : DependencyGraph K) : Prop where
  /-- No key is listed twice. -/
  nodup : o.order.Nodup
  /-- The keys listed are the nodes. -/
  mem_order : ∀ key, key ∈ o.order ↔ key ∈ g.nodes
  /-- The place of a key is where the order has it. -/
  position : ∀ key place, o.position? key = some place ↔ o.order[place]? = some key
  /-- The order is its front followed by its tail. -/
  order_eq : o.order = o.acyclic ++ o.tail
  /-- Each key of the front stands behind its dependencies. -/
  follows : g.Follows o.acyclic
  /-- The keys of the tail are those from which a cycle can be reached. -/
  mem_tail : ∀ key, key ∈ o.tail ↔ g.ReachesCycle key
  /-- The tail is ascending. -/
  ascending : o.tail.Pairwise fun a b => compare a b = .lt
  /-- Nothing remains exactly if no key depends on itself. -/
  complete : o.remaining? = none ↔ ∀ key, ¬ g.DependsOn key key

variable [Std.LawfulEqOrd K] [Std.TransOrd K]

theorem acyclic_compute (g : DependencyGraph K) : (compute g).acyclic = placed g := by
  rw [acyclic]
  exact List.take_left

theorem tail_compute (g : DependencyGraph K) :
    (compute g).tail = ((Placement.start g).run g g.size).2.waiting.keys := by
  rw [tail]
  exact List.drop_left

/-- What is placed is grounded, since it stands behind what it depends on. -/
theorem grounded_of_mem_placed {g : DependencyGraph K} (h : g.Sound) {key : K}
    (hk : key ∈ placed g) : g.Grounded key := by
  -- Induction on the length of what stands in front of the key.
  suffices ∀ n pre post key, placed g = pre ++ key :: post → pre.length < n → g.Grounded key by
    obtain ⟨pre, post, he⟩ := List.append_of_mem hk
    exact this _ pre post key he (Nat.lt_succ_self _)
  intro n
  induction n with
  | zero => intro pre post key _ hlt; omega
  | succ n ih =>
    intro pre post key he hlt
    refine Acc.intro key fun d hd => ?_
    obtain ⟨left, right, rfl⟩ := List.append_of_mem ((placed_spec h).2.2.1 pre key post he d hd)
    refine ih left (right ++ key :: post) d (by simpa using he) ?_
    rw [List.length_append, List.length_cons] at hlt
    omega

/-- **The tail** holds the keys from which a cycle can be reached. -/
theorem mem_tail_compute {g : DependencyGraph K} (h : g.Sound) {key : K} :
    key ∈ (compute g).tail ↔ g.ReachesCycle key := by
  obtain ⟨tail, ho, -, ht⟩ := order_compute h
  have htail : (compute g).tail = tail := by
    have heq := ho
    rw [← List.take_append_drop (compute g).acyclicSize (compute g).order] at heq
    exact List.append_cancel_left (heq.trans (by rw [← acyclic_compute]; rfl))
  rw [htail, ht]
  constructor
  · rintro ⟨hn, hp⟩
    by_contra hc
    exact hp (mem_placed_of_grounded h (h.grounded_iff.2 hc) hn)
  · intro hc
    exact ⟨h.mem_nodes_of_reachesCycle hc,
      fun hp => h.grounded_iff.1 (grounded_of_mem_placed h hp) hc⟩

omit [DecidableEq K] [Std.LawfulEqOrd K] [Std.TransOrd K] in
theorem remaining?_eq_none_iff {o : EvaluationOrder K} : o.remaining? = none ↔ o.tail = [] := by
  simp only [remaining?, ite_eq_left_iff, reduceCtorEq, imp_false, not_not, tail,
    List.drop_eq_nil_iff]
  omega

/-- The order of a sound graph is topological, with the keys that reach a cycle behind it. -/
theorem orders_compute {g : DependencyGraph K} (h : g.Sound) : (compute g).Orders g where
  nodup := nodup_order_compute h
  mem_order _ := mem_order_compute h
  position _ _ := position?_compute h
  order_eq := (List.take_append_drop _ _).symm
  follows := by
    rw [acyclic_compute]
    exact (placed_spec h).2.2.1
  mem_tail _ := mem_tail_compute h
  ascending := by
    rw [tail_compute, SortedMap.keys, List.pairwise_map]
    exact ((Placement.start g).run g g.size).2.waiting.ascending
  complete := by
    rw [remaining?_eq_none_iff, List.eq_nil_iff_forall_not_mem,
      ← DependencyGraph.forall_not_reachesCycle_iff]
    exact forall_congr' fun key => not_congr (mem_tail_compute h)

end EvaluationOrder

/-- **The order of a graph** that was built by any operations lists each node once, the front behind
its dependencies and the tail, in ascending order, made of the keys from which a cycle can be
reached. The run that computes it counts no key below zero. -/
theorem DependencyGraph.Built.orders [Std.LawfulEqOrd K] [Std.TransOrd K] {g : DependencyGraph K}
    (h : g.Built) :
    (EvaluationOrder.compute g).Orders g ∧
      Placement.Met g ((Placement.start g).run g g.size).2 [] ∧
      ∀ p dependent rest n, Placement.Met g p (dependent :: rest) →
        p.waiting.get? dependent = some n → 0 < n :=
  ⟨EvaluationOrder.orders_compute h.sound, Placement.Met.start.run _,
    fun _ _ _ _ hp hn => hp.pos hn⟩

namespace EvaluationOrder

/-- Two keys that depend on each other, one that depends on them, one that depends on itself, and
one that depends on a key without dependencies. -/
def tangled : DependencyGraph Nat :=
  [(1, 2), (2, 1), (3, 2), (6, 6), (4, 5)].foldl
    (fun g edge => (g.addDependency edge.1 edge.2).2) .empty

theorem built_tangled : tangled.Built := DependencyGraph.Built.empty.foldl_addDependency _

theorem orders_tangled : tangled.Built ∧ (compute tangled).Orders tangled ∧
    (compute tangled).acyclic = [5, 4] ∧ (compute tangled).tail = [1, 2, 3, 6] :=
  have h : tangled.Built :=
    (((((DependencyGraph.Built.empty.addDependency 1 2).addDependency 2 1).addDependency
      3 2).addDependency 6 6).addDependency 4 5)
  ⟨h, h.orders.1, by decide, by decide⟩

end EvaluationOrder

end Recalc
