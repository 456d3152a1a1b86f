import Recalc.Proofs.Graph.CycleMembers
import Recalc.Proofs.Graph.Edits

/-!
# The order is canonical

The front of the order is the list in which each key is the smallest one that can stand in its
place: the smallest, among the nodes not placed before it, whose dependencies are all placed before
it (`Canonical`). Only one list is like that and cannot be continued (`Canonical.unique`), and the
tail is the ascending list of the keys that reach a cycle. So the order depends on the nodes and the
pairs of a graph alone, and not on the history that left its lists in one order or another
(`Built.canonical`).
-/

namespace Recalc

universe u

variable {K : Type u} [Ord K] [DecidableEq K]

/-! ### Lists that are canonical for a relation -/

namespace DependencyGraph

/-- The key can be placed behind the keys of `done`: it is another node, and all its dependencies
are among them. -/
def Placeable (g : DependencyGraph K) (done : List K) (key : K) : Prop :=
  key ∈ g.nodes ∧ key ∉ done ∧ ∀ d ∈ g.dependencies key, d ∈ done

/-- The key is the smallest one that can be placed behind the keys of `done`. -/
def Next (g : DependencyGraph K) (done : List K) (key : K) : Prop :=
  g.Placeable done key ∧ ∀ other, g.Placeable done other → other ≠ key → compare key other = .lt

/-- Each key of a list is the smallest one that can be placed behind those in front of it. -/
def Canonical (g : DependencyGraph K) (keys : List K) : Prop :=
  ∀ pre key post, keys = pre ++ key :: post → g.Next pre key

theorem Next.unique [Std.OrientedOrd K] {g : DependencyGraph K} {done : List K} {a b : K}
    (ha : g.Next done a) (hb : g.Next done b) : a = b := by
  by_contra hne
  have hab : compare a b = .lt := ha.2 b hb.1 (Ne.symm hne)
  have hba : compare b a = .lt := hb.2 a ha.1 hne
  rw [Std.OrientedCmp.gt_of_lt hab] at hba
  cases hba

/-- Two canonical lists that cannot be continued are the same, key by key. -/
theorem Canonical.unique [Std.OrientedOrd K] {g : DependencyGraph K} {left right : List K}
    (hl : g.Canonical left) (hr : g.Canonical right) (hlend : ∀ key, ¬ g.Placeable left key)
    (hrend : ∀ key, ¬ g.Placeable right key) : left = right := by
  suffices ∀ l r pre, left = pre ++ l → right = pre ++ r → l = r from this left right [] rfl rfl
  intro l
  induction l with
  | nil =>
    intro r pre hpl hpr
    cases r with
    | nil => rfl
    | cons b r =>
      rw [List.append_nil] at hpl
      exact absurd (hr pre b r hpr).1 (hpl ▸ hlend b)
  | cons a l ih =>
    intro r pre hpl hpr
    cases r with
    | nil =>
      rw [List.append_nil] at hpr
      exact absurd (hl pre a l hpl).1 (hpr ▸ hrend a)
    | cons b r =>
      obtain rfl : a = b := (hl pre a l hpl).unique (hr pre b r hpr)
      rw [ih r (pre ++ [a]) (by simp [hpl]) (by simp [hpr])]

/-! ### What depends on the relation alone -/

section Congruence

variable {g other : DependencyGraph K}

theorem mem_nodes_congr (h : other.relation = g.relation) {key : K} :
    key ∈ other.nodes ↔ key ∈ g.nodes :=
  Set.ext_iff.1 (congrArg DependencyRelation.nodes h) key

theorem mem_dependencies_congr (h : other.relation = g.relation) {a b : K} :
    b ∈ other.dependencies a ↔ b ∈ g.dependencies a :=
  Set.ext_iff.1 (congrArg DependencyRelation.pairs h) (a, b)

theorem placeable_congr (h : other.relation = g.relation) :
    other.Placeable = g.Placeable := by
  funext done key
  simp only [Placeable, mem_nodes_congr h, mem_dependencies_congr h]

theorem Canonical.congr (h : other.relation = g.relation) {keys : List K}
    (hk : other.Canonical keys) : g.Canonical keys := by
  intro pre key post he
  have hnext := hk pre key post he
  rwa [Next, placeable_congr h] at hnext

theorem dependsOn_congr (h : other.relation = g.relation) : other.DependsOn = g.DependsOn := by
  funext a b
  simp only [DependsOn, mem_dependencies_congr h]

theorem reachesCycle_congr (h : other.relation = g.relation) :
    other.ReachesCycle = g.ReachesCycle := by
  funext key
  simp only [ReachesCycle, dependsOn_congr h, mem_dependencies_congr h]

end Congruence

end DependencyGraph

open DependencyGraph

variable [Std.LawfulEqOrd K] [Std.TransOrd K]

/-! ### The run places the smallest key -/

namespace Placement

/-- A placement is determined by what is ready and what waits. -/
theorem ext_mem {p q : Placement K} (hr : ∀ key, key ∈ p.ready ↔ key ∈ q.ready)
    (hw : ∀ key, p.waiting.get? key = q.waiting.get? key) : p = q := by
  obtain ⟨waiting, ready⟩ := p
  obtain ⟨waiting', ready'⟩ := q
  obtain rfl : waiting = waiting' := SortedMap.ext_get? hw
  obtain rfl : ready = ready' := SortedSet.ext_mem hr
  rfl

/-- The order in which the nodes are looked at in the beginning makes no difference. -/
theorem foldl_enter_eq_start {g : DependencyGraph K} {keys : List K}
    (h : ∀ q, q ∈ keys ↔ q ∈ g.nodes) :
    keys.foldl (enter g) ⟨.empty, .empty⟩ = start g := by
  have hkeys : ∀ q, q ∈ keys ↔ q ∈ g.keys := fun q => (h q).trans SortedSet.mem_toList.symm
  rw [start_eq]
  refine ext_mem (fun q => ?_) (fun q => ?_)
  · rw [(foldl_enter g keys _).1, (foldl_enter g g.keys _).1, hkeys]
  · rw [(foldl_enter g keys _).2, (foldl_enter g g.keys _).2]
    simp only [hkeys]

omit [Std.LawfulEqOrd K] [Std.TransOrd K] in
/-- Ready is what can be placed. -/
theorem Valid.ready_iff {g : DependencyGraph K} {done : List K} {p : Placement K}
    (h : Valid g done p) {key : K} : key ∈ p.ready ↔ g.Placeable done key := by
  rw [h.ready, unplaced_eq_nil_iff, Placeable]

theorem Valid.next_of_step? {g : DependencyGraph K} {done : List K} {p next : Placement K} {key : K}
    (h : Valid g done p) (hs : p.step? g = some (key, next)) : g.Next done key := by
  rw [Placement.step?] at hs
  cases hm : p.ready.min? with
  | none => simp [hm] at hs
  | some least =>
    simp only [hm, Option.some.injEq, Prod.mk.injEq] at hs
    obtain ⟨rfl, -⟩ := hs
    exact ⟨h.ready_iff.1 (SortedSet.mem_of_min?_eq_some hm),
      fun other ho hne => SortedSet.lt_of_min?_eq_some hm (h.ready_iff.2 ho) hne⟩

/-- From a valid placement on, each key that the run places is the smallest one that can be placed
behind the keys placed before. -/
theorem Valid.next_of_run {g : DependencyGraph K} (hg : g.Sound) (fuel : Nat) {done : List K}
    {p : Placement K} (h : Valid g done p) {pre post : List K} {key : K}
    (he : (p.run g fuel).1 = pre ++ key :: post) : g.Next (done ++ pre) key := by
  induction fuel generalizing done p pre with
  | zero => simp [run] at he
  | succ fuel ih =>
    rw [run] at he
    cases hs : p.step? g with
    | none => simp [hs] at he
    | some r =>
      obtain ⟨first, next⟩ := r
      simp only [hs] at he
      rcases List.cons_eq_append_iff.1 he with ⟨rfl, hk⟩ | ⟨pre, rfl, hrest⟩
      · obtain rfl := (List.cons_eq_cons.1 hk).1
        rw [List.append_nil]
        exact h.next_of_step? hs
      · have hnext := ih (h.step? hg hs) hrest
        rwa [List.append_assoc] at hnext

end Placement

/-! ### The order is determined by the relation -/

namespace EvaluationOrder

theorem canonical_acyclic {g : DependencyGraph K} (h : g.Sound) :
    g.Canonical (compute g).acyclic := by
  rw [acyclic_compute]
  intro pre key post he
  exact (Placement.start_valid g).next_of_run h g.size he

/-- Behind the front nothing can be placed. -/
theorem not_placeable_acyclic {g : DependencyGraph K} (h : g.Sound) (key : K) :
    ¬ g.Placeable (compute g).acyclic key := by
  rw [acyclic_compute]
  rintro ⟨hn, hnew, hd⟩
  obtain ⟨d, hdep, hdn⟩ := (placed_spec h).2.2.2 key hn hnew
  exact hdn (hd d hdep)

section Congruence

variable {g other : DependencyGraph K} (h : g.Sound) (ho : other.Sound)
  (hr : other.relation = g.relation)

include h ho hr

theorem acyclic_congr : (compute other).acyclic = (compute g).acyclic :=
  ((canonical_acyclic ho).congr hr).unique (canonical_acyclic h)
    (by rw [← placeable_congr hr]; exact not_placeable_acyclic ho) (not_placeable_acyclic h)

theorem tail_congr : (compute other).tail = (compute g).tail := by
  have hmem : ∀ key, key ∈ (compute other).tail ↔ key ∈ (compute g).tail := fun key => by
    rw [mem_tail_compute h, mem_tail_compute ho, reachesCycle_congr hr]
  rw [tail_compute, tail_compute] at hmem ⊢
  exact SortedMap.keys_congr hmem

theorem cyclic_congr : (compute other).cyclic = (compute g).cyclic := by
  refine SortedSet.ext_mem fun key => ?_
  have hmarked : ∀ {g : DependencyGraph K}, g.Sound →
      (key ∈ (compute g).cyclic ↔ g.DependsOn key key) := fun hg =>
    SortedSet.contains_eq_true_iff.symm.trans (isCyclic_compute hg)
  rw [hmarked ho, hmarked h, dependsOn_congr hr]

/-- Graphs with the same nodes and pairs have the same order. -/
theorem compute_congr : compute other = compute g := by
  have hparts : ∀ g : DependencyGraph K, compute g =
      { order := (compute g).acyclic ++ (compute g).tail
        acyclicSize := (compute g).acyclic.length
        positions := .ofList ((compute g).acyclic ++ (compute g).tail).zipIdx
        cyclic := (compute g).cyclic } := fun g => by
    rw [acyclic_compute, tail_compute]
    rfl
  rw [hparts other, hparts g, acyclic_congr h ho hr, tail_congr h ho hr, cyclic_congr h ho hr]

end Congruence

end EvaluationOrder

/-- **The order of a built graph** is canonical: its front lists the smallest key that can be
placed, again and again. Every graph with the same nodes and pairs has the same order, front and
marks, and it makes no difference in which order the nodes are looked at in the beginning. -/
theorem DependencyGraph.Built.canonical {g : DependencyGraph K} (h : g.Built) :
    g.Canonical (EvaluationOrder.compute g).acyclic ∧
      (∀ other : DependencyGraph K, other.Built → other.relation = g.relation →
        EvaluationOrder.compute other = EvaluationOrder.compute g) ∧
      ∀ keys : List K, (∀ q, q ∈ keys ↔ q ∈ g.nodes) →
        keys.foldl (Placement.enter g) ⟨.empty, .empty⟩ = Placement.start g :=
  ⟨EvaluationOrder.canonical_acyclic h.sound,
    fun _ ho hr => EvaluationOrder.compute_congr h.sound ho.sound hr,
    fun _ hk => Placement.foldl_enter_eq_start hk⟩

namespace EvaluationOrder

/-- The dependencies of `tangled`, entered in another order and around a key that was taken away. -/
def detour : DependencyGraph Nat :=
  let g : DependencyGraph Nat := [(3, 7), (3, 2), (1, 2), (2, 1), (7, 5), (4, 5), (6, 6)].foldl
    (fun g edge => (g.addDependency edge.1 edge.2).2) .empty
  (g.removeKey 7).2

theorem built_detour : detour.Built := (Built.empty.foldl_addDependency _).removeKey 7

theorem relation_detour : detour.relation = tangled.relation := by
  have hnodes : detour.nodes = tangled.nodes := rfl
  have hforward : detour.forward = tangled.forward := rfl
  simp only [relation, dependencies, hnodes, hforward]

/-- The two graphs list the dependents of a key in different orders and have the same order. -/
theorem canonical_tangled : tangled.Built ∧ tangled.Canonical [5, 4] ∧
    (detour.Built ∧ detour.relation = tangled.relation) ∧
    detour.dependents 2 ≠ tangled.dependents 2 ∧ compute detour = compute tangled ∧
    (∀ q, q ∈ [6, 5, 4, 3, 2, 1] ↔ q ∈ tangled.nodes) ∧
    [6, 5, 4, 3, 2, 1].foldl (Placement.enter tangled) ⟨.empty, .empty⟩ =
      Placement.start tangled := by
  obtain ⟨hfront, hsame, hstart⟩ := built_tangled.canonical
  have hacyclic : (compute tangled).acyclic = [5, 4] := by decide
  have hnodes : ∀ q, q ∈ [6, 5, 4, 3, 2, 1] ↔ q ∈ tangled.nodes := fun q => by
    rw [← SortedSet.mem_toList, show tangled.nodes.toList = [1, 2, 3, 4, 5, 6] from rfl]
    exact (List.reverse_perm [1, 2, 3, 4, 5, 6]).mem_iff
  exact ⟨built_tangled, hacyclic ▸ hfront, ⟨built_detour, relation_detour⟩, by decide,
    hsame detour built_detour relation_detour, hnodes, hstart _ hnodes⟩

end EvaluationOrder

end Recalc
