import Recalc.Evaluator.Pass
import Recalc.Proofs.Evaluator.Coherent

/-!
# What a pass does

A pass over paths of the tree visits each of them once: it stores one value for each leaf, the one
computed from what is stored at the time of the visit, and leaves everything else alone
(`foldl_visit`). Over a coherent evaluator in which the marked leaves are visited, no leaf is
without a value afterwards (`Coherent.runPass`).
-/

namespace Recalc

/-! ### Leaves and other paths -/

section Compute

variable {e : Evaluator} (h : e.tree.Regular)
include h

/-- A path of the tree that is no leaf is made of the leaves below it. -/
theorem compute_of_not_leaf (snapshot : Snapshot) {path : String} (hp : e.tree.Has path)
    (hl : ¬ e.tree.Leaf path) : e.compute snapshot path = .composite := by
  obtain ⟨r, hr, hh⟩ := hp
  have hw := h.wellFormed hr
  rw [Evaluator.compute]
  simp only [show e.tree.get? (Path.split path).1 = some r from hr]
  split
  · rfl
  · rename_i hne
    have hv : ∃ v, r.entity.property? (Path.split path).2 = some v := by
      rcases hw.has_iff_property?.1 hh with he | ⟨-, hv⟩
      · rw [he, hw.split_name] at hne
        exact absurd rfl hne
      · exact hv
    obtain ⟨v, hv⟩ := hv
    rw [hv]
    simp only
    split
    · rfl
    · rename_i hc
      exact absurd (h.leaf_iff.2 ⟨r, v, hr, hne, hv, Bool.eq_false_iff.2 hc⟩) hl

/-- A leaf of the tree has a value or fails. -/
theorem compute_of_leaf (snapshot : Snapshot) {path : String} (hl : e.tree.Leaf path) :
    (∃ value, e.compute snapshot path = .value value) ∨
      ∃ error, e.compute snapshot path = .failed error := by
  obtain ⟨r, v, hr, hne, hv, hc⟩ := h.leaf_iff.1 hl
  rw [Evaluator.compute]
  simp only [hr, if_neg hne, hv, hc, Bool.false_eq_true, if_false]
  split
  · split
    · exact .inl ⟨_, rfl⟩
    · exact .inr ⟨_, rfl⟩
  · exact .inl ⟨_, rfl⟩

end Compute

/-! ### One visit -/

namespace Pass

/-- The value that a visit stores at a leaf. -/
def leafValue (e : Evaluator) (p : Pass) (path : String) : Value :=
  match e.compute p.snapshot path with
  | .value value => value
  | _ => p.fallback e.settings.staleOnError path

theorem get?_store (p : Pass) (path : String) (value : Value) (q : String) :
    (p.store path value).snapshot.get? q = if q = path then some value else p.snapshot.get? q :=
  Snapshot.get?_insert p.snapshot path value q

/-- The pass before and after visits of paths. -/
structure Visited (e : Evaluator) (p : Pass) (paths : List String) (p' : Pass) : Prop where
  /-- Only the leaves among the paths get values. -/
  kept : ∀ q, ¬ (q ∈ paths ∧ e.tree.Leaf q) → p'.snapshot.get? q = p.snapshot.get? q
  /-- The leaves among the paths have values. -/
  stored : ∀ q ∈ paths, e.tree.Leaf q → ∃ value, p'.snapshot.get? q = some value
  /-- The value that a leaf had is noted. -/
  noted : ∀ q ∈ paths, e.tree.Leaf q →
    p'.previous.get? q = (p.previous.get? q).or (p.snapshot.get? q)
  /-- No other values are noted. -/
  unnoted : ∀ q, ¬ (q ∈ paths ∧ e.tree.Leaf q) → p'.previous.get? q = p.previous.get? q
  /-- The leaves among the paths are reported. -/
  ran : ∀ q, q ∈ p'.evaluationOrder ↔ q ∈ p.evaluationOrder ∨ q ∈ paths ∧ e.tree.Leaf q
  /-- Reported failures stay. -/
  errors : ∀ q, p.errors.contains q = true → p'.errors.contains q = true

theorem visited_nil (e : Evaluator) (p : Pass) : Visited e p [] p :=
  ⟨fun _ _ => rfl, by simp, by simp, fun _ _ => rfl, by simp, fun _ hq => hq⟩

theorem contains_addError {p : Pass} {path q : String} {error : PathError} :
    (p.addError path error).errors.contains q = true ↔ q = path ∨ p.errors.contains q = true := by
  change SortedMap.contains (SortedMap.modifyD p.errors path [] (· ++ [error])) q = true ↔ _
  rw [SortedMap.contains, SortedMap.get?_modifyD]
  split <;> simp_all [SortedMap.contains]

/-- Storing a value at a leaf is a visit of it. -/
theorem visited_store {e : Evaluator} {p : Pass} {path : String} (value : Value)
    (hl : e.tree.Leaf path) : Visited e p [path] (p.store path value) where
  kept q hq := by
    rw [get?_store, if_neg]
    rintro rfl
    exact hq ⟨List.mem_singleton_self q, hl⟩
  stored q hq _ := ⟨value, by rw [get?_store, if_pos (List.mem_singleton.1 hq)]⟩
  noted q hq _ := by
    obtain rfl := List.mem_singleton.1 hq
    refine (Snapshot.get?_capture p.previous q (p.snapshot.get? q) q).trans ?_
    rw [if_pos rfl]
  unnoted q hq := by
    refine (Snapshot.get?_capture p.previous path (p.snapshot.get? path) q).trans ?_
    rw [if_neg, Option.or_none]
    rintro rfl
    exact hq ⟨List.mem_singleton_self q, hl⟩
  ran q := by
    change q ∈ p.evaluationOrder ++ [path] ↔ _
    rw [List.mem_append]
    refine or_congr Iff.rfl ⟨fun hq => ⟨hq, ?_⟩, And.left⟩
    exact (List.mem_singleton.1 hq) ▸ hl
  errors q hq := hq

/-- The failures of a pass with everything else as it is. -/
theorem Visited.of_errors {e : Evaluator} {p mid p' : Pass} {paths : List String}
    (h : Visited e mid paths p') (hs : mid.snapshot = p.snapshot)
    (hp : mid.previous = p.previous) (ho : mid.evaluationOrder = p.evaluationOrder)
    (he : ∀ q, p.errors.contains q = true → mid.errors.contains q = true) :
    Visited e p paths p' where
  kept := hs ▸ h.kept
  stored := h.stored
  noted := hs ▸ hp ▸ h.noted
  unnoted := hp ▸ h.unnoted
  ran := ho ▸ h.ran
  errors q hq := h.errors q (he q hq)

/-- A visit of a path of the tree. -/
theorem evaluatePath_spec {e : Evaluator} (h : e.tree.Regular) (p : Pass) {path : String}
    (hp : e.tree.Has path) (cyclic : Bool) :
    Visited e p [path] (p.evaluatePath e path cyclic) ∧
      (e.tree.Leaf path →
        (p.evaluatePath e path cyclic).snapshot.get? path = some (p.leafValue e path)) ∧
      ∀ error, e.compute p.snapshot path = .failed error → cyclic = false →
        (p.evaluatePath e path cyclic).errors.contains path = true := by
  rw [evaluatePath, leafValue]
  by_cases hl : e.tree.Leaf path
  · rcases compute_of_leaf h p.snapshot hl with ⟨value, hc⟩ | ⟨error, hc⟩
    · simp only [hc]
      refine ⟨visited_store value hl, fun _ => ?_, fun error he => by cases he⟩
      rw [get?_store, if_pos rfl]
    · simp only [hc]
      cases cyclic with
      | true =>
        refine ⟨visited_store _ hl, fun _ => ?_, fun _ _ hf => by cases hf⟩
        exact (get?_store _ _ _ _).trans (if_pos rfl)
      | false =>
        refine ⟨(visited_store _ hl).of_errors rfl rfl rfl fun q hq =>
          contains_addError.2 (.inr hq), fun _ => ?_, fun _ _ _ => contains_addError.2 (.inl rfl)⟩
        exact (get?_store _ _ _ _).trans (if_pos rfl)
  · simp only [compute_of_not_leaf h p.snapshot hp hl]
    refine ⟨⟨fun _ _ => rfl, fun q hq hlq => ?_, fun q hq hlq => ?_, fun _ _ => rfl, fun q => ?_,
      fun _ hq => hq⟩, fun hlp => absurd hlp hl, fun error he => by cases he⟩
    · exact absurd ((List.mem_singleton.1 hq) ▸ hlq) hl
    · exact absurd ((List.mem_singleton.1 hq) ▸ hlq) hl
    · rw [iff_self_or]
      rintro ⟨hq, hlq⟩
      exact absurd ((List.mem_singleton.1 hq) ▸ hlq) hl

/-- A visit of a node, with the report of a cycle. -/
theorem visit_spec {e : Evaluator} (h : e.tree.Regular) (p : Pass) {id : Nat}
    (hp : e.tree.Has (e.graph.path id)) :
    Visited e p [e.graph.path id] (p.visit e id) ∧
      (e.tree.Leaf (e.graph.path id) →
        (p.visit e id).snapshot.get? (e.graph.path id) =
          some (p.leafValue e (e.graph.path id))) ∧
      ∀ error, e.compute p.snapshot (e.graph.path id) = .failed error →
        (p.visit e id).errors.contains (e.graph.path id) = true := by
  rw [visit]
  cases hc : e.graph.isCyclic id with
  | false =>
    obtain ⟨hv, hs, hf⟩ := evaluatePath_spec h p hp false
    exact ⟨hv, hs, fun error he => hf error he rfl⟩
  | true =>
    simp only [if_true]
    obtain ⟨hv, hs, -⟩ := evaluatePath_spec h
      { p.addError (e.graph.path id) (.cycle (e.graph.path id)) with
        cyclicPaths := p.cyclicPaths ++ [e.graph.path id] } hp true
    refine ⟨hv.of_errors rfl rfl rfl fun q hq => contains_addError.2 (.inr hq), hs, fun _ _ => ?_⟩
    exact hv.errors _ (contains_addError.2 (.inl rfl))

theorem Visited.trans {e : Evaluator} {p mid p' : Pass} {paths more : List String}
    (h : Visited e p paths mid) (h' : Visited e mid more p')
    (hd : ∀ q ∈ paths, q ∉ more) : Visited e p (paths ++ more) p' where
  kept q hq := by
    rw [List.mem_append] at hq
    rw [h'.kept q fun hm => hq ⟨.inr hm.1, hm.2⟩, h.kept q fun hm => hq ⟨.inl hm.1, hm.2⟩]
  stored q hq hl := by
    by_cases hm : q ∈ more
    · exact h'.stored q hm hl
    · rw [h'.kept q fun hc => hm hc.1]
      exact h.stored q ((List.mem_append.1 hq).resolve_right hm) hl
  noted q hq hl := by
    by_cases hm : q ∈ more
    · have hout : q ∉ paths := fun hp => hd q hp hm
      rw [h'.noted q hm hl, h.unnoted q fun hc => hout hc.1, h.kept q fun hc => hout hc.1]
    · rw [h'.unnoted q fun hc => hm hc.1]
      exact h.noted q ((List.mem_append.1 hq).resolve_right hm) hl
  unnoted q hq := by
    rw [List.mem_append] at hq
    rw [h'.unnoted q fun hm => hq ⟨.inr hm.1, hm.2⟩, h.unnoted q fun hm => hq ⟨.inl hm.1, hm.2⟩]
  ran q := by
    rw [h'.ran, h.ran, List.mem_append]
    grind
  errors q hq := h'.errors q (h.errors q hq)

/-- **Visits of different paths of the tree.** -/
theorem foldl_visit {e : Evaluator} (h : e.tree.Regular) {ids : List Nat}
    (hn : (ids.map e.graph.path).Nodup) (hp : ∀ id ∈ ids, e.tree.Has (e.graph.path id))
    (p : Pass) : Visited e p (ids.map e.graph.path) (ids.foldl (visit e) p) := by
  induction ids generalizing p with
  | nil => exact visited_nil e p
  | cons id ids ih =>
    rw [List.map_cons, List.nodup_cons] at hn
    obtain ⟨hid, hp⟩ := List.forall_mem_cons.1 hp
    refine (visit_spec h p hid).1.trans (ih hn.2 hp _) fun q hq => ?_
    exact (List.mem_singleton.1 hq) ▸ hn.1

/-- What the paths turn out to be, each at its visit. -/
def findings (e : Evaluator) (p : Pass) : List Nat → List (String × Computed)
  | [] => []
  | id :: ids =>
    (e.graph.path id, e.compute p.snapshot (e.graph.path id)) :: findings e (p.visit e id) ids

theorem map_fst_findings (e : Evaluator) (p : Pass) (ids : List Nat) :
    (findings e p ids).map Prod.fst = e.graph.paths ids := by
  induction ids generalizing p with
  | nil => rfl
  | cons id ids ih => exact congrArg (e.graph.path id :: ·) (ih (p.visit e id))

/-- Later visits find what there is after the earlier ones. -/
theorem findings_append (e : Evaluator) (p : Pass) (ids more : List Nat) :
    findings e p (ids ++ more) = findings e p ids ++ findings e (ids.foldl (visit e) p) more := by
  induction ids generalizing p with
  | nil => rfl
  | cons id ids ih => exact congrArg (_ :: ·) (ih (p.visit e id))

end Pass

/-! ### A whole pass -/

namespace Evaluator

/-- The paths that a pass visits, in order. -/
def visitedPaths (e : Evaluator) (roots : Option (List String)) : List String :=
  e.graph.paths (e.affectedIds roots).1

/-- The graph with its order computed. -/
def ordered (e : Evaluator) : Evaluator :=
  { e with graph := { e.graph with order := .compute e.graph.graph, stale := false } }

/-- What a path is depends on the records, their allocations, the engine and the settings only. -/
theorem compute_congr {e e' : Evaluator} (ht : e'.tree = e.tree) (hb : e'.bulk = e.bulk)
    (hengine : e'.engine = e.engine) (hsettings : e'.settings = e.settings) :
    e'.compute = e.compute := by
  have hrun : e'.runCode = e.runCode := by
    funext s reading text
    rw [runCode.eq_def, runCode.eq_def, scope, scope, ht, hengine, hsettings]
  have hstatic : e'.staticValue = e.staticValue := by
    funext path raw
    rw [staticValue, staticValue, hb]
  funext s path
  rw [compute, compute, ht, hrun, hstatic]

/-- The order does not matter for what a path is. -/
theorem compute_ordered (e : Evaluator) : e.ordered.compute = e.compute :=
  compute_congr rfl rfl rfl rfl

/-- The pass after all visits. -/
def passOf (e : Evaluator) (roots : Option (List String)) (previous : Snapshot) : Pass :=
  (e.affectedIds roots).1.foldl (Pass.visit e.ordered) (Pass.start e.snapshot previous)

/-- A pass runs over everything, or over the nodes that a root affects. -/
def Selects (e : Evaluator) (roots : Option (List String)) (path : String) : Prop :=
  ∀ list, roots = some list → ∃ root ∈ list, e.graph.Node root ∧ e.graph.Affects root path

theorem affectedIds_spec {e : Evaluator} (h : e.graph.Sound) (roots : Option (List String)) :
    (e.affectedIds roots).2 = e.ordered.graph ∧
      (∃ keep, (e.affectedIds roots).1 =
        (EvaluationOrder.compute e.graph.graph).order.filter keep) ∧
      ∀ {id path}, e.graph.ids.get? id = some path →
        (id ∈ (e.affectedIds roots).1 ↔ id ∈ e.graph.graph.nodes ∧ e.Selects roots path) := by
  cases roots with
  | none =>
    rw [affectedIds, PathGraph.currentOrder]
    simp only [h.refreshed_eq]
    refine ⟨rfl, ⟨fun _ => true, by simp⟩, fun {id path} _ => ?_⟩
    rw [EvaluationOrder.mem_order_compute h.graph]
    exact (and_iff_left (fun _ he => by cases he)).symm
  | some list =>
    rw [affectedIds, PathGraph.affected]
    simp only [h.refreshed_eq]
    refine ⟨rfl, ⟨_, EvaluationOrder.affected_compute h.graph _⟩, fun {id path} hid => ?_⟩
    rw [EvaluationOrder.mem_affected_compute h.graph]
    simp only [Selects, Option.some.injEq, forall_eq']
    constructor
    · rintro ⟨rid, hr, hn, ha⟩
      obtain ⟨root, hroot, hrid⟩ := List.mem_filterMap.1 hr
      rw [h.id?_eq_some_iff] at hrid
      have hpa := (h.affects_iff hrid hid).1 ha
      refine ⟨?_, root, hroot, ⟨rid, hn, hrid⟩, hpa⟩
      cases ha with
      | refl => exact hn
      | tail _ hb => exact h.graph.source (h.graph.mirror.2 hb)
    · rintro ⟨hn, root, hroot, ⟨rid, hrn, hrid⟩, ha⟩
      exact ⟨rid, List.mem_filterMap.2 ⟨root, hroot, h.id?_eq_some_iff.2 hrid⟩, hrn,
        (h.affects_iff hrid hid).2 ha⟩

/-- A pass runs over nodes. -/
theorem get?_of_mem_affectedIds {e : Evaluator} (h : e.graph.Sound)
    {roots : Option (List String)} {id : Nat} (hid : id ∈ (e.affectedIds roots).1) :
    id ∈ e.graph.graph.nodes ∧ e.graph.ids.get? id = some (e.graph.path id) := by
  obtain ⟨-, ⟨keep, hk⟩, -⟩ := affectedIds_spec h roots
  rw [hk] at hid
  have hn := (EvaluationOrder.mem_order_compute h.graph).1 (List.mem_of_mem_filter hid)
  obtain ⟨path, hp⟩ := h.named id hn
  exact ⟨hn, by rw [PathGraph.path_of_get? hp, hp]⟩

/-- Visited are the nodes that are selected. -/
theorem mem_visitedPaths {e : Evaluator} (h : e.graph.Sound) {roots : Option (List String)}
    {path : String} : path ∈ e.visitedPaths roots ↔ e.graph.Node path ∧ e.Selects roots path := by
  obtain ⟨-, -, hm⟩ := affectedIds_spec h roots
  rw [visitedPaths, PathGraph.paths, List.mem_map]
  constructor
  · rintro ⟨id, hid, rfl⟩
    obtain ⟨hn, hp⟩ := get?_of_mem_affectedIds h hid
    exact ⟨⟨id, hn, hp⟩, ((hm hp).1 hid).2⟩
  · rintro ⟨⟨id, hn, hid⟩, hs⟩
    exact ⟨id, (hm hid).2 ⟨hn, hs⟩, PathGraph.path_of_get? hid⟩

/-- No path is visited twice. -/
theorem nodup_visitedPaths {e : Evaluator} (h : e.graph.Sound) (roots : Option (List String)) :
    (e.visitedPaths roots).Nodup := by
  obtain ⟨-, ⟨keep, hk⟩, -⟩ := affectedIds_spec h roots
  refine h.nodup_paths ?_ fun id hid => (get?_of_mem_affectedIds h hid).1
  rw [hk]
  exact (EvaluationOrder.nodup_order_compute h.graph).filter _

theorem runPass_eq {e : Evaluator} (h : e.graph.Sound) (roots : Option (List String))
    (previous : Snapshot) :
    (e.runPass roots previous).1 =
        { e.ordered with snapshot := (e.passOf roots previous).snapshot } ∧
      (e.runPass roots previous).2.1 = (e.passOf roots previous).previous ∧
      (e.runPass roots previous).2.2.errors = (e.passOf roots previous).errors ∧
      (e.runPass roots previous).2.2.evaluationOrder =
        (e.passOf roots previous).evaluationOrder := by
  obtain ⟨ids, graph, hids⟩ : ∃ ids graph, e.affectedIds roots = (ids, graph) := ⟨_, _, rfl⟩
  have hg := (affectedIds_spec h roots).1
  rw [hids] at hg
  rw [runPass, passOf, hids, show graph = e.ordered.graph from hg]
  exact ⟨rfl, rfl, rfl, rfl⟩

end Evaluator

namespace Coherent

variable {e : Evaluator} {pending : String → Prop} (h : Coherent e pending (fun _ => False))
include h

theorem has_iff_node {path : String} : e.tree.Has path ↔ e.graph.Node path := by
  rw [h.node_iff, h.known]

theorem get?_of_mem_affectedIds {roots : Option (List String)} {id : Nat}
    (hid : id ∈ (e.affectedIds roots).1) :
    id ∈ e.graph.graph.nodes ∧ e.graph.ids.get? id = some (e.graph.path id) :=
  Evaluator.get?_of_mem_affectedIds h.graph hid

/-- Visited are the paths of the tree that are selected. -/
theorem mem_visitedPaths {roots : Option (List String)} {path : String} :
    path ∈ e.visitedPaths roots ↔ e.tree.Has path ∧ e.Selects roots path := by
  rw [Evaluator.mem_visitedPaths h.graph, h.has_iff_node]

/-- No path is visited twice. -/
theorem nodup_visitedPaths (roots : Option (List String)) : (e.visitedPaths roots).Nodup :=
  Evaluator.nodup_visitedPaths h.graph roots

/-- What a pass does. -/
theorem visited_passOf (roots : Option (List String)) (previous : Snapshot) :
    Pass.Visited e.ordered (Pass.start e.snapshot previous) (e.visitedPaths roots)
      (e.passOf roots previous) := by
  have htree : e.ordered.tree.Regular := h.tree
  refine Pass.foldl_visit htree (h.nodup_visitedPaths roots) (fun id hid => ?_)
    (Pass.start e.snapshot previous)
  obtain ⟨hn, hp⟩ := h.get?_of_mem_affectedIds hid
  exact h.has_iff_node.2 ⟨id, hn, hp⟩

/-- A coherent evaluator stays coherent with other values for its leaves and its order computed. -/
theorem withSnapshot {snapshot : Snapshot} {evaluatedOnce : Bool}
    (hs : ∀ path, (∃ value, snapshot.get? path = some value) ↔ e.tree.Leaf path) :
    Coherent { e.ordered with snapshot, evaluatedOnce } (fun _ => False) (fun _ => False) where
  registry := h.registry
  tree := h.tree
  known := h.known
  stored path value hv := (hs path).1 ⟨value, hv⟩
  pending path hl := .inl ((hs path).2 hl)
  bulk := h.bulk
  mirrored := ⟨h.mirrored.inverse, h.mirrored.readers, h.mirrored.reads⟩
  absent := h.absent
  reads := h.reads
  graph := h.graph.refresh
  lists := h.lists
  nodes := h.nodes
  wiring := h.wiring

/-- Pending leaves are visited, if the pass starts from them. -/
theorem mem_visitedPaths_of_pending {roots : Option (List String)}
    (hroots : ∀ list, roots = some list → ∀ path, pending path → path ∈ list) {path : String}
    (hl : e.tree.Leaf path) (hp : pending path) : path ∈ e.visitedPaths roots := by
  rw [h.mem_visitedPaths]
  exact ⟨hl.has, fun list he => ⟨path, hroots list he path hp, h.has_iff_node.1 hl.has, .refl⟩⟩

/-- Over a pass that visits the pending leaves, every leaf gets a value. -/
theorem exists_value_passOf {roots : Option (List String)} (previous : Snapshot)
    (hp : ∀ list, roots = some list → ∀ path, pending path → path ∈ list) (path : String) :
    (∃ value, (e.passOf roots previous).snapshot.get? path = some value) ↔ e.tree.Leaf path := by
  have hv := h.visited_passOf roots previous
  by_cases hm : path ∈ e.visitedPaths roots ∧ e.tree.Leaf path
  · exact iff_of_true (hv.stored path hm.1 hm.2) hm.2
  · rw [hv.kept path hm]
    constructor
    · rintro ⟨value, hval⟩
      exact h.stored path value hval
    · intro hl
      exact (h.pending path hl).resolve_right fun hpend =>
        hm ⟨h.mem_visitedPaths_of_pending hp hl hpend, hl⟩

/-- **A pass leaves the evaluator coherent**, with a value for every leaf. -/
theorem runPass {roots : Option (List String)} (previous : Snapshot)
    (hp : ∀ list, roots = some list → ∀ path, pending path → path ∈ list) :
    Coherent (e.runPass roots previous).1 (fun _ => False) (fun _ => False) := by
  rw [(Evaluator.runPass_eq h.graph roots previous).1]
  exact h.withSnapshot (h.exists_value_passOf previous hp)

end Coherent

end Recalc
