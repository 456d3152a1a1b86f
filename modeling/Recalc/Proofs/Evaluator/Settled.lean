import Recalc.Proofs.Evaluator.Compute

/-!
# Settled leaves

A leaf is steady if a visit would store what is stored for it already: the value that is computed
for it from the values that are stored now, or, if it fails, what failing paths keep. Then it is
settled, too: it stores the payload of its computed value. A pass makes the leaves steady that it
visits, because each of them is visited behind the leaves that it depends on, and it keeps the
others steady, because nothing that they depend on is visited (`Coherent.steady_runPass`). Paths
that depend on a cycle are left out.
-/

namespace Recalc

/-- What a visit stores at a leaf depends on what the leaf is computed to be and on the value that
it has. -/
theorem Pass.leafValue_congr {e e' : Evaluator} {p p' : Pass} {path : String}
    (hc : e.compute p.snapshot path = e'.compute p'.snapshot path)
    (hsettings : e'.settings = e.settings)
    (hv : p.snapshot.get? path = p'.snapshot.get? path) :
    p.leafValue e path = p'.leafValue e' path := by
  rw [leafValue, leafValue, hc]
  split
  · rfl
  · rw [fallback, fallback, hsettings, hv]

/-- Without a computed value a visit stores what failing paths keep. -/
theorem Pass.leafValue_of_failed {e : Evaluator} {p : Pass} {path : String}
    (h : ∀ value, e.compute p.snapshot path ≠ .value value) :
    p.leafValue e path = p.fallback e.settings.staleOnError path := by
  rw [leafValue]
  split
  · rename_i value hvalue
    exact absurd hvalue (h value)
  · rfl

/-- Where a visit has stored its value, a further visit stores the same, even if the leaf fails. -/
theorem Pass.leafValue_of_stored {e : Evaluator} {p p' : Pass} {path : String}
    (hc : e.compute p.snapshot path = e.compute p'.snapshot path)
    (hv : p'.snapshot.get? path = some (p.leafValue e path)) :
    p'.leafValue e path = p.leafValue e path := by
  by_cases hvalue : ∃ value, e.compute p.snapshot path = .value value
  · obtain ⟨value, hvalue⟩ := hvalue
    rw [leafValue, leafValue, ← hc, hvalue]
  · have hno := not_exists.1 hvalue
    rw [leafValue_of_failed hno] at hv ⊢
    rw [leafValue_of_failed (hc ▸ hno)]
    cases hstale : e.settings.staleOnError with
    | false => rfl
    | true =>
      rw [hstale] at hv
      rw [fallback, if_pos rfl, hv, Option.getD_some]

namespace Evaluator

/-- If the path has a computed value, then it stores the payload of that value. -/
def SettledAt (e : Evaluator) (s : Snapshot) (path : String) : Prop :=
  ∀ value, e.compute s path = .value value → s.payloadAt path = some value.payload?

/-- All leaves are settled, apart from those that depend on a cycle. -/
def Settled (e : Evaluator) : Prop :=
  ∀ path, e.tree.Leaf path → e.graph.Grounded path → e.SettledAt e.snapshot path

/-- A visit of the leaf would store what is stored. -/
def SteadyAt (e : Evaluator) (s : Snapshot) (path : String) : Prop :=
  s.get? path = some ((Pass.start s .empty).leafValue e path)

/-- All leaves are steady, apart from those that depend on a cycle. -/
def Steady (e : Evaluator) : Prop :=
  ∀ path, e.tree.Leaf path → e.graph.Grounded path → e.SteadyAt e.snapshot path

theorem SteadyAt.settledAt {e : Evaluator} {s : Snapshot} {path : String}
    (h : e.SteadyAt s path) : e.SettledAt s path := by
  intro value hv
  have hvalue : (Pass.start s .empty).leafValue e path = value := by
    rw [Pass.leafValue, show (Pass.start s .empty).snapshot = s from rfl, hv]
  rw [Snapshot.payloadAt, h, hvalue, Option.map_some]

theorem Steady.settled {e : Evaluator} (h : e.Steady) : e.Settled :=
  fun path hl hg => (h path hl hg).settledAt

/-- A leaf that stores the same value and is computed to be the same stays steady. -/
theorem SteadyAt.congr {e e' : Evaluator} {s s' : Snapshot} {path : String}
    (h : e.SteadyAt s path) (hc : e.compute s path = e'.compute s' path)
    (hsettings : e'.settings = e.settings) (hv : s.get? path = s'.get? path) :
    e'.SteadyAt s' path := by
  rw [SteadyAt, ← hv, h]
  exact congrArg some (Pass.leafValue_congr (p := .start s .empty) hc hsettings hv)

/-- Nothing but the values and the wiring matters for whether all leaves are steady. -/
theorem Steady.of_compute_eq {e e' : Evaluator} (h : e.Steady) (hc : e'.compute = e.compute)
    (hsettings : e'.settings = e.settings) (ht : e'.tree = e.tree)
    (hs : e'.snapshot = e.snapshot)
    (hg : ∀ path, e'.graph.Grounded path → e.graph.Grounded path) : e'.Steady := by
  intro path hl hground
  rw [ht] at hl
  exact (h path hl (hg path hground)).congr (by rw [hc, hs]) hsettings (by rw [hs])

end Evaluator

namespace Coherent

variable {e : Evaluator} {pending : String → Prop} (h : Coherent e pending (fun _ => False))
include h

/-- What depends on a visited path is visited. -/
theorem mem_visitedPaths_of_affects {roots : Option (List String)} {path q : String}
    (hq : q ∈ e.visitedPaths roots) (ha : e.graph.Affects q path) (hp : e.tree.Has path) :
    path ∈ e.visitedPaths roots := by
  rw [h.mem_visitedPaths] at hq ⊢
  refine ⟨hp, fun list hl => ?_⟩
  obtain ⟨root, hr, hn, hrq⟩ := hq.2 list hl
  exact ⟨root, hr, hn, Relation.ReflTransGen.trans hrq ha⟩

/-- What a path depends on that is not visited is not visited either. -/
theorem not_mem_visitedPaths {roots : Option (List String)} {path q : String}
    (hm : path ∉ e.visitedPaths roots) (hp : e.tree.Has path)
    (hd : Relation.ReflTransGen e.graph.Reads path q) :
    q ∉ e.visitedPaths roots ∧ e.tree.Has q := by
  refine ⟨fun hq => hm (h.mem_visitedPaths_of_affects hq (Relation.reflTransGen_swap.2 hd) hp), ?_⟩
  rcases Relation.ReflTransGen.cases_tail hd with rfl | ⟨mid, -, hr⟩
  · exact hp
  · exact h.has_iff_node.2 (h.graph.node_of_reads hr).2

/-- **A grounded path is visited behind what it depends on.** -/
theorem before_of_depends {roots : Option (List String)} {pre post : List String} {path q : String}
    (hg : e.graph.Grounded path) (ho : e.visitedPaths roots = pre ++ path :: post)
    (hd : e.graph.Depends path q) (hq : q ∈ e.visitedPaths roots) : q ∈ pre := by
  induction hg generalizing pre post with
  | intro path hacc ih =>
    obtain ⟨target, hr, hrest⟩ := Relation.TransGen.head'_iff.1 hd
    have htarget : e.tree.Has target := h.has_iff_node.2 (h.graph.node_of_reads hr).2
    have ht := h.mem_visitedPaths_of_affects hq (Relation.reflTransGen_swap.2 hrest) htarget
    have hbefore : target ∈ pre := by
      obtain ⟨-, ⟨keep, hkeep⟩, -⟩ := Evaluator.affectedIds_spec h.graph roots
      rw [Evaluator.visitedPaths, hkeep] at ho ht
      exact h.graph.before_of_grounded (Acc.intro path hacc) ho hr ht
    rcases Relation.reflTransGen_iff_eq_or_transGen.1 hrest with rfl | hrest
    · exact hbefore
    · obtain ⟨first, second, rfl⟩ := List.append_of_mem hbefore
      have ho' : e.visitedPaths roots = first ++ target :: (second ++ path :: post) := by
        rw [ho, List.append_assoc, List.cons_append]
      exact List.mem_append_left _ (ih target hr ho' hrest)

/-- The pass before the visit of a path, behind it, and at the end. -/
theorem exists_visit {roots : Option (List String)} (previous : Snapshot) {path : String}
    (hm : path ∈ e.visitedPaths roots) : ∃ pre post mid next,
      e.visitedPaths roots = pre ++ path :: post ∧
      Pass.Visited e.ordered (Pass.start e.snapshot previous) pre mid ∧
      Pass.Visited e.ordered mid [path] next ∧
      Pass.Visited e.ordered next post (e.passOf roots previous) ∧
      (path, e.ordered.compute mid.snapshot path) ∈
        Pass.findings e.ordered (Pass.start e.snapshot previous) (e.affectedIds roots).1 ∧
      (e.tree.Leaf path → next.snapshot.get? path = some (mid.leafValue e.ordered path)) ∧
      ∀ error, e.ordered.compute mid.snapshot path = .failed error →
        next.errors.contains path = true := by
  obtain ⟨first, id, second, hids, rfl⟩ : ∃ first id second,
      (e.affectedIds roots).1 = first ++ id :: second ∧ e.graph.path id = path := by
    obtain ⟨id, hid, rfl⟩ := List.mem_map.1 hm
    obtain ⟨first, second, he⟩ := List.append_of_mem hid
    exact ⟨first, id, second, he, rfl⟩
  have hvisited : e.visitedPaths roots =
      first.map e.graph.path ++ e.graph.path id :: second.map e.graph.path := by
    rw [Evaluator.visitedPaths, PathGraph.paths, hids, List.map_append, List.map_cons]
  have hnodup := h.nodup_visitedPaths roots
  rw [hvisited, List.nodup_append] at hnodup
  have hhas : ∀ i ∈ first ++ id :: second, e.ordered.tree.Has (e.ordered.graph.path i) := by
    intro i hi
    obtain ⟨hn, hpath⟩ := h.get?_of_mem_affectedIds (hids ▸ hi)
    exact h.has_iff_node.2 ⟨i, hn, hpath⟩
  have htree : e.ordered.tree.Regular := h.tree
  obtain ⟨mid, hmid⟩ : ∃ mid, mid = first.foldl (Pass.visit e.ordered)
    (Pass.start e.snapshot previous) := ⟨_, rfl⟩
  have hfirst : Pass.Visited e.ordered (Pass.start e.snapshot previous)
      (first.map e.graph.path) mid := by
    rw [hmid]
    exact Pass.foldl_visit htree hnodup.1 (fun i hi => hhas i (List.mem_append_left _ hi)) _
  have hlast : Pass.Visited e.ordered (mid.visit e.ordered id) (second.map e.graph.path)
      (e.passOf roots previous) := by
    rw [Evaluator.passOf, hids, List.foldl_append, List.foldl_cons, ← hmid]
    exact Pass.foldl_visit htree (List.nodup_cons.1 hnodup.2.1).2
      (fun i hi => hhas i (List.mem_append_right _ (List.mem_cons_of_mem _ hi))) _
  obtain ⟨hvisit, hstored, hfailed⟩ := Pass.visit_spec htree mid
    (hhas id (List.mem_append_right _ List.mem_cons_self))
  have hfound : (e.graph.path id, e.ordered.compute mid.snapshot (e.graph.path id)) ∈
      Pass.findings e.ordered (Pass.start e.snapshot previous) (e.affectedIds roots).1 := by
    rw [hids, Pass.findings_append, ← hmid]
    exact List.mem_append_right _ List.mem_cons_self
  exact ⟨first.map e.graph.path, second.map e.graph.path, mid, mid.visit e.ordered id, hvisited,
    hfirst, hvisit, hlast, hfound, hstored, hfailed⟩

end Coherent

/-- A visit keeps a snapshot one of the leaves of a tree. -/
theorem Pass.Visited.within {e : Evaluator} {p p' : Pass} {paths : List String}
    (h : Visited e p paths p') (hs : p.snapshot.Within e.tree) : p'.snapshot.Within e.tree := by
  intro q value hv
  by_contra hl
  rw [h.kept q fun hc => hl hc.2] at hv
  exact hl (hs q value hv)

namespace Coherent

variable {e : Evaluator} {pending : String → Prop} (h : Coherent e pending (fun _ => False))
  (hengine : e.engine = .standard) (hp : e.tree.Plain)
include h hengine hp

/-- Leaves are computed to be the same from snapshots that have the same values where it matters. -/
theorem compute_eq_self {s s' : Snapshot} (hs : s.Within e.tree) (hs' : s'.Within e.tree)
    {path : String} (hl : e.tree.Leaf path)
    (hsame : ∀ q, e.graph.Depends path q → e.tree.Leaf q →
      (∃ value, s.get? q = some value) ∧ s.get? q = s'.get? q) :
    e.compute s path = e.compute s' path := by
  obtain ⟨r, raw, hat⟩ := h.tree.leaf_iff.1 hl
  exact h.compute_eq_of_depends h hengine hengine rfl hp hp hs hs' hat hat rfl
    (fun _ _ _ => rfl) (fun target hr => h.has_iff_node.2 (h.graph.node_of_reads hr).2)
    (fun _ q _ _ value hv => hs' q value hv) rfl hsame

variable {roots : Option (List String)} (previous : Snapshot)
  (hroots : ∀ list, roots = some list → ∀ path, pending path → path ∈ list)
include hroots

omit hengine hp in
/-- What a grounded path depends on has its value before the path is visited and keeps it. -/
theorem kept_of_depends {path : String} {pre post : List String} {mid next : Pass}
    (hg : e.graph.Grounded path) (hvisited : e.visitedPaths roots = pre ++ path :: post)
    (hfirst : Pass.Visited e.ordered (Pass.start e.snapshot previous) pre mid)
    (hvisit : Pass.Visited e.ordered mid [path] next)
    (hlast : Pass.Visited e.ordered next post (e.passOf roots previous)) {q : String}
    (hd : e.graph.Depends path q) (hq : e.tree.Leaf q) :
    (∃ value, mid.snapshot.get? q = some value) ∧
      mid.snapshot.get? q = (e.passOf roots previous).snapshot.get? q := by
  have hnodup := h.nodup_visitedPaths roots
  rw [hvisited, List.nodup_append] at hnodup
  have hbefore : q ∈ e.visitedPaths roots → q ∈ pre := h.before_of_depends hg hvisited hd
  have hout : q ∉ path :: post := by
    intro hm
    have hin := hbefore (hvisited ▸ List.mem_append_right _ hm)
    exact hnodup.2.2 q hin q hm rfl
  rw [hlast.kept q fun hc => hout (List.mem_cons_of_mem _ hc.1),
    hvisit.kept q fun hc => hout (List.mem_singleton.1 hc.1 ▸ List.mem_cons_self)]
  refine ⟨?_, rfl⟩
  by_cases hin : q ∈ pre
  · exact hfirst.stored q hin hq
  · rw [hfirst.kept q fun hc => hin hc.1]
    exact (h.pending q hq).resolve_right fun hpend =>
      hin (hbefore (h.mem_visitedPaths_of_pending hroots hq hpend))

/-- **The visit of a grounded leaf**: before it the leaf has its value from before the pass and is
computed to be what it is computed to be at the end of the pass, and what the visit stores stays. -/
theorem exists_visit_of_grounded {path : String} (hl : e.tree.Leaf path)
    (hg : e.graph.Grounded path) (hm : path ∈ e.visitedPaths roots) : ∃ mid : Pass,
      mid.snapshot.get? path = e.snapshot.get? path ∧
      e.compute mid.snapshot path = e.compute (e.passOf roots previous).snapshot path ∧
      (path, e.compute mid.snapshot path) ∈
        Pass.findings e.ordered (Pass.start e.snapshot previous) (e.affectedIds roots).1 ∧
      (e.passOf roots previous).snapshot.get? path = some (mid.leafValue e path) ∧
      ∀ error, e.compute mid.snapshot path = .failed error →
        (e.passOf roots previous).errors.contains path = true := by
  obtain ⟨pre, post, mid, next, hvisited, hfirst, hvisit, hlast, hfound, hstored, hfailed⟩ :=
    h.exists_visit previous hm
  have hnodup := h.nodup_visitedPaths roots
  rw [hvisited, List.nodup_append] at hnodup
  have hpre : path ∉ pre := fun hin => hnodup.2.2 path hin path List.mem_cons_self rfl
  have hpost : path ∉ post := (List.nodup_cons.1 hnodup.2.1).1
  have hstart : e.snapshot.Within e.tree := h.stored
  have hmid : mid.snapshot.Within e.tree := hfirst.within hstart
  have hend : (e.passOf roots previous).snapshot.Within e.tree :=
    hlast.within (hvisit.within hmid)
  rw [e.compute_ordered] at hfound hfailed
  refine ⟨mid, hfirst.kept path fun hc => hpre hc.1, h.compute_eq_self hengine hp hmid hend hl
    fun _ => h.kept_of_depends previous hroots hg hvisited hfirst hvisit hlast, hfound, ?_,
    fun error he => hlast.errors path (hfailed error he)⟩
  rw [hlast.kept path fun hc => hpost hc.1, hstored hl]
  exact congrArg some (Pass.leafValue_congr (by rw [e.compute_ordered]) rfl rfl)

/-- A pass makes the grounded leaves steady that it visits, and reports those that fail. -/
theorem steadyAt_passOf_of_mem {path : String} (hl : e.tree.Leaf path)
    (hg : e.graph.Grounded path) (hm : path ∈ e.visitedPaths roots) :
    e.SteadyAt (e.passOf roots previous).snapshot path ∧
      ∀ error, e.compute (e.passOf roots previous).snapshot path = .failed error →
        (e.passOf roots previous).errors.contains path = true := by
  obtain ⟨mid, -, hsame, -, hvalue, hfailed⟩ :=
    h.exists_visit_of_grounded hengine hp previous hroots hl hg hm
  refine ⟨?_, fun error he => hfailed error (hsame.trans he)⟩
  rw [Evaluator.SteadyAt, hvalue]
  exact congrArg some (Pass.leafValue_of_stored hsame hvalue).symm

/-- A pass keeps the grounded leaves steady that it does not visit. -/
theorem steadyAt_passOf_of_not_mem {path : String} (hl : e.tree.Leaf path)
    (hm : path ∉ e.visitedPaths roots) (hs : e.SteadyAt e.snapshot path) :
    e.SteadyAt (e.passOf roots previous).snapshot path := by
  have hv := h.visited_passOf roots previous
  have hkept : ∀ q, q ∉ e.visitedPaths roots →
      e.snapshot.get? q = (e.passOf roots previous).snapshot.get? q :=
    fun q hq => (hv.kept q fun hc => hq hc.1).symm
  have hstart : e.snapshot.Within e.tree := h.stored
  have hend : (e.passOf roots previous).snapshot.Within e.tree := hv.within hstart
  refine hs.congr (h.compute_eq_self hengine hp hstart hend hl fun q hd hq => ?_) rfl
    (hkept path hm)
  have hout := (h.not_mem_visitedPaths hm hl.has hd.to_reflTransGen).1
  exact ⟨(h.pending q hq).resolve_right fun hpend =>
    hout (h.mem_visitedPaths_of_pending hroots hq hpend), hkept q hout⟩

/-- **A pass makes the leaves steady**, if those are steady that it does not visit. -/
theorem steady_runPass (hs : ∀ path, e.tree.Leaf path → e.graph.Grounded path →
    path ∉ e.visitedPaths roots → e.SteadyAt e.snapshot path) :
    (e.runPass roots previous).1.Steady := by
  rw [(Evaluator.runPass_eq h.graph roots previous).1]
  intro path hl hg
  have hsteady : e.SteadyAt (e.passOf roots previous).snapshot path := by
    by_cases hm : path ∈ e.visitedPaths roots
    · exact (h.steadyAt_passOf_of_mem hengine hp previous hroots hl hg hm).1
    · exact h.steadyAt_passOf_of_not_mem hengine hp previous hroots hl hm (hs path hl hg hm)
  have hcompute : ({ e.ordered with snapshot := (e.passOf roots previous).snapshot } :
      Evaluator).compute = e.compute := Evaluator.compute_congr rfl rfl rfl rfl
  exact hsteady.congr (by rw [hcompute]) rfl rfl

end Coherent

end Recalc
