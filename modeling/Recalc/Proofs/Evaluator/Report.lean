import Recalc.Proofs.Evaluator.Graph
import Recalc.Proofs.Graph.CycleMembers

/-!
# What an update says about its pass

A pass visits nodes of the graph, each once, and goes on whatever a path turns out to be. Its
findings (`Evaluator.findings`) are the visited paths in order, each with what it turned out to be
at its visit. The update about the pass says no more and no less than these findings
(`Evaluator.Reports`): which properties ran, which paths are on cycles, and one failure for each
path on a cycle and for each other path whose expression failed.

This holds for any engine and any extractors, of evaluators too that a refused update left half-way
(`Evaluator.Evolves.reports`).
-/

namespace Recalc

/-- The path is a property that exists and has no fields. -/
def Tree.Valued (t : Tree) (path : String) : Prop := ∃ r raw, t.LeafAt path r raw

/-- A property without fields has a value or fails, and no other path does. -/
theorem Evaluator.compute_cases (e : Evaluator) (snapshot : Snapshot) (path : String) :
    e.tree.Valued path ∧ ((∃ value, e.compute snapshot path = .value value) ∨
        ∃ error, e.compute snapshot path = .failed error) ∨
      ¬ e.tree.Valued path ∧
        (e.compute snapshot path = .composite ∨ e.compute snapshot path = .missing) := by
  rw [compute]
  simp only
  cases hr : e.tree.get? (Path.split path).1 with
  | none =>
    refine .inr ⟨?_, .inr rfl⟩
    rintro ⟨r, raw, hl⟩
    rw [hl.found] at hr
    cases hr
  | some r =>
    simp only
    split
    · rename_i hp
      refine .inr ⟨?_, .inl rfl⟩
      rintro ⟨_, _, hl⟩
      exact hl.proper hp
    · rename_i hp
      cases hv : r.entity.property? (Path.split path).2 with
      | none =>
        refine .inr ⟨?_, .inr rfl⟩
        rintro ⟨r', raw, hl⟩
        obtain rfl := Option.some.inj (hr.symm.trans hl.found)
        rw [hl.value] at hv
        cases hv
      | some raw =>
        simp only
        split
        · rename_i hc
          refine .inr ⟨?_, .inl rfl⟩
          rintro ⟨r', raw', hl⟩
          obtain rfl := Option.some.inj (hr.symm.trans hl.found)
          obtain rfl := Option.some.inj (hv.symm.trans hl.value)
          rw [hl.leaf] at hc
          cases hc
        · rename_i hc
          refine .inl ⟨⟨r, raw, hr, hp, hv, Bool.eq_false_iff.2 hc⟩, ?_⟩
          split
          · split
            · exact .inl ⟨_, rfl⟩
            · exact .inr ⟨_, rfl⟩
          · exact .inl ⟨_, rfl⟩

/-! ### One visit -/

/-- The failures with one more of a path, if there is one. -/
def PathErrors.note (errors : PathErrors) (path : String) (failure : Option PathError) :
    PathErrors :=
  failure.elim errors (errors.add path)

namespace PathErrors

variable {errors : PathErrors} {path : String} {failure : Option PathError}

theorem get?_note_of_ne {q : String} (hq : q ≠ path) :
    (note errors path failure).get? q = errors.get? q := by
  cases failure with
  | none => rfl
  | some error => exact (SortedMap.get?_modifyD errors path [] (· ++ [error]) q).trans (if_neg hq)

/-- The first failure of a path is its only one so far. -/
theorem get?_note_self (h : errors.get? path = none) :
    (note errors path failure).get? path = failure.map ([·]) := by
  cases failure with
  | none => exact h
  | some error =>
    refine (SortedMap.get?_modifyD errors path [] (· ++ [error]) path).trans ?_
    rw [if_pos rfl, SortedMap.getD, h]
    rfl

end PathErrors

/-- The failure of a path whose expression failed. -/
def Computed.failure? : Computed → Option PathError
  | .failed error => some (.expression error)
  | _ => none

namespace Pass

open Classical in
/-- What an evaluation adds to the report. -/
theorem report_evaluatePath (e : Evaluator) (p : Pass) (path : String) (cyclic : Bool) :
    (p.evaluatePath e path cyclic).evaluationOrder =
        p.evaluationOrder ++ [path].filter e.tree.Valued ∧
      (p.evaluatePath e path cyclic).cyclicPaths = p.cyclicPaths ∧
      (p.evaluatePath e path cyclic).errors =
        if cyclic then p.errors else p.errors.note path (e.compute p.snapshot path).failure? := by
  rw [evaluatePath]
  rcases e.compute_cases p.snapshot path with ⟨hv, ⟨value, hc⟩ | ⟨error, hc⟩⟩ | ⟨hv, hc | hc⟩
  · simp [hc, hv, store, Computed.failure?, PathErrors.note]
  · cases cyclic with
    | true => simp [hc, hv, store]
    | false => simp [hc, hv, store, addError, Computed.failure?, PathErrors.note]
  · simp [hc, hv, Computed.failure?, PathErrors.note]
  · simp [hc, hv, drop, Computed.failure?, PathErrors.note]

/-- What there is to report about a visited path. A path on a cycle has the cycle for its failure,
whether its expression fails or not. -/
def failureOf (cyclic : Bool) (path : String) (found : Computed) : Option PathError :=
  if cyclic then some (.cycle path) else found.failure?

open Classical in
/-- What a visit adds to the report. -/
theorem report_visit (e : Evaluator) (p : Pass) (id : Nat) :
    let path := e.graph.path id
    (p.visit e id).evaluationOrder = p.evaluationOrder ++ [path].filter e.tree.Valued ∧
      (p.visit e id).cyclicPaths =
        p.cyclicPaths ++ (if e.graph.isCyclic id then [path] else []) ∧
      (p.visit e id).errors = p.errors.note path
        (failureOf (e.graph.isCyclic id) path (e.compute p.snapshot path)) := by
  intro path
  rw [visit, failureOf]
  cases e.graph.isCyclic id with
  | true =>
    obtain ⟨horder, hcyclic, herrors⟩ := report_evaluatePath e
      { p.addError path (.cycle path) with cyclicPaths := p.cyclicPaths ++ [path] } path true
    exact ⟨horder, by simpa using hcyclic, herrors⟩
  | false =>
    obtain ⟨horder, hcyclic, herrors⟩ := report_evaluatePath e p path false
    exact ⟨horder, by simpa using hcyclic, herrors⟩

/-! ### A whole pass -/

open Classical in
/-- **What visits of different paths add to the report.** -/
theorem report_foldl_visit {e : Evaluator} (onCycle : String → Prop) {ids : List Nat}
    (hn : (e.graph.paths ids).Nodup)
    (hc : ∀ id ∈ ids, e.graph.isCyclic id = true ↔ onCycle (e.graph.path id)) (p : Pass) :
    let p' := ids.foldl (visit e) p
    p'.evaluationOrder = p.evaluationOrder ++ (e.graph.paths ids).filter e.tree.Valued ∧
      p'.cyclicPaths = p.cyclicPaths ++ (e.graph.paths ids).filter onCycle ∧
      (∀ q, q ∉ e.graph.paths ids → p'.errors.get? q = p.errors.get? q) ∧
      ∀ path found, (path, found) ∈ findings e p ids → p.errors.get? path = none →
        p'.errors.get? path = (failureOf (onCycle path) path found).map ([·]) := by
  induction ids generalizing p with
  | nil => simp [PathGraph.paths, findings]
  | cons id ids ih =>
    obtain ⟨hid, hc⟩ := List.forall_mem_cons.1 hc
    obtain ⟨hout, hn⟩ := List.nodup_cons.1 (hn : (e.graph.path id :: e.graph.paths ids).Nodup)
    have hcyclic : e.graph.isCyclic id = decide (onCycle (e.graph.path id)) := by
      rw [Bool.eq_iff_iff, hid, decide_eq_true_iff]
    obtain ⟨horder, hpaths, herrors⟩ := report_visit e p id
    obtain ⟨horder', hpaths', hkept, hfound⟩ := ih hn hc (p.visit e id)
    refine ⟨?_, ?_, fun q hq => ?_, fun path found hm hnone => ?_⟩
    · rw [List.foldl_cons, horder', horder, List.append_assoc, ← List.filter_append]
      rfl
    · rw [List.foldl_cons, hpaths', hpaths, hcyclic, List.append_assoc, PathGraph.paths,
        PathGraph.paths, List.map_cons, List.filter_cons]
      split <;> rfl
    · obtain ⟨hne, hq⟩ := not_or.1 (mt List.mem_cons.2 hq)
      rw [List.foldl_cons, hkept q hq, herrors, PathErrors.get?_note_of_ne hne]
    · rcases List.mem_cons.1 hm with he | hm
      · obtain ⟨rfl, rfl⟩ := Prod.mk.inj he
        rw [List.foldl_cons, hkept _ hout, herrors, hcyclic, PathErrors.get?_note_self hnone]
      · have hin : path ∈ e.graph.paths ids := by
          rw [← map_fst_findings e (p.visit e id)]
          exact List.mem_map_of_mem hm
        rw [List.foldl_cons]
        refine hfound path found hm ?_
        rw [herrors, PathErrors.get?_note_of_ne (ne_of_mem_of_not_mem hin hout), hnone]

end Pass

/-! ### The pass of a batch -/

namespace Evaluator

/-- Marked are the paths that depend on themselves. -/
theorem isCyclic_ordered {e : Evaluator} (h : e.graph.Sound) {id : Nat} {path : String}
    (hid : e.graph.ids.get? id = some path) :
    e.ordered.graph.isCyclic id = true ↔ e.graph.Depends path path :=
  (EvaluationOrder.isCyclic_compute h.graph).trans (h.toIndexed.depends_iff hid hid)

/-- What a pass finds at the paths it visits, in order. -/
def passFindings (e : Evaluator) (roots : Option (List String)) (previous : Snapshot) :
    List (String × Computed) :=
  let (ids, graph) := e.affectedIds roots
  Pass.findings { e with graph } (Pass.start e.snapshot previous) ids

theorem passFindings_eq {e : Evaluator} (h : e.graph.Sound) (roots : Option (List String))
    (previous : Snapshot) : e.passFindings roots previous =
      Pass.findings e.ordered (Pass.start e.snapshot previous) (e.affectedIds roots).1 := by
  have hgraph := (affectedIds_spec h roots).1
  rw [passFindings]
  generalize e.affectedIds roots = selected at hgraph ⊢
  obtain ⟨ids, graph⟩ := selected
  obtain rfl : graph = e.ordered.graph := hgraph
  rfl

/-- The pass visits what it finds something at. -/
theorem map_fst_passFindings {e : Evaluator} (h : e.graph.Sound) (roots : Option (List String))
    (previous : Snapshot) :
    (e.passFindings roots previous).map Prod.fst = e.visitedPaths roots := by
  rw [passFindings_eq h, Pass.map_fst_findings]
  rfl

/-- What the pass of a batch finds at the paths it visits, in order. No pass runs without entities,
unless the batch stores some. -/
def findings (e : Evaluator) (b : ChangeBatch) : List (String × Computed) :=
  if e.tree.isEmpty && !b.hasStructural then []
  else
    let p := (Progress.perform ⟨e, .empty⟩ b).rebuild.1
    p.evaluator.passFindings (passRoots p b) p.work.previous

open Classical in
/-- What an update says, given what its pass found at the paths it visited and the evaluator that it
left. -/
structure Reports (findings : List (String × Computed)) (e' : Evaluator) (u : Update) : Prop where
  /-- No path is visited twice. -/
  once : (findings.map Prod.fst).Nodup
  /-- Visited are nodes of the graph, in evaluation order. -/
  ordered : (findings.map Prod.fst).Sublist e'.evaluationOrder.1
  /-- The visits are counted. -/
  counted : u.diagnostics.affected = findings.length
  /-- The visited properties without fields ran, in order, whether they failed or not. -/
  ran : u.evaluationOrder = (findings.map Prod.fst).filter e'.tree.Valued
  /-- The visited paths that depend on themselves are listed, in order. -/
  cyclicPaths : u.cyclicPaths =
    (findings.map Prod.fst).filter fun path => e'.graph.Depends path path
  /-- A visited path on a cycle has one failure, which is the cycle. -/
  cycle : ∀ path found, (path, found) ∈ findings → e'.graph.Depends path path →
    u.errors.get? path = some [.cycle path]
  /-- A visited path that is on no cycle and whose expression failed has that failure alone. -/
  failed : ∀ path error, (path, .failed error) ∈ findings → ¬ e'.graph.Depends path path →
    u.errors.get? path = some [.expression error]
  /-- Any other visited path that is on no cycle has no failure. -/
  worked : ∀ path found, (path, found) ∈ findings → ¬ e'.graph.Depends path path →
    (∀ error, found ≠ .failed error) → u.errors.get? path = none
  /-- Neither has a path that is not visited. -/
  others : ∀ path, path ∉ findings.map Prod.fst → u.errors.get? path = none

/-- The update in which nothing happened. -/
theorem reports_empty (e : Evaluator) : Reports [] e .empty := by
  constructor <;> simp [Update.empty]

theorem runPass_cyclicPaths {e : Evaluator} (h : e.graph.Sound) (roots : Option (List String))
    (previous : Snapshot) :
    (e.runPass roots previous).2.2.cyclicPaths = (e.passOf roots previous).cyclicPaths ∧
      (e.runPass roots previous).2.2.diagnostics.affected = (e.visitedPaths roots).length := by
  have hgraph := (affectedIds_spec h roots).1
  rw [runPass, passOf, visitedPaths, PathGraph.paths, List.length_map]
  generalize e.affectedIds roots = selected at hgraph ⊢
  obtain ⟨ids, graph⟩ := selected
  obtain rfl : graph = e.ordered.graph := hgraph
  exact ⟨rfl, rfl⟩

open Classical in
/-- What a pass reports, by what it found. -/
theorem report_passOf {e : Evaluator} (h : e.graph.Sound) (roots : Option (List String))
    (previous : Snapshot) :
    let p := e.passOf roots previous
    p.evaluationOrder = (e.visitedPaths roots).filter e.tree.Valued ∧
      p.cyclicPaths = (e.visitedPaths roots).filter (fun path => e.graph.Depends path path) ∧
      (∀ path, path ∉ e.visitedPaths roots → p.errors.get? path = none) ∧
      ∀ path found, (path, found) ∈ e.passFindings roots previous → p.errors.get? path =
        (Pass.failureOf (e.graph.Depends path path) path found).map ([·]) := by
  obtain ⟨hran, hcyclic, hkept, hfound⟩ := Pass.report_foldl_visit (e := e.ordered)
    (fun path => e.graph.Depends path path) (nodup_visitedPaths h roots)
    (fun id hid => isCyclic_ordered h (get?_of_mem_affectedIds h hid).2)
    (Pass.start e.snapshot previous)
  refine ⟨hran, hcyclic, hkept, fun path found hm => hfound path found ?_ rfl⟩
  rw [← passFindings_eq h]
  exact hm

/-- **The pass of a batch** is reported as it went. -/
theorem reports_finish {p : Progress} (h : p.evaluator.graph.Sound) (b : ChangeBatch) :
    Reports (p.evaluator.passFindings (passRoots p b) p.work.previous) (finish p b).1
      (finish p b).2 := by
  classical
  have hpaths := map_fst_passFindings h (passRoots p b) p.work.previous
  obtain ⟨he, -, herrors, horder⟩ := runPass_eq h (passRoots p b) p.work.previous
  obtain ⟨hcyclic, hcount⟩ := runPass_cyclicPaths h (passRoots p b) p.work.previous
  obtain ⟨hran, hcycles, hothers, hfound⟩ := report_passOf h (passRoots p b) p.work.previous
  obtain ⟨-, ⟨keep, hkeep⟩, -⟩ := affectedIds_spec h (passRoots p b)
  rw [← herrors] at hothers hfound
  rw [← horder] at hran
  rw [← hcyclic] at hcycles
  have hnodup := nodup_visitedPaths h (passRoots p b)
  rw [← hpaths] at hran hcycles hothers hnodup hcount
  rw [finish_eq]
  simp only [he]
  refine ⟨hnodup, ?_, hcount.trans (List.length_map _), hran, hcycles, fun path found hm hd => ?_,
    fun path error hm hd => ?_, fun path found hm hd hf => ?_, hothers⟩
  · rw [hpaths, visitedPaths, hkeep]
    exact List.filter_sublist.map _
  · refine (hfound path found hm).trans ?_
    rw [decide_eq_true (show p.evaluator.graph.Depends path path from hd)]
    rfl
  · refine (hfound path _ hm).trans ?_
    rw [decide_eq_false (show ¬ p.evaluator.graph.Depends path path from hd)]
    rfl
  · refine (hfound path found hm).trans ?_
    rw [decide_eq_false (show ¬ p.evaluator.graph.Depends path path from hd)]
    cases found with
    | failed error => exact absurd rfl (hf error)
    | _ => rfl

/-- **An update reports its pass as it went**: take an evaluator that any calls lead to, successful
or refused, with any engine and any extractors. If a batch succeeds, then its update says which of
the visited properties ran, which visited paths are on cycles, and one failure for each path on a
cycle and for each other path whose expression failed. -/
theorem Evolves.reports {settings : Settings} {engine : Engine} {registry : Registry}
    {allowed : Call → Prop} {e e' : Evaluator}
    (h : Evolves allowed { ofEngine settings engine with registry } e) {b : ChangeBatch}
    {u : Update} (ha : e.apply b = (e', .ok u)) : Reports (e.findings b) e' u := by
  have hm : e.Mapped := h.mapped Tree.mapped_empty
  have hf : e.Filed := h.filed Tree.mapped_empty PathGraph.filed_empty
  have hv := validateAll_of_apply ha
  rw [apply, hv] at ha
  rw [findings]
  simp only at ha
  split at ha
  · rename_i hempty
    rw [if_pos hempty]
    cases ha
    exact reports_empty e
  · rename_i hempty
    rw [if_neg hempty]
    have hr := hf.rebuilt hm (proper_of_validateAll hv).structural
    obtain ⟨p, hp, rfl, rfl⟩ := applyChecked_eq_ok ha
    rw [hp] at hr ⊢
    exact reports_finish (p := p) hr.sound b

/-- An evaluator without entities whose engine has no value for any code. -/
def refusing : Evaluator :=
  { ofEngine .default ⟨fun _ _ => throw .outOfBudget⟩ with registry := .standard }

/-- A widget that shows what its code says. -/
def shows (name code : String) : EntityRecord :=
  ⟨(EntityConfig.ofName name .widget).withDynamicPath "text", ⟨[("text", .string code)]⟩⟩

/-- Two entities that read each other, one that reads them, and one without code. -/
def knot : ChangeBatch :=
  ([shows "A" "\x7b\x7b B.text \x7d\x7d", shows "B" "\x7b\x7b A.text \x7d\x7d",
    shows "C" "\x7b\x7b A.text \x7d\x7d", shows "D" "hello"] : List EntityRecord).foldl
    ChangeBatch.upsertEntity .empty

/-- With the engine that always fails, the two on the cycle are reported as such and the third as
failed, and all of them ran. -/
theorem reports_knot : ∃ e u, refusing.apply knot = (e, .ok u) ∧
    Reports (refusing.findings knot) e u ∧
    u.evaluationOrder = ["D.text", "A.text", "B.text", "C.text"] ∧
    u.cyclicPaths = ["A.text", "B.text"] ∧
    u.errors.entries.map (fun entry => (entry.1, entry.2.map PathError.kind)) =
      [("A.text", ["cycle"]), ("B.text", ["cycle"]), ("C.text", ["budget_exceeded"])] := by
  have hstart : Evolves (fun _ => True) refusing refusing := .start
  obtain ⟨u, ha, hu⟩ := exists_ok_of_toOption (x := refusing.apply knot)
    (f := fun u => (u.evaluationOrder, u.cyclicPaths,
      u.errors.entries.map fun entry => (entry.1, entry.2.map PathError.kind)))
    (b := (["D.text", "A.text", "B.text", "C.text"], ["A.text", "B.text"],
      [("A.text", ["cycle"]), ("B.text", ["cycle"]), ("C.text", ["budget_exceeded"])]))
    (by decide +kernel)
  simp only [Prod.mk.injEq] at hu
  exact ⟨_, u, ha, hstart.reports ha, hu⟩

end Evaluator

end Recalc
