import Recalc.Proofs.Evaluator.Incremental
import Recalc.Proofs.Evaluator.Update

/-!
# A full pass over an unchanged tree

Where all leaves are steady, each visit stores what is stored already, so a full pass leaves the
values as they are, and its update has no patches (`Evaluator.apply_evaluateAll`). After a run over
plain records whose graph has no cycle all leaves are steady, those included that fail
(`Evaluator.Reaches.evaluateAll_idle`).

Without one of the conditions on the records, code can read a leaf that no dependency stands for.
If the leaf comes behind the code in the order, then only a further pass has its value for the code
(`Evaluator.load_relapses`).
-/

namespace Recalc

/-! ### Visits of steady leaves -/

namespace Pass

variable {e : Evaluator} (h : e.tree.Regular)
include h

/-- A visit of a path whose leaf is steady stores what is stored already. -/
theorem snapshot_visit (p : Pass) {id : Nat} (hp : e.tree.Has (e.graph.path id))
    (hs : e.tree.Leaf (e.graph.path id) → e.SteadyAt p.snapshot (e.graph.path id)) :
    (p.visit e id).snapshot = p.snapshot := by
  obtain ⟨hvisited, hstored, -⟩ := visit_spec h p hp
  refine Snapshot.ext_get? fun q => ?_
  by_cases hq : q ∈ [e.graph.path id] ∧ e.tree.Leaf q
  · obtain ⟨hself, hl⟩ := hq
    obtain rfl := List.mem_singleton.1 hself
    rw [hstored hl, hs hl]
    exact congrArg some (leafValue_congr rfl rfl rfl)
  · exact hvisited.kept q hq

/-- **Visits of steady leaves** leave all values as they are. -/
theorem snapshot_foldl_visit {s : Snapshot} (hs : ∀ path, e.tree.Leaf path → e.SteadyAt s path)
    {ids : List Nat} (hp : ∀ id ∈ ids, e.tree.Has (e.graph.path id)) {p : Pass}
    (hsnapshot : p.snapshot = s) : (ids.foldl (visit e) p).snapshot = s := by
  induction ids generalizing p with
  | nil => exact hsnapshot
  | cons id ids ih =>
    obtain ⟨hid, hrest⟩ := List.forall_mem_cons.1 hp
    refine ih hrest ?_
    rw [snapshot_visit h p hid fun hl => hsnapshot ▸ hs _ hl, hsnapshot]

end Pass

namespace Evaluator

variable {e : Evaluator} (h : Coherent e (fun _ => False) (fun _ => False))
include h

/-- A pass over steady leaves leaves all values as they are. -/
theorem snapshot_passOf (hs : ∀ path, e.tree.Leaf path → e.SteadyAt e.snapshot path)
    (roots : Option (List String)) (previous : Snapshot) :
    (e.passOf roots previous).snapshot = e.snapshot := by
  have hsame : e.ordered.compute = e.compute := e.compute_ordered
  have htree : e.ordered.tree.Regular := h.tree
  refine Pass.snapshot_foldl_visit htree (fun path hl => ?_) (fun id hid => ?_) rfl
  · exact (hs path hl).congr (by rw [hsame]) rfl rfl
  · obtain ⟨hn, hpath⟩ := h.get?_of_mem_affectedIds hid
    exact h.has_iff_node.2 ⟨id, hn, hpath⟩

omit h in
/-- An update about no changes has no patches if the paths that ran have the values noted for
them. -/
theorem patches_updateOf_evaluateAll {previous snapshot : Snapshot} {result : PassResult}
    (hsame : ∀ path ∈ result.evaluationOrder, previous.get? path = snapshot.get? path) :
    (updateOf (.evaluateAll .empty) false [] previous snapshot result).patches = [] := by
  rw [updateOf_patches]
  change Patch.diff previous snapshot (listed (.evaluateAll .empty) snapshot [] result) = []
  refine List.eq_nil_iff_forall_not_mem.2 fun patch hpatch => ?_
  obtain ⟨path, hlisted, hat⟩ := Patch.mem_diff.1 hpatch
  have hran : path ∈ result.evaluationOrder := by
    simpa [listed, mem_removedPaths, ChangeBatch.evaluateAll, ChangeBatch.empty,
      PendingSet.empty] using hlisted
  rw [Patch.at?_eq_none (hsame path hran)] at hat
  cases hat

/-- **A full pass over steady leaves has no patches** and leaves all values as they are, unless its
update is a first one. -/
theorem apply_evaluateAll (hs : ∀ path, e.tree.Leaf path → e.SteadyAt e.snapshot path)
    (ho : e.tree.isEmpty = true ∨ e.evaluatedOnce = true) :
    ∃ e' u, e.apply (.evaluateAll .empty) = (e', .ok u) ∧ u.patches = [] ∧
      e'.snapshot = e.snapshot := by
  have hv : e.validateAll [.evaluateAll .empty] = .ok () := validateAll_empty
  rw [apply, hv]
  simp only
  split
  · exact ⟨_, _, rfl, rfl, rfl⟩
  · rename_i hempty
    have hfirst : e.evaluatedOnce = true := by
      refine ho.resolve_left fun ht => hempty ?_
      rw [ht]
      rfl
    -- No change is made and nothing is queued, so there is only the pass.
    have hresult : e.applyChecked (.evaluateAll .empty) =
        let result := e.runPass none .empty
        ({ result.1 with evaluatedOnce := true },
          .ok (updateOf (.evaluateAll .empty) (!e.evaluatedOnce) [] result.2.1 result.1.snapshot
            result.2.2)) := rfl
    have hkept := snapshot_passOf h hs none .empty
    have hvisited := h.visited_passOf none .empty
    obtain ⟨heval, hprevious, -, horder⟩ := runPass_eq h.graph none .empty
    rw [hresult]
    refine ⟨_, _, rfl, ?_, ?_⟩
    · rw [hfirst]
      refine patches_updateOf_evaluateAll fun path hran => ?_
      rw [horder, hvisited.ran] at hran
      obtain ⟨hm, hl⟩ := hran.resolve_left List.not_mem_nil
      rw [hprevious, heval, hvisited.noted path hm hl]
      exact congrArg (·.get? path) hkept.symm
    · rw [heval]
      exact hkept

end Evaluator

/-! ### Runs -/

namespace Evaluator

/-- The next update of an evaluator with entities is no first one. -/
theorem Reaches.evaluatedOnce {allowed : Call → Prop} {settings : Settings} {engine : Engine}
    {e : Evaluator} (h : Reaches allowed (ofEngine settings engine) e) :
    e.tree.isEmpty = true ∨ e.evaluatedOnce = true := by
  induction h with
  | start => exact .inl rfl
  | call _ _ hp ih =>
    cases hp with
    | update hu =>
      cases hu with
      | load hl =>
        rcases (apply_eq_ok (load_eq_ok hl)).2 with ⟨hempty, -, rfl, -⟩ | hc
        · exact .inl hempty
        · exact .inr (evaluatedOnce_of_applyChecked hc)
      | apply ha =>
        rcases (apply_eq_ok ha).2 with ⟨-, -, rfl, -⟩ | hc
        · exact ih
        · exact .inr (evaluatedOnce_of_applyChecked hc)
    | evaluate he =>
      rw [evaluate_eq_ok he]
      exact ih
    | evaluateAll => exact .inr rfl

/-- **A full pass over an unchanged tree finds nothing to do**: take an evaluator that a run over
plain records reaches from an empty one, and whose graph has no cycle. Then a batch that asks for
everything to be evaluated succeeds without patches and leaves every value as it is, those of paths
included whose expression fails. -/
theorem Reaches.evaluateAll_idle {settings : Settings} {e : Evaluator}
    (h : Reaches (fun c => c.Tidy ∧ c.Plain)
      (ofEngine { settings with timeBudget := 0 } .standard) e)
    (hacyclic : ∀ path, ¬ e.graph.Depends path path) :
    ∃ e' u, e.apply (.evaluateAll .empty) = (e', .ok u) ∧ u.patches = [] ∧
      e'.snapshot = e.snapshot := by
  have he := h.current
  refine apply_evaluateAll he.coherent (fun path hl => he.steady path hl ?_) h.evaluatedOnce
  exact he.coherent.graph.toIndexed.grounded_of_acyclic fun q _ => hacyclic q

/-- After the greeting has changed, a full pass finds nothing to do. -/
theorem evaluateAll_idle_greeted : ∃ e e' u, e.tree.names = ["Echo", "Greeting"] ∧
    Reaches (fun c => c.Tidy ∧ c.Plain)
      (ofEngine { Settings.default with timeBudget := 0 } .standard) e ∧
    (∀ path, ¬ e.graph.Depends path path) ∧
    e.apply (.evaluateAll .empty) = (e', .ok u) ∧ u.patches = [] ∧ e'.snapshot = e.snapshot := by
  have hr := reaches_greeted { Settings.default with timeBudget := 0 }
  have hacyclic := (greeted { Settings.default with timeBudget := 0 }).graph.acyclic_of_rank
    ["Greeting.text", "Greeting", "Echo.text", "Echo"].idxOf (by decide +kernel)
  obtain ⟨e', u, hidle⟩ := hr.evaluateAll_idle hacyclic
  exact ⟨_, e', u, by decide +kernel, hr, hacyclic, hidle⟩

/-! ### Reads without a dependency -/

/-- An evaluator without entities and without a limit of time. -/
def unhurried : Evaluator := ofEngine { Settings.default with timeBudget := 0 } .standard

/-- The records load, the graph has no cycle then, and yet a full pass changes values. -/
def Relapsing (records : List EntityRecord) : Prop :=
  ∃ e u, unhurried.load records = (e, .ok u) ∧ (∀ path, ¬ e.graph.Depends path path) ∧
    ∃ e' u', e.apply (.evaluateAll .empty) = (e', .ok u') ∧ u'.patches ≠ []

/-- No path reads one at its place or behind it in the evaluation order. -/
def Ranked (e : Evaluator) : Prop :=
  ∀ a < e.graph.ids.size, ∀ b ∈ e.graph.graph.dependencies a,
    e.evaluationOrder.1.idxOf (e.graph.path b) < e.evaluationOrder.1.idxOf (e.graph.path a)

instance (e : Evaluator) : Decidable e.Ranked :=
  inferInstanceAs (Decidable (∀ a < e.graph.ids.size, ∀ b ∈ e.graph.graph.dependencies a,
    e.evaluationOrder.1.idxOf (e.graph.path b) < e.evaluationOrder.1.idxOf (e.graph.path a)))

theorem Ranked.acyclic {e : Evaluator} (h : e.Ranked) (path : String) :
    ¬ e.graph.Depends path path :=
  e.graph.acyclic_of_rank (e.evaluationOrder.1.idxOf ·) h path

/-- A relapse shows when the records are loaded, the evaluation order in the order of reading, and
the pass with patches. -/
theorem relapsing_of_load {records : List EntityRecord}
    (h : let e := (unhurried.load records).1
      (unhurried.load records).2.toOption.isSome = true ∧ e.Ranked ∧
      (e.apply (.evaluateAll .empty)).2.toOption.any (!·.patches.isEmpty) = true) :
    Relapsing records := by
  obtain ⟨hload, hrank, hpatch⟩ := h
  obtain ⟨e, result, hl⟩ : ∃ e result, unhurried.load records = (e, result) := ⟨_, _, rfl⟩
  rw [hl] at hload hrank hpatch
  cases result with
  | error rejection => cases hload
  | ok u =>
    refine ⟨e, u, hl, hrank.acyclic, ?_⟩
    obtain ⟨e', result', ha⟩ : ∃ e' result', e.apply (.evaluateAll .empty) = (e', result') :=
      ⟨_, _, rfl⟩
    rw [ha] at hpatch
    cases result' with
    | error rejection => cases hpatch
    | ok u' =>
      refine ⟨e', u', ha, fun hnone => ?_⟩
      rw [Except.toOption, Option.any_some, hnone] at hpatch
      cases hpatch

/-- A widget with code. -/
def reader (code : String) : EntityRecord :=
  ⟨(EntityConfig.ofName "Reader" .widget).withDynamicPath "text", ⟨[("text", .string code)]⟩⟩

/-- An instance of a visual module with code: it tells of no dependencies. -/
def visual : EntityRecord :=
  ⟨((EntityConfig.ofName "Module" .moduleInstance).withModuleType .ui).withDynamicPath "text",
    ⟨[("text", .string "\x7b\x7b Greeting.text \x7d\x7d")]⟩⟩

/-- An entity with the name of a keyword. -/
def keyword : EntityRecord := ⟨.ofName "this" .widget, ⟨[("text", .string "hello")]⟩⟩

/-- An entity with items, and with other fields before and behind them. -/
def basket (first last : List (String × Json)) : EntityRecord :=
  ⟨.ofName "Basket" .widget, ⟨first ++ ("items", .array []) :: last⟩⟩

/-- Code reads a leaf that no dependency stands for: in an instance of a visual module, of an entity
that is named by a keyword, and past a path that no look-up follows for its keys, one of which has a
separator, or has no characters. Right after loading each of these trees, a full pass changes a
value. -/
theorem load_relapses :
    Relapsing [visual, .greeting] ∧
    Relapsing [reader "\x7b\x7b this.text \x7d\x7d", keyword] ∧
    Relapsing [reader "\x7b\x7b Basket.items.length \x7d\x7d",
      basket [] [("items.length", .null)]] ∧
    Relapsing [reader "\x7b\x7b Basket.items.length \x7d\x7d",
      basket [("", .object [("items", .object [("length", .null)])])] []] :=
  ⟨relapsing_of_load (by decide +kernel), relapsing_of_load (by decide +kernel),
    relapsing_of_load (by decide +kernel), relapsing_of_load (by decide +kernel)⟩

end Evaluator

end Recalc
