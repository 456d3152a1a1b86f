import Recalc.Proofs.Evaluator.FullPass
import Recalc.Proofs.Evaluator.Report

/-!
# Loading over an older tree

A load removes the entities that are gone and stores all records anew, but it does so in the old
evaluator, whose values survive until the pass. The pass visits everything, so of the old values
only those can show that a path keeps because its expression fails (`Evaluator.Rerun`). Where no
such path is involved, an evaluator with any history has the values and the failures of a new one
that loads the same records (`Evaluator.Evolves.loads_anew`).

A history shows in a value that a failing path keeps, in a leaf of an object with improper keys, and
in what code reads without a dependency (`Evaluator.load_remembers`).
-/

namespace Recalc

/-! ### The loaded tree -/

/-- Removed entities are not found. -/
theorem Tree.get?_foldl_remove (names : List String) (t : Tree) (name : String) :
    ((names.map StructuralChange.remove).foldl Tree.change t).get? name =
      if name ∈ names then none else t.get? name := by
  induction names generalizing t with
  | nil => rfl
  | cons first names ih =>
    have hchange : (t.change (.remove first)).get? name =
        if name = first then none else t.get? name := Tree.get?_change t _ name
    rw [List.map_cons, List.foldl_cons, ih, hchange]
    by_cases hf : name = first <;> simp [hf]

/-- The loaded records are those that were given. -/
theorem Tree.mem_of_get?_foldl_upsert {records : List EntityRecord}
    (h : (records.map (·.name)).Nodup) {name : String} {r : EntityRecord}
    (hr : (records.foldl Tree.upsert .empty).get? name = some r) : r ∈ records := by
  by_cases hn : name ∈ records.map (·.name)
  · obtain ⟨r', hmem, rfl⟩ := List.mem_map.1 hn
    rw [(Tree.get?_foldl_upsert h _ _).1 r' hmem rfl] at hr
    exact Option.some.inj hr ▸ hmem
  · rw [(Tree.get?_foldl_upsert h _ _).2 hn] at hr
    cases hr

namespace Coherent

variable {e : Evaluator} (h : Coherent e (fun _ => False) (fun _ => False))
include h

/-- After a load the tree has the loaded records, whatever it had before. -/
theorem get?_of_load {e' : Evaluator} {records : List EntityRecord} {u : Update}
    (hr : Loadable records) (hl : e.load records = (e', .ok u)) (name : String) :
    e'.tree.get? name = (records.foldl Tree.upsert .empty).get? name := by
  have hstandard : Evaluator.Standard { e with evaluatedOnce := false } :=
    ⟨h.registry, h.tree.isNamed⟩
  obtain ⟨gone, hgone⟩ : ∃ gone, gone = e.tree.names.filter
    fun name => name ∉ records.map (·.name) := ⟨_, rfl⟩
  have htree : e'.tree = records.foldl Tree.upsert
      ((gone.map StructuralChange.remove).foldl Tree.change e.tree) := by
    rw [(hstandard.of_apply (Evaluator.load_eq_ok hl)).1, Tree.perform, Evaluator.loadBatch,
      ← hgone]
    simp only [List.foldl_append, List.foldl_map]
    rfl
  rw [htree]
  by_cases hn : name ∈ records.map (·.name)
  · obtain ⟨r, hmem, rfl⟩ := List.mem_map.1 hn
    rw [(Tree.get?_foldl_upsert hr.nodup _ _).1 r hmem rfl,
      (Tree.get?_foldl_upsert hr.nodup _ _).1 r hmem rfl]
  · rw [(Tree.get?_foldl_upsert hr.nodup _ _).2 hn, (Tree.get?_foldl_upsert hr.nodup _ _).2 hn,
      Tree.get?_foldl_remove]
    split
    · rfl
    · rename_i hout
      cases hget : e.tree.get? name with
      | none => rfl
      | some r =>
        have hname := h.tree.registered.2 ⟨r, hget⟩
        exact absurd (hgone ▸ List.mem_filter.2 ⟨hname, by simpa using hn⟩) hout

end Coherent

/-! ### What a full pass finds -/

/-- Other paths than leaves have no payloads. -/
theorem Coherent.payloadAt_eq_none {e : Evaluator} {pending dirty : String → Prop}
    (h : Coherent e pending dirty) {path : String} (hl : ¬ e.tree.Leaf path) :
    e.snapshot.payloadAt path = none := by
  rw [Snapshot.payloadAt, Option.eq_none_iff_forall_not_mem.2 fun value hv =>
    hl (h.stored path value hv)]
  rfl

/-- Other paths than leaves do not fail. -/
theorem Evaluator.failure?_compute_eq_none {e : Evaluator} {path : String}
    (hv : ¬ e.tree.Valued path) (s : Snapshot) : (e.compute s path).failure? = none := by
  rcases e.compute_cases s path with ⟨hvalued, -⟩ | ⟨-, hc | hc⟩
  · exact absurd hvalued hv
  · rw [hc]
    rfl
  · rw [hc]
    rfl

namespace Coherent

variable {e : Evaluator} {pending : String → Prop} (h : Coherent e pending (fun _ => False))
  (hengine : e.engine = .standard) (hp : e.tree.Plain) (previous : Snapshot)
include h

theorem mem_visitedPaths_none {path : String} : path ∈ e.visitedPaths none ↔ e.tree.Has path :=
  h.mem_visitedPaths.trans (and_iff_left fun _ he => by cases he)

include hengine hp

/-- The failures of a full pass are those of the grounded paths as they are computed afterwards. -/
theorem get?_errors_passOf {path : String} (hg : e.graph.Grounded path) :
    (e.passOf none previous).errors.get? path =
      (e.compute (e.passOf none previous).snapshot path).failure?.map ([·]) := by
  classical
  obtain ⟨-, -, hothers, hfound⟩ := Evaluator.report_passOf h.graph none previous
  have hreport : ∀ found, (path, found) ∈ e.passFindings none previous →
      (e.passOf none previous).errors.get? path = found.failure?.map ([·]) := by
    intro found hm
    rw [hfound path found hm, Pass.failureOf, decide_eq_false (hg.not_depends .refl)]
    rfl
  rw [Evaluator.passFindings_eq h.graph] at hreport
  by_cases hl : e.tree.Leaf path
  · obtain ⟨mid, -, hsame, hm, -⟩ := h.exists_visit_of_grounded hengine hp previous
      (fun _ he => by cases he) hl hg (h.mem_visitedPaths_none.2 hl.has)
    rw [hreport _ hm, hsame]
  · rw [h.tree.leaf_iff] at hl
    rw [Evaluator.failure?_compute_eq_none hl]
    by_cases hm : path ∈ e.visitedPaths none
    · obtain ⟨-, -, mid, -, -, -, -, -, hin, -⟩ := h.exists_visit previous hm
      rw [hreport _ hin, e.compute_ordered, Evaluator.failure?_compute_eq_none hl]
    · exact hothers path hm

/-- A grounded leaf that fails in a full pass is undefined afterwards, or it keeps its value. -/
theorem get?_passOf_of_failed {path : String} (hl : e.tree.Leaf path) (hg : e.graph.Grounded path)
    {error : ExprError}
    (hf : e.compute (e.passOf none previous).snapshot path = .failed error) :
    ∃ value, (e.passOf none previous).snapshot.get? path = some value ∧ (value = .undefined ∨
      e.settings.staleOnError = true ∧ e.snapshot.get? path = some value) := by
  obtain ⟨mid, hbefore, hsame, -, hvalue, -⟩ := h.exists_visit_of_grounded hengine hp previous
    (fun _ he => by cases he) hl hg (h.mem_visitedPaths_none.2 hl.has)
  refine ⟨_, hvalue, ?_⟩
  rw [Pass.leafValue_of_failed (by simp [hsame, hf]), Pass.fallback, hbefore]
  cases e.settings.staleOnError with
  | false => exact .inl rfl
  | true =>
    cases hold : e.snapshot.get? path with
    | none => exact .inl rfl
    | some value => exact .inr ⟨rfl, rfl⟩

end Coherent

/-! ### What a load leaves -/

/-- What a load leaves of an evaluator that had the old values, with its update. -/
structure Evaluator.Rerun (settings : Settings) (old : Snapshot) (e : Evaluator) (u : Update) : Prop
    extends e.Current settings where
  /-- The failures are those of the grounded paths. -/
  errors : ∀ path, e.graph.Grounded path →
    u.errors.get? path = (e.compute e.snapshot path).failure?.map ([·])
  /-- A grounded leaf that fails is undefined, or it keeps its old value. -/
  failed : ∀ path error, e.tree.Leaf path → e.graph.Grounded path →
    e.compute e.snapshot path = .failed error → ∃ value, e.snapshot.get? path = some value ∧
      (value = .undefined ∨ settings.staleOnError = true ∧ old.get? path = some value)

namespace Evaluator

/-- Without entities there is nothing to evaluate. -/
theorem rerun_of_isEmpty {e : Evaluator} {settings : Settings}
    (h : Coherent e (fun _ => False) (fun _ => False)) (hsettings : e.settings = settings)
    (hengine : e.engine = .standard) (hempty : e.tree.isEmpty = true) (old : Snapshot) :
    e.Rerun settings old .empty := by
  have hnone : ∀ name, e.tree.get? name = none := by
    intro name
    refine Option.eq_none_iff_forall_not_mem.2 fun r hr => ?_
    have hname := h.tree.registered.2 ⟨r, hr⟩
    rw [List.isEmpty_iff.1 hempty] at hname
    cases hname
  have hleaf : ∀ path, ¬ e.tree.Leaf path := by
    rintro path ⟨r, hr, -⟩
    rw [hnone] at hr
    cases hr
  refine ⟨⟨h, hsettings, hengine, fun name r hr => ?_, fun path hl => (hleaf path hl).elim⟩,
    fun path _ => ?_, fun path _ hl => (hleaf path hl).elim⟩
  · rw [hnone] at hr
    cases hr
  · rw [failure?_compute_eq_none (mt h.tree.leaf_iff.2 (hleaf path))]
    rfl

end Evaluator

namespace Coherent

open Evaluator

variable {e e' : Evaluator} (h : Coherent e (fun _ => False) (fun _ => False))
include h

/-- The full pass of a batch over plain records. -/
theorem rerun_finish {b : ChangeBatch} {p p' : Progress} (ha : e.Applies b p p')
    (hengine : e.engine = .standard) (hp : p'.evaluator.tree.Plain) (hfull : b.full = true) :
    (Evaluator.finish p' b).1.Rerun e.settings e.snapshot (Evaluator.finish p' b).2 := by
  obtain ⟨hsettings, hengine'⟩ := ha.fixed h
  have hroots : passRoots p' b = none := by rw [passRoots, hfull, Bool.true_or, if_pos rfl]
  have hcoherent : Coherent (Evaluator.finish p' b).1 (fun _ => False) (fun _ => False) := finish ha
  have hnone : ∀ list, (none : Option (List String)) = some list →
      ∀ path ∈ p'.work.roots.keys, path ∈ list := fun _ he => by cases he
  have hsteady := ha.coherent.steady_runPass (hengine'.trans hengine) hp p'.work.previous hnone
    fun path hl _ hm => absurd (ha.coherent.mem_visitedPaths_none.2 hl.has) hm
  obtain ⟨heval, -, herrors, -⟩ := runPass_eq ha.coherent.graph none p'.work.previous
  rw [finish_eq, hroots] at hcoherent ⊢
  simp only [heval] at hcoherent hsteady ⊢
  refine ⟨⟨hcoherent, hsettings, hengine'.trans hengine, hp,
    hsteady.of_compute_eq (compute_congr rfl rfl rfl rfl) rfl rfl rfl fun _ hg => hg⟩,
    fun path hg => ?_, fun path error hl hg hf => ?_⟩
  · have hreport := ha.coherent.get?_errors_passOf (hengine'.trans hengine) hp p'.work.previous hg
    rw [← herrors] at hreport
    exact hreport
  · obtain ⟨value, hv, hcases⟩ := ha.coherent.get?_passOf_of_failed (hengine'.trans hengine) hp
      p'.work.previous hl hg hf
    refine ⟨value, hv, hcases.imp_right ?_⟩
    rintro ⟨hstale, hold⟩
    rw [← hsettings]
    exact ⟨hstale, (h.tracks ha).stored _ _ hold⟩

/-- **What a load of plain records leaves** of an evaluator. -/
theorem rerun_of_load (hengine : e.engine = .standard) {records : List EntityRecord}
    (ht : (Call.load records).Tidy) (hp : (Call.load records).Plain) {u : Update}
    (hl : e.load records = (e', .ok u)) : e'.Rerun e.settings e.snapshot u := by
  have hloadable := loadable_of_checkNames (checkNames_of_load hl) ht
  have hplain : e'.tree.Plain := by
    intro name r hr
    rw [h.get?_of_load hloadable hl] at hr
    exact hp r (Tree.mem_of_get?_foldl_upsert hloadable.nodup hr)
  have hstart := h.withEvaluatedOnce false
  obtain ⟨hproper, ⟨hempty, -, rfl, rfl⟩ | hc⟩ := apply_eq_ok (load_eq_ok hl)
  · exact rerun_of_isEmpty hstart rfl hengine hempty _
  · obtain ⟨p, p', ha⟩ := hstart.applies hproper (tidy_loadBatch e.tree ht)
    rw [ha.result] at hc
    obtain ⟨rfl, hu⟩ := Prod.mk.inj hc
    obtain rfl := Except.ok.inj hu
    rw [tree_finish ha.coherent.graph] at hplain
    exact hstart.rerun_finish ha hengine hplain rfl

end Coherent

/-! ### Two loads of the same records -/

/-- The kinds and the wordings of the failures of a path. -/
def PathErrors.worded (errors : PathErrors) (path : String) : Option (List (String × String)) :=
  (errors.get? path).map (·.map fun error => (error.kind, error.message))

/-- Paths that turn out alike fail with the same words. -/
theorem Computed.Alike.worded {computed computed' : Computed} (h : Alike computed computed') :
    (computed.failure?.map ([·])).map (·.map fun error => (error.kind, error.message)) =
      (computed'.failure?.map ([·])).map (·.map fun error => (error.kind, error.message)) := by
  cases h with
  | value => rfl
  | failed h =>
    cases h with
    | malformed error => rfl
    | runtime h => exact congrArg (fun message => some [("runtime", message)]) h
    | outOfBudget => rfl

namespace Evaluator

/-- No old value can show at the path: its expression does not fail, or failing paths keep no
values, or there is no payload to keep. -/
def Untainted (settings : Settings) (old : Snapshot) (u : Update) (path : String) : Prop :=
  u.errors.get? path = none ∨ settings.staleOnError = false ∨
    ∀ value, old.get? path = some value → value.payload? = none

/-- A load over old values has come to the same as a load by a new evaluator, apart from paths at
which old values can show and from paths that depend on them. -/
structure SameLoad (settings : Settings) (old : Snapshot) (e : Evaluator) (u : Update)
    (f : Evaluator) (v : Update) : Prop where
  /-- There are values for the same paths. -/
  paths : ∀ path, (∃ value, e.snapshot.get? path = some value) ↔
    ∃ value, f.snapshot.get? path = some value
  /-- The failures are the same. -/
  errors : ∀ path, (∀ q, f.graph.Depends path q → Untainted settings old v q) →
    u.errors.worded path = v.errors.worded path
  /-- The payloads are the same. -/
  payloads : ∀ path, (∀ q, Relation.ReflTransGen f.graph.Reads path q →
    Untainted settings old v q) → e.snapshot.payloadAt path = f.snapshot.payloadAt path

/-- If failing paths keep no values, a load has come to the same throughout. -/
theorem SameLoad.of_not_stale {settings : Settings} {old : Snapshot} {e f : Evaluator}
    {u v : Update} (h : SameLoad settings old e u f v) (hs : settings.staleOnError = false)
    (path : String) :
    u.errors.worded path = v.errors.worded path ∧
      e.snapshot.payloadAt path = f.snapshot.payloadAt path :=
  ⟨h.errors path fun _ _ => .inr (.inl hs), h.payloads path fun _ _ => .inr (.inl hs)⟩

namespace Rerun

variable {settings : Settings} {old : Snapshot} {e f : Evaluator} {u v : Update}
  (he : e.Rerun settings old u) (hf : f.Rerun settings .empty v)
  (ht : ∀ name, f.tree.get? name = e.tree.get? name)
include he hf ht

/-- A leaf that is computed alike has the same payload in both, where no old value can show. -/
theorem payloadAt_eq_of_alike {path : String} (hg : f.graph.Grounded path) (hl : f.tree.Leaf path)
    (halike : Computed.Alike (f.compute f.snapshot path) (e.compute e.snapshot path))
    (hu : Untainted settings old v path) :
    f.snapshot.payloadAt path = e.snapshot.payloadAt path := by
  have hl' : e.tree.Leaf path := by rwa [Tree.Leaf, ← ht]
  have hg' := he.toCurrent.grounded hf.toCurrent ht hg
  have hreport := hf.errors path hg
  generalize hv : f.compute f.snapshot path = computed,
    hw : e.compute e.snapshot path = computed' at halike hreport
  cases halike with
  | value h => exact he.toCurrent.payloadAt_eq_of_value hf.toCurrent ht hg hl hv hw h
  | failed h =>
    obtain ⟨value, hvalue, hcases⟩ := hf.failed path _ hl hg hv
    obtain ⟨value', hvalue', hcases'⟩ := he.failed path _ hl' hg' hw
    have hnone : value.payload? = none := by
      rcases hcases with rfl | ⟨-, hold⟩
      · rfl
      · cases hold
    have hnone' : value'.payload? = none := by
      rcases hcases' with rfl | ⟨hstale, hold⟩
      · rfl
      · rcases hu with hu | hu | hu
        · rw [hu] at hreport
          cases hreport
        · rw [hu] at hstale
          cases hstale
        · exact hu value' hold
    rw [Snapshot.payloadAt, Snapshot.payloadAt, hvalue, hvalue', Option.map_some, Option.map_some,
      hnone, hnone']

/-- **Leaves turn out alike** where no old value can show in what they depend on. The induction is
on what a leaf depends on, where the leaves turned out alike and so have the same payloads. -/
theorem alike {path : String} (hg : f.graph.Grounded path)
    (hu : ∀ q, f.graph.Depends path q → Untainted settings old v q) (hl : f.tree.Leaf path) :
    Computed.Alike (f.compute f.snapshot path) (e.compute e.snapshot path) := by
  induction Acc.transGen hg with
  | intro path hacc ih =>
    refine he.toCurrent.compute_alike hf.toCurrent ht hl fun q hd hlq => ?_
    have hbelow : Relation.TransGen (fun target p => f.graph.Reads p target) q path :=
      Relation.transGen_swap.2 hd
    have hground : f.graph.Grounded q := acc_transGen_iff.1 (hacc q hbelow)
    exact he.payloadAt_eq_of_alike hf ht hground hlq
      (ih q hbelow hground (fun q' hq' => hu q' (hd.trans hq')) hlq) (hu q hd)

/-- **Two loads of the same records**, one of them by a new evaluator, come to the same. -/
theorem sameLoad (hg : ∀ path, f.graph.Grounded path) : SameLoad settings old e u f v := by
  have hleaf : ∀ path, f.tree.Leaf path ↔ e.tree.Leaf path := fun path => by
    rw [Tree.Leaf, Tree.Leaf, ht]
  refine ⟨fun path => ?_, fun path hu => ?_, fun path hu => ?_⟩
  · rw [he.coherent.exists_value_iff, hf.coherent.exists_value_iff, hleaf]
  · rw [PathErrors.worded, PathErrors.worded, hf.errors path (hg path),
      he.errors path (he.toCurrent.grounded hf.toCurrent ht (hg path))]
    by_cases hl : f.tree.Leaf path
    · exact (he.alike hf ht (hg path) hu hl).worded.symm
    · rw [failure?_compute_eq_none (mt hf.coherent.tree.leaf_iff.2 hl),
        failure?_compute_eq_none (mt he.coherent.tree.leaf_iff.2 (mt (hleaf path).2 hl))]
  · by_cases hl : f.tree.Leaf path
    · exact (he.payloadAt_eq_of_alike hf ht (hg path) hl
        (he.alike hf ht (hg path) (fun q hd => hu q hd.to_reflTransGen) hl) (hu path .refl)).symm
    · rw [hf.coherent.payloadAt_eq_none hl, he.coherent.payloadAt_eq_none (mt (hleaf path).2 hl)]

end Rerun

/-! ### Runs -/

/-- A batch that succeeds changes neither the settings nor the engine. -/
theorem fixed_of_apply {e e' : Evaluator} (h : Coherent e (fun _ => False) (fun _ => False))
    {b : ChangeBatch} (ht : b.Tidy) {u : Update} (ha : e.apply b = (e', .ok u)) :
    e'.settings = e.settings ∧ e'.engine = e.engine := by
  obtain ⟨hp, ⟨-, -, rfl, -⟩ | hc⟩ := apply_eq_ok ha
  · exact ⟨rfl, rfl⟩
  · obtain ⟨p, p', hap⟩ := h.applies hp ht
    rw [hap.result] at hc
    obtain rfl := (Prod.mk.inj hc).1
    rw [finish_eq]
    simp only [(runPass_eq hap.coherent.graph _ _).1]
    exact hap.fixed h

/-- No call changes the settings or the engine. -/
theorem Evolves.fixed {settings : Settings} {engine : Engine} {e : Evaluator}
    (h : Evolves Call.Tidy (ofEngine settings engine) e) :
    e.settings = settings ∧ e.engine = engine := by
  induction h with
  | start => exact ⟨rfl, rfl⟩
  | @call e c run ht ih =>
    have hperforms : ∀ {e'}, e.Performs c e' → e'.settings = e.settings ∧ e'.engine = e.engine := by
      intro e' hc
      cases hc with
      | update hu =>
        cases hu with
        | load hl =>
          have hstart := run.coherent.withEvaluatedOnce false
          have hfixed := fixed_of_apply hstart (tidy_loadBatch _ ht) (load_eq_ok hl)
          exact hfixed
        | apply ha => exact fixed_of_apply run.coherent ht ha
      | evaluate he =>
        rw [evaluate_eq_ok he]
        exact ⟨rfl, rfl⟩
      | evaluateAll => exact ⟨rfl, rfl⟩
    rcases (run.standard (.ofEngine settings engine)).after_cases c with hp | ⟨once, hr⟩
    · exact ⟨(hperforms hp).1.trans ih.1, (hperforms hp).2.trans ih.2⟩
    · rw [hr]
      exact ih
  | evaluationOrder _ ih => exact ih
  | cyclicPaths _ ih => exact ih
  | @affectedOrder e changed _ ih =>
    rcases e.affectedOrder_cases changed with ha | ha <;> rw [ha] <;> exact ih

/-- **A load does not depend on what was loaded before**: take an evaluator that tidy calls lead to,
refused ones included, and let it load plain records whose graph has no cycle. A new evaluator with
the same settings loads the same records, too, with values for the same paths. Where no path that
fails has an old value to keep, the failures are of the same kinds and worded the same, and the
payloads are the same. -/
theorem Evolves.loads_anew {settings : Settings} {e e' : Evaluator}
    (h : Evolves Call.Tidy (ofEngine { settings with timeBudget := 0 } .standard) e)
    {records : List EntityRecord} (ht : (Call.load records).Tidy)
    (hp : (Call.load records).Plain) {u : Update} (hl : e.load records = (e', .ok u))
    (hacyclic : ∀ path, ¬ e'.graph.Depends path path) :
    ∃ f v, (ofEngine { settings with timeBudget := 0 } .standard).load records = (f, .ok v) ∧
      SameLoad settings e.snapshot e' u f v := by
  obtain ⟨hsettings, hengine⟩ := h.fixed
  have hloadable := loadable_of_checkNames (checkNames_of_load hl) ht
  have hnew := Coherent.ofEngine { settings with timeBudget := 0 } Engine.standard
  obtain ⟨f, v, hload, hloaded⟩ := hnew.load_empty rfl hloadable
  have he := h.coherent.rerun_of_load hengine ht hp hl
  have hf := hnew.rerun_of_load rfl ht hp hload
  rw [hsettings] at he
  have htree : ∀ name, f.tree.get? name = e'.tree.get? name := fun name => by
    rw [hloaded, h.coherent.get?_of_load hloadable hl]
  refine ⟨f, v, hload, ?_⟩
  have hground : ∀ path, f.graph.Grounded path := fun path =>
    hf.toCurrent.grounded he.toCurrent (fun name => (htree name).symm)
      (he.coherent.graph.toIndexed.grounded_of_acyclic fun q _ => hacyclic q)
  have hsame := Rerun.sameLoad he hf htree hground
  exact ⟨hsame.paths, hsame.errors, hsame.payloads⟩

/-- An evaluator with an older tree loads a greeting and its echo as a new one does. -/
theorem loads_anew_echo : ∃ e e' f u v, e.tree.names = ["Reader"] ∧
    Evolves Call.Tidy unhurried e ∧ e.load [.echo, .greeting] = (e', .ok u) ∧
    (∀ path, ¬ e'.graph.Depends path path) ∧ unhurried.load [.echo, .greeting] = (f, .ok v) ∧
    SameLoad .default e.snapshot e' u f v := by
  obtain ⟨e, u₁, hl, hnames, hload, hrank⟩ : ∃ e u₁, unhurried.load [reader "text"] = (e, .ok u₁) ∧
      e.tree.names = ["Reader"] ∧ (e.load [.echo, .greeting]).2.toOption.isSome = true ∧
      (e.load [.echo, .greeting]).1.Ranked :=
    exists_ok_and_of_toOption (by decide +kernel) (by decide +kernel)
  have hrun : Evolves Call.Tidy unhurried e := by
    have htidy : (Call.load [reader "text"]).Tidy := fun r hr => by
      obtain rfl := List.mem_singleton.1 hr
      exact ⟨List.pairwise_singleton _ _, ⟨by decide, by decide⟩, trivial, trivial⟩
    have hafter : e = unhurried.after (.load [reader "text"]) := by rw [after, hl]
    exact hafter ▸ .call _ .start htidy
  obtain ⟨e', u, hl', hacyclic⟩ : ∃ e' u, e.load [.echo, .greeting] = (e', .ok u) ∧
      ∀ path, ¬ e'.graph.Depends path path :=
    exists_ok_and_of_toOption hload hrank.acyclic
  obtain ⟨f, v, hnew, hsame⟩ :=
    @Evolves.loads_anew .default e e' hrun _ loadable_echo.tidy plain_echo u hl' hacyclic
  exact ⟨e, e', f, u, v, hnames, hrun, hl', hacyclic, hnew, hsame⟩

/-! ### Histories that show -/

/-- After the first records, the second ones are loaded without a cycle, and yet the payload of a
path is not that in a new evaluator. -/
def Remembers (first records : List EntityRecord) (path : String) : Prop :=
  ∃ e e' f u u' v, unhurried.load first = (e, .ok u) ∧ e.load records = (e', .ok u') ∧
    (∀ path, ¬ e'.graph.Depends path path) ∧ unhurried.load records = (f, .ok v) ∧
    e'.snapshot.payloadAt path ≠ f.snapshot.payloadAt path

/-- A memory shows when the records are loaded, the evaluation order in the order of reading, and
only one of the evaluators with a payload. -/
theorem remembers_of_load {first records : List EntityRecord} {path : String}
    (h : let e := (unhurried.load first).1
      let e' := (e.load records).1
      let f := (unhurried.load records).1
      (unhurried.load first).2.toOption.isSome = true ∧
      (e.load records).2.toOption.isSome = true ∧
      (unhurried.load records).2.toOption.isSome = true ∧
      e'.Ranked ∧
      (e'.snapshot.payloadAt path).map Option.isSome ≠
        (f.snapshot.payloadAt path).map Option.isSome) : Remembers first records path := by
  obtain ⟨hfirst, hsecond, hnew, hrank, hne⟩ := h
  obtain ⟨f, v, hf, hnef⟩ := exists_ok_and_of_toOption hnew
    (P := fun f => (((unhurried.load first).1.load records).1.snapshot.payloadAt path).map
      Option.isSome ≠ (f.snapshot.payloadAt path).map Option.isSome) hne
  generalize hx : unhurried.load first = x at hfirst hsecond hrank hnef
  obtain ⟨e, rejection | u⟩ := x
  · cases hfirst
  · generalize hy : e.load records = y at hsecond hrank hnef
    obtain ⟨e', rejection | u'⟩ := y
    · cases hsecond
    · exact ⟨e, e', f, u, u', v, hx, hy, hrank.acyclic, hf,
        fun he => hnef (congrArg (Option.map Option.isSome) he)⟩

/-- An entity whose leaf has the path of another key, and is left behind. -/
def crooked : EntityRecord :=
  ⟨.ofName "Crooked" .widget,
    ⟨[("a", .object [("", .string "left")]), ("a.", .object [("c", .null)])]⟩⟩

/-- **What is remembered**: the value of a path that fails now; a leaf behind a key with a
separator; and what code reads that no dependency stands for: in an instance of a visual module, of
an entity that is named by a keyword, and past a path that no look-up follows for its keys. -/
theorem load_remembers :
    Remembers [reader "\x7b\x7b 1 \x7d\x7d"] [reader "\x7b\x7b 1 + \x7d\x7d"] "Reader.text" ∧
    Remembers [crooked] [.greeting] "Crooked.a." ∧
    Remembers [visual, .greeting] [visual, .greeting] "Module.text" ∧
    Remembers [reader "\x7b\x7b this.text \x7d\x7d", keyword]
      [reader "\x7b\x7b this.text \x7d\x7d", keyword] "Reader.text" ∧
    (let records := [reader "\x7b\x7b Basket.items.length \x7d\x7d",
      basket [] [("items.length", .null)]]
    Remembers records records "Reader.text") ∧
    (let records := [reader "\x7b\x7b Basket.items.length \x7d\x7d",
      basket [("", .object [("items", .object [("length", .null)])])] []]
    Remembers records records "Reader.text") :=
  ⟨remembers_of_load (by decide +kernel), remembers_of_load (by decide +kernel),
    remembers_of_load (by decide +kernel), remembers_of_load (by decide +kernel),
    remembers_of_load (by decide +kernel), remembers_of_load (by decide +kernel)⟩

end Evaluator

end Recalc
