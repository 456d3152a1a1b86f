import Recalc.Proofs.Evaluator.Frame
import Recalc.Proofs.Evaluator.Indices

/-!
# Incremental evaluation agrees with evaluation from scratch

Every call of a run leaves the leaves steady (`Current.performs`), and settled leaves of two
evaluators over the same records have the same payloads, as far as nothing that they depend on
fails or lies on a cycle (`Current.payloadAt_eq`). A new evaluator over the records of a tree is
such an evaluator, so the history of a tree does not show in its values
(`Reaches.agrees_with_reload`).
-/

namespace Recalc

/-! ### Batches of plain records -/

/-- The record is plain, if one is stored. -/
def StructuralChange.Plain : StructuralChange → Prop
  | .upsert record => record.config.Plain
  | .remove _ => True

/-- The stored records are plain. -/
def Call.Plain : Call → Prop
  | load records => ∀ r ∈ records, r.config.Plain
  | apply batch => ∀ c ∈ batch.structural, c.Plain
  | _ => True

/-- A batch that replaces the records of a tree with plain ones stores plain records only. -/
theorem Evaluator.plain_loadBatch (tree : Tree) {records : List EntityRecord}
    (h : (Call.load records).Plain) :
    ∀ c ∈ (loadBatch tree records).structural, c.Plain := by
  intro c hc
  rw [loadBatch, List.mem_append, List.mem_map, List.mem_map] at hc
  rcases hc with ⟨name, -, rfl⟩ | ⟨r, hr, rfl⟩
  · trivial
  · exact h r hr

namespace Tree.Plain

variable {t : Tree} (h : t.Plain)
include h

theorem upsert {r : EntityRecord} (hr : r.config.Plain) : (t.upsert r).Plain := by
  intro name r' hr'
  rw [get?_upsert] at hr'
  split at hr'
  · exact Option.some.inj hr' ▸ hr
  · exact h name r' hr'

theorem change {c : StructuralChange} (hc : c.Plain) : (t.change c).Plain := by
  intro q r hr
  rw [get?_change] at hr
  split at hr
  · cases c with
    | upsert record => exact Option.some.inj hr ▸ hc
    | remove name => cases hr
  · exact h q r hr

theorem write (w : String × Json) : (t.write w).Plain := by
  rw [Tree.write]
  split
  · exact h
  · rename_i record hr
    refine h.upsert ?_
    rw [EntityRecord.config_set]
    exact h _ record hr

/-- Storing plain records and writing values keeps the records of a tree plain. -/
theorem perform {b : ChangeBatch} (hb : ∀ c ∈ b.structural, c.Plain) : (t.perform b).Plain := by
  have hchanged : (b.structural.foldl Tree.change t).Plain :=
    List.foldlRecOn b.structural Tree.change h fun _ ht c hc => ht.change (hb c hc)
  exact List.foldlRecOn b.values Tree.write hchanged fun _ ht w _ => ht.write w

end Tree.Plain

/-! ### Runs keep leaves steady -/

/-- The evaluator runs the expression language with the given settings over plain records, and all
it stores is up to date. -/
structure Evaluator.Current (e : Evaluator) (settings : Settings) : Prop where
  /-- The indices match the tree. -/
  coherent : Coherent e (fun _ => False) (fun _ => False)
  /-- The settings are the given ones. -/
  settings_eq : e.settings = settings
  /-- The engine is that of the expression language. -/
  engine_eq : e.engine = .standard
  /-- The records are plain. -/
  plain : e.tree.Plain
  /-- The leaves are steady. -/
  steady : e.Steady

namespace Evaluator.Current

variable {e e' : Evaluator} {settings : Settings}

/-- A new evaluator has no leaves. -/
theorem start (settings : Settings) : (ofEngine settings .standard).Current settings where
  coherent := .ofEngine settings .standard
  settings_eq := rfl
  engine_eq := rfl
  plain name r hr := by cases hr
  steady path hl := by
    obtain ⟨r, hr, -⟩ := hl
    cases hr

section

variable (h : e.Current settings)
include h

theorem settled : e.Settled := h.steady.settled

theorem withEvaluatedOnce (evaluatedOnce : Bool) :
    ({ e with evaluatedOnce } : Evaluator).Current settings :=
  ⟨h.coherent.withEvaluatedOnce evaluatedOnce, h.settings_eq, h.engine_eq, h.plain,
    h.steady.of_compute_eq (compute_congr rfl rfl rfl rfl) rfl rfl rfl fun _ hg => hg⟩

/-- A pass without a batch keeps the leaves steady, whatever it visits. -/
theorem runPass (roots : Option (List String)) (previous : Snapshot) :
    (e.runPass roots previous).1.Current settings := by
  have hroots : ∀ list, roots = some list → ∀ path, False → path ∈ list :=
    fun _ _ _ hf => hf.elim
  refine ⟨h.coherent.runPass previous hroots, ?_, ?_, ?_, ?_⟩
  · rw [(runPass_eq h.coherent.graph roots previous).1]
    exact h.settings_eq
  · rw [(runPass_eq h.coherent.graph roots previous).1]
    exact h.engine_eq
  · rw [(runPass_eq h.coherent.graph roots previous).1]
    exact h.plain
  · exact h.coherent.steady_runPass h.engine_eq h.plain previous hroots
      fun path hl hg _ => h.steady path hl hg

/-- The records are plain after the changes of a batch of plain records. -/
theorem plain_applies {b : ChangeBatch} {p p' : Progress} (ha : e.Applies b p p')
    (hb : ∀ c ∈ b.structural, c.Plain) : p'.evaluator.tree.Plain := by
  obtain ⟨graph, readers, reads, roots, hf⟩ := ha.rebuilt.fixed
  rw [hf, ha.performed]
  change Tree.Plain (Progress.perform ⟨e, .empty⟩ b).evaluator.tree
  rw [(Progress.turns_perform ⟨e, .empty⟩ b).tree]
  exact h.plain.perform hb

theorem finish {b : ChangeBatch} {p p' : Progress} (ha : e.Applies b p p')
    (hb : ∀ c ∈ b.structural, c.Plain) : (Evaluator.finish p' b).1.Current settings := by
  have hplain := h.plain_applies ha hb
  obtain ⟨hsettings, hengine⟩ := ha.fixed h.coherent
  have hsteady := ha.coherent.steady_runPass (hengine.trans h.engine_eq) hplain
    p'.work.previous ha.mem_passRoots fun path hl hg hm =>
      ha.steadyAt_of_not_visited h.coherent ha.mem_passRoots h.steady h.engine_eq h.plain hplain
        hl hg hm
  have hcoherent : Coherent (Evaluator.finish p' b).1 (fun _ => False) (fun _ => False) :=
    Coherent.finish ha
  rw [finish_eq] at hcoherent ⊢
  simp only [(runPass_eq ha.coherent.graph _ _).1] at hcoherent hsteady ⊢
  exact ⟨hcoherent, hsettings.trans h.settings_eq, hengine.trans h.engine_eq, hplain,
    hsteady.of_compute_eq (compute_congr rfl rfl rfl rfl) rfl rfl rfl fun _ hg => hg⟩

/-- A successful batch of plain records keeps the leaves steady. -/
theorem apply {b : ChangeBatch} (ht : b.Tidy) (hb : ∀ c ∈ b.structural, c.Plain) {u : Update}
    (ha : e.apply b = (e', .ok u)) : e'.Current settings := by
  obtain ⟨hp, ⟨-, -, rfl, -⟩ | hc⟩ := apply_eq_ok ha
  · exact h
  · obtain ⟨p, p', hap⟩ := h.coherent.applies hp ht
    rw [hap.result] at hc
    obtain rfl := (Prod.mk.inj hc).1
    exact h.finish hap hb

/-- The update of a full batch reports every leaf that fails afterwards, apart from those that
depend on a cycle. -/
theorem reported {b : ChangeBatch} (ht : b.Tidy) (hb : ∀ c ∈ b.structural, c.Plain)
    (hfull : b.full = true) {u : Update} (ha : e.apply b = (e', .ok u)) {path : String}
    {error : ExprError} (hl : e'.tree.Leaf path) (hg : e'.graph.Grounded path)
    (hf : e'.compute e'.snapshot path = .failed error) : u.errors.contains path = true := by
  obtain ⟨hp, ⟨hempty, -, rfl, -⟩ | hc⟩ := apply_eq_ok ha
  · obtain ⟨r, hr, -⟩ := hl
    have hname := h.coherent.tree.registered.2 ⟨r, hr⟩
    rw [List.isEmpty_iff.1 hempty] at hname
    cases hname
  · obtain ⟨p, p', hap⟩ := h.coherent.applies hp ht
    rw [hap.result] at hc
    obtain ⟨rfl, hu⟩ := Prod.mk.inj hc
    obtain rfl := Except.ok.inj hu
    have hroots : passRoots p' b = none := by rw [passRoots, hfull, Bool.true_or, if_pos rfl]
    obtain ⟨heval, -, herrors, -⟩ := runPass_eq hap.coherent.graph none p'.work.previous
    rw [finish_eq, hroots] at hl hg hf ⊢
    simp only [heval] at hl hg hf
    change (p'.evaluator.runPass none p'.work.previous).2.2.errors.contains path = true
    rw [herrors]
    have hvisited : path ∈ p'.evaluator.visitedPaths none :=
      hap.coherent.mem_visitedPaths.2 ⟨hl.has, fun list he => (by cases he)⟩
    exact (hap.coherent.steadyAt_passOf_of_mem ((hap.fixed h.coherent).2.trans h.engine_eq)
      (h.plain_applies hap hb) p'.work.previous (fun list he => (by cases he)) hl hg
      hvisited).2 error hf

/-- **Every successful call over plain records keeps the leaves steady.** -/
theorem performs {c : Call} (ht : c.Tidy) (hp : c.Plain) (hc : e.Performs c e') :
    e'.Current settings := by
  cases hc with
  | update hu =>
    cases hu with
    | load ha =>
      exact (h.withEvaluatedOnce false).apply (tidy_loadBatch _ ht) (plain_loadBatch _ hp)
        (load_eq_ok ha)
    | apply ha => exact h.apply ht hp ha
  | evaluate ha =>
    rw [evaluate_eq_ok ha]
    exact h.runPass _ _
  | evaluateAll => exact (h.runPass none .empty).withEvaluatedOnce true

end

end Evaluator.Current

/-- A run over plain records keeps the leaves steady. -/
theorem Evaluator.Reaches.current {settings : Settings} {e : Evaluator}
    (h : Reaches (fun c => c.Tidy ∧ c.Plain) (ofEngine settings .standard) e) :
    e.Current settings := by
  induction h with
  | start => exact .start settings
  | call _ hc hp ih => exact ih.performs hc.1 hc.2 hp

/-! ### Two evaluators over the same records -/

namespace Evaluator.Current

variable {e f : Evaluator} {settings : Settings} (he : e.Current settings)
  (hf : f.Current settings) (ht : ∀ name, f.tree.get? name = e.tree.get? name)
include he hf ht

/-- Leaves are computed alike over the same records, if what they depend on has one payload. -/
theorem compute_alike {path : String} (hl : f.tree.Leaf path)
    (hsame : ∀ q, f.graph.Depends path q → f.tree.Leaf q →
      f.snapshot.payloadAt q = e.snapshot.payloadAt q) :
    Computed.Alike (f.compute f.snapshot path) (e.compute e.snapshot path) := by
  have hhas : ∀ q, f.tree.Has q ↔ e.tree.Has q := fun q => by rw [Tree.Has, Tree.Has, ht]
  have hleaf : ∀ q, f.tree.Leaf q ↔ e.tree.Leaf q := fun q => by rw [Tree.Leaf, Tree.Leaf, ht]
  obtain ⟨r, raw, hat⟩ := hf.coherent.tree.leaf_iff.1 hl
  have hat' : e.tree.LeafAt path r raw := ⟨ht _ ▸ hat.found, hat.proper, hat.value, hat.leaf⟩
  refine hf.coherent.compute_alike_of_depends he.coherent hf.engine_eq he.engine_eq
    (he.settings_eq.trans hf.settings_eq.symm) hf.plain he.plain hf.coherent.stored
    he.coherent.stored hat hat' rfl (fun _ chain _ => ?_) (fun target hr => ?_)
    (fun target q _ _ value hv => (hleaf q).2 (he.coherent.stored q value hv))
    fun q hd hq => ⟨(hf.coherent.pending q hq).resolve_right id, hsame q hd hq⟩
  · rw [Bool.eq_iff_iff, Tree.contains_iff, Tree.contains_iff, ht]
  · have htarget := hf.coherent.has_iff_node.2 (hf.coherent.graph.node_of_reads hr).2
    exact (hhas target).1 htarget

/-- The same paths are grounded over the same records. -/
theorem grounded {path : String} (hg : f.graph.Grounded path) : e.graph.Grounded path := by
  have hrel : (fun target p => e.graph.Reads p target) = fun target p => f.graph.Reads p target :=
    funext fun target => funext fun p => propext (he.coherent.reads_congr hf.coherent ht).symm
  rw [PathGraph.Grounded, hrel]
  exact hg

/-- A grounded leaf that is computed alike and does not fail has the same payload. -/
theorem payloadAt_eq_of_value {path : String} (hg : f.graph.Grounded path) (hl : f.tree.Leaf path)
    {v w : Value} (hv : f.compute f.snapshot path = .value v)
    (hw : e.compute e.snapshot path = .value w) (hvw : SamePayload v w) :
    f.snapshot.payloadAt path = e.snapshot.payloadAt path := by
  have hl' : e.tree.Leaf path := by rwa [Tree.Leaf, ← ht]
  rw [hf.settled path hl hg v hv, he.settled path hl' (he.grounded hf ht hg) w hw, hvw]

/-- A leaf of settled evaluators over the same records has the same payload in both, if it does not
fail in one of them and what it depends on has the same payloads. -/
theorem payloadAt_eq_of_depends {path : String} (hg : f.graph.Grounded path)
    (hl : f.tree.Leaf path) (hok : ∀ error, f.compute f.snapshot path ≠ .failed error)
    (hsame : ∀ q, f.graph.Depends path q → f.tree.Leaf q →
      f.snapshot.payloadAt q = e.snapshot.payloadAt q) :
    f.snapshot.payloadAt path = e.snapshot.payloadAt path := by
  have halike := he.compute_alike hf ht hl hsame
  obtain ⟨v, hv⟩ := (compute_of_leaf hf.coherent.tree f.snapshot hl).resolve_right <| by
    rintro ⟨error, hfailed⟩
    exact hok error hfailed
  rw [hv] at halike
  generalize hw : e.compute e.snapshot path = computed at halike
  cases halike with
  | value hvw => exact he.payloadAt_eq_of_value hf ht hg hl hv hw hvw

/-- **Settled evaluators agree**: over the same records they store the same payload for a leaf that
depends neither on a cycle nor on a leaf that fails in one of them. -/
theorem payloadAt_eq {path : String} (hg : f.graph.Grounded path)
    (hok : ∀ q, Relation.ReflTransGen f.graph.Reads path q → f.tree.Leaf q →
      ∀ error, f.compute f.snapshot q ≠ .failed error) :
    ∀ q, Relation.ReflTransGen f.graph.Reads path q → f.tree.Leaf q →
      f.snapshot.payloadAt q = e.snapshot.payloadAt q := by
  induction hg with
  | intro path hacc ih =>
    intro q hd hl
    have hbelow : ∀ target, f.graph.Reads path target → ∀ q,
        Relation.ReflTransGen f.graph.Reads target q → f.tree.Leaf q →
        f.snapshot.payloadAt q = e.snapshot.payloadAt q :=
      fun target hr => ih target hr fun q hq => hok q (.head hr hq)
    rcases Relation.ReflTransGen.cases_head hd with rfl | ⟨target, hr, hrest⟩
    · refine he.payloadAt_eq_of_depends hf ht (Acc.intro path hacc) hl (hok path hd hl) ?_
      intro q hdepends
      obtain ⟨target, hr, hrest⟩ := Relation.TransGen.head'_iff.1 hdepends
      exact hbelow target hr q hrest
    · exact hbelow target hr q hrest hl

end Evaluator.Current

/-- **History does not show in values**: take an evaluator that a run over plain records reaches
from an empty one, and a new one over the records of its tree. Where a leaf of the new one has no
error, lies on no cycle, and depends on no path that has an error or lies on a cycle, both store the
same payload for it. -/
theorem Evaluator.Reaches.agrees_with_reload {settings : Settings} {e : Evaluator}
    (h : Reaches (fun c => c.Tidy ∧ c.Plain)
      (ofEngine { settings with timeBudget := 0 } .standard) e) :
    ∃ f u, (ofEngine { settings with timeBudget := 0 } .standard).load e.tree.toList =
        (f, .ok u) ∧
      ∀ r ∈ e.tree.toList, ∀ path ∈ r.leafPaths,
        (∀ q, Relation.ReflTransGen f.graph.Reads path q →
          u.errors.get? q = none ∧ ¬ Relation.TransGen f.graph.Reads q q) →
        ∃ v w, e.snapshot.get? path = some v ∧ f.snapshot.get? path = some w ∧
          v.payload? = w.payload? := by
  have he := h.current
  obtain ⟨f, u, hload, -, ht⟩ := he.coherent.exists_reload
  rw [fresh, he.settings_eq, he.engine_eq] at hload
  have htidy : (Call.load e.tree.toList).Tidy := he.coherent.tree.loadable.tidy
  have hplain : (Call.load e.tree.toList).Plain := fun r hr =>
    he.plain r.name r (he.coherent.tree.mem_toList.1 hr)
  have hnew := Current.start { settings with timeBudget := 0 }
  have hf := hnew.performs htidy hplain (.update (.load hload))
  refine ⟨f, u, hload, fun r hr path hpath hpure => ?_⟩
  have hfound := he.coherent.tree.mem_toList.1 hr
  have hentity : Path.entityOf path = r.name :=
    (he.coherent.tree.wellFormed hfound).entityOf_of_has (EntityRecord.has_of_mem_leafPaths hpath)
  have hl : f.tree.Leaf path := ⟨r, by rw [ht, hentity]; exact hfound, hpath⟩
  have hground : ∀ q, Relation.ReflTransGen f.graph.Reads path q → f.graph.Grounded q :=
    fun q hq => hf.coherent.graph.toIndexed.grounded_of_acyclic fun q' hq' =>
      (hpure q' (hq.trans hq')).2
  have hok : ∀ q, Relation.ReflTransGen f.graph.Reads path q → f.tree.Leaf q →
      ∀ error, f.compute f.snapshot q ≠ .failed error := by
    intro q hq hlq error hfailed
    have hreported := (hnew.withEvaluatedOnce false).reported (tidy_loadBatch _ htidy)
      (plain_loadBatch _ hplain) rfl (load_eq_ok hload) hlq (hground q hq) hfailed
    rw [SortedMap.contains, (hpure q hq).1] at hreported
    cases hreported
  have hsame := he.payloadAt_eq hf ht (hground path .refl) hok path .refl hl
  obtain ⟨w, hw⟩ := (hf.coherent.pending path hl).resolve_right id
  have hstored : f.snapshot.payloadAt path = some w.payload? := by
    rw [Snapshot.payloadAt, hw, Option.map_some]
  obtain ⟨v, hv, hvw⟩ := Snapshot.payloadAt_eq_some_iff.1 (hsame.symm.trans hstored)
  exact ⟨v, w, hv, hw, hvw⟩

/-! ### A new greeting and its echo -/

namespace Evaluator

/-- What an evaluator with a greeting and its echo becomes when the greeting changes. -/
def greeted (settings : Settings) : Evaluator :=
  (((ofEngine settings .standard).load [.echo, .greeting]).1.apply
    (.setValue .empty "Greeting.text" (.string "good day"))).1

theorem plain_echo : (Call.load [.echo, .greeting]).Plain := by
  intro r hr
  rw [List.mem_pair] at hr
  rcases hr with rfl | rfl
  · exact ⟨by decide, fun h => absurd h (by decide)⟩
  · exact ⟨by decide, fun h => absurd h (by decide)⟩

/-- A run over plain records changes the greeting. -/
theorem reaches_greeted (settings : Settings) :
    Reaches (fun c => c.Tidy ∧ c.Plain) (ofEngine settings .standard) (greeted settings) := by
  obtain ⟨e, u, hl, ht⟩ := (Coherent.ofEngine settings .standard).load_empty rfl loadable_echo
  have hr : Reaches (fun c => c.Tidy ∧ c.Plain) (ofEngine settings .standard) e :=
    .call .start ⟨loadable_echo.tidy, plain_echo⟩ (.update (.load hl))
  have htidy : Call.Tidy (.apply (.setValue .empty "Greeting.text" (.string "good day"))) :=
    .setValue trivial
  obtain ⟨e', u', ha⟩ := hr.current.coherent.exists_apply (by
    rw [validateAll, ht]
    rfl) htidy
  have he : greeted settings = e' := by rw [greeted, hl, ha]
  exact he ▸ .call hr ⟨htidy, fun c hc => (by cases hc)⟩ (.update (.apply ha))

/-- The echo of the new greeting has the value that a new evaluator gives it. -/
theorem agrees_with_reload_echo : ∃ e f u, e.tree.names = ["Echo", "Greeting"] ∧
    Reaches (fun c => c.Tidy ∧ c.Plain)
      (ofEngine { Settings.default with timeBudget := 0 } .standard) e ∧
    (ofEngine { Settings.default with timeBudget := 0 } .standard).load e.tree.toList =
      (f, .ok u) ∧
    ∃ v w, e.snapshot.get? "Echo.text" = some v ∧ f.snapshot.get? "Echo.text" = some w ∧
      v.payload? = w.payload? := by
  have hr := reaches_greeted { Settings.default with timeBudget := 0 }
  obtain ⟨f, u, hload, hagree⟩ := Reaches.agrees_with_reload hr
  have hf : Coherent f (fun _ => False) (fun _ => False) :=
    (Coherent.ofEngine _ _).performs hr.current.coherent.tree.loadable.tidy (.update (.load hload))
  have hgraph : f = ((ofEngine { Settings.default with timeBudget := 0 } .standard).load
      (greeted { Settings.default with timeBudget := 0 }).tree.toList).1 := by rw [hload]
  have herrors : u.errors.entries = [] := by
    have hnone : ((ofEngine { Settings.default with timeBudget := 0 } .standard).load
        (greeted { Settings.default with timeBudget := 0 }).tree.toList).2.toOption.map
          (·.errors.entries.length) = some 0 := by decide +kernel
    rw [hload] at hnone
    exact List.length_eq_zero_iff.1 (Option.some.inj hnone)
  have hreads : ∀ {path targets}, f.graph.dependencies path = targets →
      (∀ target ∈ targets, f.graph.Grounded target) → f.graph.Grounded path := by
    rintro path targets rfl h
    exact Acc.intro path fun target ht => h target (hf.graph.mem_dependencies_iff.2 ht)
  have hground : f.graph.Grounded "Echo.text" := by
    have hgreeting : f.graph.dependencies "Greeting.text" = [] := by
      rw [hgraph]
      decide +kernel
    have hecho : f.graph.dependencies "Echo.text" = ["Greeting.text"] := by
      rw [hgraph]
      decide +kernel
    refine hreads hecho fun target ht => ?_
    obtain rfl := List.mem_singleton.1 ht
    exact hreads hgreeting fun target ht => (by cases ht)
  have hleaf : ∃ r ∈ (greeted { Settings.default with timeBudget := 0 }).tree.toList,
      "Echo.text" ∈ r.leafPaths := by decide +kernel
  obtain ⟨r, hmem, hpath⟩ := hleaf
  refine ⟨_, f, u, by decide +kernel, hr, hload, hagree r hmem "Echo.text" hpath fun q hq => ?_⟩
  exact ⟨by rw [SortedMap.get?, herrors]; rfl, hground.not_depends hq⟩

end Evaluator

end Recalc
