import Recalc.Proofs.Evaluator.Update

/-!
# Removed paths

An update lists as removed, once each, the leaves that some tree on the way of a batch had and the
last one has not (`Evaluator.Evolves.removes`). A load touches each entity once, so its removed
paths are the leaves that the tree had before it and has not afterwards. A batch may do more: a leaf
that one of its changes brings and another one takes away is listed too, though no tree before or
after the batch has it (`Evaluator.removes_passing`).

While the changes are made, what is listed so far and the leaves of the tree make up the leaves of
all trees until then: one step takes a leaf away only by listing it
(`Progress.Step.removed_or_leaf`).
-/

namespace Recalc

/-- A walk along a list passes through its start. -/
theorem mem_scanl_start {A S : Type} (f : S → A → S) (s : S) (list : List A) :
    s ∈ list.scanl f s := by
  cases list with
  | nil => exact List.mem_singleton_self s
  | cons a list =>
    rw [List.scanl_cons]
    exact List.mem_cons_self

/-- The trees that the changes of a batch pass through, from the one before them to the one after
them. -/
def Tree.course (t : Tree) (b : ChangeBatch) : List Tree :=
  b.structural.scanl change t ++ b.values.scanl write (b.structural.foldl change t)

/-! ### One step and many -/

namespace Progress

/-- Stale are the leaves that a change of records takes away. -/
theorem Underway.stale_iff {p p' : Progress} {name : String} {new : Option EntityRecord}
    (h : p.Underway) (hs : p.Restructured name new p') {path : String} :
    p.Stale name new path ↔ p.evaluator.tree.Leaf path ∧ ¬ p'.evaluator.tree.Leaf path := by
  rw [Coherent.leaf_restructured hs]
  constructor
  · intro hst
    have he := h.coherent.entityOf_of_stale hst
    obtain ⟨⟨old, ho, hl⟩, hnew⟩ := hst
    rw [if_pos he]
    exact ⟨⟨old, he.symm ▸ ho, hl⟩, hnew⟩
  · rintro ⟨⟨old, ho, hl⟩, hnew⟩
    split at hnew
    · rename_i he
      exact ⟨⟨old, he ▸ ho, hl⟩, hnew⟩
    · exact absurd ⟨old, ho, hl⟩ hnew

/-- What one step does to the leaves and to what is listed as removed. -/
theorem Step.removed_or_leaf {p p' : Progress} (hs : Step p p') (h : p.Underway) (path : String) :
    path ∈ p'.work.removed ∨ p'.evaluator.tree.Leaf path ↔
      path ∈ p.work.removed ∨ p.evaluator.tree.Leaf path ∨ p'.evaluator.tree.Leaf path := by
  cases hs with
  | restructure spec =>
    rw [spec.removed, h.stale_iff spec]
    tauto
  | write spec found shape =>
    rw [spec.noted.1, Coherent.leaf_written spec found shape, or_self]

/-- What many steps do to them: each leaf of a tree on the way is listed in the end or a leaf
still. -/
theorem Underway.removed_or_leaf_foldl {A : Type} {onTree : Tree → A → Tree}
    {step : Progress → A → Progress}
    (hturns : ∀ (q : Progress) a, q.Turns (onTree q.evaluator.tree a) (step q a)) {list : List A}
    {p : Progress} (h : p.Underway)
    (hstep : ∀ q, Underway q → ∀ a ∈ list, step q a = q ∨ Step q (step q a)) (path : String) :
    path ∈ (list.foldl step p).work.removed ∨ (list.foldl step p).evaluator.tree.Leaf path ↔
      path ∈ p.work.removed ∨ ∃ t ∈ list.scanl onTree p.evaluator.tree, t.Leaf path := by
  induction list generalizing p with
  | nil => simp
  | cons a list ih =>
    have ha := hstep p h a List.mem_cons_self
    have hnext : (step p a).Underway := by
      rcases ha with he | hs
      · exact he.symm ▸ h
      · exact hs.underway h
    have hone : path ∈ (step p a).work.removed ∨ (step p a).evaluator.tree.Leaf path ↔
        path ∈ p.work.removed ∨ p.evaluator.tree.Leaf path ∨
          (step p a).evaluator.tree.Leaf path := by
      rcases ha with he | hs
      · rw [he, or_self]
      · exact hs.removed_or_leaf h path
    have hstart : (step p a).evaluator.tree.Leaf path →
        ∃ t ∈ list.scanl onTree (onTree p.evaluator.tree a), t.Leaf path := fun hl =>
      ⟨_, mem_scanl_start onTree _ list, (hturns p a).tree ▸ hl⟩
    have hmany := ih hnext fun q hq b hb => hstep q hq b (List.mem_cons_of_mem _ hb)
    rw [(hturns p a).tree] at hmany
    rw [List.foldl_cons, hmany, List.scanl_cons, List.exists_mem_cons_iff,
      ← or_iff_right_of_imp hstart, ← or_assoc, hone, or_assoc, or_assoc]

/-- **What a batch lists as removed** are the leaves of the trees on its way that the last one has
not. -/
theorem Underway.removed_or_leaf_perform {p : Progress} (h : p.Underway) {b : ChangeBatch}
    (hp : b.Proper) (ht : b.Tidy) (path : String) :
    path ∈ (p.perform b).work.removed ∨ (p.perform b).evaluator.tree.Leaf path ↔
      path ∈ p.work.removed ∨ ∃ t ∈ p.evaluator.tree.course b, t.Leaf path := by
  have hchange : ∀ q, Underway q → ∀ c ∈ b.structural, change q c = q ∨ Step q (change q c) :=
    fun q hq c hc => hq.change_step (hp.structural c hc) (ht.structural c hc)
  obtain ⟨mid, hmid⟩ : ∃ mid, mid = b.structural.foldl change p := ⟨_, rfl⟩
  have hturns : mid.evaluator.tree = b.structural.foldl Tree.change p.evaluator.tree := by
    rw [hmid]
    exact (turns_foldl turns_change b.structural p).tree
  have hfirst := h.removed_or_leaf_foldl turns_change hchange path
  have hsecond := ((h.moves_foldl hchange).underway h).removed_or_leaf_foldl turns_writeValue
    (fun q hq w hw => hq.writeValue_step (hp.values w hw) (ht.values w hw)) path
  have hstart : mid.evaluator.tree.Leaf path →
      ∃ t ∈ b.values.scanl Tree.write mid.evaluator.tree, t.Leaf path := fun hl =>
    ⟨_, mem_scanl_start Tree.write _ b.values, hl⟩
  rw [← hmid] at hfirst hsecond
  rw [perform, ← hmid, hsecond, Tree.course, ← hturns]
  simp only [List.mem_append, or_and_right, exists_or]
  rw [← or_assoc, ← hfirst, or_assoc, or_iff_right_of_imp hstart]

end Progress

/-! ### The update of a batch -/

namespace Coherent

variable {e : Evaluator} {b : ChangeBatch}

/-- The removed paths of a batch that is applied. -/
theorem mem_removedPaths_finish (h : Coherent e (fun _ => False) (fun _ => False)) (hp : b.Proper)
    (ht : b.Tidy) {p p' : Progress} (ha : e.Applies b p p') (path : String) :
    path ∈ (Evaluator.finish p' b).2.removedPaths ↔
      (∃ t ∈ e.tree.course b, t.Leaf path) ∧ ¬ (Evaluator.finish p' b).1.tree.Leaf path := by
  have hall := (Progress.underway_start h).removed_or_leaf_perform hp ht path
  rw [← ha.performed] at hall
  obtain ⟨graph, readers, reads, roots, hf⟩ := ha.rebuilt.fixed
  have hremoved : p'.work.removed = p.work.removed := by rw [hf]
  have htree : (Evaluator.finish p' b).1.tree = p.evaluator.tree := by
    rw [Evaluator.tree_finish ha.coherent.graph b, hf]
  have hvalue : (Evaluator.finish p' b).1.snapshot.get? path = none ↔
      ¬ (Evaluator.finish p' b).1.tree.Leaf path := by
    rw [← (finish ha).exists_value_iff path, not_exists]
    exact Option.eq_none_iff_forall_ne_some
  have hlisted : path ∈ (Evaluator.finish p' b).2.removedPaths ↔ path ∈ p'.work.removed ∧
      (Evaluator.finish p' b).1.snapshot.get? path = none := Evaluator.mem_removedPaths
  rw [hlisted, hvalue, htree, hremoved]
  refine and_congr_left fun hl => ?_
  exact ((or_iff_left hl).symm.trans hall).trans (or_iff_right List.not_mem_nil)

/-- The removed paths of a batch that succeeds. -/
theorem mem_removedPaths_apply (h : Coherent e (fun _ => False) (fun _ => False)) (ht : b.Tidy)
    {e' : Evaluator} {u : Update} (ha : e.apply b = (e', .ok u)) (path : String) :
    path ∈ u.removedPaths ↔ (∃ t ∈ e.tree.course b, t.Leaf path) ∧ ¬ e'.tree.Leaf path := by
  obtain ⟨hp, ⟨he, hs, rfl, rfl⟩ | hc⟩ := Evaluator.apply_eq_ok ha
  · have hv := Evaluator.Standard.values_eq_nil_of_isEmpty (Evaluator.validateAll_of_apply ha) he hs
    have hnone : ∀ t ∈ e'.tree.course b, ¬ t.Leaf path := by
      intro t hm hl
      rw [Tree.course, hs, hv, List.mem_append] at hm
      obtain rfl : t = e'.tree := hm.elim List.mem_singleton.1 List.mem_singleton.1
      exact h.tree.enrolled.not_has_of_isEmpty he path hl.has
    exact iff_of_false List.not_mem_nil fun hr => hr.1.elim fun t ht => hnone t ht.1 ht.2
  · obtain ⟨p, p', hap⟩ := h.applies hp ht
    rw [hap.result] at hc
    obtain ⟨rfl, hu⟩ := Prod.mk.inj hc
    obtain rfl := Except.ok.inj hu
    exact h.mem_removedPaths_finish hp ht hap path

end Coherent

namespace Evaluator

/-- No path is listed as removed twice. -/
theorem nodup_removedPaths_apply {e e' : Evaluator} {b : ChangeBatch} {u : Update}
    (ha : e.apply b = (e', .ok u)) : u.removedPaths.Nodup := by
  obtain ⟨-, ⟨-, -, -, rfl⟩ | hc⟩ := apply_eq_ok ha
  · exact List.nodup_nil
  · obtain ⟨p, -, -, rfl⟩ := applyChecked_eq_ok hc
    exact nodup_distinct _

end Evaluator

/-! ### The update of a load -/

namespace Tree

/-- Changes of other entities leave a record alone. -/
theorem get?_foldl_change {changes : List StructuralChange} {name : String}
    (h : name ∉ changes.map StructuralChange.entity) (t : Tree) :
    (changes.foldl change t).get? name = t.get? name := by
  induction changes generalizing t with
  | nil => rfl
  | cons c changes ih =>
    rw [List.map_cons, List.mem_cons, not_or] at h
    rw [List.foldl_cons, ih h.2, get?_change, if_neg h.1]

/-- Where each entity changes once at most, it has its first record or its last one all the time. -/
theorem get?_of_mem_scanl_change {changes : List StructuralChange}
    (h : (changes.map StructuralChange.entity).Nodup) {t t' : Tree}
    (hm : t' ∈ changes.scanl change t) (name : String) :
    t'.get? name = t.get? name ∨ t'.get? name = (changes.foldl change t).get? name := by
  induction changes generalizing t with
  | nil => exact .inl (by rw [List.mem_singleton.1 hm])
  | cons c changes ih =>
    rw [List.map_cons, List.nodup_cons] at h
    rw [List.scanl_cons, List.mem_cons] at hm
    rcases hm with rfl | hm
    · exact .inl rfl
    · rw [List.foldl_cons]
      rcases ih h.2 hm with he | he
      · rw [he]
        by_cases hn : name = c.entity
        · exact .inr (get?_foldl_change (hn ▸ h.1) _).symm
        · exact .inl (by rw [get?_change, if_neg hn])
      · exact .inr he

/-- Then each leaf on the way was there before or is there afterwards. -/
theorem leaf_of_mem_course {t t' : Tree} {b : ChangeBatch}
    (h : (b.structural.map StructuralChange.entity).Nodup) (hv : b.values = [])
    (hm : t' ∈ t.course b) {path : String} (hl : t'.Leaf path) :
    t.Leaf path ∨ (t.perform b).Leaf path := by
  obtain ⟨r, hr, hpath⟩ := hl
  have hlast : t.perform b = b.structural.foldl change t := by
    rw [perform, hv]
    rfl
  rw [course, hv, List.mem_append] at hm
  rcases hm with hm | hm
  · rcases get?_of_mem_scanl_change h hm (Path.entityOf path) with he | he
    · exact .inl ⟨r, he ▸ hr, hpath⟩
    · exact .inr ⟨r, hlast ▸ he ▸ hr, hpath⟩
  · rw [List.mem_singleton.1 hm] at hr
    exact .inr ⟨r, hlast ▸ hr, hpath⟩

end Tree

namespace Evaluator

/-- A load changes each entity once at most. -/
theorem nodup_entity_loadBatch {t : Tree} (ht : t.names.Nodup) {records : List EntityRecord}
    (hr : (records.map (·.name)).Nodup) :
    ((loadBatch t records).structural.map StructuralChange.entity).Nodup := by
  have hremove : StructuralChange.entity ∘ StructuralChange.remove = id := rfl
  have hupsert : StructuralChange.entity ∘ StructuralChange.upsert = EntityRecord.name := rfl
  rw [loadBatch, List.map_append, List.map_map, List.map_map, hremove, hupsert, List.map_id]
  refine List.nodup_append.2 ⟨ht.filter _, hr, fun gone hg name hn he => ?_⟩
  exact of_decide_eq_true (List.mem_filter.1 hg).2 (he ▸ hn)

/-- The trees whose leaves the update of a call accounts for: those on the way of a batch, and for a
load just the tree before it. -/
def course (e : Evaluator) : Call → List Tree
  | .apply b => e.tree.course b
  | _ => [e.tree]

end Evaluator

/-- The removed paths of an update. -/
theorem Coherent.removedPaths_spec {e : Evaluator}
    (h : Coherent e (fun _ => False) (fun _ => False)) {c : Call} (ht : c.Tidy)
    {e' : Evaluator} {u : Update} (hu : e.Updates c e' u) :
    u.removedPaths.Nodup ∧ ∀ path, path ∈ u.removedPaths ↔
      (∃ t ∈ e.course c, t.Leaf path) ∧ ¬ e'.tree.Leaf path := by
  cases hu with
  | apply ha => exact ⟨Evaluator.nodup_removedPaths_apply ha, h.mem_removedPaths_apply ht ha⟩
  | @load records _ _ hl =>
    have hstart := h.withEvaluatedOnce false
    have ha := Evaluator.load_eq_ok hl
    have hloadable := Evaluator.loadable_of_checkNames (Evaluator.checkNames_of_load hl) ht
    have hstandard : Evaluator.Standard { e with evaluatedOnce := false } :=
      ⟨h.registry, h.tree.isNamed⟩
    have htree : e'.tree = e.tree.perform (Evaluator.loadBatch e.tree records) :=
      (hstandard.of_apply ha).1
    have honce := Evaluator.nodup_entity_loadBatch h.tree.nodup hloadable.nodup
    refine ⟨Evaluator.nodup_removedPaths_apply ha, fun path => ?_⟩
    rw [hstart.mem_removedPaths_apply (Evaluator.tidy_loadBatch _ ht) ha path]
    refine and_congr_left fun hgone => ⟨?_, ?_⟩
    · rintro ⟨t, hm, hleaf⟩
      refine ⟨e.tree, List.mem_singleton_self _, ?_⟩
      exact (Tree.leaf_of_mem_course honce rfl hm hleaf).resolve_right (htree ▸ hgone)
    · rintro ⟨t, hm, hleaf⟩
      refine ⟨t, List.mem_append_left _ ?_, hleaf⟩
      rw [List.mem_singleton.1 hm]
      exact mem_scanl_start _ _ _

/-- **Removed paths**: an update lists, once each, the leaf paths of the tree before a load, or of
any tree on the way of a batch, that are no leaf paths of the tree afterwards. -/
theorem Evaluator.Evolves.removes {settings : Settings} {engine : Engine} {e : Evaluator}
    (h : Evolves Call.Tidy (ofEngine settings engine) e) {c : Call} (ht : c.Tidy) {e' : Evaluator}
    {u : Update} (hu : e.Updates c e' u) :
    u.removedPaths.Nodup ∧ ∀ path, path ∈ u.removedPaths ↔
      (∃ t ∈ e.course c, t.Leaf path) ∧ ¬ e'.tree.Leaf path :=
  h.coherent.removedPaths_spec ht hu

/-- A widget that comes and goes. -/
def EntityRecord.draft : EntityRecord :=
  ⟨.ofName "Draft" .widget, ⟨[("text", .string "bye")]⟩⟩

/-- The greeting is removed, and a draft comes and goes. -/
def ChangeBatch.passing : ChangeBatch :=
  ((empty.removeEntity "Greeting").upsertEntity .draft).removeEntity "Draft"

theorem Call.tidy_passing : Call.Tidy (.apply .passing) := by
  have hdraft : EntityRecord.draft.entity.Tidy :=
    ⟨List.pairwise_singleton _ _, ⟨by decide, by decide⟩, trivial, trivial⟩
  exact ((ChangeBatch.tidy_empty.removeEntity "Greeting").upsertEntity hdraft).removeEntity "Draft"

/-- A draft can come and go while a greeting and its echo are there. -/
theorem Evaluator.exists_updates_passing : ∃ (e e' : Evaluator) (u : Update),
    Evolves Call.Tidy (ofEngine .default .standard) e ∧
      e.tree = [.echo, .greeting].foldl Tree.upsert .empty ∧
      e.Updates (.apply .passing) e' u := by
  obtain ⟨e, hr, ht⟩ := exists_reaches_load .default .standard loadable_echo.tidy loadable_echo
  obtain ⟨e', u, hu⟩ := hr.evolves.coherent.exists_apply (b := .passing) (by
    rw [validateAll, ht]
    rfl) Call.tidy_passing
  exact ⟨e, e', u, hr.evolves, ht, .apply hu⟩

/-- The removed paths when the greeting is removed and a draft comes and goes. -/
theorem Evaluator.removes_greeting : ∃ (e e' : Evaluator) (u : Update),
    Evolves Call.Tidy (ofEngine .default .standard) e ∧
      e.tree = [.echo, .greeting].foldl Tree.upsert .empty ∧ e.Updates (.apply .passing) e' u ∧
      u.removedPaths.Nodup ∧ ∀ path, path ∈ u.removedPaths ↔
        (∃ t ∈ e.course (.apply .passing), t.Leaf path) ∧ ¬ e'.tree.Leaf path := by
  obtain ⟨e, e', u, he, ht, hu⟩ := exists_updates_passing
  exact ⟨e, e', u, he, ht, hu, he.removes Call.tidy_passing hu⟩

/-- The text of a draft that comes and goes in one batch is listed as removed, though it is no leaf
of the tree before the batch. -/
theorem Evaluator.removes_passing : ∃ (e e' : Evaluator) (u : Update),
    Evolves Call.Tidy (ofEngine .default .standard) e ∧ Call.Tidy (.apply .passing) ∧
      e.Updates (.apply .passing) e' u ∧
      ¬ ∀ path, path ∈ u.removedPaths ↔ e.tree.Leaf path ∧ ¬ e'.tree.Leaf path := by
  obtain ⟨e, e', u, he, ht, hu⟩ := exists_updates_passing
  refine ⟨e, e', u, he, Call.tidy_passing, hu, fun hall => ?_⟩
  have hbefore : ¬ e.tree.Leaf "Draft.text" := by
    rintro ⟨r, hr, -⟩
    rw [ht] at hr
    cases hr
  have hafter : ¬ e'.tree.Leaf "Draft.text" := by
    cases hu with
    | apply ha =>
      rintro ⟨r, hr, -⟩
      rw [((he.standard (.ofEngine _ _)).of_apply ha).1, ht] at hr
      cases hr
  have hway : ∃ t ∈ e.course (.apply .passing), t.Leaf "Draft.text" :=
    ⟨(e.tree.change (.remove "Greeting")).change (.upsert .draft),
      List.mem_append_left _ (.tail _ (.tail _ (.head _))), .draft, by rw [ht]; rfl, by decide⟩
  have hlisted := ((he.coherent.removedPaths_spec Call.tidy_passing hu).2 "Draft.text").2
    ⟨hway, hafter⟩
  exact hbefore ((hall "Draft.text").1 hlisted).1

end Recalc
