import Recalc.Proofs.Evaluator.Calls
import Recalc.Proofs.Evaluator.Indices

/-!
# Applying merged batches

A merged batch leads to the tree that the two batches lead to in turn, whatever it drops and however
it moves the structural changes of the later batch before the writes of the earlier one. Since all
indices are those of the tree, they are the same as well (`Evaluator.Evolves.apply_merge`).
-/

namespace Recalc

namespace ChangeBatch

/-- Merging tidy batches is tidy. -/
theorem Tidy.merge {a b : ChangeBatch} (ha : a.Tidy) (hb : b.Tidy) : (a.merge b).Tidy where
  structural c hc := by
    rw [structural_merge, List.mem_append] at hc
    exact hc.elim (ha.structural c) (hb.structural c)
  values w hw := by
    rw [ChangeBatch.merge, values_foldl_supersede] at hw
    rcases mem_of_mem_foldl_addWrite hw with hw | hw
    · exact ha.values w (List.mem_of_mem_filter hw)
    · exact hb.values w hw

/-- The greeting and its echo are written to. -/
def rewording : ChangeBatch :=
  (empty.setValue "Greeting.text" (.string "good day")).setValue "Echo.note" (.string "loud")

theorem tidy_rewording : rewording.Tidy := by
  refine (tidy_empty.setValue _ ?_).setValue _ ?_ <;> trivial

/-- The greeting goes and comes back, and is written to again. -/
def renewal : ChangeBatch :=
  ((empty.removeEntity "Greeting").upsertEntity .greeting).setValue "Greeting.text"
    (.string "welcome")

theorem tidy_renewal : renewal.Tidy := by
  refine ((tidy_empty.removeEntity _).upsertEntity ?_).setValue _ ?_
  · exact loadable_echo.tidy _ (by simp)
  · trivial

end ChangeBatch

namespace Evaluator

/-- **Merging batches behaves like applying them in turn**: both ways lead to the same tree, the
same known paths, and the same paths in the dependency map, each with the same set of paths that it
reads. -/
theorem Evolves.apply_merge {settings : Settings} {engine : Engine} {e : Evaluator}
    (h : Evolves Call.Tidy (ofEngine settings engine) e) {a b : ChangeBatch} (ha : a.Tidy)
    (hb : b.Tidy) {e₁ e₂ e₃ : Evaluator} {u₁ u₂ u₃ : Update} (h₁ : e.apply a = (e₁, .ok u₁))
    (h₂ : e₁.apply b = (e₂, .ok u₂)) (h₃ : e.apply (a.merge b) = (e₃, .ok u₃)) :
    e₃.tree = e₂.tree ∧ e₃.known = e₂.known ∧
      ∀ path, (e₃.graph.dependencyMap.get? path).map SortedSet.ofList =
        (e₂.graph.dependencyMap.get? path).map SortedSet.ofList := by
  have hs := h.standard (.ofEngine settings engine)
  obtain ⟨ht₁, hs₁⟩ := hs.of_apply h₁
  have htree : e₃.tree = e₂.tree := calc
    e₃.tree = e.tree.perform (a.merge b) := (hs.of_apply h₃).1
    _ = (e.tree.perform a).perform b := hs.named.perform_merge a b
    _ = e₁.tree.perform b := by rw [ht₁]
    _ = e₂.tree := (hs₁.of_apply h₂).1.symm
  have hget : ∀ name, e₃.tree.get? name = e₂.tree.get? name := fun name => by rw [htree]
  have hc₂ := (h.coherent.apply ha h₁).apply hb h₂
  have hc₃ := h.coherent.apply (ha.merge hb) h₃
  exact ⟨htree, hc₂.known_eq hc₃ hget, hc₂.dependencyMap_congr hc₃ hget⟩

/-- One way the first write to the greeting is made void, the other way it is dropped. -/
theorem apply_merge_renewal : ∃ (e e₁ e₂ e₃ : Evaluator) (u₁ u₂ u₃ : Update),
    Evolves Call.Tidy (ofEngine .default .standard) e ∧ e.tree.names = ["Echo", "Greeting"] ∧
    e.apply .rewording = (e₁, .ok u₁) ∧ e₁.apply .renewal = (e₂, .ok u₂) ∧
    e.apply (.merge .rewording .renewal) = (e₃, .ok u₃) ∧
    e₃.tree = e₂.tree ∧ e₃.known = e₂.known ∧
      ∀ path, (e₃.graph.dependencyMap.get? path).map SortedSet.ofList =
        (e₂.graph.dependencyMap.get? path).map SortedSet.ofList := by
  obtain ⟨e, hr, ht⟩ := exists_reaches_load .default .standard loadable_echo.tidy loadable_echo
  have hs := hr.evolves.standard (.ofEngine .default .standard)
  obtain ⟨e₁, u₁, h₁, ht₁, hs₁⟩ := hs.exists_apply (b := .rewording) (by
    rw [validateAll, ht]
    rfl)
  obtain ⟨e₂, u₂, h₂, -⟩ := hs₁.exists_apply (b := .renewal) (by
    rw [validateAll, ht₁, ht]
    rfl)
  obtain ⟨e₃, u₃, h₃, -⟩ := hs.exists_apply (b := .merge .rewording .renewal) (by
    rw [validateAll, ht]
    rfl)
  exact ⟨e, e₁, e₂, e₃, u₁, u₂, u₃, hr.evolves, by rw [ht]; rfl, h₁, h₂, h₃,
    hr.evolves.apply_merge ChangeBatch.tidy_rewording ChangeBatch.tidy_renewal h₁ h₂ h₃⟩

end Evaluator

end Recalc
