import Recalc.Proofs.PathGraph.Explain

/-!
# What listing the paths of an entity installs

After the paths of an entity are listed, each of them is in the graph and reads what the map says,
but for paths that the entity had listed before and does not list now (`Built.installs`). Those
leave the graph after the new reads are installed, and take the reads that lead to them with them.
So what a map installs depends on what its entity had listed before: on a graph without the entity
the same map installs all it says.
-/

namespace Recalc.PathGraph

/-- **What a map installs**, after any changes: its keys are in the graph and read what it says, as
far as that does not leave the graph. -/
theorem Built.installs {g : PathGraph} (h : g.Built) (entity : String) {map : DependencyMap}
    {path : String} {targets : List String} (hm : map.get? path = some targets) :
    (g.update entity map).contains path = true ∧
      ∀ target, target ∈ (g.update entity map).dependencies path ↔
        target ∈ targets ∧ ¬ (g.Lists entity target ∧ target ∉ map.keys) := by
  obtain ⟨hs, -, hn, hr⟩ := h.sound.update_spec entity map
  have hkey : path ∈ map.keys := SortedMap.mem_keys_iff.2 ⟨targets, hm⟩
  have hstays : ¬ g.Leaves entity map path := fun hl => hl.2 hkey
  refine ⟨hs.contains_iff.2 ((hn path).2 ⟨.inr ?_, hstays⟩), fun target => ?_⟩
  · exact ⟨_, (SortedMap.get?_eq_some_iff map).1 hm, .inl rfl⟩
  · rw [hs.mem_dependencies_iff, hr, hm]
    exact and_congr_right fun _ => and_iff_right hstays

/-- An entity that lists a name and a text that reads the name. -/
def named : PathGraph :=
  PathGraph.empty.update "A" (.ofList [("A.name", []), ("A.text", ["A.name"])])

/-- The same entity with the text only, which reads two names. -/
def unnamed : DependencyMap := .ofList [("A.text", ["A.name", "B.name"])]

theorem installs_unnamed : named.Built ∧
    unnamed.get? "A.text" = some ["A.name", "B.name"] ∧
    (named.update "A" unnamed).contains "A.text" = true ∧
      ∀ target, target ∈ (named.update "A" unnamed).dependencies "A.text" ↔
        target ∈ ["A.name", "B.name"] ∧ ¬ (named.Lists "A" target ∧ target ∉ unnamed.keys) :=
  ⟨Built.empty.update _ _, by decide, (Built.empty.update _ _).installs "A" (by decide)⟩

/-- The text does not read the name that its entity listed before, though the map says so and has
paths of the entity only. -/
theorem dependencies_unnamed : named.Built ∧ (∀ path ∈ unnamed.keys, Path.entityOf path = "A") ∧
    unnamed.get? "A.text" = some ["A.name", "B.name"] ∧
    (named.update "A" unnamed).dependencies "A.text" = ["B.name"] :=
  ⟨Built.empty.update _ _, by decide, by decide, by decide +kernel⟩

end Recalc.PathGraph
