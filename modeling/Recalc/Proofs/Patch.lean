import Recalc.Proofs.Snapshot

/-!
# Differences between snapshots

`Patch.diff` compares two snapshots at listed paths. Performing its patches leads from the one to
the other at these paths and nowhere else, and no patch is superfluous: the patched paths are those
of the listed ones at which the snapshots are not alike, in the order of their first listing
(`Patch.map_path_diff`). Snapshots are alike at a path where both have no value or both have equal
ones; `undefined` is a value.
-/

namespace Recalc

namespace Patch

theorem isSome_at?_iff {previous current : Snapshot} {p : String} :
    (at? previous current p).isSome = true ↔
      ¬ Snapshot.Alike (previous.get? p) (current.get? p) := by
  rw [← at?_eq_none_iff, ← ne_eq, Option.isSome_iff_ne_none]

/-- The patched paths are those listed ones at which there is something to do, in the order of their
first listing. -/
theorem map_path_diff (previous current : Snapshot) (paths : List String) :
    (diff previous current paths).map path =
      paths.eraseDups.filter fun p => (at? previous current p).isSome := by
  rw [diff, distinct_eq_eraseDups]
  induction paths.eraseDups with
  | nil => rfl
  | cons p rest ih =>
    cases hp : at? previous current p with
    | none => rw [List.filterMap_cons_none hp, List.filter_cons_of_neg (by simp [hp]), ih]
    | some patch =>
      rw [List.filterMap_cons_some hp, List.filter_cons_of_pos (by simp [hp]), List.map_cons, ih,
        path_of_at? hp]

theorem exists_mem_diff_iff {previous current : Snapshot} {paths : List String} {p : String} :
    (∃ patch ∈ diff previous current paths, patch.path = p) ↔
      p ∈ paths ∧ ¬ Snapshot.Alike (previous.get? p) (current.get? p) := by
  rw [← List.mem_map, map_path_diff, List.mem_filter, List.mem_eraseDups, isSome_at?_iff]

/-- The patches lead to the values of the other snapshot at the listed paths. -/
theorem alike_replay_diff {previous current : Snapshot} {paths : List String} {p : String}
    (hp : p ∈ paths) :
    Snapshot.Alike ((replay previous (diff previous current paths)).get? p) (current.get? p) := by
  cases ha : at? previous current p with
  | some patch =>
    have hm : patch ∈ diff previous current paths := mem_diff.2 ⟨p, hp, ha⟩
    have hget := get?_replay_of_mem (nodup_diff previous current paths) hm previous
    rw [path_of_at? ha, value?_of_at? ha] at hget
    rw [hget]
    exact .refl _
  | none =>
    have halike := at?_eq_none_iff.1 ha
    have hunpatched : ¬ ∃ patch ∈ diff previous current paths, patch.path = p :=
      fun hex => (exists_mem_diff_iff.1 hex).2 halike
    rw [get?_replay_of_forall_ne fun patch hm he => hunpatched ⟨patch, hm, he⟩]
    exact halike

/-- The patches leave other paths alone. -/
theorem get?_replay_diff {previous current : Snapshot} {paths : List String} {p : String}
    (hp : p ∉ paths) :
    (replay previous (diff previous current paths)).get? p = previous.get? p :=
  get?_replay_of_forall_ne (fun patch hm he => hp (exists_mem_diff_iff.1 ⟨patch, hm, he⟩).1) _

theorem diff_self (s : Snapshot) (paths : List String) : diff s s paths = [] :=
  List.eq_nil_iff_forall_not_mem.2 fun patch hm =>
    (exists_mem_diff_iff.1 ⟨patch, hm, rfl⟩).2 (.refl _)

/-- **A diff is a minimal, ordered patch**: it leads to equal values at the listed paths and keeps
the others, patches each path at most once and in the order of the listing, patches a listed path
exactly if the snapshots are not alike there, and is empty between a snapshot and itself. -/
theorem diff_minimal (previous current : Snapshot) (paths : List String) :
    (∀ p ∈ paths, Snapshot.Alike ((replay previous (diff previous current paths)).get? p)
      (current.get? p)) ∧
    (∀ p ∉ paths, (replay previous (diff previous current paths)).get? p = previous.get? p) ∧
    ((diff previous current paths).map path).Sublist paths.eraseDups ∧
    ((diff previous current paths).map path).Nodup ∧
    (∀ p ∈ paths, (∃ patch ∈ diff previous current paths, patch.path = p) ↔
      ¬ Snapshot.Alike (previous.get? p) (current.get? p)) ∧
    diff previous previous paths = [] := by
  refine ⟨fun _ => alike_replay_diff, fun _ => get?_replay_diff, ?_,
    nodup_diff previous current paths, fun p hp => ?_, diff_self previous paths⟩
  · rw [map_path_diff]
    exact List.filter_sublist
  · rw [exists_mem_diff_iff, and_iff_right hp]

/-- A query has answered, and its table has a note without a value. -/
def answered : Snapshot :=
  ((Snapshot.empty.insert "Query1.data" (.bulk 0 .null)).insert "Table1.note" .undefined).insert
    "Table1.rows" (.data .null)

/-- The query has answered again, with the same data, and the table has a title. -/
def reanswered : Snapshot :=
  ((Snapshot.empty.insert "Query1.data" (.bulk 1 .null)).insert "Table1.rows" (.data .null)).insert
    "Table1.title" (.data (.string "T"))

theorem diff_minimal_reanswered :
    let paths := ["Table1.title", "Query1.data", "Table1.rows", "Table1.title", "Table1.note"]
    let patches := diff answered reanswered paths
    patches.map path = ["Table1.title", "Query1.data", "Table1.note"] ∧
    (∀ p ∈ paths, Snapshot.Alike ((replay answered patches).get? p) (reanswered.get? p)) ∧
    (∀ p ∉ paths, (replay answered patches).get? p = answered.get? p) ∧
    (patches.map path).Sublist paths.eraseDups ∧ (patches.map path).Nodup ∧
    (∀ p ∈ paths, (∃ patch ∈ patches, patch.path = p) ↔
      ¬ Snapshot.Alike (answered.get? p) (reanswered.get? p)) ∧
    diff answered answered paths = [] :=
  ⟨by decide, diff_minimal answered reanswered _⟩

end Patch

end Recalc
