import Recalc.Collection.Distinct
import Recalc.Snapshot

/-!
# Patches

A patch sets the value of one path or deletes it. `diff` lists the patches that lead from one
snapshot to another at given paths; `replay` performs patches.
-/

namespace Recalc

/-- A change of one value. -/
inductive Patch where
  /-- The path has the value from now on. -/
  | set (path : String) (value : Value)
  /-- The path has no value any more. -/
  | delete (path : String)

namespace Patch

/-- The path that a patch changes. -/
def path : Patch → String
  | set path _ => path
  | delete path => path

/-- The snapshot after a patch. -/
def perform (s : Snapshot) : Patch → Snapshot
  | set path value => s.insert path value
  | delete path => s.erase path

/-- The snapshot after patches, one after another. -/
def replay (s : Snapshot) (patches : List Patch) : Snapshot := patches.foldl perform s

/-- The patch that leads from one snapshot to another at a path, if they differ there. -/
def at? (previous current : Snapshot) (path : String) : Option Patch :=
  match previous.get? path, current.get? path with
  | none, some now => some (set path now)
  | some before, some now => if before == now then none else some (set path now)
  | some _, none => some (delete path)
  | none, none => none

/-- The patches that lead from one snapshot to another at the listed paths, in the order of their
first listing. -/
def diff (previous current : Snapshot) (paths : List String) : List Patch :=
  (distinct paths).filterMap (at? previous current)

end Patch

end Recalc
