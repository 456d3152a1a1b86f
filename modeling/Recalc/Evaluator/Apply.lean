import Recalc.Evaluator.Pass
import Recalc.Evaluator.Validation

/-!
# Applying batches

A batch is checked before anything is touched. Then its changes are made, the entities they touch
are rebuilt, one pass runs, and the update lists how the values differ from those before the batch.
A batch that is refused while entities are rebuilt leaves the changes made until then.

`load` replaces the whole tree by a batch; `evaluate` and `evaluateAll` run a pass without one.
-/

namespace Recalc.Evaluator

/-- The removed leaves that the update reports: those without a value now, each once. -/
def removedPaths (snapshot : Snapshot) (removed : List String) : List String :=
  distinct (removed.filter fun path => !snapshot.contains path)

/-- The values that the update compares with. A consumer of a first update has nothing yet, so only
the removed paths have a value before it. -/
def baseline (first : Bool) (previous : Snapshot) (removed : List String) : Snapshot :=
  if first then
    removed.foldl (fun base path =>
      match previous.get? path with
      | some value => base.insert path value
      | none => base) .empty
  else previous

/-- The patches with those for forced paths that have a value and no patch yet. -/
def addForced (snapshot : Snapshot) (patches : List Patch) (path : String) : List Patch :=
  if patches.any (·.path = path) then patches
  else
    match snapshot.get? path with
    | some value => patches ++ [.set path value]
    | none => patches

/-- The update about a batch, from what the batch did and what its pass did. -/
def updateOf (b : ChangeBatch) (first : Bool) (removed : List String) (previous : Snapshot)
    (snapshot : Snapshot) (result : PassResult) : Update :=
  let removed := removedPaths snapshot removed
  let patches := Patch.diff (baseline first previous removed) snapshot
    (removed ++ result.evaluationOrder ++ b.changed.keys)
  { patches := b.forced.keys.foldl (addForced snapshot) patches
    errors := result.errors
    evaluationOrder := result.evaluationOrder
    cyclicPaths := result.cyclicPaths
    removedPaths := removed
    undefinedPaths := result.undefinedPaths
    isFirstTree := first
    diagnostics := result.diagnostics }

/-- Runs the pass of a batch whose changes are made. -/
def finish (p : Progress) (b : ChangeBatch) : Evaluator × Update :=
  let work := { p.work with roots := p.work.roots.extend b.changed.keys }
  let first := !p.evaluator.evaluatedOnce
  let roots := if b.full || first then none else some work.roots.keys
  let (e, previous, result) := p.evaluator.runPass roots work.previous
  ({ e with evaluatedOnce := true }, updateOf b first work.removed previous e.snapshot result)

/-- Makes the changes of a checked batch and runs its pass. -/
def applyChecked (e : Evaluator) (b : ChangeBatch) : Evaluator × Except Rejection Update :=
  let (p, rejection) := (Progress.perform ⟨e, .empty⟩ b).rebuild
  match rejection with
  | some rejection => (p.evaluator, .error rejection)
  | none =>
    let (e, update) := finish p b
    (e, .ok update)

/-- Applies a batch. -/
def apply (e : Evaluator) (b : ChangeBatch) : Evaluator × Except Rejection Update :=
  match e.validateAll [b] with
  | .error rejection => (e, .error rejection)
  | .ok () =>
    if e.tree.isEmpty && !b.hasStructural then (e, .ok .empty) else e.applyChecked b

/-- Checks that names are proper and different. -/
def checkNames (names : List String) : Except Rejection Unit := do
  let _ ← names.foldlM (fun seen name => do
    Tree.checkName name
    if SortedSet.contains seen name then throw (.duplicateEntity name)
    return seen.insert name) SortedSet.empty
  return ()

/-- The batch that replaces a tree: removals of the entities that are gone, then all records. -/
def loadBatch (tree : Tree) (records : List EntityRecord) : ChangeBatch :=
  let names := records.map (·.name)
  let gone := tree.names.filter fun name => name ∉ names
  { ChangeBatch.empty with
    structural := gone.map .remove ++ records.map .upsert
    full := true }

/-- Replaces the whole tree and runs a full pass, whose update is the first over a fresh tree. -/
def load (e : Evaluator) (records : List EntityRecord) : Evaluator × Except Rejection Update :=
  match checkNames (records.map (·.name)) with
  | .error rejection => (e, .error rejection)
  | .ok () => { e with evaluatedOnce := false }.apply (loadBatch e.tree records)

/-- Evaluates again everything that reads one of the paths, which must exist. -/
def evaluate (e : Evaluator) (changed : List String) : Evaluator × Except Rejection PassResult :=
  match changed.find? fun path => !e.graph.contains path with
  | some path => (e, .error (.unknownPath path))
  | none =>
    let (e, _, result) := e.runPass (some (distinct changed)) .empty
    (e, .ok result)

/-- Evaluates everything again. -/
def evaluateAll (e : Evaluator) : Evaluator × PassResult :=
  let (e, _, result) := e.runPass none .empty
  ({ e with evaluatedOnce := true }, result)

/-! ### Questions about the dependencies -/

/-- All paths in evaluation order. -/
def evaluationOrder (e : Evaluator) : List String × Evaluator :=
  let (paths, graph) := e.graph.evaluationOrder
  (paths, { e with graph })

/-- The paths on cycles, in evaluation order. -/
def cyclicPaths (e : Evaluator) : List String × Evaluator :=
  let (paths, graph) := e.graph.cyclicPaths
  (paths, { e with graph })

/-- The order in which a change of the paths, which must exist, would be evaluated. -/
def affectedOrder (e : Evaluator) (changed : List String) :
    Except Rejection (List String) × Evaluator :=
  match changed.find? fun path => !e.graph.contains path with
  | some path => (.error (.unknownPath path), e)
  | none =>
    let (ids, graph) := e.graph.affected (changed.filterMap e.graph.id?)
    (.ok (graph.paths ids), { e with graph })

end Recalc.Evaluator
