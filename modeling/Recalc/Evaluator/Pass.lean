import Recalc.Evaluator.Change

/-!
# Passes

A pass runs over paths in evaluation order and stores the value of each leaf. A path whose
expression fails keeps its last value or loses it, as the settings say, and the failure is reported;
a path on a cycle reports the cycle instead. Whatever happens to a path, the pass goes on.
-/

namespace Recalc

/-- What a pass did. -/
structure PassResult where
  /-- The leaf paths whose value changed, in order. -/
  updatedPaths : List String
  /-- The failures. -/
  errors : PathErrors
  /-- The leaf paths that ran, in the order they ran. -/
  evaluationOrder : List String
  /-- The paths on cycles that the pass met. -/
  cyclicPaths : List String
  /-- The paths that ran and have no value. -/
  undefinedPaths : List String
  /-- The measures. -/
  diagnostics : Diagnostics

/-- What a path turned out to be. -/
inductive Computed where
  /-- A path whose value is made of the leaves below it. -/
  | composite
  /-- No path of the tree. -/
  | missing
  /-- A leaf with a value. -/
  | value (value : Value)
  /-- A leaf whose expression failed. -/
  | failed (error : ExprError)

/-- A pass in the middle. -/
structure Pass where
  /-- The values as far as they are evaluated. -/
  snapshot : Snapshot
  /-- The value that each path had before. -/
  previous : Snapshot
  /-- The leaf paths whose value changed. -/
  updatedPaths : List String
  /-- The failures. -/
  errors : PathErrors
  /-- The leaf paths that ran. -/
  evaluationOrder : List String
  /-- The paths on cycles. -/
  cyclicPaths : List String

namespace Evaluator

/-- Runs the text of a dynamic property. A template without bindings is its own value. -/
def runCode (e : Evaluator) (snapshot : Snapshot) (reading : BindingSyntax) (text : String) :
    Except ExprError Value :=
  let scope := e.scope snapshot
  match reading with
  | .template =>
    if Template.isDynamic text then
      ((e.engine.evaluateTemplate scope text).runWith e.settings.budget).1
    else .ok (.data (.string text))
  | .script => ((e.engine.run scope text).runWith e.settings.budget).1

/-- The value of a leaf that is not dynamic: its allocation if it has one, its raw value if not. -/
def staticValue (e : Evaluator) (path : String) (raw : Json) : Value :=
  match e.bulk.get? path with
  | some (identity, payload) => .bulk identity payload
  | none => .data raw

/-- What a path is, and its value if it is a leaf. -/
def compute (e : Evaluator) (snapshot : Snapshot) (path : String) : Computed :=
  let (name, property) := Path.split path
  match e.tree.get? name with
  | none => .missing
  | some record =>
    if property = "" then .composite
    else
      match record.entity.property? property with
      | none => .missing
      | some raw =>
        if raw.isComposite then .composite
        else
          match record.config.isDynamicPath property, raw with
          | true, .string text =>
            match e.runCode snapshot record.config.bindingSyntax text with
            | .ok value => .value value
            | .error error => .failed error
          | _, raw => .value (e.staticValue path raw)

end Evaluator

namespace Pass

/-- Before the pass. -/
def start (snapshot previous : Snapshot) : Pass := ⟨snapshot, previous, [], .empty, [], []⟩

/-- Adds a failure of a path. -/
def addError (p : Pass) (path : String) (error : PathError) : Pass :=
  { p with errors := PathErrors.add p.errors path error }

/-- Whether the path stores an equal value already. -/
def stores (p : Pass) (path : String) (value : Value) : Bool :=
  (p.snapshot.get? path).any (· == value)

/-- Stores the value of a leaf. -/
def store (p : Pass) (path : String) (value : Value) : Pass :=
  { p with
    snapshot := p.snapshot.insert path value
    previous := p.previous.capture path (p.snapshot.get? path)
    updatedPaths := if p.stores path value then p.updatedPaths else p.updatedPaths ++ [path]
    evaluationOrder := p.evaluationOrder ++ [path] }

/-- Drops the value of a path that is no longer in the tree. -/
def drop (p : Pass) (path : String) : Pass :=
  { p with
    snapshot := p.snapshot.erase path
    previous := p.previous.capture path (p.snapshot.get? path) }

/-- The value of a path that failed. -/
def fallback (p : Pass) (staleOnError : Bool) (path : String) : Value :=
  if staleOnError then (p.snapshot.get? path).getD .undefined else .undefined

/-- Evaluates one path into the snapshot. -/
def evaluatePath (e : Evaluator) (p : Pass) (path : String) (cyclic : Bool) : Pass :=
  match e.compute p.snapshot path with
  | .composite => p
  | .missing => p.drop path
  | .value value => p.store path value
  | .failed error =>
    let value := p.fallback e.settings.staleOnError path
    let p := if cyclic then p else p.addError path (.expression error)
    p.store path value

/-- Visits one path: reports it if it is on a cycle, then evaluates it. -/
def visit (e : Evaluator) (p : Pass) (id : Nat) : Pass :=
  let path := e.graph.path id
  let cyclic := e.graph.isCyclic id
  let p := if cyclic then
    { p.addError path (.cycle path) with cyclicPaths := p.cyclicPaths ++ [path] } else p
  p.evaluatePath e path cyclic

/-- The paths that ran and have no value. -/
def undefinedPaths (p : Pass) : List String :=
  p.evaluationOrder.filter fun path => (p.snapshot.get? path).any (·.isUndefined)

end Pass

namespace Evaluator

/-- The ids that a pass runs over: all of them, or those that the roots affect. -/
def affectedIds (e : Evaluator) (roots : Option (List String)) : List Nat × PathGraph :=
  match roots with
  | none => e.graph.currentOrder
  | some roots => e.graph.affected (roots.filterMap e.graph.id?)

/-- Runs a pass over everything, or over what the roots affect. The values from before the pass are
added to `previous`, and the snapshot with them is returned. -/
def runPass (e : Evaluator) (roots : Option (List String)) (previous : Snapshot) :
    Evaluator × Snapshot × PassResult :=
  let (ids, graph) := e.affectedIds roots
  let e := { e with graph }
  let p := ids.foldl (Pass.visit e) (Pass.start e.snapshot previous)
  ({ e with snapshot := p.snapshot }, p.previous,
    { updatedPaths := p.updatedPaths
      errors := p.errors
      evaluationOrder := p.evaluationOrder
      cyclicPaths := p.cyclicPaths
      undefinedPaths := p.undefinedPaths
      diagnostics := ⟨ids.length, graph.size, graph.cyclicSize⟩ })

end Evaluator

end Recalc
