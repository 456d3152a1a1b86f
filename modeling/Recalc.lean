import Recalc.Proofs.Collection.Interner.Dense
import Recalc.Proofs.Collection.PendingSet.Arrival
import Recalc.Proofs.Entity.Lens
import Recalc.Proofs.Entity.Views
import Recalc.Proofs.Evaluator.Allocations
import Recalc.Proofs.Evaluator.InTurn
import Recalc.Proofs.Evaluator.Merge
import Recalc.Proofs.Evaluator.Reload
import Recalc.Proofs.Evaluator.Removed
import Recalc.Proofs.Expr.Descent
import Recalc.Proofs.Expr.Members
import Recalc.Proofs.Expr.Modes
import Recalc.Proofs.Expr.Nesting
import Recalc.Proofs.Expr.Phrases
import Recalc.Proofs.Expr.Scanned
import Recalc.Proofs.Expr.Steps
import Recalc.Proofs.Extraction.Locality
import Recalc.Proofs.Graph.Count
import Recalc.Proofs.Graph.Dependents
import Recalc.Proofs.Noninterference
import Recalc.Proofs.Patch
import Recalc.Proofs.PathGraph.Freshness
import Recalc.Proofs.PathGraph.Installing
import Recalc.Proofs.Scheduler.Deliveries
import Recalc.Proofs.Snapshot.Flattened
import Recalc.Proofs.Snapshot.Range
