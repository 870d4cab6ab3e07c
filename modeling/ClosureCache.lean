import ClosureCache.Capture.Json
import ClosureCache.Evaluation.ErrorJson
import ClosureCache.Key.Json
import ClosureCache.Proofs.Cache.Isolation
import ClosureCache.Proofs.Cache.Reentry
import ClosureCache.Proofs.Cache.Refusal
import ClosureCache.Proofs.Cache.Retention
import ClosureCache.Proofs.Cache.Tidiness
import ClosureCache.Proofs.Capture.Exact
import ClosureCache.Proofs.Evaluation.Completeness
import ClosureCache.Proofs.Heap.Collection
import ClosureCache.Proofs.Capture.Specs
import ClosureCache.Proofs.Evaluation.Following
import ClosureCache.Proofs.Evaluation.Confinement
import ClosureCache.Proofs.Evaluation.Copying
import ClosureCache.Proofs.Program.Acceptance
import ClosureCache.Proofs.Program.RoundTrip
import ClosureCache.Proofs.Evaluation.Collections
import ClosureCache.Proofs.Evaluation.Release
import ClosureCache.Proofs.Heap.Marking
import ClosureCache.Proofs.Heap.Repetition
import ClosureCache.Proofs.Heap.Finalization
import ClosureCache.Proofs.Capture.Nesting
import ClosureCache.Proofs.Capture.Reporting
import ClosureCache.Proofs.Program.Annotations
import ClosureCache.Proofs.Program.Mutability
import ClosureCache.Proofs.Program.Sites
import ClosureCache.Proofs.Evaluation.Discrimination
import ClosureCache.Proofs.Capture.CanonicalText
import ClosureCache.Proofs.Cache.Unpinning
import ClosureCache.Proofs.Evaluation.Cells
import ClosureCache.Proofs.Evaluation.PrivateCells
import ClosureCache.Proofs.EventLog.Retention
import ClosureCache.Proofs.EventLog.Lines
import ClosureCache.Proofs.Evaluation.Elements
import ClosureCache.Proofs.Evaluation.Hoisting
import ClosureCache.Proofs.Scope.Walks
import ClosureCache.Proofs.Scope.Arena
import ClosureCache.Proofs.Evaluation.CapturedNames
