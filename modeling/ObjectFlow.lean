import ObjectFlow.CallGraph.Hierarchical
import ObjectFlow.LiveVariables
import ObjectFlow.Main
import ObjectFlow.PointsTo.Origin
import ObjectFlow.Program.Builder
import ObjectFlow.Proofs.Accepted
import ObjectFlow.Proofs.Growth
import ObjectFlow.Proofs.Runs
import ObjectFlow.Proofs.Obligations
import ObjectFlow.Proofs.Closure
import ObjectFlow.Proofs.Derivation
import ObjectFlow.Proofs.Precision
import ObjectFlow.Proofs.Completeness
import ObjectFlow.Proofs.Draining
import ObjectFlow.Proofs.Confluence
import ObjectFlow.Proofs.Fixpoint
import ObjectFlow.Proofs.Execution
import ObjectFlow.Proofs.Soundness
import ObjectFlow.Proofs.Results
import ObjectFlow.Proofs.Coarsening
import ObjectFlow.Proofs.Termination
import ObjectFlow.Proofs.Arithmetic
import ObjectFlow.Proofs.Facts
import ObjectFlow.Proofs.Solving
import ObjectFlow.Proofs.PostSolutions
import ObjectFlow.Proofs.LeastSolutions
import ObjectFlow.Proofs.Graphs
import ObjectFlow.Proofs.Neighbours
import ObjectFlow.Proofs.Propagation
import ObjectFlow.Proofs.Liveness
import ObjectFlow.Proofs.WellFormedness
import ObjectFlow.Proofs.Hierarchy
import ObjectFlow.Proofs.Safety
import ObjectFlow.Proofs.SuperSolving
import ObjectFlow.Proofs.HeapFacts
import ObjectFlow.Proofs.Aliases
import ObjectFlow.Proofs.ProgramFacts
import ObjectFlow.Proofs.Computation
import ObjectFlow.Proofs.ProgramPropagation
import ObjectFlow.Proofs.Definitions
import ObjectFlow.Proofs.Visits
import ObjectFlow.Proofs.Refinement
import ObjectFlow.Proofs.Listing
import ObjectFlow.Proofs.Checking
import ObjectFlow.Proofs.Subtyping
import ObjectFlow.Proofs.CallEdges
import ObjectFlow.Proofs.Nesting
import ObjectFlow.Proofs.Documents
import ObjectFlow.Proofs.Parsing
import ObjectFlow.Proofs.Decoding
import ObjectFlow.Proofs.Dispatch
import ObjectFlow.Proofs.LivePaths
import ObjectFlow.Proofs.Lockstep
import ObjectFlow.Proofs.Coincidence
import ObjectFlow.Proofs.Equations
import ObjectFlow.Proofs.Layouts
import ObjectFlow.Proofs.Additions
import ObjectFlow.Proofs.CallChains
import ObjectFlow.Proofs.CallStrings
import ObjectFlow.Proofs.Identities
import ObjectFlow.Proofs.CallClosure
import ObjectFlow.Proofs.Passages
import ObjectFlow.Proofs.Connections
import ObjectFlow.Proofs.Indexes
import ObjectFlow.Proofs.Histories
import ObjectFlow.Proofs.CanonicalFacts
import ObjectFlow.Proofs.FlowViews
