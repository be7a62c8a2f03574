import SliceDispatch.Annotations
import SliceDispatch.Binary64
import SliceDispatch.Candidates
import SliceDispatch.Catalog
import SliceDispatch.Decimal
import SliceDispatch.Decision
import SliceDispatch.Distribution
import SliceDispatch.Expr
import SliceDispatch.Expr.Canonical
import SliceDispatch.Expr.Hash
import SliceDispatch.Hash.Jump
import SliceDispatch.Hash.Xxh3
import SliceDispatch.Hexadecimal
import SliceDispatch.Json.Basic
import SliceDispatch.Json.Builder
import SliceDispatch.Json.Draft
import SliceDispatch.Json.Numeral
import SliceDispatch.Json.Reader
import SliceDispatch.Json.Shape
import SliceDispatch.Json.Writer
import SliceDispatch.Placement
import SliceDispatch.Plan
import SliceDispatch.Proofs.Acceptance
import SliceDispatch.Proofs.AlikeCandidates
import SliceDispatch.Proofs.CandidateLists
import SliceDispatch.Proofs.CandidateSoundness
import SliceDispatch.Proofs.Caps
import SliceDispatch.Proofs.Cutting
import SliceDispatch.Proofs.DepthLimit
import SliceDispatch.Proofs.Evaluation
import SliceDispatch.Proofs.Executability
import SliceDispatch.Proofs.HashCalls
import SliceDispatch.Proofs.HashKeys
import SliceDispatch.Proofs.Isolation
import SliceDispatch.Proofs.JumpLoop
import SliceDispatch.Proofs.Jumps
import SliceDispatch.Proofs.KeyCombinations
import SliceDispatch.Proofs.KeyEnumeration
import SliceDispatch.Proofs.KeyExactness
import SliceDispatch.Proofs.KeyHash
import SliceDispatch.Proofs.KeyPredicates
import SliceDispatch.Proofs.Knowledge
import SliceDispatch.Proofs.Lockstep
import SliceDispatch.Proofs.Log
import SliceDispatch.Proofs.Merging
import SliceDispatch.Proofs.OwnedNodes
import SliceDispatch.Proofs.Ownership
import SliceDispatch.Proofs.PlanSoundness
import SliceDispatch.Proofs.QualifiedNames
import SliceDispatch.Proofs.ReferencePaths
import SliceDispatch.Proofs.References
import SliceDispatch.Proofs.RenamedNodes
import SliceDispatch.Proofs.Renaming
import SliceDispatch.Proofs.Renderings
import SliceDispatch.Proofs.Reordering
import SliceDispatch.Proofs.Reshaping
import SliceDispatch.Proofs.Responses
import SliceDispatch.Proofs.RootSlice
import SliceDispatch.Proofs.RoundTrip
import SliceDispatch.Proofs.ScanSoundness
import SliceDispatch.Proofs.SliceRoots
import SliceDispatch.Proofs.Slices
import SliceDispatch.Proofs.StackDiscipline
import SliceDispatch.Rounding
import SliceDispatch.Scalar
import SliceDispatch.ScanDecision
import SliceDispatch.Service
import SliceDispatch.Session
import SliceDispatch.Slicing
import SliceDispatch.Wire.Annotations
import SliceDispatch.Wire.Catalog
import SliceDispatch.Wire.Expr
import SliceDispatch.Wire.Plan
import SliceDispatch.Wire.Request
import SliceDispatch.Wire.Scalar
import SliceDispatch.Proofs.NamedSegments
