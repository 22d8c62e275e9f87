import LoopNest.Main
import LoopNest.Proofs.Flattening
import LoopNest.Proofs.Unrolling
import LoopNest.Proofs.Script
import LoopNest.Proofs.Composition
import LoopNest.Proofs.ConstantViews
import LoopNest.Proofs.Handles
import LoopNest.Proofs.Accesses
import LoopNest.Proofs.Coverage
import LoopNest.Proofs.Completeness
import LoopNest.Proofs.UnrollChecks
import LoopNest.Proofs.Instances
import LoopNest.Proofs.OffsetBijection
import LoopNest.Proofs.SliceExtents
import LoopNest.Proofs.ScopedTraces
import LoopNest.Proofs.RenamedSource
import LoopNest.Proofs.ParallelBuilds
import LoopNest.Proofs.PrintedExprs
import LoopNest.Proofs.PrintedBlocks
import LoopNest.Proofs.ContentAddresses
import LoopNest.Proofs.Attempts
import LoopNest.Proofs.Stepwise
import LoopNest.Proofs.Discipline
import LoopNest.Proofs.LoopBodies
import LoopNest.Proofs.ScopeOrder
import LoopNest.Proofs.CallText
import LoopNest.Proofs.WrittenCalls
import LoopNest.Proofs.OpaqueCalls
import LoopNest.Proofs.Acceptance
import LoopNest.Proofs.Comments
import LoopNest.Proofs.FreeText
import LoopNest.Proofs.Doubles
import LoopNest.Proofs.DecimalText
import LoopNest.Proofs.JsonText
import LoopNest.Proofs.JsonGrammar
import LoopNest.Proofs.Artifacts
import LoopNest.Proofs.CountedLoops
import LoopNest.Proofs.Occurrences
import LoopNest.Proofs.Identifiers
import LoopNest.Proofs.NormalForms
import LoopNest.Proofs.Skeletons
import LoopNest.Proofs.FloatValues
import LoopNest.Proofs.FloatDivisions
import LoopNest.Proofs.ReservedNames
import LoopNest.Proofs.Quotients
import LoopNest.Proofs.Formulas
import LoopNest.Proofs.Routines
import LoopNest.Proofs.TargetFiles
import LoopNest.Proofs.Programs
import LoopNest.Proofs.Rounds
import LoopNest.Proofs.MatrixProduct
import LoopNest.Proofs.Lineage
import LoopNest.Proofs.Formulas
