import Prusti.Vir.BorrowDag
import Prusti.Vir.ExprHash
import Prusti.Vir.RedundantOld
import Prusti.Vir.SimultaneousPlaces
import Prusti.FoldUnfold.BorrowExpiry
import Prusti.FoldUnfold.ObtainTermination
import Prusti.FoldUnfold.EnumBody
import Prusti.Cfg.NameTables
import Prusti.Cfg.PathSearch
import Prusti.Cfg.VisitedBlocks
import Prusti.Cfg.AssignedVars
import Prusti.Encoder.Identifiers
import Prusti.Encoder.NameInterner
import Prusti.Encoder.SnapshotReads
import Prusti.Encoder.Discriminants
import Prusti.Encoder.TypePatching
import Prusti.Encoder.RangeExtract
import Prusti.Encoder.Casts
import Prusti.Optimizations.Simplifier
import Prusti.Optimizations.InlinedCalls
import Prusti.Optimizations.PredicateClosure
import Prusti.Optimizations.VarRemover
import Prusti.Optimizations.PurifiedRanges
import Prusti.Optimizations.PurifiedAccesses
import Prusti.Optimizations.MergedBlocks
import Prusti.Optimizations.RetypedVars
import Prusti.Optimizations.MovedUnfoldings
import Prusti.Optimizations.FixedQuantifiers
import Prusti.Fixes.ConsistentRenaming
import Prusti.Mir.LoopQueries
import Prusti.Mir.SpecBlocks
import Prusti.Mir.PointToPoint
import Prusti.Analysis.InitSoundness
import Prusti.Analysis.InitTermination
import Prusti.Analysis.ReachingTermination
import Prusti.Analysis.AssignmentAgreement
import Prusti.LoopInvariant.GrantedLeaves
import Prusti.Encoder.LinkedBlocks
import Prusti.Encoder.VarDependencies
import Prusti.Borrowck.DagOrder
import Prusti.Borrowck.DyingLoans
import Prusti.Specs.AcceptedMeaning
import Prusti.Specs.SerialisationAgreement
import Prusti.Specs.ContractRefinement
import Prusti.Specs.ExternModules
import Prusti.Specs.ExternResolver
import Prusti.Encoder.ResolvedSnapshots
import Prusti.FoldUnfold.ObtainPermissions
import Prusti.Server.Requests
