import PVS.Library.Fuel
import PVS.GroundProver.Process
import PVS.GroundProver.Ground
import PVS.Library.UnionFind
import PVS.GroundProver.Merge
import PVS.GroundProver.Closure
import PVS.GroundProver.Process1
import PVS.GroundProver.Meets
import PVS.GroundProver.Canon
import PVS.GroundProver.Congruence
import PVS.GroundProver.ArraySolve
import PVS.GroundProver.Arith
import PVS.GroundProver.ArithLinear
import PVS.GroundEval.Ir2c
import PVS.GroundEval.Ir2cAddition
import PVS.GroundEval.Ir2cExact
import PVS.GroundEval.ArrayExtent
import PVS.GroundEval.CArray
import PVS.GroundEval.CArrayOps
import PVS.GroundEval.CArrayRuns
import PVS.GroundEval.ClosureHash
import PVS.GroundEval.ClosureResize
import PVS.GroundEval.MonoClones
import PVS.GroundEval.OuterArray
import PVS.GroundEval.Ir
import PVS.GroundEval.PreprocessIr
import PVS.GroundEval.PreprocessLinear
import PVS.Prover.ProofDriver
import PVS.Prover.ProofRules
import PVS.Prover.ProofRun
import PVS.Store.FetchLayout
import PVS.Store.FetchObj
import PVS.Store.RoundTrip
import PVS.BddSimp.BddSimp
import PVS.BddSimp.Cubes
import PVS.BddSimp.Subgoals
import PVS.BddSimp.Twins
import PVS.TccGen.Closure
import PVS.TccGen.Contexts
import PVS.TccGen.Tccs
import PVS.GroundProver.ArrayUpdates
import PVS.GroundProver.Lambda
import PVS.GroundProver.Liftif
import PVS.GroundProver.WorkList
import PVS.Library.WeightOrder
import PVS.Nlyices.Polyrep
import PVS.Nlyices.PolyrepOperations
import PVS.Prover.EditScript
import PVS.GroundProver.Bounds
import PVS.GroundProver.Transclosure
import PVS.Prover.Flatten
import PVS.Prover.Split
import PVS.Prover.Undo
import PVS.GroundEval.Ir2cDivision
import PVS.GroundEval.Ir2cDivisionExact
import PVS.GroundEval.Ir2cQuantifier
import PVS.GroundEval.Ir2cQuotients
import PVS.GroundEval.Pvs2irBindings
import PVS.GroundEval.Pvs2irOverride
import PVS.Prover.Expr
import PVS.Prover.Replace
import PVS.Prover.ReplaceStep
import PVS.Assert.Sums
import PVS.Assert.SumsValue
import PVS.Judgements.JudgementMinimal
import PVS.Assert.NestedUpdates
import PVS.Assert.NestedUpdatesPreserved
import PVS.Equalities.IntersectionType
import PVS.GroundEval.DeclId
import PVS.Assert.QuantArith
import PVS.Judgements.LetTypes
import PVS.Judgements.LetTypesCache
import PVS.GroundEval.PvsEqualp
import PVS.GroundEval.PvsEqualpParts
import PVS.GroundEval.PvsEqualpValue
import PVS.Judgements.SharedMinimal
import PVS.Library.DependentTelescope
import PVS.Parse.Chains
import PVS.Pp.Decimals
import PVS.Prover.FindMatch
import PVS.Prover.FindMatchAgree
import PVS.Prover.InstSteps
import PVS.Prover.InstStepsRefine
import PVS.Prover.QuantifierRules
import PVS.Prover.SplitRewrite
import PVS.Prover.SplitRewriteSound
import PVS.GroundEval.Subrange
import PVS.GroundProver.RationalOrder
import PVS.Library.WrappedOrder
import PVS.GroundProver.Arithord
import PVS.GroundProver.ArithordSums
import PVS.BddPackage.ComputedTable
import PVS.BddPackage.Constrain
import PVS.BddPackage.Client
import PVS.BddPackage.Held
import PVS.BddPackage.MarkedPass
import PVS.BddPackage.Quantify
import PVS.BddPackage.Session
