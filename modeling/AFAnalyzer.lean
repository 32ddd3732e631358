import AFAnalyzer.Checked.Search
import AFAnalyzer.Logic.ConeDistance
import AFAnalyzer.Logic.I23
import AFAnalyzer.Search.CallBound
import AFAnalyzer.Search.InitialSets
import AFAnalyzer.Search.Lifetime
import AFAnalyzer.Search.Polling
import AFAnalyzer.Search.Refinement
import AFAnalyzer.Search.SolverLog
import AFAnalyzer.Search.Storage
import AFAnalyzer.Search.TaskTree
import AFAnalyzer.Search.WindDown
import AFAnalyzer.Solver.Activations
import AFAnalyzer.Solver.Execute
import AFAnalyzer.Solver.MergeOrder
import AFAnalyzer.Solver.Outcomes
import AFAnalyzer.Solver.Preprocessing
import AFAnalyzer.Solver.Preservation
import AFAnalyzer.Solver.Priority
import AFAnalyzer.Solver.Program
import AFAnalyzer.Solver.ProofExtension
import AFAnalyzer.Solver.QuerySequence
