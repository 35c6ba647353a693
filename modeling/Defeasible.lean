import Defeasible.Counting.External
import Defeasible.Main
import Defeasible.Proofs.Search.Checked.History
import Defeasible.Proofs.Search.Reached
import Defeasible.Proofs.Theory.HardRules
import Defeasible.Theory.Collapse
import Defeasible.Theory.Interval
import Defeasible.Proofs.Closure.Ranking
import Defeasible.Proofs.Theory.Consequence
import Defeasible.Proofs.Theory.Strata
import Defeasible.Proofs.Closure.Levels
import Defeasible.Proofs.Extraction.Bound
import Defeasible.Proofs.Extraction.Storing
import Defeasible.Proofs.Extraction.Redundancy
import Defeasible.Proofs.Extraction.Exploration
import Defeasible.Proofs.Extraction.Completeness
import Defeasible.Proofs.Closure.Admissible
import Defeasible.Proofs.Theory.Resolution
import Defeasible.Proofs.Extraction.Tolerance
import Defeasible.Proofs.Theory.Grounded
import Defeasible.Proofs.Extraction.Soundness
import Defeasible.Proofs.Theory.Workers
import Defeasible.Proofs.Theory.Plausible
import Defeasible.Proofs.Theory.TimeLimit
import Defeasible.Proofs.Theory.Probability
import Defeasible.Proofs.Theory.Caution
import Defeasible.Proofs.Theory.Sharing
import Defeasible.Proofs.Theory.UnitPropagation
import Defeasible.Proofs.Theory.Shortening
import Defeasible.Proofs.Theory.Recomputed
import Defeasible.Proofs.Search.Cleanup
import Defeasible.Proofs.Search.Saturation
import Defeasible.Proofs.Theory.Merge
import Defeasible.Proofs.Theory.Built
import Defeasible.Proofs.Counting.Dimacs
import Defeasible.Proofs.PriorityQueue.Runs
import Defeasible.Proofs.Ground.Index
import Defeasible.Proofs.Dataset
import Defeasible.Proofs.Search.Restarts
import Defeasible.Proofs.Theory.Stopping
