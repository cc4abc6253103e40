import Grading.Cache
import Grading.Main
import Grading.Model.Spelling
import Grading.Number.Exact
import Grading.Proofs.NumberOrder
import Grading.Proofs.Colouring
import Grading.Proofs.Circles
import Grading.Proofs.WhitePaths
import Grading.Proofs.Reach
import Grading.Proofs.WellFormed
import Grading.Proofs.Limits
import Grading.Proofs.Wiring
import Grading.Proofs.Acceptance
import Grading.Proofs.Tables
import Grading.Proofs.Scheduling
import Grading.Proofs.Dataflow
import Grading.Proofs.Classification
import Grading.Proofs.Origins
import Grading.Proofs.Causes
import Grading.Proofs.LeastOrder
import Grading.Proofs.Previews
import Grading.Proofs.Propagation
import Grading.Proofs.Agreement
import Grading.Proofs.Shape
import Grading.Proofs.Correspondence
import Grading.Proofs.PreorderWalk
import Grading.Proofs.Rearrangement
import Grading.Proofs.Influence
import Grading.Proofs.Equality
import Grading.Proofs.Caching
import Grading.Proofs.Representation
import Grading.Proofs.Doubles
import Grading.Proofs.DoubleRange
import Grading.Proofs.ExactRules
import Grading.Proofs.Finiteness
import Grading.Proofs.Monotonicity
import Grading.Proofs.RuleInputs
import Grading.Proofs.WeightedMean
import Grading.Proofs.Spelling
import Grading.Proofs.Numerals
import Grading.Proofs.Traversals
import Grading.Proofs.StoredForm
import Grading.Proofs.ClosedWalks
import Grading.Proofs.FindingKinds
import Grading.Proofs.CircleReports
import Grading.Proofs.ReachReports
import Grading.Proofs.ImportRules
import Grading.Proofs.HandleWeights
import Grading.Proofs.Importing
import Grading.Proofs.Mappings
import Grading.Proofs.CommandLine
import Grading.Proofs.SearchSize
import Grading.Proofs.FaultIsolation
import Grading.Proofs.SharedIds
import Grading.Proofs.DoubleAccuracy
import Grading.Proofs.DoubleRounding
import Grading.Proofs.DoubleSums
import Grading.Proofs.Starters
import Grading.Proofs.StarterNumbers
import Grading.Proofs.StarterAverages
import Grading.Proofs.StarterGrades
import Grading.Proofs.Handles
import Grading.Proofs.KeptValues
import Grading.Proofs.AverageWeights
import Grading.Proofs.Ranges
import Grading.Proofs.SlotReports
import Grading.Proofs.BinaryValues
import Grading.Proofs.Representable
import Grading.Proofs.DecimalTexts
import Grading.Proofs.ShortestDecimals
import Grading.Proofs.ShownNumbers
