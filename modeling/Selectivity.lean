import Selectivity.Json.Writer
import Selectivity.Service.Exchange
import Selectivity.Proofs.ArenaEdits
import Selectivity.Proofs.ArenaReading
import Selectivity.Proofs.NegationStage
import Selectivity.Proofs.ChainStage
import Selectivity.Proofs.InListStage
import Selectivity.Proofs.ExpansionStage
import Selectivity.Proofs.KleeneTruth
import Selectivity.Proofs.InListTruth
import Selectivity.Proofs.NormalizeTruth
import Selectivity.Proofs.NormalizeShape
import Selectivity.Proofs.EstimatorSteps
import Selectivity.Proofs.RangeMeaning
import Selectivity.Proofs.JoinPredicates
import Selectivity.Proofs.Picks
import Selectivity.Proofs.Odometer
import Selectivity.Proofs.SingleOwnership
import Selectivity.Proofs.ExpansionAttempt
import Selectivity.Proofs.ExpansionPass
import Selectivity.Proofs.CrossProduct
import Selectivity.Proofs.ComparisonOrder
import Selectivity.Proofs.Binary64Order
import Selectivity.Proofs.CompositionOrder
import Selectivity.Proofs.NormalForm
import Selectivity.Proofs.NormalizeAgain
import Selectivity.Proofs.ExactQuantity
import Selectivity.Proofs.OperandIndependence
import Selectivity.Proofs.ExactComposition
import Selectivity.Proofs.ExactRanges
import Selectivity.Proofs.AddedPredicates
import Selectivity.Proofs.RowCounts
import Selectivity.Proofs.InListWriting
import Selectivity.Proofs.InListRoundTrip
import Selectivity.Proofs.InListMeaning
import Selectivity.Proofs.SharedTrees
import Selectivity.Proofs.InListEligibility
import Selectivity.Proofs.InListFixpoint
import Selectivity.Proofs.CatalogKeys
import Selectivity.Proofs.PublishedStatistics
import Selectivity.Proofs.RecordDecoding
import Selectivity.Proofs.ExprExchange
import Selectivity.Proofs.Regrouping
import Selectivity.Proofs.SlotLists
import Selectivity.Proofs.FiledEstimates
import Selectivity.Proofs.WellFormedEstimates
import Selectivity.Proofs.MergedBounds
import Selectivity.Proofs.BatchedLookups
import Selectivity.Proofs.GrowingLookups
import Selectivity.Proofs.ExtrapolatedRanges
import Selectivity.Proofs.HistogramShares
import Selectivity.Proofs.ColumnShares
import Selectivity.Proofs.RowsWithValues
import Selectivity.Proofs.NearestIntegers
import Selectivity.Proofs.CoherentComparison
import Selectivity.Proofs.ExpansionSize
import Selectivity.Proofs.Compaction
import Selectivity.Proofs.Cloning
import Selectivity.Proofs.WorkLists
