import DerivedQuery.Main
import DerivedQuery.Proofs.QueryGrammar.Nested
import DerivedQuery.Proofs.QueryDependence
import DerivedQuery.Proofs.QueryGrammar.Legacy
import DerivedQuery.Proofs.StrategyMigration
import DerivedQuery.Proofs.Signature
import DerivedQuery.Proofs.CompiledSlots
import DerivedQuery.Proofs.TypeSpelling
import DerivedQuery.Proofs.FieldReach
import DerivedQuery.Proofs.CompiledRendering
import DerivedQuery.Proofs.BatchComposition
import DerivedQuery.Proofs.ClauseOrder
import DerivedQuery.Proofs.Segmentation
import DerivedQuery.Proofs.StrategyAgreement
import DerivedQuery.Proofs.EmittedRecords
import DerivedQuery.Proofs.PositionSafety
import DerivedQuery.Proofs.RoundTrip
import DerivedQuery.Proofs.DescriptorWords
import DerivedQuery.Proofs.SignatureContract
import DerivedQuery.Proofs.StepWords
import DerivedQuery.Proofs.CollectionNames
import DerivedQuery.Proofs.SearchAgreement
import DerivedQuery.Proofs.FieldAddress
import DerivedQuery.Proofs.WriteInvocation
import DerivedQuery.Proofs.QueryBalance
import DerivedQuery.Proofs.InnerBulk
import DerivedQuery.Proofs.CommandLine.Inputs
import DerivedQuery.Proofs.CommandLine.Agreement
import DerivedQuery.Proofs.ComparatorPhrase
import DerivedQuery.Proofs.QueryText
