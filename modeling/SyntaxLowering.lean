import SyntaxLowering.FileTree
import SyntaxLowering.Main
import SyntaxLowering.Proofs.AccessChains
import SyntaxLowering.Proofs.BatchFailures
import SyntaxLowering.Proofs.CanonicalText
import SyntaxLowering.Proofs.CommaDetection
import SyntaxLowering.Proofs.CommaExactness
import SyntaxLowering.Proofs.Conservation
import SyntaxLowering.Proofs.DetachedRuns
import SyntaxLowering.Proofs.DispatchOrder
import SyntaxLowering.Proofs.ExactHoisting
import SyntaxLowering.Proofs.HoistOrder
import SyntaxLowering.Proofs.Isolation
import SyntaxLowering.Proofs.NameHistories
import SyntaxLowering.Proofs.TokenBoundaries
import SyntaxLowering.Proofs.ReplacementChains
import SyntaxLowering.Proofs.JsonText
import SyntaxLowering.Proofs.JsonVariants
import SyntaxLowering.Proofs.UnitRoundTrip
import SyntaxLowering.Proofs.NestingGrowth
import SyntaxLowering.Proofs.Offsets
import SyntaxLowering.Proofs.Rereading
import SyntaxLowering.Proofs.NullsafeLowering
import SyntaxLowering.Proofs.HoistCompleteness
import SyntaxLowering.Proofs.QuotedLiterals
import SyntaxLowering.Proofs.ChangeReports
import SyntaxLowering.Proofs.StatementOrder
import SyntaxLowering.Proofs.ExpressionReading
import SyntaxLowering.Proofs.HonestReports
import SyntaxLowering.Proofs.OutputPaths
import SyntaxLowering.Proofs.CounterBounds
import SyntaxLowering.Proofs.OrderedTokens
