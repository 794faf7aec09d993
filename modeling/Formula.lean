import Formula.Expr.Printing
import Formula.Expr.Resolution
import Formula.Parameter.Operation
import Formula.System.Jacobian
import Formula.Text.Calculation
import Formula.Text.Grammar
import Formula.Proofs.Reading
import Formula.Proofs.Load
import Formula.Proofs.StackReading
import Formula.Proofs.Acceptance
import Formula.Proofs.Cutting
import Formula.Proofs.TextLanguage
import Formula.Proofs.EarliestError
import Formula.Proofs.FiniteDouble
import Formula.Proofs.PrintedWords
import Formula.Proofs.Rereading
import Formula.Proofs.Occurrence
import Formula.Proofs.DerivativeRules
import Formula.Proofs.Traversal
import Formula.Proofs.GradientEntries
import Formula.Proofs.SignedZero
import Formula.Proofs.AbsentParameters
import Formula.Proofs.RealDerivative
import Formula.Proofs.TableRecords
import Formula.Proofs.Tracking
import Formula.Proofs.Balance
import Formula.Proofs.LimitPruning
import Formula.Proofs.Sessions
import Formula.Proofs.TableRefinement
import Formula.Proofs.SessionRefinement
import Formula.Proofs.NearestDouble
import Formula.Proofs.NumeralValue
import Formula.Proofs.ShortestDecimal
import Formula.Proofs.MaximalRuns
import Formula.Proofs.LexemeFaults
import Formula.Proofs.Refusals
import Formula.Proofs.ErrorPlaces
import Formula.Proofs.UniqueReadability
import Formula.Proofs.ReaderImage
import Formula.Proofs.OperatorRoom
import Formula.Proofs.MixedDerivatives
import Formula.Proofs.Searches
import Formula.Proofs.Independence
import Formula.Proofs.Blanks
import Formula.Proofs.StableForms
import Formula.Proofs.RepeatedDerivatives
import Formula.Proofs.ResolvedLeaves
import Formula.Proofs.StructuralEquality
import Formula.Proofs.PrintedAgain
import Formula.Proofs.DerivativeGrowth
import Formula.Proofs.NestedCalls
import Formula.Proofs.VisitOrder
