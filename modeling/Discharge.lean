import Discharge.CounterModel.Collection
import Discharge.Session
import Discharge.Proofs.Logic.Sorted
import Discharge.Proofs.Semantics.Interpretation
import Discharge.Proofs.Semantics.Substitution
import Discharge.Proofs.Encoding.Rules
import Discharge.Proofs.Encoding.WellSorted
import Discharge.Proofs.Encoding.Correct
import Discharge.Proofs.Encoding.Sorts
import Discharge.Proofs.Encoding.Parts
import Discharge.Proofs.Encoding.Defects
import Discharge.Proofs.Encoding.Diagnostics
import Discharge.Proofs.Encoding.Registry
import Discharge.Proofs.Decision.Literal
import Discharge.Proofs.Decision.Combination
import Discharge.Proofs.Decision.Law
import Discharge.Proofs.Decision.Refutation
import Discharge.Proofs.Decision.Algebraic
import Discharge.Proofs.Decision.Model
import Discharge.Proofs.Decision.Verdict
import Discharge.Proofs.Syntax.Grammar
import Discharge.Proofs.Syntax.ReadSound
import Discharge.Proofs.Syntax.ReadComplete
import Discharge.Proofs.Syntax.Rendering
import Discharge.Proofs.Number.Rounding
import Discharge.Proofs.Number.Shortest
import Discharge.Proofs.Number.Notation
import Discharge.Proofs.Syntax.Leaves
import Discharge.Proofs.Syntax.RoundTrip
import Discharge.Proofs.Encoding.StaticTypes
import Discharge.Proofs.Encoding.Extension
import Discharge.Proofs.Encoding.CallOrder
import Discharge.Proofs.Encoding.Unfolding
import Discharge.Proofs.Semantics.Writing
import Discharge.Proofs.Decision.Irrational
import Discharge.Proofs.Decision.Constant
import Discharge.Proofs.Session.Frame
import Discharge.Proofs.Session.Report
import Discharge.Proofs.Logic.Constants
import Discharge.Proofs.Encoding.Congruence
import Discharge.Proofs.Encoding.FreeConstants
import Discharge.Proofs.Encoding.Renaming
import Discharge.Proofs.Encoding.BoundNames
import Discharge.Proofs.Encoding.ParameterNames
import Discharge.Proofs.Syntax.Scoping
import Discharge.Proofs.Syntax.Texts
import Discharge.Proofs.Syntax.Equality
import Discharge.Proofs.Syntax.Image
import Discharge.Proofs.Encoding.Restatement
import Discharge.Proofs.Encoding.PrintedMeaning
import Discharge.Proofs.Syntax.Checks
import Discharge.Proofs.Syntax.Declarations
import Discharge.Proofs.Encoding.Exchange
import Discharge.Proofs.Encoding.Lengths
import Discharge.Proofs.Number.Nearest
import Discharge.Proofs.Number.Literals
import Discharge.Proofs.Number.WrittenDecimal
import Discharge.Proofs.Encoding.FloatConstants
import Discharge.Proofs.Decision.Ground
import Discharge.Proofs.Decision.WrittenSums
import Discharge.Proofs.Syntax.EqualityRules
import Discharge.Proofs.Encoding.Interchange
import Discharge.Proofs.CounterModel.Equality
import Discharge.Proofs.CounterModel.Sealed
