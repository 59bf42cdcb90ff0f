import Reckoner.Main
import Reckoner.Wire.Limits
import Reckoner.Wire.Diagnostic
import Reckoner.Proofs.Expr.Size
import Reckoner.Proofs.Grammar.Derivation
import Reckoner.Proofs.Grammar.Reading
import Reckoner.Proofs.Failure
import Reckoner.Proofs.Grammar.Soundness
import Reckoner.Proofs.Decimal.Numeral
import Reckoner.Proofs.Grammar.Parsing
import Reckoner.Proofs.Grammar.Prefixes
import Reckoner.Proofs.Grammar.Tracing
import Reckoner.Proofs.Grammar.Refusals
import Reckoner.Proofs.Token.Spelling
import Reckoner.Proofs.Token.Tokenization
import Reckoner.Proofs.Token.Cursor
import Reckoner.Proofs.Token.Scanning
import Reckoner.Proofs.Evaluator.Metering
import Reckoner.Proofs.Evaluator.Failures
import Reckoner.Proofs.Grammar.Identifiers
import Reckoner.Proofs.Evaluator.Naming
import Reckoner.Proofs.Calculation.Naming
import Reckoner.Proofs.Token.Context
import Reckoner.Proofs.Expr.Bare
import Reckoner.Proofs.Grammar.Relabelling
import Reckoner.Proofs.Calculation.Composition
import Reckoner.Proofs.Binary64.Rounding
import Reckoner.Proofs.Number.PowerSize
import Reckoner.Proofs.Evaluator.Allowance
import Reckoner.Proofs.Calculation.Outcome
import Reckoner.Proofs.Calculation.GreaterLimits
import Reckoner.Proofs.Binary64.Codes
import Reckoner.Proofs.Expr.Parts
import Reckoner.Proofs.Grammar.Literals
import Reckoner.Proofs.Number.Width
import Reckoner.Proofs.Evaluator.Width
import Reckoner.Proofs.Number.Multiples
import Reckoner.Proofs.Calculation.Width
import Reckoner.Proofs.Binary64.Nearest
import Reckoner.Proofs.Decimal.Shortest
import Reckoner.Proofs.Decimal.Positional
import Reckoner.Proofs.Decimal.Fixed
import Reckoner.Proofs.Display
import Reckoner.Proofs.Binary64.Order
import Reckoner.Proofs.Display.Integers
import Reckoner.Proofs.Calculation.Displays
import Reckoner.Proofs.Calculation.FixedPoint
import Reckoner.Proofs.Grammar.Failures
import Reckoner.Proofs.Token.Faults
import Reckoner.Proofs.Calculation.Diagnostics
import Reckoner.Proofs.Calculation.Gas
import Reckoner.Proofs.Grammar.Agreement
import Reckoner.Proofs.Token.Layout
import Reckoner.Proofs.Calculation.Layout
import Reckoner.Proofs.Json.Scalars
import Reckoner.Proofs.Json.RoundTrip
import Reckoner.Proofs.Text.Lines
import Reckoner.Proofs.Wire.Values
import Reckoner.Proofs.CommandLine.Serving
import Reckoner.Proofs.CommandLine.Arguments
import Reckoner.Proofs.CommandLine.Evaluating
import Reckoner.Proofs.Service.Keypad
import Reckoner.Proofs.Evaluator.Unlimited
import Reckoner.Proofs.Number.Integers
import Reckoner.Proofs.Binary64.Integers
import Reckoner.Proofs.Number.ZeroDivisor
import Reckoner.Proofs.Number.Logarithm
import Reckoner.Proofs.Number.Power
import Reckoner.Proofs.Number.Estimate
import Reckoner.Proofs.Number.Work
import Reckoner.Proofs.Binary64.Operations
import Reckoner.Proofs.Binary64.Error
import Reckoner.Proofs.Binary64.Values
import Reckoner.Proofs.Binary64.Whole
import Reckoner.Proofs.Decimal.FewDigits
import Reckoner.Proofs.Decimal.Scientific
import Reckoner.Proofs.Decimal.Written
import Reckoner.Proofs.Decimal.Leading
import Reckoner.Proofs.Service.Sign
import Reckoner.Proofs.Service.Hundredths
import Reckoner.Proofs.Json.Parts
import Reckoner.Proofs.Json.Numeric
import Reckoner.Proofs.Decimal.Lengths
import Reckoner.Proofs.Service.Numbers
import Reckoner.Proofs.Number.DecimalWidth
import Reckoner.Proofs.Number.HalfEven
import Reckoner.Proofs.Number.FloatPower
import Reckoner.Proofs.Number.ScaledRounding
import Reckoner.Proofs.Number.FloatPlaces
import Reckoner.Proofs.Token.Places
import Reckoner.Proofs.Expr.Places
import Reckoner.Proofs.Grammar.Places
import Reckoner.Proofs.Calculation.Places
import Reckoner.Proofs.Grammar.Progress
import Reckoner.Proofs.Descent.Machine
import Reckoner.Proofs.Descent.Invariant
import Reckoner.Proofs.Descent.Simulation
import Reckoner.Proofs.Descent.EndOfInput
import Reckoner.Proofs.Descent.Robust
import Reckoner.Proofs.Wire.Lawful
import Reckoner.Proofs.Wire.Standard
import Reckoner.Token.Cursor
import Reckoner.Proofs.Token.Cursor
