import JsonRules.Number.Bits
import JsonRules.Engine
import JsonRules.Proofs.Lifting
import JsonRules.Proofs.Value.Reordered
import JsonRules.Proofs.Value.Similar
import JsonRules.Proofs.Number.Order
import JsonRules.Proofs.Number.Exact
import JsonRules.Proofs.Number.Decimal
import JsonRules.Proofs.Number.Nearest
import JsonRules.Proofs.Number.Shortest
import JsonRules.Proofs.Number.Numeral
import JsonRules.Proofs.Number.Layout
import JsonRules.Proofs.Number.Whole
import JsonRules.Proofs.Value.Within
import JsonRules.Proofs.Value.Equality
import JsonRules.Proofs.Value.Settled
import JsonRules.Proofs.Value.Path
import JsonRules.Proofs.Rule.Tree
import JsonRules.Proofs.Rule.Compiled
import JsonRules.Proofs.Rule.Normal
import JsonRules.Proofs.Rule.Expanded
import JsonRules.Proofs.Rule.Position
import JsonRules.Proofs.Rule.Grammar
import JsonRules.Proofs.Rule.Place
import JsonRules.Proofs.Operator.Conduct
import JsonRules.Proofs.Operator.Builtin
import JsonRules.Proofs.Operator.Kind
import JsonRules.Proofs.Registry.History
import JsonRules.Proofs.Registry.Registrations
import JsonRules.Proofs.Evaluation.Environment
import JsonRules.Proofs.Evaluation.Answer
import JsonRules.Proofs.Evaluation.Restored
import JsonRules.Proofs.Evaluation.Agreement
import JsonRules.Proofs.Evaluation.Lookup
import JsonRules.Proofs.Evaluation.Standard
import JsonRules.Proofs.Evaluation.Related
import JsonRules.Proofs.Evaluation.Alike
import JsonRules.Proofs.Evaluation.Normalized
import JsonRules.Proofs.Evaluation.Watch
import JsonRules.Proofs.Evaluation.Depth
import JsonRules.Proofs.Evaluation.Limit
import JsonRules.Proofs.Evaluation.Expanded
import JsonRules.Proofs.Evaluation.Plain
import JsonRules.Proofs.Evaluation.Cause
import JsonRules.Proofs.Evaluation.Template
import JsonRules.Proofs.Evaluation.Closed
import JsonRules.Proofs.Evaluation.Visit
import JsonRules.Proofs.Rule.Similar
import JsonRules.Proofs.Operator.Similar
import JsonRules.Proofs.Evaluation.Similar
import JsonRules.Proofs.Evaluation.Reordered
import JsonRules.Proofs.Evaluation.Call
import JsonRules.Proofs.Evaluation.Outcomes
import JsonRules.Proofs.Evaluation.Elements
import JsonRules.Proofs.Evaluation.Scoped
import JsonRules.Proofs.Evaluation.Effect
import JsonRules.Proofs.Evaluation.Fold
import JsonRules.Proofs.Evaluation.ShortCircuit
import JsonRules.Proofs.Evaluation.Reached
import JsonRules.Proofs.Evaluation.Regrouped
import JsonRules.Proofs.Evaluation.Dual
import JsonRules.Proofs.Operator.Cut
import JsonRules.Proofs.Operator.Missing
import JsonRules.Proofs.Value.Order
import JsonRules.Proofs.Operator.Extreme
import JsonRules.Proofs.Text.Blank
import JsonRules.Proofs.Number.Grammar
import JsonRules.Proofs.Number.Based
import JsonRules.Proofs.Number.Text
import JsonRules.Proofs.Json.Document
import JsonRules.Proofs.Json.Grammar
import JsonRules.Proofs.Json.Library
import JsonRules.Proofs.Json.Number
import JsonRules.Proofs.Json.Quoted
import JsonRules.Proofs.Json.Token
import JsonRules.Proofs.Json.Reader
import JsonRules.Proofs.Json.Lawful
import JsonRules.Proofs.Json.Conversion
import JsonRules.Proofs.Json.Integer
import JsonRules.Proofs.Json.RoundTrip
