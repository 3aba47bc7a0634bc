import FormulaQuiz.Decimal.Places
import FormulaQuiz.Text.Symbol
import FormulaQuiz.Formula.Plain
import FormulaQuiz.Formula.Grouping
import FormulaQuiz.Json.Printer
import FormulaQuiz.Question.Draft
import FormulaQuiz.Formula.Vocabulary
import FormulaQuiz.Formula.Token
import FormulaQuiz.Formula.Term
import FormulaQuiz.Formula.Value
import FormulaQuiz.Formula.Operator
import FormulaQuiz.Formula.Capture
import FormulaQuiz.Formula.Parser
import FormulaQuiz.Formula.Integer
import FormulaQuiz.Formula.Function
import FormulaQuiz.Formula.Operation
import FormulaQuiz.Formula.Display
import FormulaQuiz.Formula.Machine
import FormulaQuiz.Formula.Call
import FormulaQuiz.Formula.Evaluation
import FormulaQuiz.Random.ChaCha
import FormulaQuiz.Random.Interval
import FormulaQuiz.Question.Check
import FormulaQuiz.Variation.Steps
import FormulaQuiz.Variation.Preview
import FormulaQuiz.Variation.Document
import FormulaQuiz.Variation.Request
import FormulaQuiz.Cli.Report
import FormulaQuiz.Main
import FormulaQuiz.Proofs.Trial
import FormulaQuiz.Proofs.Shuffle
import FormulaQuiz.Proofs.Aliases
import FormulaQuiz.Proofs.Progress
import FormulaQuiz.Proofs.Rows
import FormulaQuiz.Proofs.Substitution
import FormulaQuiz.Proofs.Demands
import FormulaQuiz.Proofs.Questions
import FormulaQuiz.Proofs.Layout
import FormulaQuiz.Proofs.Preview
import FormulaQuiz.Proofs.Rounding
import FormulaQuiz.Proofs.Floats
import FormulaQuiz.Proofs.Decimals
import FormulaQuiz.Proofs.Digits
import FormulaQuiz.Proofs.Printing
import FormulaQuiz.Proofs.Options
import FormulaQuiz.Proofs.Shortest
import FormulaQuiz.Proofs.Literals
import FormulaQuiz.Proofs.Grammar
import FormulaQuiz.Proofs.Regrouping
import FormulaQuiz.Proofs.Rereading
import FormulaQuiz.Proofs.Marks
import FormulaQuiz.Proofs.Boundaries
import FormulaQuiz.Proofs.Apart
import FormulaQuiz.Proofs.Renaming
import FormulaQuiz.Proofs.Reading
import FormulaQuiz.Proofs.Agreement
import FormulaQuiz.Proofs.Naming
import FormulaQuiz.Proofs.Absence
import FormulaQuiz.Proofs.Overlap
import FormulaQuiz.Proofs.Solutions
import FormulaQuiz.Proofs.Hiding
import FormulaQuiz.Proofs.Lockstep
import FormulaQuiz.Proofs.Independence
import FormulaQuiz.Proofs.FileCheck
import FormulaQuiz.Proofs.Identifiers
import FormulaQuiz.Proofs.Strays
import FormulaQuiz.Proofs.Sums
import FormulaQuiz.Proofs.Infinities
import FormulaQuiz.Proofs.Ranges
import FormulaQuiz.Proofs.Acceptance
import FormulaQuiz.Proofs.Finiteness
import FormulaQuiz.Proofs.Failures
import FormulaQuiz.Proofs.Guards
import FormulaQuiz.Proofs.Sources
import FormulaQuiz.Proofs.Lines
import FormulaQuiz.Proofs.Framing
import FormulaQuiz.Proofs.Runs
import FormulaQuiz.Proofs.Candidates
import FormulaQuiz.Proofs.Drawing
import FormulaQuiz.Proofs.Limits
import FormulaQuiz.Proofs.Deviations
import FormulaQuiz.Proofs.Overflow
import FormulaQuiz.Proofs.Turns
import FormulaQuiz.Proofs.Neighbours
import FormulaQuiz.Proofs.Inside
import FormulaQuiz.Proofs.Spread
import FormulaQuiz.Proofs.Relocation
import FormulaQuiz.Proofs.Usage
import FormulaQuiz.Proofs.Widening
import FormulaQuiz.Proofs.Beside
import FormulaQuiz.Proofs.Taking
import FormulaQuiz.Proofs.Statements
import FormulaQuiz.Proofs.Operands
import FormulaQuiz.Proofs.Words
import FormulaQuiz.Proofs.Scanning
import FormulaQuiz.Proofs.Commuting
import FormulaQuiz.Proofs.Blame
import FormulaQuiz.Proofs.Outcomes
import FormulaQuiz.Proofs.Closed
import FormulaQuiz.Proofs.Scopes
import FormulaQuiz.Proofs.Checked
import FormulaQuiz.Proofs.Repetition
import FormulaQuiz.Proofs.Written
import FormulaQuiz.Proofs.Trimming
import FormulaQuiz.Proofs.Enclosing
import FormulaQuiz.Proofs.Numerals
import FormulaQuiz.Proofs.Respelling
import FormulaQuiz.Proofs.Occurrences
