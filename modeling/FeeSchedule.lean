import FeeSchedule.Unicode.Range
import FeeSchedule.Unicode.Blank
import FeeSchedule.Unicode.Digit
import FeeSchedule.Unicode.Numeric
import FeeSchedule.Unicode.Letter
import FeeSchedule.Unicode.Printable
import FeeSchedule.Unicode.Upper
import FeeSchedule.Text.Quoted
import FeeSchedule.Text.Integer
import FeeSchedule.Unicode.CodePoint
import FeeSchedule.Decimal.Basic
import FeeSchedule.Decimal.Round
import FeeSchedule.Decimal.Arith
import FeeSchedule.Decimal.Text
import FeeSchedule.Decimal.Fixed
import FeeSchedule.Calendar.Date
import FeeSchedule.Syntax.Token
import FeeSchedule.Syntax.Lexer
import FeeSchedule.Syntax.Expr
import FeeSchedule.Schedule.Basic
import FeeSchedule.Syntax.Fault
import FeeSchedule.Syntax.Expr.Parse
import FeeSchedule.Check.Diagnostic
import FeeSchedule.Check.Types
import FeeSchedule.Check.Declarations
import FeeSchedule.Log
import FeeSchedule.Schedule.Read
import FeeSchedule.Schedule.Parse
import FeeSchedule.Binary64.Basic
import FeeSchedule.Binary64.Shortest
import FeeSchedule.Json.Basic
import FeeSchedule.Json.Read
import FeeSchedule.Json.Write
import FeeSchedule.Report.Info
import FeeSchedule.Evaluation.Value
import FeeSchedule.Evaluation.Fault
import FeeSchedule.Evaluation.Expr
import FeeSchedule.Evaluation.Binding
import FeeSchedule.Evaluation.Fee
import FeeSchedule.Evaluation.Compute
import FeeSchedule.Report.Compute
import FeeSchedule.Ingest
import FeeSchedule.Verification.Dependencies
import FeeSchedule.Verification.Domain
import FeeSchedule.Verification.Completeness
import FeeSchedule.Verification.Monotonicity
import FeeSchedule.Verification.Directives
import FeeSchedule.Report.Verification
import FeeSchedule.Composition.Merge
import FeeSchedule.Composition.Registry
import FeeSchedule.Composition.Analysis
import FeeSchedule.Report.Composition
import FeeSchedule.Settings
import FeeSchedule.Cli.Wrap
import FeeSchedule.Cli.Parser
import FeeSchedule.Cli.Help
import FeeSchedule.Cli.Arguments
import FeeSchedule.Cli.Commands
import FeeSchedule.Cli.Session
import FeeSchedule.Main
import FeeSchedule.Proofs.Decimal.Finite
import FeeSchedule.Proofs.Syntax.Literals
import FeeSchedule.Proofs.Check.Soundness
import FeeSchedule.Proofs.Composition.Merge
import FeeSchedule.Proofs.Check.Schedule
import FeeSchedule.Proofs.Evaluation.Provenance
import FeeSchedule.Proofs.Verification.Reads
import FeeSchedule.Proofs.Evaluation.Symbols
import FeeSchedule.Proofs.Verification.Completeness
import FeeSchedule.Proofs.Composition.Chain
import FeeSchedule.Proofs.Check.Weakening
import FeeSchedule.Proofs.Composition.WellFormed
import FeeSchedule.Proofs.Syntax.Bounds
import FeeSchedule.Proofs.Syntax.Totality
import FeeSchedule.Proofs.Evaluation.Containment
import FeeSchedule.Proofs.Evaluation.WhatIf
import FeeSchedule.Proofs.Syntax.Reparse
import FeeSchedule.Proofs.Syntax.Spelling
import FeeSchedule.Proofs.Verification.Frame
import FeeSchedule.Proofs.Verification.Coverage
import FeeSchedule.Proofs.Decimal.Order
import FeeSchedule.Proofs.Verification.Domain
import FeeSchedule.Proofs.Verification.Monotone
import FeeSchedule.Proofs.Evaluation.Alternatives
import FeeSchedule.Proofs.Verification.Samples
import FeeSchedule.Proofs.Evaluation.Counterfactuals
import FeeSchedule.Proofs.Composition.Lineage
import FeeSchedule.Proofs.Composition.Sequence
import FeeSchedule.Proofs.Evaluation.FirstMatch
import FeeSchedule.Proofs.Evaluation.Reordering
import FeeSchedule.Proofs.Composition.Inheritance
import FeeSchedule.Proofs.Decimal.Exact
import FeeSchedule.Proofs.Evaluation.Totals
import FeeSchedule.Proofs.Verification.Inlining
import FeeSchedule.Proofs.Syntax.Grammar
import FeeSchedule.Proofs.Syntax.Script
import FeeSchedule.Proofs.Syntax.Declarations
import FeeSchedule.Proofs.Syntax.Acceptance
import FeeSchedule.Proofs.Syntax.Recognition
import FeeSchedule.Proofs.Evaluation.Ingestion
import FeeSchedule.Proofs.Syntax.Layout
import FeeSchedule.Proofs.Syntax.Consumption
import FeeSchedule.Proofs.Syntax.Recovery
