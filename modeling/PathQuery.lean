import PathQuery.Binary64.Basic
import PathQuery.Binary64.Decimal
import PathQuery.Binary64.Rounding
import PathQuery.Condition
import PathQuery.Criteria.Basic
import PathQuery.Criteria.Compile
import PathQuery.Criteria.Error
import PathQuery.Criteria.Path
import PathQuery.Entity
import PathQuery.Expr.Basic
import PathQuery.Expr.Eval
import PathQuery.Expr.Text
import PathQuery.Fault
import PathQuery.Graph.Dump
import PathQuery.Graph.Error
import PathQuery.Graph.Load
import PathQuery.Graph.Mapping
import PathQuery.Join
import PathQuery.Json
import PathQuery.Json.Numeral
import PathQuery.Operator
import PathQuery.Plan
import PathQuery.Proofs.Acceptance
import PathQuery.Proofs.Addressing
import PathQuery.Proofs.Attempts
import PathQuery.Proofs.Bridging
import PathQuery.Proofs.CaseFolding
import PathQuery.Proofs.Conjunctions
import PathQuery.Proofs.DerivedOperators
import PathQuery.Proofs.Growth
import PathQuery.Proofs.Hops
import PathQuery.Proofs.InsertionOrder
import PathQuery.Proofs.Loading
import PathQuery.Proofs.Meaning
import PathQuery.Proofs.Narrowing
import PathQuery.Proofs.NestedLoop
import PathQuery.Proofs.Outcome
import PathQuery.Proofs.Partners
import PathQuery.Proofs.PathGrammar
import PathQuery.Proofs.Precedence
import PathQuery.Proofs.Pruning
import PathQuery.Proofs.Recompilation
import PathQuery.Proofs.Reloading
import PathQuery.Proofs.Rendering
import PathQuery.Proofs.Repetition
import PathQuery.Proofs.Representatives
import PathQuery.Proofs.Rereading
import PathQuery.Proofs.Resolution
import PathQuery.Proofs.Rewriting
import PathQuery.Proofs.RoundTrip
import PathQuery.Proofs.Tables
import PathQuery.Proofs.TypedSessions
import PathQuery.Proofs.Unfolding
import PathQuery.Proofs.UntaggedForm
import PathQuery.Proofs.Verdict
import PathQuery.Proofs.WellFormed
import PathQuery.Proofs.WholeNumbers
import PathQuery.Proofs.Wildcards
import PathQuery.Session.Basic
import PathQuery.Session.Codec
import PathQuery.Session.Pool
import PathQuery.Session.Record
import PathQuery.Session.Slot
import PathQuery.Specimen.Entities
import PathQuery.Specimen.Records
import PathQuery.Staging
import PathQuery.Store.Backend
import PathQuery.Store.Basic
import PathQuery.Store.Execute
import PathQuery.Text.LowerCase
import PathQuery.Text.Pattern
import PathQuery.Text.Quoted
import PathQuery.Text.Segments
import PathQuery.Value.Basic
import PathQuery.Value.Bridge
import PathQuery.Value.Comparison
import PathQuery.Value.FieldMap
import PathQuery.Value.Identity
import PathQuery.Value.Literal
import PathQuery.Value.ToValue
import PathQuery.Value.Untagged
