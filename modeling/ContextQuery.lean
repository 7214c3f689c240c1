import ContextQuery.Cql.Reader
import ContextQuery.Cql.Writer
import ContextQuery.Diagnostic
import ContextQuery.Fq.Reader
import ContextQuery.Proofs.Cql.Grammar
import ContextQuery.Proofs.Cql.Origin
import ContextQuery.Proofs.Cql.Reading
import ContextQuery.Proofs.Cql.Reread
import ContextQuery.Proofs.Cql.Spelling
import ContextQuery.Proofs.Cql.Stable
import ContextQuery.Proofs.Cql.Unambiguous
import ContextQuery.Proofs.Cql.Word
import ContextQuery.Proofs.Cql.Written
import ContextQuery.Proofs.Entries
import ContextQuery.Proofs.Fq.Document
import ContextQuery.Proofs.Fq.Faithful
import ContextQuery.Proofs.Fq.Restore
import ContextQuery.Proofs.Fq.Shape
import ContextQuery.Proofs.Fq.Stable
import ContextQuery.Proofs.Json.Text
import ContextQuery.Proofs.Query.Node
import ContextQuery.Proofs.Query.Recognition
import ContextQuery.Proofs.Query.Registry
import ContextQuery.Proofs.Text.LowerCase
import ContextQuery.Query.Record
import ContextQuery.Xcql.Writer
import ContextQuery.Proofs.Fq.Translation
import ContextQuery.Proofs.Cql.Echo
import ContextQuery.Proofs.Cql.Group
import ContextQuery.Proofs.Cql.Outline
import ContextQuery.Proofs.Query.History
import ContextQuery.Proofs.Xcql.Lossless
import ContextQuery.Proofs.Cql.Partition
import ContextQuery.Proofs.Cql.Comparator
import ContextQuery.Proofs.Json.Names
import ContextQuery.Proofs.Query.WellFormed
import ContextQuery.Proofs.Cql.Refusal
import ContextQuery.Proofs.Cql.Place
import ContextQuery.Proofs.Cql.Agreement
import ContextQuery.Proofs.Cql.Variation
import ContextQuery.Proofs.Cql.Viable
import ContextQuery.Proofs.Fq.Repeats
import ContextQuery.Proofs.Fq.Layout
import ContextQuery.Proofs.Fq.Reading
import ContextQuery.Proofs.Fq.Defects
import ContextQuery.Proofs.Matched
import ContextQuery.Proofs.Json.Order
import ContextQuery.Proofs.Fq.Order
import ContextQuery.Proofs.Query.Inheritance
import ContextQuery.Proofs.Query.LastWrite
import ContextQuery.Proofs.Query.Coherence
import ContextQuery.Proofs.Query.Omission
import ContextQuery.Proofs.Cql.Calls
import ContextQuery.Proofs.Xcql.Nesting
import ContextQuery.Proofs.Cql.Quoting
import ContextQuery.Proofs.Cql.Declaration
import ContextQuery.Cql.Session
import ContextQuery.Proofs.Cql.Progress
