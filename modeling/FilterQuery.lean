import FilterQuery.Filter.Session
import FilterQuery.Main
import FilterQuery.Record.Written
import FilterQuery.Proofs.Joining
import FilterQuery.Proofs.Grammar
import FilterQuery.Proofs.Spelling
import FilterQuery.Proofs.Printing
import FilterQuery.Proofs.Value.Integer
import FilterQuery.Proofs.Value.Duration
import FilterQuery.Proofs.Value.Uuid
import FilterQuery.Proofs.TypedValues
import FilterQuery.Proofs.Layout
import FilterQuery.Proofs.Validation
import FilterQuery.Proofs.Value.Decoding
import FilterQuery.Proofs.Typing
import FilterQuery.Proofs.Value.Order
import FilterQuery.Proofs.Meaning
import FilterQuery.Proofs.Unreadable
import FilterQuery.Proofs.Viability
import FilterQuery.Proofs.Likeness
import FilterQuery.Proofs.Routes
import FilterQuery.Proofs.Elementwise
import FilterQuery.Proofs.Reordering
import FilterQuery.Proofs.Concatenation
import FilterQuery.Proofs.NormalForm
import FilterQuery.Proofs.Value.Denotation
import FilterQuery.Proofs.Derivation
import FilterQuery.Proofs.Queryable
import FilterQuery.Proofs.NameCase
import FilterQuery.Proofs.Advance
import FilterQuery.Proofs.Quotation
import FilterQuery.Proofs.Formula
import FilterQuery.Proofs.Naming
import FilterQuery.Proofs.Value.DateTime
import FilterQuery.Proofs.Moments
import FilterQuery.Proofs.Value.Decimal
import FilterQuery.Proofs.Value.Binary
import FilterQuery.Proofs.RoundTrip
import FilterQuery.Proofs.Attributes
import FilterQuery.Proofs.Json
import FilterQuery.Proofs.Json.Number
import FilterQuery.Proofs.Json.Value
import FilterQuery.Proofs.Books
import FilterQuery.Proofs.Value.Lenient
import FilterQuery.Proofs.Listing
import FilterQuery.Proofs.Value.Numeral
