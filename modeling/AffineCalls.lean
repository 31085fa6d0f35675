import AffineCalls.Coeff
import AffineCalls.Text.Blank
import AffineCalls.Text.Decimal
import AffineCalls.Text.Identifier
import AffineCalls.Text.Escape
import AffineCalls.Text.Decode
import AffineCalls.Text.Place
import AffineCalls.Expr.Basic
import AffineCalls.Expr.Equality
import AffineCalls.Expr.Order
import AffineCalls.Expr.Sum
import AffineCalls.Expr.Substitute
import AffineCalls.Expr.Render
import AffineCalls.Expr.Key
import AffineCalls.Reader.Cursor
import AffineCalls.Reader.Furthest
import AffineCalls.Reader.Basic
import AffineCalls.Reader.Lexeme
import AffineCalls.Reader.Report
import AffineCalls.Reader.Taken
import AffineCalls.Expr.Reader
import AffineCalls.TupleSet.Basic
import AffineCalls.TupleSet.Render
import AffineCalls.TupleSet.Reader
import AffineCalls.Signature
import AffineCalls.Registry.Basic
import AffineCalls.Registry.Current
import AffineCalls.CallTable.Basic
import AffineCalls.CallTable.Abstraction
import AffineCalls.Proofs.Expr.Depth
import AffineCalls.Proofs.Expr.Sum
import AffineCalls.Proofs.Expr.Total
import AffineCalls.Proofs.Expr.Rise
import AffineCalls.Proofs.Expr.Merge
import AffineCalls.Proofs.Expr.Plain
import AffineCalls.Proofs.Expr.Substitute
import AffineCalls.Proofs.Expr.Value
import AffineCalls.Proofs.Expr.Relate
import AffineCalls.Proofs.Expr.Relabel
import AffineCalls.Proofs.Expr.Return
import AffineCalls.Proofs.Notation.Form
import AffineCalls.Proofs.Text.Escape
import AffineCalls.Proofs.Text.Decode
import AffineCalls.Proofs.Notation.Delimiter
import AffineCalls.Proofs.Notation.Unambiguous
import AffineCalls.Proofs.Reader.Combinators
import AffineCalls.Proofs.Reader.Lexeme
import AffineCalls.Proofs.Notation.Repeated
import AffineCalls.Proofs.Notation.Soundness
import AffineCalls.Proofs.Notation.Completeness
import AffineCalls.Proofs.Notation.Grammar
import AffineCalls.Proofs.Notation.FormValue
import AffineCalls.Proofs.Notation.Distinct
import AffineCalls.Proofs.Notation.Lexical
import AffineCalls.Proofs.Notation.RoundTrip
import AffineCalls.Proofs.TupleSet.Form
import AffineCalls.Proofs.TupleSet.Coordinate
import AffineCalls.Proofs.TupleSet.Chain
import AffineCalls.Proofs.TupleSet.Grammar
import AffineCalls.Proofs.TupleSet.Resolve
import AffineCalls.Proofs.TupleSet.Settled
import AffineCalls.Proofs.TupleSet.Written
import AffineCalls.Proofs.TupleSet.RoundTrip
import AffineCalls.Proofs.TupleSet.Meaning
import AffineCalls.Proofs.Expr.Key
import AffineCalls.Proofs.CallTable.Filing
import AffineCalls.Proofs.CallTable.Listing
import AffineCalls.Proofs.CallTable.History
import AffineCalls.Proofs.CallTable.Abstraction
import AffineCalls.Proofs.CallTable.Restoration
import AffineCalls.Proofs.CallTable.Meaning
import AffineCalls.Proofs.Registry.Growth
import AffineCalls.Proofs.Registry.Pairing
import AffineCalls.Proofs.TupleSet.Derivation
import AffineCalls.Proofs.CallTable.Inversion
import AffineCalls.Proofs.Expr.Normal
import AffineCalls.Proofs.Notation.Normal
import AffineCalls.Proofs.Obtained
import AffineCalls.Proofs.Expr.Arithmetic
import AffineCalls.Proofs.Expr.Recovery
import AffineCalls.Proofs.CallTable.Order
import AffineCalls.Proofs.Registry.Symmetry
import AffineCalls.Proofs.CallTable.Descent
import AffineCalls.Proofs.Registry.Merge
import AffineCalls.Proofs.Text.Refusal
import AffineCalls.Proofs.CallTable.Placeholder
import AffineCalls.Proofs.Registry.Current
