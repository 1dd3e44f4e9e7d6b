import Marshal.Tape
import Marshal.Schema.Encode
import Marshal.Schema.Decode
import Marshal.Schema.Equality
import Marshal.Derive
import Marshal.Catalogue
import Marshal.Proofs.Reader
import Marshal.Proofs.Varint
import Marshal.Proofs.Wire
import Marshal.Proofs.Order
import Marshal.Proofs.Typing
import Marshal.Proofs.Locality
import Marshal.Proofs.Encoding
import Marshal.Proofs.Landing
import Marshal.Proofs.Occurrence
import Marshal.Proofs.Same
import Marshal.Proofs.Equality
import Marshal.Proofs.View
import Marshal.Proofs.RoundTrip
import Marshal.Proofs.Canonical
import Marshal.Proofs.Agreement
import Marshal.Proofs.LengthCheck
import Marshal.Proofs.Template
import Marshal.Proofs.Words
import Marshal.Proofs.RuntimePath
import Marshal.Proofs.Recursion
import Marshal.Proofs.Receiver
import Marshal.Proofs.Failure
import Marshal.Proofs.Shortest
import Marshal.Proofs.Holder
import Marshal.Proofs.Bounds
import Marshal.Proofs.Parts
import Marshal.Proofs.Queue
import Marshal.Proofs.Varint.Grammar
import Marshal.Proofs.Varint.Width
import Marshal.Proofs.Bytes
import Marshal.Proofs.Cast
import Marshal.Proofs.Definition
import Marshal.Proofs.Annotations
import Marshal.Proofs.Nesting
import Marshal.Proofs.Scope
import Marshal.Proofs.Modifiers
import Marshal.Proofs.TypeGrammar
import Marshal.Proofs.HolderDeclaration
import Marshal.Proofs.CastCode
import Marshal.Proofs.Execution
import Marshal.Proofs.Placement
import Marshal.Proofs.Writing
import Marshal.Proofs.Comparing
import Marshal.Proofs.Reading
import Marshal.Proofs.Procedures
