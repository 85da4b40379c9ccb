import OperandCodec.CommandLine.Run
import OperandCodec.CommandLine.Written
import OperandCodec.Document.OfRecord
import OperandCodec.Expr.Alphabet
import OperandCodec.Expr.Reuse
import OperandCodec.Main
import OperandCodec.Proofs.CacheTransparency
import OperandCodec.Proofs.CanonicalEncoding
import OperandCodec.Proofs.CommandLine
import OperandCodec.Proofs.Construction
import OperandCodec.Proofs.DeclaredBits
import OperandCodec.Proofs.DirectReading
import OperandCodec.Proofs.Evaluation
import OperandCodec.Proofs.Folding
import OperandCodec.Proofs.InputCount
import OperandCodec.Proofs.Isolation
import OperandCodec.Proofs.Lexing
import OperandCodec.Proofs.LoadGate
import OperandCodec.Proofs.Loading
import OperandCodec.Proofs.Lookup
import OperandCodec.Proofs.Overlaps
import OperandCodec.Proofs.Packing
import OperandCodec.Proofs.Parser.Reuse
import OperandCodec.Proofs.Preimage
import OperandCodec.Proofs.Printing
import OperandCodec.Proofs.Recency
import OperandCodec.Proofs.Refusals
import OperandCodec.Proofs.Rendering
import OperandCodec.Proofs.Reordering
import OperandCodec.Proofs.RoundTrip
import OperandCodec.Proofs.Schema
import OperandCodec.Proofs.SetOnce
import OperandCodec.Proofs.Spacing
import OperandCodec.Proofs.Spelling
import OperandCodec.Proofs.TreeBounds
import OperandCodec.Proofs.TreeRecency
import OperandCodec.Proofs.Verbosity
