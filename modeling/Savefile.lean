import Savefile.Bytes.Base64
import Savefile.Bytes.Hex
import Savefile.Bytes.Word
import Savefile.Checksum
import Savefile.Codec.Basic
import Savefile.Codec.Context
import Savefile.Codec.Decode
import Savefile.Codec.Encode
import Savefile.Codec.Error
import Savefile.Codec.FromJson
import Savefile.Codec.Note
import Savefile.Codec.Pass
import Savefile.Codec.Registry
import Savefile.Codec.Zero
import Savefile.Command.Flag
import Savefile.Command.Format
import Savefile.Command.Help
import Savefile.Command.Line
import Savefile.Command.Run
import Savefile.Command.Script
import Savefile.Command.Suggestion
import Savefile.Decimal.Binary
import Savefile.Decimal.Estimate
import Savefile.Decimal.Layout
import Savefile.Decimal.Reading
import Savefile.Decimal.Shortest
import Savefile.Decimal.Spelling
import Savefile.Deflate.Bits
import Savefile.Deflate.Code
import Savefile.Deflate.Deflate
import Savefile.Deflate.Format
import Savefile.Deflate.Inflate
import Savefile.Deflate.Zlib
import Savefile.Envelope
import Savefile.Expr.Arithmetic
import Savefile.Expr.Basic
import Savefile.Expr.Compare
import Savefile.Expr.Convert
import Savefile.Expr.Datum
import Savefile.Expr.Error
import Savefile.Expr.Eval
import Savefile.Expr.Grammar
import Savefile.Expr.Term
import Savefile.Expr.Token
import Savefile.Fault
import Savefile.Json.Printer
import Savefile.Json.Reader
import Savefile.Json.Token
import Savefile.Json.Value
import Savefile.Main
import Savefile.Record.Check
import Savefile.Record.Json
import Savefile.Record.Scalar
import Savefile.Record.Store
import Savefile.Record.Value
import Savefile.Schema.Basic
import Savefile.Schema.Compact
import Savefile.Schema.Document
import Savefile.Schema.Error
import Savefile.Schema.Field
import Savefile.Schema.Primitive
import Savefile.Schema.TypeSpelling
import Savefile.Text.Identifier
import Savefile.Text.Printable
import Savefile.Text.Quoted
import Savefile.Text.Space
import Savefile.Text.Utf8
import Savefile.Yaml.Cursor
import Savefile.Yaml.Input
import Savefile.Yaml.Layout
import Savefile.Yaml.Node
import Savefile.Yaml.Property
import Savefile.Yaml.Scalar
import Savefile.Yaml.Token
import Savefile.Yaml.Tree
import Savefile.Proofs.Layout
import Savefile.Proofs.Reader
import Savefile.Proofs.Depth
import Savefile.Proofs.Truncation
import Savefile.Proofs.Consistency
import Savefile.Proofs.Reading
import Savefile.Proofs.RoundTrip
import Savefile.Proofs.Nesting
import Savefile.Proofs.Containment
import Savefile.Proofs.Width
import Savefile.Proofs.WellFormed
import Savefile.Proofs.Text
import Savefile.Proofs.FixedBlock
import Savefile.Proofs.Compression
import Savefile.Proofs.Envelope
import Savefile.Proofs.Packing
import Savefile.Proofs.Rereading
import Savefile.Proofs.Numeral
import Savefile.Proofs.JsonText
import Savefile.Proofs.RecordJson
import Savefile.Proofs.Literal
import Savefile.Proofs.CompactBlock
import Savefile.Proofs.Levels
import Savefile.Proofs.Shape
import Savefile.Proofs.Graph
import Savefile.Proofs.Obtained
import Savefile.Proofs.SharedRecords
import Savefile.Proofs.Course
import Savefile.Proofs.Path
import Savefile.Proofs.Culprit
import Savefile.Proofs.Guarded
import Savefile.Proofs.LongLists
import Savefile.Proofs.Strictness
import Savefile.Proofs.Sinks
import Savefile.Proofs.ZeroRecords
import Savefile.Proofs.ByteOrders
import Savefile.Proofs.Overflow
import Savefile.Proofs.JsonNumbers
import Savefile.Proofs.JsonTrees
import Savefile.Proofs.Alterations
import Savefile.Proofs.CompactGrammar
import Savefile.Proofs.RootContexts
import Savefile.Proofs.TypeOrder
import Savefile.Proofs.Members
import Savefile.Proofs.TypeSpellings
import Savefile.Proofs.Registries
import Savefile.Proofs.ScalarTransfer
import Savefile.Proofs.Access
import Savefile.Proofs.Views
import Savefile.Proofs.FieldCounts
