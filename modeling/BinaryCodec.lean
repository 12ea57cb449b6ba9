import BinaryCodec.Binding.Codec
import BinaryCodec.Binding.Compilation
import BinaryCodec.Buffer.Bits
import BinaryCodec.Buffer.ByteStream
import BinaryCodec.Buffer.Digest
import BinaryCodec.Buffer.Search
import BinaryCodec.Definition.Json
import BinaryCodec.Definition.Resolution
import BinaryCodec.Limits
import BinaryCodec.Main
import BinaryCodec.Project.Command
import BinaryCodec.Project.FileTree
import BinaryCodec.Project.Job
import BinaryCodec.Schema.Decode
import BinaryCodec.Varint
import BinaryCodec.Proofs.Buffer.Reading
import BinaryCodec.Proofs.Buffer.Pieces
import BinaryCodec.Proofs.Buffer.Contract
import BinaryCodec.Proofs.Bytes.Word
import BinaryCodec.Proofs.Varint
import BinaryCodec.Proofs.Text.Utf8
import BinaryCodec.Proofs.Buffer.Number
import BinaryCodec.Proofs.Buffer.Text
import BinaryCodec.Proofs.Schema.Order
import BinaryCodec.Proofs.Schema.Collection
import BinaryCodec.Proofs.Schema.Leaf
import BinaryCodec.Proofs.Schema.Layout
import BinaryCodec.Proofs.Buffer.Writing
import BinaryCodec.Proofs.Schema.Size
import BinaryCodec.Proofs.Schema.Arrange
import BinaryCodec.Proofs.Schema.Normal
import BinaryCodec.Proofs.Schema.Precheck
import BinaryCodec.Proofs.Schema.Nesting
import BinaryCodec.Proofs.Schema.RoundTrip
import BinaryCodec.Proofs.Binding.Coherence
import BinaryCodec.Proofs.Buffer.Extension
import BinaryCodec.Proofs.Schema.Truncation
import BinaryCodec.Proofs.Definition.Grammar
import BinaryCodec.Proofs.Definition.Resolution
import BinaryCodec.Proofs.Definition.WellFormed
import BinaryCodec.Proofs.Definition.Inlining
import BinaryCodec.Proofs.Definition.Acyclic
import BinaryCodec.Proofs.Definition.Scanning
import BinaryCodec.Proofs.Definition.Partition
import BinaryCodec.Proofs.Definition.Rendering
import BinaryCodec.Proofs.Definition.Completeness
import BinaryCodec.Proofs.Buffer.Progress
import BinaryCodec.Proofs.Schema.Depth
import BinaryCodec.Proofs.Schema.Restating
import BinaryCodec.Proofs.Binding.Equivalence
import BinaryCodec.Proofs.Store.Handle
import BinaryCodec.Proofs.Buffer.Request
import BinaryCodec.Proofs.Buffer.TwoCursor
import BinaryCodec.Proofs.Schema.Splice
import BinaryCodec.Proofs.Text.Utf16
import BinaryCodec.Proofs.Buffer.Bits
import BinaryCodec.Proofs.Buffer.Primitive
import BinaryCodec.Proofs.Schema.Calls
import BinaryCodec.Proofs.Binding.CallDepth
import BinaryCodec.Proofs.Binding.DefaultValue
import BinaryCodec.Proofs.Binding.Naming
import BinaryCodec.Proofs.Buffer.Simulation
import BinaryCodec.Proofs.Buffer.Chunking
import BinaryCodec.Proofs.Definition.Soundness
import BinaryCodec.Proofs.Definition.FaultPlace
import BinaryCodec.Proofs.Definition.Arrangement
import BinaryCodec.Proofs.Binding.Arrangement
import BinaryCodec.Proofs.Schema.ItemCount
import BinaryCodec.Proofs.Schema.LeastSize
import BinaryCodec.Proofs.Binding.WireAgreement
import BinaryCodec.Proofs.Binding.ScriptNaming
import BinaryCodec.Proofs.Buffer.History
import BinaryCodec.Proofs.Varint.Exact
import BinaryCodec.Proofs.Buffer.Batch
import BinaryCodec.Proofs.Buffer.Seeking
import BinaryCodec.Proofs.Buffer.Reached
import BinaryCodec.Proofs.Buffer.Search
import BinaryCodec.Proofs.Buffer.FailedSearch
import BinaryCodec.Proofs.Buffer.ZeroFill
import BinaryCodec.Proofs.Buffer.ExactReads
import BinaryCodec.Proofs.Buffer.PendingBits
import BinaryCodec.Proofs.Buffer.FailedBits
import BinaryCodec.Proofs.Buffer.BitSlots
import BinaryCodec.Proofs.Buffer.BitRuns
import BinaryCodec.Proofs.Buffer.RandomAccess
import BinaryCodec.Proofs.Buffer.Transfer
import BinaryCodec.Proofs.Text.Character
import BinaryCodec.Proofs.Buffer.Character
import BinaryCodec.Proofs.Buffer.UntilChar
import BinaryCodec.Proofs.Buffer.Field
import BinaryCodec.Proofs.Buffer.Timestamp
import BinaryCodec.Proofs.Buffer.Seekable
import BinaryCodec.Proofs.Uuid
