import NekoProto.Lib.BigEndian
import NekoProto.Lib.AppendOnly
import NekoProto.Rpc.RunLength
import NekoProto.Rpc.MethodTableInvariant
import NekoProto.Rpc.StaleMethodId
import NekoProto.Rpc.CallOnce
import NekoProto.Lib.Segment
import NekoProto.Lib.Leb128
import NekoProto.Binary.Parse
import NekoProto.Lib.Outcome
import NekoProto.Binary.ReadExact
import NekoProto.Binary.ParseBounds
import NekoProto.Binary.Tree
import NekoProto.Binary.TreeWrite
import NekoProto.Binary.TreeRead
import NekoProto.Binary.RoundTrip
import NekoProto.Binary.Canonical
import NekoProto.Binary.FieldLookup
import NekoProto.Lib.XorChain
import NekoProto.Lib.Rfc8259
import NekoProto.Global.XorList
import NekoProto.Global.XorListRefinement
import NekoProto.Parsing.Types
import NekoProto.Parsing.Read
import NekoProto.Rpc.MethodTableUpdates
import NekoProto.Rpc.MethodTableDelta
import NekoProto.Rpc.DeltaRefinement
import NekoProto.Rpc.MethodTableTransfer
import NekoProto.Rpc.FrameCodec
import NekoProto.Rpc.StreamEndpoint
import NekoProto.Rpc.CompressedTransport
import NekoProto.Rpc.Hello
import NekoProto.Lib.Correlation
import NekoProto.Rpc.Client
import NekoProto.Rpc.ClientCorrelation
import NekoProto.Rpc.NekoRpcBackend
import NekoProto.Rpc.StrandedCall
import NekoProto.Parsing.ReadRules
import NekoProto.Parsing.StringMap
import NekoProto.Parsing.ReadKeeps
import NekoProto.Parsing.FramedReads
import NekoProto.Parsing.Headerless
import NekoProto.Parsing.Write
import NekoProto.Parsing.Document
import NekoProto.Binary.PrefixFree
import NekoProto.Parsing.WriterConflicts
import NekoProto.Binary.ReadsIff
import NekoProto.Parsing.NullableTypes
import NekoProto.Parsing.NullableRoundTrip
import NekoProto.Communication.Header
import NekoProto.Parsing.RawFixedData
import NekoProto.Communication.Receive
import NekoProto.Communication.SliceSafety
import NekoProto.Communication.TypeResolution
import NekoProto.Communication.Send
import NekoProto.Communication.Transmission
import NekoProto.Lib.KeyedTable
import NekoProto.Rpc.Dispatcher
import NekoProto.Rpc.ResponseAccounting
import NekoProto.Rpc.NekoServer
import NekoProto.Rpc.RequestAnswered
import NekoProto.Rpc.CancelRegistry
import NekoProto.Rpc.OneRetry
import NekoProto.Rpc.WireCall
import NekoProto.Rpc.Server
import NekoProto.Rpc.ServerInvariant
import NekoProto.Rpc.ServerSafety
import NekoProto.Rpc.System
import NekoProto.Rpc.ClientHistory
import NekoProto.Rpc.ServerHistory
import NekoProto.Rpc.EndToEnd
import NekoProto.Json.Value
import NekoProto.Json.Read
import NekoProto.Json.Write
import NekoProto.Json.ReadBack
import NekoProto.Json.Survives
import NekoProto.Json.TextWriter
import NekoProto.JsonRpc.Protocol
import NekoProto.JsonRpc.Backend
import NekoProto.JsonRpc.ResponseRoundTrip
import NekoProto.JsonRpc.Params
import NekoProto.Json.TextRoundTrip
import NekoProto.Json.Lacks
import NekoProto.JsonRpc.Server
import NekoProto.JsonRpc.Request
import NekoProto.JsonRpc.RequestRoundTrip
import NekoProto.JsonRpc.EndToEnd
import NekoProto.JsonRpc.MessageEndpoint
import NekoProto.Generic.Read
import NekoProto.Lib.InPlace
import NekoProto.Generic.BinaryReader
import NekoProto.Generic.Atomicity
import NekoProto.Generic.JsonReader
import NekoProto.Generic.Members
import NekoProto.Generic.BinaryDocument
import NekoProto.Lib.Lockstep
import NekoProto.Generic.Coupling
import NekoProto.Binary.ParseBudget
import NekoProto.Binary.Handles
import NekoProto.Generic.BinaryRuns
import NekoProto.Generic.UntaggedVariant
import NekoProto.Generic.SkippedFields
import NekoProto.Generic.MemberKeys
import NekoProto.Rpc.DecompressStrict
import NekoProto.Types.Base64
import NekoProto.Types.Base64Strict
import NekoProto.Types.Base64RoundTrip
import NekoProto.Private.PrefixInteger
import NekoProto.Lib.OrderedMap
import NekoProto.Proto.ProtoFactory
import NekoProto.Proto.TypeIds
import NekoProto.Proto.FirstFactory
import NekoProto.Proto.Creators
import NekoProto.Binary.IntegerWidths
import NekoProto.Rpc.ExecutionLimiter
import NekoProto.Rpc.LimiterAccounting
import NekoProto.Parsing.EmittedFieldCount
import NekoProto.ArgParser.Schema
import NekoProto.ArgParser.References
import NekoProto.ArgParser.Definition
import NekoProto.ArgParser.Ambiguity
import NekoProto.ArgParser.RawParser
import NekoProto.ArgParser.Spellings
import NekoProto.ArgParser.Rerender
import NekoProto.Json.Schema
import NekoProto.Json.SchemaSoundness
import NekoProto.Lib.Ieee754
import NekoProto.Json.Validation
import NekoProto.Json.Shape
import NekoProto.Generic.ReadSafety
import NekoProto.ArgParser.Materializer
import NekoProto.ArgParser.Options
import NekoProto.ArgParser.Passes
import NekoProto.ArgParser.Settling
import NekoProto.ArgParser.Precedence
import NekoProto.ArgParser.Guarantees
import NekoProto.ArgParser.Commands
