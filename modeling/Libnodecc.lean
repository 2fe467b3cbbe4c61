import Libnodecc.Framework.Run
import Libnodecc.Util.SizeT
import Libnodecc.Framework.Segment
import Libnodecc.Buffer.Value
import Libnodecc.Stream.Watermark
import Libnodecc.Loop.NextTick
import Libnodecc.Events.Emitter
import Libnodecc.Events.Links
import Libnodecc.Events.Dispatch
import Libnodecc.Events.EmitOrder
import Libnodecc.Http.Url
import Libnodecc.Http.IncomingMessage
import Libnodecc.Http.HeaderSection
import Libnodecc.Http.MessageSequence
import Libnodecc.Framework.Numeral
import Libnodecc.Util.Math
import Libnodecc.Buffer.AppendNumber
import Libnodecc.Framework.ChunkedCoding
import Libnodecc.Http.OutgoingMessage
import Libnodecc.Http.HeaderBlock
import Libnodecc.Http.ChunkedBody
import Libnodecc.Framework.CountedHeap
import Libnodecc.Buffer.Handles
import Libnodecc.Buffer.HandleSpecs
import Libnodecc.Buffer.CallSpecs
import Libnodecc.Buffer.OpSpecs
import Libnodecc.Buffer.AppendSpecs
import Libnodecc.Buffer.Representation
import Libnodecc.Buffer.Definedness
import Libnodecc.Buffer.ValueSemantics
import Libnodecc.Events.Reclaim
import Libnodecc.Framework.Base64
import Libnodecc.Util.Base64
import Libnodecc.Util.Base64Encode
import Libnodecc.Stream.HalfClose
import Libnodecc.Util.AsyncChannel
import Libnodecc.Framework.Slots
import Libnodecc.Object.Counter
import Libnodecc.Object.SharedPtr
import Libnodecc.Object.Forest
import Libnodecc.Stream.Lifetime
import Libnodecc.Framework.Emplace
import Libnodecc.Http.HeaderLines
import Libnodecc.Http.BodyFraming
import Libnodecc.Buffer.ControlBlocks
import Libnodecc.Framework.Outcome
import Libnodecc.Buffer.UseCounts
import Libnodecc.Buffer.HeapModels
import Libnodecc.Framework.Crc
import Libnodecc.Framework.Loop
import Libnodecc.Util.Crc32c
import Libnodecc.Util.Uri
import Libnodecc.Framework.BitLength
import Libnodecc.Util.Digits2
import Libnodecc.Buffer.AppendNumeral
import Libnodecc.Framework.Blocks
import Libnodecc.Framework.Sha1
import Libnodecc.Util.Sha1
import Libnodecc.Util.Base64Decode
import Libnodecc.Util.DecodeResult
import Libnodecc.Util.DecodeBounds
import Libnodecc.Util.DecodeSextets
import Libnodecc.Util.DecodeKinds
import Libnodecc.Util.Base64RoundTrip
import Libnodecc.Buffer.Hashed
import Libnodecc.Buffer.HashedEquality
import Libnodecc.Buffer.HashedRuns
import Libnodecc.Buffer.Resizing
import Libnodecc.Buffer.AppendOverloads
import Libnodecc.Buffer.StringMemory
import Libnodecc.Buffer.Strings
import Libnodecc.Buffer.ToString
import Libnodecc.Http.Params
import Libnodecc.Http.CompiledBufs
import Libnodecc.Http.UrlHistory
import Libnodecc.Http.CompiledReferences
import Libnodecc.Http.CompiledBytes
import Libnodecc.Framework.Gather
import Libnodecc.Stream.TryWrite
import Libnodecc.Buffer.Exclusive
import Libnodecc.Http.HeaderMemory
import Libnodecc.Http.ChunkBytes
import Libnodecc.Events.Listeners
import Libnodecc.Os.InterfaceAddresses
import Libnodecc.Stream.InFlight
import Libnodecc.Http.RequestTarget
import Libnodecc.Http.ServerClients
import Libnodecc.Tcp.ConnectPack
import Libnodecc.Framework.MessageReader
import Libnodecc.Http.WireFormat
import Libnodecc.Http.MessageTransfer
import Libnodecc.Http.OutgoingStream
import Libnodecc.Http.HttpDateBuffer
import Libnodecc.Http.ServerResponse
import Libnodecc.Http.ResponseOnWire
import Libnodecc.Http.RequestOnWire
import Libnodecc.Http.MessageArrival
import Libnodecc.Http.Exchange
import Libnodecc.Buffer.Bystanders
import Libnodecc.Stream.Endpoint
import Libnodecc.Stream.EndpointSteps
import Libnodecc.Stream.Connection
