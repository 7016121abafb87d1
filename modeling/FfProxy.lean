import FfProxy.ArrivalOrder
import FfProxy.Base.Bytes
import FfProxy.Base.Chains
import FfProxy.Base.Cursor
import FfProxy.Base.Flags
import FfProxy.Base.Heap
import FfProxy.Base.Loop
import FfProxy.Base.OrderedMap
import FfProxy.Base.Ownership
import FfProxy.Base.PointerTrie
import FfProxy.Base.Projection
import FfProxy.Base.Release
import FfProxy.Base.Scan
import FfProxy.Base.Segment
import FfProxy.Base.Simulation
import FfProxy.Base.Spans
import FfProxy.Base.Text
import FfProxy.Client.Agreement
import FfProxy.Client.Append
import FfProxy.Client.Build
import FfProxy.Client.CommandLine
import FfProxy.Client.Coverage
import FfProxy.Client.CreatePackets
import FfProxy.Client.DotNetHttp
import FfProxy.Client.Java
import FfProxy.Client.JavaHttp
import FfProxy.Client.Packetise
import FfProxy.Client.Ports
import FfProxy.Client.PythonPayload
import FfProxy.Client.ReadPayload
import FfProxy.Crypto
import FfProxy.Delivery
import FfProxy.Envelope
import FfProxy.HashTable.Buckets
import FfProxy.HashTable.Frame
import FfProxy.HashTable.Indices
import FfProxy.HashTable.Model
import FfProxy.HashTable.Nodes
import FfProxy.HashTable.Refine
import FfProxy.HashTable.Release
import FfProxy.HashTable.Represents
import FfProxy.HashTable.Shape
import FfProxy.Http
import FfProxy.Http.DestinationHost
import FfProxy.Http.Forward
import FfProxy.Http.HostBounds
import FfProxy.Http.HostScan
import FfProxy.Http.HostSelection
import FfProxy.Http.Response
import FfProxy.Http.Upstream
import FfProxy.Memory.Blocks
import FfProxy.Memory.Copies
import FfProxy.Memory.Decrypt
import FfProxy.Memory.Model
import FfProxy.Memory.Process
import FfProxy.Memory.Receive
import FfProxy.Memory.Worker
import FfProxy.Parser.Chunk
import FfProxy.Parser.Classify
import FfProxy.Parser.HeaderOptions
import FfProxy.Parser.Options
import FfProxy.Parser.Padding
import FfProxy.Parser.PayloadOptions
import FfProxy.Parser.Reassembly
import FfProxy.Parser.SelfDelimiting
import FfProxy.PayloadHeap
import FfProxy.Request
import FfProxy.RoundTrip
import FfProxy.Server.Arguments
import FfProxy.Server.Clients
import FfProxy.Server.CommandLine
import FfProxy.Server.Dispatch
import FfProxy.Server.EndToEnd
import FfProxy.Server.KeyGate
import FfProxy.Server.Lifecycle
import FfProxy.Server.OverHashTable
import FfProxy.Server.Process
import FfProxy.Server.ReceiveLoop
import FfProxy.Server.Receiver
import FfProxy.Server.Served
import FfProxy.Server.ShortPackets
import FfProxy.Server.Source
import FfProxy.Server.Sweep
import FfProxy.Server.Threads
import FfProxy.Server.WorkerAssertions
import FfProxy.Wire
