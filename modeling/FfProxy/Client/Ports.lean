import FfProxy.Base.Cursor
import FfProxy.Client.Packetise

/-!
# The packetisers of the other clients

The Node, Python and .NET clients cut a request into packets as the C client does, each with a
loop of its own: the options go with the packets at offset 0, the length of a chunk is written
once the chunk is known, and numbers are put into network order in different ways. A block of
a packet is filled from the front; a write that leaves it is an exception, and is dropped in
Node.
-/

namespace FfProxy
open Base

/-- What stops a packetiser: an index out of range, a number that `struct.pack_into` cannot
pack, a request id that is not 8 bytes long, or a loop that does not end. -/
inductive ClientFault
  | indexOutOfRange
  | structError
  | requestIdLength
  | divergence
  deriving DecidableEq, Repr

/-- A block and the number of its bytes to send, `client/python/ff_client/udp_packet.py`,
`client/dotnet/src/UdpPacket.cs`. -/
structure UdpPacket where
  payload : List UInt8
  length : Nat
  deriving DecidableEq, Repr

/-- The bytes that go out. -/
def UdpPacket.sent (p : UdpPacket) : List UInt8 := p.payload.take p.length

/-- `MAX_PACKET_LENGTH`, `client/node/src/client.ts:39`, `client/python/ff_client/ff_client.py:16`,
`client/dotnet/src/FfClient.cs:17`. -/
def maxPacketLength : Nat := 1300

/-- A write that throws when it leaves the block. -/
def checked : Option Cursor → Except ClientFault Cursor
  | none => .error .indexOutOfRange
  | some c => .ok c

/-- A read that throws when it leaves the payload. -/
def readChunk (payload : List UInt8) (offset length : Nat) : Except ClientFault (List UInt8) :=
  if offset + length ≤ payload.length then .ok (slice payload offset length)
  else .error .indexOutOfRange

/-- The loop `while (bytesLeft > 0)` that all these clients have. A round writes one packet and
says how many bytes of the payload it took. -/
def packetLoop (writePacket : Int → Int → Except ClientFault (UdpPacket × Int)) :
    Nat → Int → Int → Except ClientFault (List UdpPacket)
  | 0, _, bytesLeft => if 0 < bytesLeft then .error .divergence else .ok []
  | fuel + 1, chunkOffset, bytesLeft =>
    if 0 < bytesLeft then
      match writePacket chunkOffset bytesLeft with
      | .error fault => .error fault
      | .ok (packet, chunkLength) =>
        match packetLoop writePacket fuel (chunkOffset + chunkLength) (bytesLeft - chunkLength) with
        | .error fault => .error fault
        | .ok packets => .ok (packet :: packets)
    else .ok []

/-! ### Node -/

namespace Node

/-- `FfRequest`, `client/node/src/request.ts:34–39`. -/
structure Request where
  requestId : List UInt8
  payload : List UInt8
  options : List OptionNode

/-- `(x >> shift) & 0xff`, where the shift takes `x` as a signed 32-bit integer. -/
def shiftedByte (x : Int) (shift : Nat) : UInt8 :=
  UInt8.ofNat (((x.bmod (2 ^ 32)) >>> shift) % 256).toNat

/-- The bytes of a number, `client/node/src/client.ts:280–287,315–318`. -/
def numberBytes (n : Nat) (x : Int) : List UInt8 :=
  (List.range n).map fun i ↦ shiftedByte x (8 * (n - 1) - i * 8)

/-- An element of a typed array as a byte; one outside the array is `undefined` and counts
as 0. -/
def elementAt (bytes : List UInt8) (i : Int) : UInt8 :=
  if 0 ≤ i then bytes.getD i.toNat 0 else 0

/-- The elements that a loop of `length` rounds reads from `offset` on. -/
def elements (bytes : List UInt8) (offset : Int) (length : Nat) : List UInt8 :=
  (List.range length).map fun i : Nat ↦ elementAt bytes (offset + i)

/-- `_writeRequestOptions`, `client/node/src/client.ts:331–349`. -/
def writeRequestOptions (c : Cursor) : List OptionNode → Cursor
  | [] => c
  | o :: rest =>
    let c := c.store o.type
    let c := c.storeAll (numberBytes 2 o.length.toNat)
    let c := c.storeAll (elements o.value 0 o.length.toNat)
    writeRequestOptions c rest

/-- The header of a packet up to the length of its chunk, `client/node/src/client.ts:271–287`. -/
def writeHeader (request : Request) (chunkOffset : Int) : Cursor :=
  let c := Cursor.start maxPacketLength
  let c := c.storeAll [0, 1]
  let c := c.storeAll (elements request.requestId 0 8)
  let c := c.storeAll (numberBytes 4 request.payload.length)
  c.storeAll (numberBytes 4 chunkOffset)

/-- One round of the loop of `_packetiseRequest`, `client/node/src/client.ts:266–326`. -/
def writePacket (request : Request) (chunkOffset bytesLeft : Int) : UdpPacket × Int :=
  let c := writeHeader request chunkOffset
  let chunkLengthPtr := c.ptr
  let c := c.skip 2
  let c := writeRequestOptions c
    (if chunkOffset = 0 then request.options else [terminator false])
  let bytesLeftInPacket : Int := maxPacketLength - c.ptr
  let chunkLength := min bytesLeft bytesLeftInPacket
  let c := c.storeAll (elements request.payload chunkOffset chunkLength.toNat)
  let c := c.amend chunkLengthPtr (numberBytes 2 chunkLength)
  (⟨c.buff, c.ptr⟩, chunkLength)

/-- `_packetiseRequest`, `client/node/src/client.ts:257–329`. -/
def packetiseRequest (fuel : Nat) (request : Request) : Except ClientFault (List UdpPacket) :=
  if request.requestId.length ≠ 8 then .error .requestIdLength
  else packetLoop (fun chunkOffset bytesLeft ↦ .ok (writePacket request chunkOffset bytesLeft))
    fuel 0 request.payload.length

end Node

/-! ### Python -/

namespace Python

/-- The payload types that `packetise_request` takes,
`client/python/ff_client/ff_client.py:153–161`. -/
inductive Payload
  | bytearray (content : List UInt8)
  | str (text : String)
  | bytes (content : List UInt8)

/-- The bytes that are cut into packets. -/
def Payload.encoded : Payload → List UInt8
  | .bytearray content => content
  | .str text => text.toUTF8.data.toList
  | .bytes content => content

/-- `len(request.payload)`: bytes, or the characters of a string. -/
def Payload.len : Payload → Nat
  | .bytearray content => content.length
  | .str text => text.length
  | .bytes content => content.length

/-- `FfRequest`, `client/python/ff_client/ff_request.py:28–33`. -/
structure Request where
  version : Nat
  requestId : Nat
  options : List OptionNode
  payload : Payload

/-- The bytes that `struct.pack_into` writes for a `!` format of this size. -/
def packed (size value : Nat) : Except ClientFault (List UInt8) :=
  if value < 256 ^ size then .ok (beBytes size value) else .error .structError

/-- `pack_into_size`, `client/python/ff_client/ff_client.py:215–219`, at the current position. -/
def packIntoSize (size value : Nat) (c : Cursor) : Except ClientFault Cursor := do
  let bytes ← packed size value
  checked (c.put bytes)

/-- `write_request_options`, `client/python/ff_client/ff_client.py:204–213`. -/
def writeRequestOptions (c : Cursor) : List OptionNode → Except ClientFault Cursor
  | [] => .ok c
  | o :: rest => do
    let c ← packIntoSize 1 o.type.toNat c
    let c ← packIntoSize 2 o.length.toNat c
    let c ← checked (c.put o.value)
    writeRequestOptions c rest

/-- The header of a packet up to the length of its chunk,
`client/python/ff_client/ff_client.py:168–177`. -/
def writeHeader (request : Request) (chunkOffset : Int) : Except ClientFault Cursor := do
  let c := Cursor.start maxPacketLength
  let c ← packIntoSize 2 request.version c
  let c ← packIntoSize 8 request.requestId c
  let c ← packIntoSize 4 request.payload.len c
  packIntoSize 4 chunkOffset.toNat c

/-- One round of the loop of `packetise_request`, `client/python/ff_client/ff_client.py:167–198`. -/
def writePacket (request : Request) (chunkOffset bytesLeft : Int) :
    Except ClientFault (UdpPacket × Int) := do
  let c ← writeHeader request chunkOffset
  let chunkLengthPtr := c.ptr
  let c := c.skip 2
  let c ← writeRequestOptions c
    (if chunkOffset = 0 then request.options else [terminator false])
  let chunkLength := min (maxPacketLength - c.ptr : Int) bytesLeft
  let bytes ← packed 2 chunkLength.toNat
  let c ← checked (c.patch chunkLengthPtr bytes)
  let data ← readChunk request.payload.encoded chunkOffset.toNat chunkLength.toNat
  let c ← checked (c.put data)
  return (⟨c.buff, c.ptr⟩, chunkLength)

/-- `packetise_request`, `client/python/ff_client/ff_client.py:150–202`. -/
def packetiseRequest (fuel : Nat) (request : Request) : Except ClientFault (List UdpPacket) :=
  packetLoop (writePacket request) fuel 0 request.payload.encoded.length

end Python

/-! ### .NET -/

namespace DotNet

/-- `FfRequest`, `client/dotnet/src/FfRequest.cs:6–14`. -/
structure Request where
  version : UInt16
  requestId : UInt64
  options : List OptionNode
  payload : List UInt8

/-- `IPAddress.HostToNetworkOrder` for a number of this size, on a little-endian host. -/
def hostToNetworkOrder (size value : Nat) : Nat := beValue (leBytes size value)

/-- `WriteNumber`, `client/dotnet/src/FfClient.cs:341–365`: `BitConverter.GetBytes` gives the
bytes as they lie in memory. -/
def writeNumber (size value : Nat) (c : Cursor) : Except ClientFault Cursor :=
  checked (c.put (leBytes size (hostToNetworkOrder size value)))

/-- The value of an option is copied unless it is empty, `client/dotnet/src/FfClient.cs:333–337`. -/
def writeValue (value : List UInt8) (optionLength : Nat) (c : Cursor) : Except ClientFault Cursor :=
  if optionLength ≠ 0 then checked (c.put (value.take optionLength)) else .ok c

/-- `WriteOptions`, `client/dotnet/src/FfClient.cs:325–339`. The length is that of the value. -/
def writeOptions (c : Cursor) : List OptionNode → Except ClientFault Cursor
  | [] => .ok c
  | o :: rest => do
    let c ← checked (c.put [o.type])
    let optionLength := o.value.length % 65536
    let c ← writeNumber 2 optionLength c
    let c ← writeValue o.value optionLength c
    writeOptions c rest

/-- The option list of a packet, `client/dotnet/src/FfClient.cs:293–302`. -/
def writePacketOptions (request : Request) (chunkOffset : Int) (c : Cursor) :
    Except ClientFault Cursor :=
  if chunkOffset = 0 then writeOptions c request.options
  else do
    let c ← checked (c.put [OptionType.eol])
    writeNumber 2 0 c

/-- The header of a packet up to the length of its chunk,
`client/dotnet/src/FfClient.cs:282–288`. -/
def writeHeader (request : Request) (chunkOffset : Int) : Except ClientFault Cursor := do
  let c := Cursor.start maxPacketLength
  let c ← writeNumber 2 request.version.toNat c
  let c ← writeNumber 8 request.requestId.toNat c
  let c ← writeNumber 4 (request.payload.length % 2 ^ 32) c
  writeNumber 4 chunkOffset.toNat c

/-- One round of the loop of `PacketiseRequest`, `client/dotnet/src/FfClient.cs:280–320`. -/
def writePacket (request : Request) (chunkOffset bytesLeft : Int) :
    Except ClientFault (UdpPacket × Int) := do
  let c ← writeHeader request chunkOffset
  let chunkLengthOffset := c.ptr
  let c := c.skip 2
  let c ← writePacketOptions request chunkOffset c
  let chunkLength := min bytesLeft (maxPacketLength - c.ptr : Int) % 65536
  let data ← readChunk request.payload chunkOffset.toNat chunkLength.toNat
  let c ← checked (c.put data)
  let c ← checked (c.patch chunkLengthOffset
    (leBytes 2 (hostToNetworkOrder 2 chunkLength.toNat)))
  return (⟨c.buff, c.ptr⟩, chunkLength)

/-- `PacketiseRequest`, `client/dotnet/src/FfClient.cs:274–323`. -/
def packetiseRequest (fuel : Nat) (request : Request) : Except ClientFault (List UdpPacket) :=
  packetLoop (writePacket request) fuel 0 request.payload.length

end DotNet

end FfProxy
