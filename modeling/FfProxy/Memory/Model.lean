import FfProxy.Base.Ownership
import FfProxy.Parser.Chunk

/-!
# Requests in memory

`src/request.c` and the part of `src/parser.c` that receives packets, with every block that is
allocated or released: the request, the array of its options, the option nodes, the payload nodes
with their links, and the blocks of their values. A read, a write or a release of a block that is
not live is a fault.
-/

namespace FfProxy
open Base

/-- `struct ff_request_option_node`, `src/request.h:60–65`. -/
structure OptionCell where
  type : UInt8
  length : UInt16
  value : Option Nat
  deriving DecidableEq, Repr

/-- `struct ff_request_payload_node`, `src/request.h:67–73`. -/
structure NodeCell where
  offset : UInt16
  length : UInt16
  value : Option Nat
  next : Option Nat
  deriving DecidableEq, Repr

/-- `struct ff_request`, `src/request.h:75–88`. The options and the payload are reached through the
pointers; the lists of `fields` are not looked at. -/
structure RequestCell where
  fields : Request
  options : Option Nat
  optionsLength : UInt8
  payload : Option Nat
  deriving DecidableEq, Repr

/-- `struct ff_derived_key`, `src/crypto.h:25–29`. -/
structure DerivedKeyCell where
  length : UInt16
  key : Option Nat
  deriving DecidableEq, Repr

/-- The blocks in memory. An entry of an array is `none` until it is written. `args` is the
`struct ff_process_request_args` of a thread, `src/server_p.h:12–17`, of which the request is looked
at. -/
inductive MemCell
  | bytes (value : List UInt8)
  | option (node : OptionCell)
  | array (entries : List (Option Nat))
  | node (node : NodeCell)
  | request (request : RequestCell)
  | derivedKey (key : DerivedKeyCell)
  | args (request : Nat)
  deriving DecidableEq, Repr

namespace MemCell

/-- The bytes in a block. -/
def asBytes : MemCell → Option (List UInt8)
  | .bytes c => some c
  | _ => none

/-- The option node in a block. -/
def asOption : MemCell → Option OptionCell
  | .option c => some c
  | _ => none

/-- The array in a block. -/
def asArray : MemCell → Option (List (Option Nat))
  | .array c => some c
  | _ => none

/-- The payload node in a block. -/
def asNode : MemCell → Option NodeCell
  | .node c => some c
  | _ => none

/-- The request in a block. -/
def asRequest : MemCell → Option RequestCell
  | .request c => some c
  | _ => none

/-- The derived key in a block. -/
def asDerivedKey : MemCell → Option DerivedKeyCell
  | .derivedKey c => some c
  | _ => none

/-- The request that the arguments of a thread name. -/
def asArgs : MemCell → Option Nat
  | .args c => some c
  | _ => none

end MemCell

/-- Programs that work on the memory of the proxy. -/
abbrev MemM := HeapM Fault MemCell

namespace InMemory

/-! ### `src/request.c` -/

/-- Read an option node. -/
def loadOption (node : Nat) : MemM OptionCell := load .useAfterFree MemCell.asOption node

/-- Read an array of options. -/
def loadArray (array : Nat) : MemM (List (Option Nat)) := load .useAfterFree MemCell.asArray array

/-- Read a payload node. -/
def loadNode (node : Nat) : MemM NodeCell := load .useAfterFree MemCell.asNode node

/-- Read a request. -/
def loadRequest (request : Nat) : MemM RequestCell := load .useAfterFree MemCell.asRequest request

/-- Write an option node. -/
def storeOption (node : Nat) (c : OptionCell) : MemM Unit := store .useAfterFree node (.option c)

/-- Write a payload node. -/
def storeNode (node : Nat) (c : NodeCell) : MemM Unit := store .useAfterFree node (.node c)

/-- Write a request. -/
def storeRequest (request : Nat) (c : RequestCell) : MemM Unit :=
  store .useAfterFree request (.request c)

/-- Change the fields of a request. -/
def modifyFields (request : Nat) (f : Request → Request) : MemM Unit := do
  let r ← loadRequest request
  storeRequest request { r with fields := f r.fields }

/-- `FREE`, `src/alloc.h:4–7`. -/
def free (p : Option Nat) : MemM Unit := release .doubleFree p

/-- `ff_request_option_node_alloc`, `src/request.c:10–19`. -/
def ffRequestOptionNodeAlloc : MemM Nat := alloc (.option ⟨0, 0, none⟩)

/-- `ff_request_option_load_buff`, `src/request.c:21–28`. -/
def ffRequestOptionLoadBuff (node : Nat) (bytes : List UInt8) : MemM Unit := do
  let copy ← alloc (.bytes bytes)
  let c ← loadOption node
  storeOption node { c with value := some copy }

/-- `ff_request_option_node_free`, `src/request.c:30–38`. -/
def ffRequestOptionNodeFree : Option Nat → MemM Unit
  | none => pure ()
  | some node => do
    let c ← loadOption node
    free c.value
    free (some node)

/-- `ff_request_payload_node_alloc`, `src/request.c:40–50`. -/
def ffRequestPayloadNodeAlloc : MemM Nat := alloc (.node ⟨0, 0, none, none⟩)

/-- `ff_request_payload_load_buff`, `src/request.c:52–59`. -/
def ffRequestPayloadLoadBuff (node : Nat) (bytes : List UInt8) : MemM Unit := do
  let copy ← alloc (.bytes bytes)
  let c ← loadNode node
  storeNode node { c with value := some copy }

/-- `ff_request_payload_node_free`, `src/request.c:61–69`. -/
def ffRequestPayloadNodeFree : Option Nat → MemM Unit
  | none => pure ()
  | some node => do
    let c ← loadNode node
    free c.value
    free (some node)

/-- `ff_request_alloc`, `src/request.c:71–78`. -/
def ffRequestAlloc : MemM Nat := alloc (.request ⟨FfProxy.ffRequestAlloc, none, 0, none⟩)

/-- `request->options[i]`. -/
def optionAt (options : Option Nat) (i : Nat) : MemM Nat :=
  match options with
  | none => throw .nullDereference
  | some array => do
    let entries ← loadArray array
    match entries[i]? with
    | none => throw .outOfBounds
    | some none => throw .useAfterFree
    | some (some node) => pure node

/-- The loop over the options in `ff_request_free`, `src/request.c:85–88`, over the indices that
are left. -/
def freeOptions (options : Option Nat) : List Nat → MemM Unit
  | [] => pure ()
  | i :: rest => do
    let node ← optionAt options i
    ffRequestOptionNodeFree (some node)
    freeOptions options rest

/-- The loop over the payload in `ff_request_free`, `src/request.c:92–100`. No chain of nodes is
longer than `fuel`, the number of blocks there are. -/
def freePayload : Nat → Option Nat → MemM Unit
  | _, none => pure ()
  | 0, some _ => throw .divergence
  | fuel + 1, some node => do
    let c ← loadNode node
    ffRequestPayloadNodeFree (some node)
    freePayload fuel c.next

/-- `ff_request_free`, `src/request.c:80–103`. -/
def ffRequestFree : Option Nat → MemM Unit
  | none => pure ()
  | some request => do
    let r ← loadRequest request
    freeOptions r.options (List.range r.optionsLength.toNat)
    free r.options
    let fuel ← allocated
    freePayload fuel r.payload
    free (some request)

/-! ### `src/parser.c` -/

/-- A new option node with a copy of its value, `src/parser.c:316–322`. -/
def makeOption (type : UInt8) (length : UInt16) (value : List UInt8) : MemM Nat := do
  let node ← ffRequestOptionNodeAlloc
  let c ← loadOption node
  storeOption node { c with type := type, length := length }
  ffRequestOptionLoadBuff node value
  return node

/-- The TLV loop of `ff_request_parse_options`, `src/parser.c:265–326`, with the free slots as in
`FfProxy.parseOptionsLoop`: where the options end and whether BREAK closes them, or `none` for the
jump to `error`; and the nodes that were made. -/
def parseOptionsLoop (b : Buffer) :
    Nat → Nat → List Nat → MemM (Option (Nat × Bool) × List Nat)
  | 0, _, options => pure (none, options)
  | slots + 1, i, options =>
    if b.size < i + optionHeaderSize then pure (none, options)
    else
      let type := b.mem.getD i 0
      let optionLength := ntohs (leValue (slice b.mem (i + 1) 2))
      let i := i + optionHeaderSize
      if type = OptionType.breakOption then
        if optionLength ≠ 0 then pure (none, options) else pure (some (i, true), options)
      else if type = OptionType.eol then
        if optionLength ≠ 0 then pure (none, options) else pure (some (i, false), options)
      else if b.size < i + optionLength then pure (none, options)
      else do
        let node ← makeOption type (UInt16.ofNat optionLength) (slice b.mem i optionLength)
        parseOptionsLoop b slots (i + optionLength) (options ++ [node])

/-- The loop at the label `error`, `src/parser.c:357–359`. -/
def freeMade : List Nat → MemM Unit
  | [] => pure ()
  | node :: rest => do
    ffRequestOptionNodeFree (some node)
    freeMade rest

/-- The array with room for more options, `src/parser.c:335–347`: a new one, or the old one moved by
`realloc`; behind the `size` entries that are kept stand the new ones. -/
def growArray (options : Option Nat) (size : Nat) (made : List Nat) : MemM Nat := do
  match options with
  | none => alloc (.array (List.replicate size none ++ made.map some))
  | some array => do
    let entries ← loadArray array
    let moved ← alloc (.array ((entries ++ List.replicate size none).take size ++ made.map some))
    free (some array)
    return moved

/-- `ff_request_parse_options`, `src/parser.c:256–365`. -/
def ffRequestParseOptions (request : Nat) (b : Buffer) : MemM Nat := do
  let r ← loadRequest request
  let (found, made) ← parseOptionsLoop b (ffRequestMaxOptions - r.optionsLength.toNat) 0 []
  match found with
  | none => do
    freeMade made
    return 0
  | some (i, containsOptions) => do
    modifyFields request fun fields ↦ { fields with payloadContainsOptions := containsOptions }
    if made = [] then return i
    else do
      let r ← loadRequest request
      let array ← growArray r.options r.optionsLength.toNat made
      storeRequest request { r with
        options := some array
        optionsLength := r.optionsLength + UInt8.ofNat made.length }
      return i

/-- The option list of a packet, `src/parser.c:167–192`: where the chunk data starts, or `none` for
a packet that is refused. -/
def parseChunkOptions (request : Nat) (b : Buffer) : MemM (Option Nat) :=
  if (readHeader b.mem).chunkOffset = 0 then do
    let n ← ffRequestParseOptions request (b.advance requestHeaderSize)
    return if n = 0 then none else some (requestHeaderSize + n)
  else if b.mem.getD requestHeaderSize 0 = OptionType.eol then
    return some (requestHeaderSize + optionHeaderSize)
  else return none

/-- A new payload node with a copy of its value, `src/parser.c:201–208`. -/
def makeNode (offset length : UInt16) (value : List UInt8) : MemM Nat := do
  let node ← ffRequestPayloadNodeAlloc
  let c ← loadNode node
  storeNode node { c with offset := offset, length := length }
  ffRequestPayloadLoadBuff node value
  return node

/-- The overlap test of `src/parser.c:222`. -/
def overlapsExistingNode (node current : NodeCell) : Bool :=
  decide (node.offset.toNat < current.offset.toNat + current.length.toNat) &&
    decide (current.offset.toNat ≤ node.offset.toNat + node.length.toNat)

/-- The walk along the payload, `src/parser.c:217–241`: link the node behind the last one unless it
overlaps one on the way. -/
def linkLoop (node : Nat) : Nat → Nat → MemM Bool
  | 0, _ => throw .divergence
  | fuel + 1, current => do
    let n ← loadNode node
    let c ← loadNode current
    if overlapsExistingNode n c then return false
    else
      match c.next with
      | some next => linkLoop node fuel next
      | none => do
        storeNode current { c with next := some node }
        return true

/-- Link a new node, `src/parser.c:210–243`; `false` if it overlaps one that is there. -/
def linkNode (request node : Nat) : MemM Bool := do
  let r ← loadRequest request
  let n ← loadNode node
  match r.payload with
  | none => do
    storeRequest request { r with
      fields := { r.fields with receivedLength := n.length.toUInt64 }
      payload := some node }
    return true
  | some first => do
    let fuel ← allocated
    let linked ← linkLoop node fuel first
    if linked then do
      modifyFields request fun fields ↦
        { fields with receivedLength := fields.receivedLength + n.length.toUInt64 }
      return true
    else return false

/-- A packet is refused. -/
def fail (request : Nat) : MemM Unit :=
  modifyFields request fun fields ↦ { fields with state := .receivingFail }

/-- The end of `ff_request_parse_data_chunk`, `src/parser.c:245–253`. -/
def finishChunk (request : Nat) : MemM Unit :=
  modifyFields request fun fields ↦
    if fields.receivedLength = fields.payloadLength then { fields with state := .received }
    else fields

/-- The new node of a packet, `src/parser.c:201–253`. A node that is refused is not released. -/
def addNode (request : Nat) (offset length : UInt16) (value : List UInt8) : MemM Unit := do
  let node ← makeNode offset length value
  let linked ← linkNode request node
  if linked then finishChunk request else fail request

/-- `ff_request_parse_data_chunk`, `src/parser.c:104–254`. -/
def ffRequestParseDataChunk (request : Nat) (b : Buffer) : MemM Unit := do
  let r ← loadRequest request
  if chunkHeaderAccepted r.fields b then do
    let start ← parseChunkOptions request b
    match start with
    | none => fail request
    | some i =>
      if b.size < i + (readHeader b.mem).chunkLength.toNat then fail request
      else
        addNode request (readHeader b.mem).chunkOffset.toUInt16 (readHeader b.mem).chunkLength
          (slice b.mem i (b.size - i))
  else fail request

/-- `ff_request_parse_raw_http`, `src/parser.c:93–102`. -/
def ffRequestParseRawHttp (request : Nat) (b : Buffer) : MemM Unit := do
  modifyFields request fun fields ↦ { fields with
    version := ffVersionRaw
    state := .received
    payloadLength := UInt64.ofNat b.size
    receivedLength := UInt64.ofNat b.size }
  let node ← ffRequestPayloadNodeAlloc
  let r ← loadRequest request
  storeRequest request { r with payload := some node }
  let c ← loadNode node
  storeNode node { c with length := UInt16.ofNat b.size }
  ffRequestPayloadLoadBuff node b.bytes

/-- `ff_request_parse_first_chunk`, `src/parser.c:69–91`. -/
def ffRequestParseFirstChunk (request : Nat) (b : Buffer) : MemM Unit :=
  if ffRequestIsRawHttp b then ffRequestParseRawHttp request b
  else if b.size < requestHeaderSize then fail request
  else do
    modifyFields request fun fields ↦ { fields with
      version := (readHeader b.mem).version.toNat
      requestId := (readHeader b.mem).requestId
      payloadLength := (readHeader b.mem).totalLength.toUInt64 }
    ffRequestParseDataChunk request b

/-- `ff_request_parse_chunk`, `src/parser.c:13–25`. -/
def ffRequestParseChunk (request : Nat) (b : Buffer) : MemM Unit := do
  let r ← loadRequest request
  if r.fields.version = 0 then ffRequestParseFirstChunk request b
  else ffRequestParseDataChunk request b

/-- Feed packets to one request in the given order. -/
def parseChunks (request : Nat) : List Buffer → MemM Unit
  | [] => pure ()
  | b :: rest => do
    ffRequestParseChunk request b
    parseChunks request rest

end InMemory

end FfProxy
