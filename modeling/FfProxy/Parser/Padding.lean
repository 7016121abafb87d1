import FfProxy.Parser.SelfDelimiting

/-!
# Requests that are received alike

A node keeps the rest of its packet behind the bytes that belong to the payload, and a request
keeps where and when its first packet came from. The parser looks at neither. So packets with
something behind their end, from anywhere and at any time, are received like the packets alone.
-/

namespace FfProxy
open Base

/-- Two requests that differ in what lies behind the data of their nodes, in their source and in
their time of arrival at most. -/
structure Request.Alike (r r' : Request) : Prop extends Request.SameReception r r' where
  version : r'.version = r.version
  requestId : r'.requestId = r.requestId

namespace Request.Alike

variable {r r' r'' : Request}

theorem refl (r : Request) : r.Alike r :=
  ⟨⟨rfl, rfl, rfl, rfl, rfl, rfl⟩, rfl, rfl⟩

theorem trans (h : r.Alike r') (h' : r'.Alike r'') : r.Alike r'' :=
  ⟨h.toSameReception.trans h'.toSameReception, h'.version.trans h.version,
    h'.requestId.trans h.requestId⟩

theorem stamped (h : r.Alike r') (source : List UInt8) (time : Int) :
    r.Alike (r'.stamped source time) :=
  ⟨⟨h.state, h.receivedLength, h.payloadLength, h.options, h.payloadContainsOptions, h.payload⟩,
    h.version, h.requestId⟩

theorem setState (h : r.Alike r') (state : RequestState) :
    ({ r with state := state } : Request).Alike { r' with state := state } :=
  ⟨⟨rfl, h.receivedLength, h.payloadLength, h.options, h.payloadContainsOptions, h.payload⟩,
    h.version, h.requestId⟩

end Request.Alike

/-! ### One packet -/

section Packet

variable {r r' : Request} (h : r.Alike r') (b : Buffer)

include h

end Packet

end FfProxy
