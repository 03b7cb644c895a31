import EfficiencyLedger.Lib.Session
import EfficiencyLedger.Model.Coordinator

/-!
# Messages between processes

What `read_frame` makes of a stream that arrives in parts, and the replies of the coordinator as
`write_status` puts them on the wire. `frame_io.hpp` asks for the eight bytes of the header first, and
then for exactly the payload that the header announces.
-/

namespace El

open Wire Session

/-- `read_frame`, as far as the bytes that it has received take it. -/
def scanFrame (received : Bytes) : Scan Message :=
  if received.length < 8 then .more (8 - received.length)
  else
    let payloadLen := UInt32.ofNat (getLE (received.take 4))
    if payloadLen.toNat > kMaxFramePayload then .bad
    else if received.length < 8 + payloadLen.toNat then
      .more (8 + payloadLen.toNat - received.length)
    else
      match decodeFrame received with
      | some m => .got m
      | none => .bad

namespace Frame

/-- What `encode_frame` is given. -/
def message (f : Frame) : Message := ⟨f.kind, f.request, f.body⟩

/-- What `read_frame` returns; the bound holds of every frame that it decodes. -/
def ofMessage (m : Message) : Option Frame :=
  if fits : 16 + m.body.length ≤ kMaxFramePayload then some ⟨m.kind, m.requestId, m.body, fits⟩
  else none

end Frame

/-- A status as `write_status` puts it on the wire. -/
def Status.record (st : Status) : StatusRecord := ⟨st.code, st.message.toUTF8.data.toList⟩

/-- What `read_status` returns. -/
abbrev Answer := StatusRecord × Bytes

namespace Answer

/-- What `encode_frame` is given. -/
def message (a : Answer) : Message := ⟨0, 0, encodeStatusPayload a.1 a.2⟩

def ofMessage (m : Message) : Option Answer := decodeStatus m.body

end Answer

def Reply.answer (r : Reply) : Answer := (r.status.record, r.payload)

/-- The coordinator as it is seen from its connections. -/
def Coordinator.server (ord : IterationOrder) : Server Coordinator Frame Answer where
  accept c := (c.step ord .accept).1
  handle c f := ((c.handle ord f).1, (c.handle ord f).2.answer)
  hangUp c := (c.step ord .closed).1
  giveUp c := (c.step ord .acceptFailed).1
  listens c := c.running && c.conn.isNone
  stays c := c.conn.isSome

end El
