import EfficiencyLedger.Lib.Stream
import EfficiencyLedger.Model.Persistence

/-!
# The wire protocol

The frames and status records of `protocol.cpp`, and their exchange over a socket as `frame_io.hpp`
does it. A frame is `[u32 payload_len][u32 crc32c(payload)][payload]`, and its payload
`[u32 protocol_version][u32 message_kind][u64 request_id][body]`; a status record is
`[u32 code][u32 msg_len][msg]`, followed by what the reply carries.
-/

namespace El

open Wire

def kProtocolVersion : UInt32 := 1

/-- Bounds the payload of a frame: version, kind, request id and body. -/
def kMaxFramePayload : Nat := 1 <<< 20

inductive MessageKind where
  | kRegister | kAppend | kQueryDigest | kQueryTotals | kReclassify | kShutdown
  deriving DecidableEq

/-- The value on the wire. -/
def MessageKind.toBits : MessageKind → UInt32
  | kRegister => 1
  | kAppend => 2
  | kQueryDigest => 3
  | kQueryTotals => 4
  | kReclassify => 5
  | kShutdown => 6

def getU32 (s : Bytes) (pos : Nat) : Option UInt32 :=
  if pos + 4 > s.length then none else some (UInt32.ofNat (getLE ((s.drop pos).take 4)))

def getU64 (s : Bytes) (pos : Nat) : Option UInt64 :=
  if pos + 8 > s.length then none else some (UInt64.ofNat (getLE ((s.drop pos).take 8)))

/-! ### Frames -/

/-- What `encode_frame` is given and `decode_frame` returns. -/
structure Message where
  kind : UInt32
  requestId : UInt64
  body : Bytes
  deriving DecidableEq

def framePayload (m : Message) : Bytes :=
  putU32 kProtocolVersion ++ putU32 m.kind ++ putU64 m.requestId ++ m.body

def encodeFrame (m : Message) : Option Bytes :=
  let payload := framePayload m
  if payload.length > kMaxFramePayload then none
  else some (putU32 (UInt32.ofNat payload.length) ++ putU32 (crc32c payload) ++ payload)

/-- The fields of a payload whose length and checksum are right. -/
def decodePayload (payload : Bytes) : Option Message :=
  match getU32 payload 0 with
  | none => none
  | some version =>
    if version ≠ kProtocolVersion then none
    else
      match getU32 payload 4, getU64 payload 8 with
      | some kind, some requestId =>
        some ⟨kind, requestId, if payload.length ≥ 16 then payload.drop 16 else []⟩
      | _, _ => none

def decodeFrame (bytes : Bytes) : Option Message :=
  if bytes.length < 8 then none
  else
    match getU32 bytes 0 with
    | none => none
    | some payloadLen =>
      if payloadLen.toNat > kMaxFramePayload then none
      else if (payloadLen + 8).toNat ≠ bytes.length then none
      else
        match getU32 bytes 4 with
        | none => none
        | some crc =>
          let payload := (bytes.drop 8).take payloadLen.toNat
          if crc32c payload ≠ crc then none else decodePayload payload

/-! ### Status records -/

/-- A `Status` on the wire, where the message is any string of bytes. -/
structure StatusRecord where
  code : OpenEnum 16 ErrorCode
  message : Bytes
  deriving DecidableEq

def encodeStatusPayload (st : StatusRecord) (payload : Bytes) : Bytes :=
  putU32 (UInt32.ofNat st.code.toBits.toNat) ++ putU32 (UInt32.ofNat st.message.length) ++
    st.message ++ payload

/-- The end of the message is computed in 32 bits, and the code is cut down to the 16 bits of
`ErrorCode`. -/
def decodeStatus (bytes : Bytes) : Option (StatusRecord × Bytes) :=
  if bytes.length < 8 then none
  else
    match getU32 bytes 0, getU32 bytes 4 with
    | some code, some msgLen =>
      let stop := 8 + msgLen
      if stop.toNat > bytes.length then none
      else
        let msg := (bytes.drop 8).take msgLen.toNat
        let payload := if stop.toNat < bytes.length then bytes.drop stop.toNat else []
        some (⟨.ofBits (BitVec.ofNat 16 code.toNat), msg⟩, payload)
    | _, _ => none

/-! ### Exchange -/

section Exchange

open Stream

variable (t : Transfer)

def writeFrame (m : Message) (c : Channel UInt8) : Bool × Channel UInt8 :=
  match encodeFrame m with
  | none => (false, c)
  | some frame => sendAll t frame c

/-- The header is received first; the frame is decoded as a whole once the payload is there. -/
def readFrame (c : Channel UInt8) : Option Message × Channel UInt8 :=
  match recvAll t 8 c with
  | (none, c) => (none, c)
  | (some header, c) =>
    let payloadLen := UInt32.ofNat (getLE (header.take 4))
    if payloadLen.toNat > kMaxFramePayload then (none, c)
    else
      match recvAll t payloadLen.toNat c with
      | (none, c) => (none, c)
      | (some payload, c) => (decodeFrame (header ++ payload), c)

def writeStatus (st : StatusRecord) (payload : Bytes) (c : Channel UInt8) : Bool × Channel UInt8 :=
  writeFrame t ⟨0, 0, encodeStatusPayload st payload⟩ c

def readStatus (c : Channel UInt8) : Option (StatusRecord × Bytes) × Channel UInt8 :=
  match readFrame t c with
  | (none, c) => (none, c)
  | (some m, c) => (decodeStatus m.body, c)

end Exchange

end El
