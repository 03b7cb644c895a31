import EfficiencyLedger.Model.Coordinator
import EfficiencyLedger.Proof.Protocol

/-!
# The formats on the wire

Frames are exactly what the encoder writes (`frame_format`). Status records are not: the end of the
message is computed in 32 bits and the code is cut down to 16, so a record decodes to what it encodes
only where neither matters (`status_format_iff`).
-/

namespace El

open Wire

/-! ### Frames -/

/-- **The frame format is the encoder's image**: a frame with an oversized or a wrong length, a wrong
checksum or another version is rejected. -/
theorem frame_format (bytes : Bytes) :
    (∀ kind requestId body, decodeFrame bytes = some ⟨kind, requestId, body⟩ ↔
      encodeFrame ⟨kind, requestId, body⟩ = some bytes) ∧
    ∀ payloadLen crc payload, bytes = putU32 payloadLen ++ (putU32 crc ++ payload) →
      (payloadLen.toNat > kMaxFramePayload ∨ payloadLen.toNat ≠ payload.length ∨
        crc ≠ crc32c payload ∨ ∀ rest, payload ≠ putU32 kProtocolVersion ++ rest) →
      decodeFrame bytes = none := by
  refine ⟨fun kind requestId body => decodeFrame_eq_some, ?_⟩
  rintro payloadLen crc payload rfl hwrong
  rw [Option.eq_none_iff_forall_ne_some]
  intro m hm
  obtain ⟨hpayload, hmax, hlen, hcrc⟩ := decodeFrame_fields_eq_some.mp hm
  rcases hwrong with hbig | hshort | hsum | hversion
  · omega
  · exact hshort hlen
  · exact hsum hcrc
  · apply hversion (putU32 m.kind ++ (putU64 m.requestId ++ m.body))
    rw [hpayload, framePayload, List.append_assoc, List.append_assoc]

theorem frame_format_wrongVersion :
    decodeFrame (putU32 1 ++ (putU32 0 ++ [0])) = none :=
  (frame_format _).2 1 0 [0] rfl (Or.inr (Or.inr (Or.inr fun rest h => by
    have hlen := congrArg List.length h
    rw [List.length_append, length_putU32, List.length_singleton] at hlen
    omega)))

theorem exists_decodeFrame_iff (m : Message) :
    (∃ bytes, decodeFrame bytes = some m) ↔ ∃ f : Frame, m = ⟨f.kind, f.request, f.body⟩ := by
  constructor
  · rintro ⟨bytes, h⟩
    obtain ⟨hmax, -⟩ := encodeFrame_eq_some.mp (decodeFrame_eq_some.mp h)
    rw [length_framePayload] at hmax
    exact ⟨⟨m.kind, m.requestId, m.body, Nat.le_of_not_lt hmax⟩, rfl⟩
  · rintro ⟨f, rfl⟩
    have hfits : ¬(framePayload ⟨f.kind, f.request, f.body⟩).length > kMaxFramePayload := by
      rw [length_framePayload]
      exact Nat.not_lt.mpr f.fits
    exact ⟨_, decodeFrame_eq_some.mpr (encodeFrame_eq_some.mpr ⟨hfits, rfl⟩)⟩

/-! ### Status records -/

theorem length_encodeStatusPayload (st : StatusRecord) (payload : Bytes) :
    (encodeStatusPayload st payload).length = 8 + st.message.length + payload.length := by
  unfold encodeStatusPayload
  simp only [List.length_append, length_putU32]

theorem eq_encodeStatusPayload_iff {code msgLen : UInt32} {rest : Bytes} {st : StatusRecord}
    {payload : Bytes} :
    putU32 code ++ (putU32 msgLen ++ rest) = encodeStatusPayload st payload ↔
      UInt32.ofNat st.code.toBits.toNat = code ∧ UInt32.ofNat st.message.length = msgLen ∧
        st.message ++ payload = rest := by
  unfold encodeStatusPayload
  rw [List.append_assoc, List.append_assoc]
  constructor
  · intro h
    obtain ⟨hcode, hrest⟩ := exact_u32.cancel trivial trivial h
    obtain ⟨hlen, hmessage⟩ := exact_u32.cancel trivial trivial hrest
    exact ⟨hcode.symm, hlen.symm, hmessage.symm⟩
  · rintro ⟨rfl, rfl, rfl⟩
    rfl

theorem decodeStatus_fields (code msgLen : UInt32) (rest : Bytes) :
    decodeStatus (putU32 code ++ (putU32 msgLen ++ rest)) =
      if (8 + msgLen).toNat > 8 + rest.length then none
      else some (⟨.ofBits (BitVec.ofNat 16 code.toNat), rest.take msgLen.toNat⟩,
        (putU32 code ++ (putU32 msgLen ++ rest)).drop (8 + msgLen).toNat) := by
  unfold decodeStatus
  simp only [getU32_first, getU32_second, length_words, drop_words]
  rw [if_neg (by omega)]
  by_cases hend : (8 + msgLen).toNat < 8 + rest.length
  · rw [if_pos hend]
  · have hall : (putU32 code ++ (putU32 msgLen ++ rest)).length ≤ (8 + msgLen).toNat := by
      rw [length_words]
      omega
    rw [if_neg hend, List.drop_of_length_le hall]

theorem decodeStatus_of_lt (code : UInt32) {msgLen : UInt32} (hlen : 8 + msgLen.toNat < 2 ^ 32)
    (rest : Bytes) :
    decodeStatus (putU32 code ++ (putU32 msgLen ++ rest)) =
      if rest.length < msgLen.toNat then none
      else some (⟨.ofBits (BitVec.ofNat 16 code.toNat), rest.take msgLen.toNat⟩,
        rest.drop msgLen.toNat) := by
  have hstop : (8 + msgLen).toNat = 8 + msgLen.toNat := by
    rw [UInt32.toNat_add]
    exact Nat.mod_eq_of_lt hlen
  have hdrop : (putU32 code ++ (putU32 msgLen ++ rest)).drop (8 + msgLen.toNat) =
      rest.drop msgLen.toNat := by
    rw [← List.drop_drop, drop_words]
  rw [decodeStatus_fields, hstop, hdrop]
  by_cases hshort : rest.length < msgLen.toNat
  · rw [if_pos hshort, if_pos (by omega)]
  · rw [if_neg hshort, if_neg (by omega)]

theorem decodeStatus_encodeStatusPayload {st : StatusRecord} (h : 8 + st.message.length < 2 ^ 32)
    (payload : Bytes) : decodeStatus (encodeStatusPayload st payload) = some (st, payload) := by
  have hmessage : (UInt32.ofNat st.message.length).toNat = st.message.length := by
    rw [UInt32.toNat_ofNat']
    omega
  have hbits : BitVec.ofNat 16 (UInt32.ofNat st.code.toBits.toNat).toNat = st.code.toBits := by
    apply BitVec.eq_of_toNat_eq
    have := st.code.toBits.isLt
    rw [BitVec.toNat_ofNat, UInt32.toNat_ofNat']
    omega
  have hfields := eq_encodeStatusPayload_iff.mpr
    ⟨rfl, rfl, (rfl : st.message ++ payload = st.message ++ payload)⟩
  have hshort : ¬(st.message ++ payload).length < st.message.length := by
    rw [List.length_append]
    omega
  rw [← hfields, decodeStatus_of_lt _ (by omega), hmessage, if_neg hshort, hbits,
    OpenEnum.ofBits_toBits, List.take_left, List.drop_left]

theorem exists_decodeStatus_of_wrap (code : UInt32) {msgLen : UInt32} (rest : Bytes)
    (h : 2 ^ 32 ≤ 8 + msgLen.toNat) :
    ∃ st payload, decodeStatus (putU32 code ++ (putU32 msgLen ++ rest)) = some (st, payload) ∧
      putU32 code ++ (putU32 msgLen ++ rest) ≠ encodeStatusPayload st payload := by
  -- A wrapped end lies inside the header, and the payload begins there: the record decodes to more
  -- bytes than it has.
  have hlt := msgLen.toNat_lt
  have hstop : (8 + msgLen).toNat = 8 + msgLen.toNat - 2 ^ 32 := by
    rw [UInt32.toNat_add]
    show (8 + msgLen.toNat) % 2 ^ 32 = _
    omega
  have hdecode := decodeStatus_fields code msgLen rest
  rw [if_neg (by omega)] at hdecode
  refine ⟨_, _, hdecode, ?_⟩
  intro hencode
  have hlength := congrArg List.length hencode
  rw [length_encodeStatusPayload, List.length_drop] at hlength
  simp only [List.length_append, length_putU32, List.length_take] at hlength
  omega

theorem encode_of_fields_iff {code msgLen : UInt32} {rest : Bytes} (h : msgLen.toNat ≤ rest.length) :
    putU32 code ++ (putU32 msgLen ++ rest) =
        encodeStatusPayload ⟨.ofBits (BitVec.ofNat 16 code.toNat), rest.take msgLen.toNat⟩
          (rest.drop msgLen.toNat) ↔
      code.toNat < 2 ^ 16 := by
  rw [eq_encodeStatusPayload_iff]
  constructor
  · rintro ⟨hcode, -, -⟩
    have hnat := congrArg UInt32.toNat hcode
    rw [OpenEnum.toBits_ofBits, BitVec.toNat_ofNat, UInt32.toNat_ofNat'] at hnat
    omega
  · intro hcode
    refine ⟨?_, ?_, List.take_append_drop _ _⟩
    · rw [OpenEnum.toBits_ofBits, BitVec.toNat_ofNat, Nat.mod_eq_of_lt hcode, UInt32.ofNat_toNat]
    · rw [List.length_take, Nat.min_eq_left h, UInt32.ofNat_toNat]

theorem exists_longer_message {code msgLen : UInt32} {rest : Bytes} (hcode : code.toNat < 2 ^ 16)
    (h : msgLen.toNat + 2 ^ 32 ≤ rest.length) :
    ∃ st payload, st.message.length = msgLen.toNat + 2 ^ 32 ∧
      putU32 code ++ (putU32 msgLen ++ rest) = encodeStatusPayload st payload := by
  -- A record that is long enough also encodes a message longer by the range of its length field.
  have hlt := msgLen.toNat_lt
  have hlength : (rest.take (msgLen.toNat + 2 ^ 32)).length = msgLen.toNat + 2 ^ 32 := by
    rw [List.length_take, Nat.min_eq_left h]
  refine ⟨⟨.ofBits (BitVec.ofNat 16 code.toNat), rest.take (msgLen.toNat + 2 ^ 32)⟩,
    rest.drop (msgLen.toNat + 2 ^ 32), hlength, eq_encodeStatusPayload_iff.mpr ⟨?_, ?_, ?_⟩⟩
  · rw [OpenEnum.toBits_ofBits, BitVec.toNat_ofNat, Nat.mod_eq_of_lt hcode, UInt32.ofNat_toNat]
  · rw [hlength, ← UInt32.toNat_inj, UInt32.toNat_ofNat']
    omega
  · exact List.take_append_drop _ _

theorem decodeStatus_iff_of_fit {code msgLen : UInt32} {rest : Bytes}
    (hfits : 8 + msgLen.toNat < 2 ^ 32)
    (hrest : rest.length < msgLen.toNat ∨
      code.toNat < 2 ^ 16 ∧ rest.length < msgLen.toNat + 2 ^ 32) (st : StatusRecord)
    (payload : Bytes) :
    decodeStatus (putU32 code ++ (putU32 msgLen ++ rest)) = some (st, payload) ↔
      putU32 code ++ (putU32 msgLen ++ rest) = encodeStatusPayload st payload := by
  constructor
  · intro hsome
    rw [decodeStatus_of_lt code hfits rest] at hsome
    by_cases hshort : rest.length < msgLen.toNat
    · rw [if_pos hshort] at hsome
      cases hsome
    · rw [if_neg hshort, Option.some.injEq, Prod.mk.injEq] at hsome
      obtain ⟨rfl, rfl⟩ := hsome
      exact (encode_of_fields_iff (Nat.le_of_not_lt hshort)).mpr (hrest.resolve_left hshort).1
  · intro hencode
    rw [hencode]
    apply decodeStatus_encodeStatusPayload
    -- the length of the message is the one in its field
    obtain ⟨-, hlen, hmessage⟩ := eq_encodeStatusPayload_iff.mp hencode
    have hfield := congrArg UInt32.toNat hlen
    have hlength := congrArg List.length hmessage
    rw [UInt32.toNat_ofNat'] at hfield
    rw [List.length_append] at hlength
    omega

theorem fields_fit_of_iff {code msgLen : UInt32} {rest : Bytes}
    (h : ∀ st payload, decodeStatus (putU32 code ++ (putU32 msgLen ++ rest)) = some (st, payload) ↔
      putU32 code ++ (putU32 msgLen ++ rest) = encodeStatusPayload st payload) :
    8 + msgLen.toNat < 2 ^ 32 ∧
      (rest.length < msgLen.toNat ∨
        code.toNat < 2 ^ 16 ∧ rest.length < msgLen.toNat + 2 ^ 32) := by
  have hfits : 8 + msgLen.toNat < 2 ^ 32 := by
    apply Nat.lt_of_not_le
    intro hwrap
    obtain ⟨st, payload, hdecode, hne⟩ := exists_decodeStatus_of_wrap code rest hwrap
    exact hne ((h st payload).mp hdecode)
  refine ⟨hfits, ?_⟩
  by_cases hshort : rest.length < msgLen.toNat
  · exact Or.inl hshort
  have hdecode := decodeStatus_of_lt code hfits rest
  rw [if_neg hshort] at hdecode
  have hcode := (encode_of_fields_iff (Nat.le_of_not_lt hshort)).mp ((h _ _).mp hdecode)
  refine Or.inr ⟨hcode, ?_⟩
  apply Nat.lt_of_not_le
  intro hlong
  obtain ⟨st, payload, hlength, hencode⟩ := exists_longer_message hcode hlong
  have hother := (h st payload).mpr hencode
  rw [hdecode, Option.some.injEq, Prod.mk.injEq] at hother
  rw [← hother.1, List.length_take] at hlength
  omega

/-- **When the status format is the encoder's image.** It takes a length that stays clear of the
32-bit limit. Where the message runs past the end, nothing decodes; where it does not, the code has
to fit in 16 bits, and the record must not be long enough for a longer message of the same length
field. -/
theorem status_format_iff (bytes : Bytes) :
    (∀ st payload, decodeStatus bytes = some (st, payload) ↔ bytes = encodeStatusPayload st payload) ↔
      ∀ code msgLen rest, bytes = putU32 code ++ (putU32 msgLen ++ rest) →
        8 + msgLen.toNat < 2 ^ 32 ∧
          (rest.length < msgLen.toNat ∨
            code.toNat < 2 ^ 16 ∧ rest.length < msgLen.toNat + 2 ^ 32) := by
  constructor
  · rintro h code msgLen rest rfl
    exact fields_fit_of_iff h
  · intro h st payload
    by_cases hlong : 8 ≤ bytes.length
    · obtain ⟨code, msgLen, rest, rfl⟩ := exists_words hlong
      obtain ⟨hfits, hrest⟩ := h code msgLen rest rfl
      exact decodeStatus_iff_of_fit hfits hrest st payload
    · have hdecode : decodeStatus bytes = none := if_pos (Nat.lt_of_not_le hlong)
      rw [hdecode]
      constructor
      · intro hnone
        cases hnone
      · rintro rfl
        rw [length_encodeStatusPayload] at hlong
        omega

/-- A code of 17 bits is cut down to 0, and decodes to a success. -/
theorem status_format_wideCode :
    ¬∀ st payload, decodeStatus [0, 0, 1, 0, 0, 0, 0, 0] = some (st, payload) ↔
      [0, 0, 1, 0, 0, 0, 0, 0] = encodeStatusPayload st payload := by
  intro h
  have hdecode : decodeStatus [0, 0, 1, 0, 0, 0, 0, 0] = some (⟨ErrorCode.kOk, []⟩, []) := by decide
  exact absurd ((h _ _).mp hdecode) (by decide)

end El
