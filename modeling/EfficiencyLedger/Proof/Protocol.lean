import EfficiencyLedger.Model.Protocol

/-!
# The frames are exact

A frame decodes to a message where it is the encoding of that message, and only there
(`decodeFrame_eq_some`). Over a socket that makes progress, writing puts the frame behind what is
under way, and reading takes the first frame off it (`writeFrame_eq`, `readFrame_eq`).
-/

namespace El

open Wire

/-! ### Fields -/

theorem field_eq_some {α : Type} {n : Nat} {cast : Nat → α} {toNat : α → Nat} (hn : 0 < n)
    (hcast : ∀ v, cast (toNat v) = v) (hnat : ∀ k < 2 ^ (8 * n), toNat (cast k) = k)
    (hlt : ∀ v, toNat v < 2 ^ (8 * n)) {s : Bytes} {pos : Nat} {v : α} :
    (if pos + n > s.length then none else some (cast (getLE ((s.drop pos).take n)))) = some v ↔
      ∃ rest, s.drop pos = putLE n (toNat v) ++ rest := by
  have hword : (if pos + n > s.length then none else some (cast (getLE ((s.drop pos).take n)))) =
      (word n (s.drop pos)).map fun x => cast x.1 := by
    rw [word, List.length_drop]
    by_cases h : pos + n > s.length
    · rw [if_pos h, if_pos (by omega)]
      rfl
    · rw [if_neg h, if_neg (by omega)]
      rfl
  rw [hword, Option.map_eq_some_iff]
  constructor
  · rintro ⟨⟨k, rest⟩, hk, rfl⟩
    obtain ⟨hfits, hbytes⟩ := (exact_word n _ _ _).mp hk
    refine ⟨rest, ?_⟩
    rw [hnat k hfits, hbytes]
  · rintro ⟨rest, hrest⟩
    exact ⟨(toNat v, rest), (exact_word n _ _ _).mpr ⟨hlt v, hrest.symm⟩, hcast v⟩

theorem getU32_eq_some {s : Bytes} {pos : Nat} {v : UInt32} :
    getU32 s pos = some v ↔ ∃ rest, s.drop pos = putU32 v ++ rest :=
  field_eq_some (by omega) (fun _ => UInt32.ofNat_toNat) (fun _ hk => UInt32.toNat_ofNat_of_lt' hk)
    UInt32.toNat_lt

theorem getU64_eq_some {s : Bytes} {pos : Nat} {v : UInt64} :
    getU64 s pos = some v ↔ ∃ rest, s.drop pos = putU64 v ++ rest :=
  field_eq_some (by omega) (fun _ => UInt64.ofNat_toNat) (fun _ hk => UInt64.toNat_ofNat_of_lt' hk)
    UInt64.toNat_lt

theorem getU32_append (pre rest : Bytes) (v : UInt32) {pos : Nat} (h : pre.length = pos) :
    getU32 (pre ++ (putU32 v ++ rest)) pos = some v :=
  getU32_eq_some.mpr ⟨rest, List.drop_left' h⟩

theorem getU64_append (pre rest : Bytes) (v : UInt64) {pos : Nat} (h : pre.length = pos) :
    getU64 (pre ++ (putU64 v ++ rest)) pos = some v :=
  getU64_eq_some.mpr ⟨rest, List.drop_left' h⟩

theorem exists_u32 {s : Bytes} (h : 4 ≤ s.length) : ∃ v rest, s = putU32 v ++ rest := by
  have hread : getU32 s 0 = some (UInt32.ofNat (getLE ((s.drop 0).take 4))) := by
    rw [getU32, if_neg (by omega)]
  obtain ⟨rest, hrest⟩ := getU32_eq_some.mp hread
  exact ⟨_, rest, hrest⟩

theorem exists_u64 {s : Bytes} (h : 8 ≤ s.length) : ∃ v rest, s = putU64 v ++ rest := by
  have hread : getU64 s 0 = some (UInt64.ofNat (getLE ((s.drop 0).take 8))) := by
    rw [getU64, if_neg (by omega)]
  obtain ⟨rest, hrest⟩ := getU64_eq_some.mp hread
  exact ⟨_, rest, hrest⟩

/-! ### Two words and what follows them -/

theorem exists_words {bytes : Bytes} (h : 8 ≤ bytes.length) :
    ∃ first second rest, bytes = putU32 first ++ (putU32 second ++ rest) := by
  obtain ⟨first, rest, rfl⟩ := exists_u32 (Nat.le_trans (by decide) h)
  rw [List.length_append, length_putU32] at h
  obtain ⟨second, rest, rfl⟩ := exists_u32 (Nat.le_of_add_le_add_left h)
  exact ⟨first, second, rest, rfl⟩

section Words

variable (first second : UInt32) (rest : Bytes)

theorem getU32_first : getU32 (putU32 first ++ (putU32 second ++ rest)) 0 = some first :=
  getU32_append [] _ _ rfl

theorem getU32_second : getU32 (putU32 first ++ (putU32 second ++ rest)) 4 = some second :=
  getU32_append _ _ _ (length_putU32 first)

theorem drop_words : (putU32 first ++ (putU32 second ++ rest)).drop 8 = rest := by
  rw [← List.append_assoc]
  apply List.drop_left'
  rw [List.length_append, length_putU32, length_putU32]

theorem length_words : (putU32 first ++ (putU32 second ++ rest)).length = 8 + rest.length := by
  simp only [List.length_append, length_putU32]
  omega

end Words

/-! ### Frames -/

theorem length_framePayload (m : Message) : (framePayload m).length = 16 + m.body.length := by
  unfold framePayload
  simp only [List.length_append, length_putU32, length_putU64]

theorem decodePayload_fields (version kind : UInt32) (requestId : UInt64) (body : Bytes) :
    decodePayload (putU32 version ++ (putU32 kind ++ (putU64 requestId ++ body))) =
      if version ≠ kProtocolVersion then none else some ⟨kind, requestId, body⟩ := by
  have hwords : (putU32 version ++ putU32 kind).length = 8 := by
    rw [List.length_append, length_putU32, length_putU32]
  have hid : getU64 (putU32 version ++ (putU32 kind ++ (putU64 requestId ++ body))) 8 =
      some requestId := by
    rw [← List.append_assoc]
    exact getU64_append _ _ _ hwords
  have hlong : (putU32 version ++ (putU32 kind ++ (putU64 requestId ++ body))).length ≥ 16 := by
    rw [length_words, List.length_append, length_putU64]
    omega
  have hbody : (putU32 version ++ (putU32 kind ++ (putU64 requestId ++ body))).drop 16 = body := by
    rw [← List.drop_drop (i := 8) (j := 8), drop_words, List.drop_left' (length_putU64 _)]
  unfold decodePayload
  simp only [getU32_first, getU32_second, hid, if_pos hlong, hbody]

theorem decodePayload_of_lt {payload : Bytes} (h : payload.length < 16) :
    decodePayload payload = none := by
  have hid : getU64 payload 8 = none := if_pos (by omega)
  unfold decodePayload
  cases getU32 payload 0 with
  | none => rfl
  | some version =>
    simp only [hid]
    split
    · rfl
    · cases getU32 payload 4 <;> rfl

theorem decodePayload_eq_some {payload : Bytes} {m : Message} :
    decodePayload payload = some m ↔ payload = framePayload m := by
  constructor
  · intro h
    by_cases hshort : payload.length < 16
    · rw [decodePayload_of_lt hshort] at h
      cases h
    have hlong : 8 ≤ payload.length := by omega
    obtain ⟨version, kind, rest, rfl⟩ := exists_words hlong
    rw [length_words] at hshort
    have hrest : 8 ≤ rest.length := by omega
    obtain ⟨requestId, body, rfl⟩ := exists_u64 hrest
    rw [decodePayload_fields, Option.ite_none_left_eq_some, not_not] at h
    obtain ⟨rfl, hm⟩ := h
    cases hm
    rw [framePayload, List.append_assoc, List.append_assoc]
  · rintro rfl
    rw [framePayload, List.append_assoc, List.append_assoc, decodePayload_fields,
      if_neg (not_not.mpr rfl)]

theorem toNat_ofNat_length {n : Nat} (h : ¬n > kMaxFramePayload) : (UInt32.ofNat n).toNat = n := by
  have hmax : kMaxFramePayload < UInt32.size := by decide
  exact UInt32.toNat_ofNat_of_lt' (by omega)

theorem toNat_add_eight {v : UInt32} (h : ¬v.toNat > kMaxFramePayload) :
    (v + 8).toNat = v.toNat + 8 := by
  have hmax : kMaxFramePayload + 8 < 2 ^ 32 := by decide
  rw [UInt32.toNat_add]
  exact Nat.mod_eq_of_lt (Nat.lt_of_le_of_lt (Nat.add_le_add_right (Nat.le_of_not_lt h) 8) hmax)

theorem encodeFrame_eq_some {m : Message} {bytes : Bytes} :
    encodeFrame m = some bytes ↔ ¬(framePayload m).length > kMaxFramePayload ∧
      bytes = putU32 (UInt32.ofNat (framePayload m).length) ++
        (putU32 (crc32c (framePayload m)) ++ framePayload m) := by
  unfold encodeFrame
  rw [Option.ite_none_left_eq_some, Option.some.injEq, List.append_assoc]
  exact and_congr_right fun _ => eq_comm

theorem decodeFrame_fields (payloadLen crc : UInt32) (payload : Bytes) :
    decodeFrame (putU32 payloadLen ++ (putU32 crc ++ payload)) =
      if payloadLen.toNat > kMaxFramePayload then none
      else if payloadLen.toNat ≠ payload.length then none
      else if crc32c payload ≠ crc then none
      else decodePayload payload := by
  unfold decodeFrame
  simp only [getU32_first, getU32_second, drop_words, length_words]
  rw [if_neg (by omega)]
  by_cases hbig : payloadLen.toNat > kMaxFramePayload
  · rw [if_pos hbig, if_pos hbig]
  rw [if_neg hbig, if_neg hbig, toNat_add_eight hbig]
  by_cases hlen : payloadLen.toNat = payload.length
  · rw [if_neg (by omega), List.take_of_length_le hlen.ge, if_neg (not_not.mpr hlen)]
  · rw [if_pos (by omega), if_pos hlen]

theorem decodeFrame_fields_eq_some {payloadLen crc : UInt32} {payload : Bytes} {m : Message} :
    decodeFrame (putU32 payloadLen ++ (putU32 crc ++ payload)) = some m ↔
      payload = framePayload m ∧ ¬payload.length > kMaxFramePayload ∧
        payloadLen.toNat = payload.length ∧ crc = crc32c payload := by
  rw [decodeFrame_fields, Option.ite_none_left_eq_some, Option.ite_none_left_eq_some,
    Option.ite_none_left_eq_some, decodePayload_eq_some, not_not, not_not]
  constructor
  · rintro ⟨hmax, hlen, hcrc, hpayload⟩
    rw [hlen] at hmax
    exact ⟨hpayload, hmax, hlen, hcrc.symm⟩
  · rintro ⟨hpayload, hmax, hlen, hcrc⟩
    rw [← hlen] at hmax
    exact ⟨hmax, hlen, hcrc.symm, hpayload⟩

/-- **Frames decode to what they encode**, and nothing else decodes. -/
theorem decodeFrame_eq_some {bytes : Bytes} {m : Message} :
    decodeFrame bytes = some m ↔ encodeFrame m = some bytes := by
  rw [encodeFrame_eq_some]
  constructor
  · intro h
    by_cases hshort : bytes.length < 8
    · rw [decodeFrame, if_pos hshort] at h
      cases h
    obtain ⟨payloadLen, crc, payload, rfl⟩ := exists_words (Nat.le_of_not_lt hshort)
    obtain ⟨rfl, hmax, hlen, rfl⟩ := decodeFrame_fields_eq_some.mp h
    refine ⟨hmax, ?_⟩
    rw [← hlen, UInt32.ofNat_toNat]
  · rintro ⟨hmax, rfl⟩
    exact decodeFrame_fields_eq_some.mpr ⟨rfl, hmax, toNat_ofNat_length hmax, rfl⟩

/-! ### Exchange -/

section Exchange

open Stream

variable {t : Transfer}

theorem writeFrame_none (m : Message) (h : encodeFrame m = none) (c : Channel UInt8) :
    writeFrame t m c = (false, c) := by
  unfold writeFrame
  simp only [h]

theorem writeFrame_eq (ht : Progress t) {m : Message} {frame : Bytes}
    (h : encodeFrame m = some frame) (inFlight : Bytes) (sends recvs : Nat) :
    ∃ sends', writeFrame t m ⟨inFlight, sends, recvs⟩ =
      (true, ⟨inFlight ++ frame, sends', recvs⟩) := by
  unfold writeFrame
  simp only [h]
  exact sendAll_eq ht frame inFlight sends recvs

theorem readFrame_eq (ht : Progress t) {m : Message} {frame : Bytes}
    (h : encodeFrame m = some frame) (rest : Bytes) (sends recvs : Nat) :
    ∃ recvs', readFrame t ⟨frame ++ rest, sends, recvs⟩ = (some m, ⟨rest, sends, recvs'⟩) := by
  have hdecode := decodeFrame_eq_some.mpr h
  obtain ⟨hmax, hframe⟩ := encodeFrame_eq_some.mp h
  rw [← List.append_assoc] at hframe
  generalize hheader :
    putU32 (UInt32.ofNat (framePayload m).length) ++ putU32 (crc32c (framePayload m)) = header
    at hframe
  have hlen : header.length = 8 := by
    rw [← hheader, List.length_append, length_putU32, length_putU32]
  have hfield : (UInt32.ofNat (getLE (header.take 4))).toNat = (framePayload m).length := by
    rw [← hheader, List.take_left' (length_putU32 _), putU32, getLE_putLE (UInt32.toNat_lt _),
      UInt32.ofNat_toNat, toNat_ofNat_length hmax]
  subst hframe
  obtain ⟨recvs₁, hfirst⟩ := recvAll_eq ht header (framePayload m ++ rest) sends recvs
  obtain ⟨recvs₂, hsecond⟩ := recvAll_eq ht (framePayload m) rest sends recvs₁
  refine ⟨recvs₂, ?_⟩
  rw [hlen] at hfirst
  unfold readFrame
  rw [List.append_assoc, hfirst]
  simp only [hfield, if_neg hmax, hsecond, hdecode]

end Exchange

end El
