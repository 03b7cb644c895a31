import EfficiencyLedger.Proof.Checksum
import EfficiencyLedger.Proof.Replay

/-!
# Damaged records

A burst of damage in a saved record, up to four bytes wide and anywhere in it, is found by the
checksum (`burst_rejected`): the load stops before it touches the ledger.
-/

namespace El

open Wire

theorem loadFromString_of_checksum (ord : IterationOrder) (t : EfficiencyLedger) {m footer : Bytes}
    (hfooter : footer.length = kFooterLen) (hlen : kHeaderLen ≤ m.length)
    (hcheck : getLE footer ≠ (crc32c m).toNat) :
    loadFromString ord (m ++ footer) t =
      .error (corrupt (some "checksum mismatch") "CRC-32C mismatch") t := by
  have hsplit : (m ++ footer).length - kFooterLen = m.length := by
    rw [List.length_append, hfooter, Nat.add_sub_cancel]
  have hlong : ¬ (m ++ footer).length < kHeaderLen + kFooterLen := by
    rw [List.length_append, hfooter]
    omega
  have hparse : parseRecord (m ++ footer) =
      .error (corrupt (some "checksum mismatch") "CRC-32C mismatch") := by
    unfold parseRecord
    rw [if_neg hlong]
    simp only [hsplit, List.take_left, List.drop_left]
    rw [if_pos hcheck]
  exact loadFromString_of_error ord t hparse

theorem kHeaderLen_le_payload (s : EfficiencyLedger) : kHeaderLen ≤ s.payload.length := by
  have hmagic : kMagic.length = 4 := rfl
  unfold EfficiencyLedger.payload kHeaderLen
  simp only [List.length_append, length_putU32, length_putU64, hmagic]
  omega

/-- **A burst of damage is found**: no byte string that differs from a saved record, within four
consecutive positions at most, is loaded. -/
theorem burst_rejected (ord : IterationOrder) (s t : EfficiencyLedger) (bytes : Bytes)
    (hlen : bytes.length = s.saveToString.length) (hne : bytes ≠ s.saveToString) (i : Nat)
    (hburst : ∀ j, bytes[j]? ≠ s.saveToString[j]? → i ≤ j ∧ j < i + 4) :
    loadFromString ord bytes t =
      .error (corrupt (some "checksum mismatch") "CRC-32C mismatch") t := by
  have hfooter : (putU32 (crc32c s.payload)).length = 4 := length_putU32 _
  have hcheck : getLE (putU32 (crc32c s.payload)) = (crc32c s.payload).toNat :=
    getLE_putLE (UInt32.toNat_lt _)
  have hsave : s.saveToString = s.payload ++ putU32 (crc32c s.payload) := rfl
  have hheader := kHeaderLen_le_payload s
  have htotal : s.saveToString.length = s.payload.length + 4 := by
    rw [hsave, List.length_append, hfooter]
  obtain ⟨m, t', rfl, ht'⟩ : ∃ m t', bytes = m ++ t' ∧ t'.length = 4 := by
    refine ⟨bytes.take (bytes.length - 4), bytes.drop (bytes.length - 4),
      (List.take_append_drop _ _).symm, ?_⟩
    rw [List.length_drop]
    omega
  have hm : kHeaderLen ≤ m.length := by
    rw [List.length_append] at hlen
    omega
  apply loadFromString_of_checksum ord t ht' hm
  intro hcheck'
  exact hne (eq_of_checksums hfooter ht' hcheck hcheck' hlen hburst)

/-- A record with the four bytes from a position on flipped. -/
def flipFour (i : Nat) (bytes : Bytes) : Bytes :=
  bytes.mapIdx fun j b => if i ≤ j ∧ j < i + 4 then ~~~b else b

theorem flipFour_ne {i : Nat} {bytes : Bytes} (h : i < bytes.length) : flipFour i bytes ≠ bytes := by
  intro hsame
  have hget := congrArg (·[i]?) hsame
  simp [flipFour, h] at hget

/-- A ledger with an entry and a revision of it. -/
def wasteLedger : EfficiencyLedger :=
  run default (.fresh kDefaultLedgerId)
    [.append
      { id := ⟨1⟩
        event := EventType.kExecutionProgress
        usage := ⟨fun _ => 5⟩
        account := ⟨7⟩ },
     .reclassify
      { revisionId := ⟨2⟩
        target := ⟨1⟩
        newClassification := EfficiencyClass.kAvoidableWaste }]

/-- The last two bytes of the payload and the first two of the checksum are flipped. -/
theorem burst_rejected_acrossFooter :
    wasteLedger.history.length = 2 ∧
      loadFromString default (flipFour (wasteLedger.payload.length - 2) wasteLedger.saveToString)
          wasteLedger =
        .error (corrupt (some "checksum mismatch") "CRC-32C mismatch") wasteLedger := by
  have hlen : wasteLedger.payload.length - 2 < wasteLedger.saveToString.length := by
    rw [EfficiencyLedger.saveToString, List.length_append, length_putU32]
    omega
  refine ⟨by decide +kernel, burst_rejected default wasteLedger wasteLedger _ List.length_mapIdx
    (flipFour_ne hlen) (wasteLedger.payload.length - 2) fun j hj => ?_⟩
  by_contra hout
  apply hj
  rw [flipFour, List.getElem?_mapIdx]
  simp only [if_neg hout, Option.map_id']

end El
