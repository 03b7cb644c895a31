import EfficiencyLedger.Model.Persistence
import EfficiencyLedger.Proof.Codec

/-!
# The record is exact

`parseRecord_saveToString`: the record of a ledger whose entries are within the limits of the binary
form parses to its header and its history, whatever the ledger went through. `parseRecord_ok` is the
converse: only saved records parse. All of it but the checksum is in `parseUnchecked_ok`, and
`flatMap_encodeEntry_inj` says where the entries end.
-/

namespace El

open Wire

theorem decodeEntries_flatMap {es : List LedgerEntry} (h : ∀ e ∈ es, Encodable e) (rest : Bytes) :
    ∀ i, decodeEntries es.length i (es.flatMap encodeEntry ++ rest) = .ok (es, rest) := by
  induction es with
  | nil => exact fun i => rfl
  | cons e es ih =>
    intro i
    have hdecode : decodeEntry {} (encodeEntry e ++ (es.flatMap encodeEntry ++ rest)) =
        some (e, es.flatMap encodeEntry ++ rest) :=
      (exact_decodeEntry _ _ _).mpr ⟨h e (by simp), rfl⟩
    rw [List.flatMap_cons, List.append_assoc, List.length_cons, decodeEntries, hdecode]
    simp only [ih (fun x hx => h x (by simp [hx])) (i + 1)]

/-- The header and the history of a ledger, as a record. -/
def EfficiencyLedger.record (s : EfficiencyLedger) : Record :=
  ⟨s.ledgerId, s.epoch, s.ledgerGeneration, s.accountGeneration, s.history⟩

/-- The ledger can be written in the binary form. -/
structure EfficiencyLedger.Encodable (s : EfficiencyLedger) : Prop where
  count : s.history.length ≤ kMaxEntryCount
  entries : ∀ e ∈ s.history, El.Encodable e

theorem readHeader_putU64 (a b c d n : UInt64) (rest : Bytes) :
    readHeader (putU64 a ++ (putU64 b ++ (putU64 c ++ (putU64 d ++ (putU64 n ++ rest))))) =
      some ((a, b, c, d, n), rest) := by
  simp only [readHeader, bind_eq_some, u64_eq_some, pure_eq_some]
  exact ⟨a, _, rfl, b, _, rfl, c, _, rfl, d, _, rfl, n, _, rfl, rfl⟩

/-- **A saved record parses** to the header and the history it was made from. -/
theorem parseRecord_saveToString {s : EfficiencyLedger} (h : s.Encodable) :
    parseRecord s.saveToString = .ok s.record := by
  have hfooter : (putU32 (crc32c s.payload)).length = kFooterLen := length_putU32 _
  have hsplit : s.saveToString.length - kFooterLen = s.payload.length := by
    rw [EfficiencyLedger.saveToString, List.length_append, hfooter, Nat.add_sub_cancel]
  have htake : s.saveToString.take (s.saveToString.length - kFooterLen) = s.payload := by
    rw [hsplit, EfficiencyLedger.saveToString, List.take_left]
  have hdrop : s.saveToString.drop (s.saveToString.length - kFooterLen) =
      putU32 (crc32c s.payload) := by
    rw [hsplit, EfficiencyLedger.saveToString, List.drop_left]
  have hbody : s.payload = kMagic ++ (putU32 kPersistenceFormatVersion ++ (putU64 s.ledgerId.value ++
      (putU64 s.epoch.value ++ (putU64 s.ledgerGeneration.value ++
      (putU64 s.accountGeneration.value ++ (putU64 (UInt64.ofNat s.history.length) ++
      s.history.flatMap encodeEntry)))))) := by
    unfold EfficiencyLedger.payload
    simp only [List.append_assoc]
  have hmagic : kMagic.length = 4 := rfl
  have hlen : ¬ s.saveToString.length < kHeaderLen + kFooterLen := by
    rw [EfficiencyLedger.saveToString, List.length_append, hfooter, hbody]
    simp only [List.length_append, length_putU32, length_putU64, hmagic]
    unfold kHeaderLen
    omega
  have hstart : s.saveToString.take 4 = kMagic := by
    rw [EfficiencyLedger.saveToString, hbody, List.append_assoc, List.take_left' hmagic]
  have hcrc : getLE (putU32 (crc32c s.payload)) = (crc32c s.payload).toNat :=
    getLE_putLE (UInt32.toNat_lt _)
  have hcount : (UInt64.ofNat s.history.length).toNat = s.history.length := by
    refine UInt64.toNat_ofNat_of_lt' (lt_of_le_of_lt h.count ?_)
    unfold kMaxEntryCount
    decide
  have hversion : u32 (s.payload.drop 4) = some (kPersistenceFormatVersion,
      putU64 s.ledgerId.value ++ (putU64 s.epoch.value ++ (putU64 s.ledgerGeneration.value ++
      (putU64 s.accountGeneration.value ++ (putU64 (UInt64.ofNat s.history.length) ++
      s.history.flatMap encodeEntry))))) := by
    rw [u32_eq_some, hbody, List.drop_left' hmagic]
  have hentries := decodeEntries_flatMap h.entries (putU32 (crc32c s.payload)) 0
  unfold parseRecord
  simp only [hlen, if_false, htake, hdrop, hcrc, ne_eq, not_true, hstart, hversion,
    readHeader_putU64, hcount, hentries, hfooter]
  rw [if_neg (by have := h.count; omega)]
  rfl

/-! ### Only saved records parse -/

/-- The record without its checksum. -/
def Record.payload (r : Record) : Bytes :=
  kMagic ++ putU32 kPersistenceFormatVersion ++ putU64 r.ledgerId.value ++ putU64 r.epoch.value ++
    putU64 r.ledgerGeneration.value ++ putU64 r.accountGeneration.value ++
    putU64 (UInt64.ofNat r.entries.length) ++ r.entries.flatMap encodeEntry

theorem payload_record (s : EfficiencyLedger) : s.record.payload = s.payload := rfl

theorem decodeEntries_ok {n : Nat} : ∀ {i : Nat} {bs rest : Bytes} {es : List LedgerEntry},
    decodeEntries n i bs = .ok (es, rest) →
      es.length = n ∧ (∀ e ∈ es, Encodable e) ∧ es.flatMap encodeEntry ++ rest = bs := by
  induction n with
  | zero =>
    intro i bs rest es h
    cases h
    exact ⟨rfl, fun e he => (by cases he), rfl⟩
  | succ n ih =>
    intro i bs rest es h
    unfold decodeEntries at h
    cases hdecode : decodeEntry {} bs with
    | none =>
      rw [hdecode] at h
      cases h
    | some x =>
      obtain ⟨e, mid⟩ := x
      rw [hdecode] at h
      obtain ⟨henc, rfl⟩ := exact_decodeEntry.eq_some.mp hdecode
      simp only at h
      cases htail : decodeEntries n (i + 1) mid with
      | error f =>
        rw [htail] at h
        cases h
      | ok y =>
        rw [htail] at h
        cases h
        obtain ⟨hlen, hall, rfl⟩ := ih htail
        refine ⟨by rw [List.length_cons, hlen], ?_, by rw [List.flatMap_cons, List.append_assoc]⟩
        intro x hx
        rcases List.mem_cons.mp hx with rfl | hmem
        · exact henc
        · exact hall x hmem

/-- The parse phase without the comparison of the checksum. -/
def parseUnchecked (bytes : Bytes) : Except LoadFailure Record :=
  if bytes.length < kHeaderLen + kFooterLen then
    .error (corrupt (some "truncated") "truncated persistence record")
  else
    let payload := bytes.take (bytes.length - kFooterLen)
    let footer := bytes.drop (bytes.length - kFooterLen)
    if bytes.take 4 ≠ kMagic then .error (corrupt (some "bad magic") "bad magic")
    else
      match u32 (payload.drop 4) with
      | none => .error (corrupt (some "read version") "truncated")
      | some (version, rest) =>
        if version ≠ kPersistenceFormatVersion then
          .error (corrupt (some "unknown version") "unknown persistence format version")
        else
          match readHeader rest with
          | none => .error (corrupt none "truncated")
          | some ((ledgerId, epoch, ledgerGen, accountGen, count), rest) =>
            if count.toNat > kMaxEntryCount then .error (corrupt none "absurd entry count")
            else
              match decodeEntries count.toNat 0 (rest ++ footer) with
              | .error f => .error f
              | .ok (entries, left) =>
                if left.length ≠ kFooterLen then
                  .error (corrupt (some "trailing garbage") "trailing garbage after entries")
                else .ok ⟨⟨ledgerId⟩, ⟨epoch⟩, ⟨ledgerGen⟩, ⟨accountGen⟩, entries⟩

theorem parseRecord_eq (bytes : Bytes) :
    parseRecord bytes =
      if ¬ bytes.length < kHeaderLen + kFooterLen ∧
          getLE (bytes.drop (bytes.length - kFooterLen)) ≠
            (crc32c (bytes.take (bytes.length - kFooterLen))).toNat then
        .error (corrupt (some "checksum mismatch") "CRC-32C mismatch")
      else parseUnchecked bytes := by
  unfold parseRecord parseUnchecked
  by_cases hshort : bytes.length < kHeaderLen + kFooterLen
  · have hno : ¬ (¬ bytes.length < kHeaderLen + kFooterLen ∧
        getLE (bytes.drop (bytes.length - kFooterLen)) ≠
          (crc32c (bytes.take (bytes.length - kFooterLen))).toNat) := fun h => h.1 hshort
    rw [if_pos hshort, if_neg hno, if_pos hshort]
  rw [if_neg hshort]
  simp only
  by_cases hcrc : getLE (bytes.drop (bytes.length - kFooterLen)) ≠
      (crc32c (bytes.take (bytes.length - kFooterLen))).toNat
  · rw [if_pos hcrc, if_pos (And.intro hshort hcrc)]
  · have hno : ¬ (¬ bytes.length < kHeaderLen + kFooterLen ∧
        getLE (bytes.drop (bytes.length - kFooterLen)) ≠
          (crc32c (bytes.take (bytes.length - kFooterLen))).toNat) := fun h => hcrc h.2
    rw [if_neg hcrc, if_neg hno]
    exact (if_neg hshort).symm

theorem readHeader_eq_some {bs rest : Bytes} {a b c d n : UInt64} :
    readHeader bs = some ((a, b, c, d, n), rest) ↔
      putU64 a ++ (putU64 b ++ (putU64 c ++ (putU64 d ++ (putU64 n ++ rest)))) = bs := by
  constructor
  · intro h
    simp only [readHeader, bind_eq_some, u64_eq_some, pure_eq_some, Prod.mk.injEq] at h
    obtain ⟨a', _, rfl, b', _, rfl, c', _, rfl, d', _, rfl, n', _, rfl, ⟨rfl, rfl, rfl, rfl, rfl⟩,
      rfl⟩ := h
    rfl
  · rintro rfl
    exact readHeader_putU64 a b c d n rest

theorem parseUnchecked_eq_ok {bytes : Bytes} {r : Record} (h : parseUnchecked bytes = .ok r) :
    ∃ rest body left count, ¬ bytes.length < kHeaderLen + kFooterLen ∧ bytes.take 4 = kMagic ∧
      u32 ((bytes.take (bytes.length - kFooterLen)).drop 4) =
        some (kPersistenceFormatVersion, rest) ∧
      readHeader rest = some ((r.ledgerId.value, r.epoch.value, r.ledgerGeneration.value,
        r.accountGeneration.value, count), body) ∧
      ¬ count.toNat > kMaxEntryCount ∧
      decodeEntries count.toNat 0 (body ++ bytes.drop (bytes.length - kFooterLen)) =
        .ok (r.entries, left) ∧ left.length = kFooterLen := by
  unfold parseUnchecked at h
  split at h
  · cases h
  rename_i hlong
  simp only at h
  split at h
  · cases h
  rename_i hmagic
  split at h
  · cases h
  rename_i version rest hversion
  split at h
  · cases h
  rename_i hknown
  split at h
  · cases h
  rename_i ledgerId epoch ledgerGen accountGen count body hheader
  split at h
  · cases h
  rename_i hcount
  split at h
  · cases h
  rename_i entries left hentries
  split at h
  · cases h
  rename_i hleft
  cases h
  rw [not_not] at hmagic hknown hleft
  subst hknown
  exact ⟨rest, body, left, count, hlong, hmagic, hversion, hheader, hcount, hentries, hleft⟩

theorem parseUnchecked_ok {bytes : Bytes} {r : Record} (h : parseUnchecked bytes = .ok r) :
    (∀ e ∈ r.entries, Encodable e) ∧ r.entries.length ≤ kMaxEntryCount ∧
      ∃ footer, footer.length = kFooterLen ∧ r.payload ++ footer = bytes := by
  obtain ⟨rest, body, left, count, hlong, hmagic, hversion, hheader, hcount, hentries, hleft⟩ :=
    parseUnchecked_eq_ok h
  obtain ⟨hlen, henc, hbytes⟩ := decodeEntries_ok hentries
  refine ⟨henc, by omega, left, hleft, ?_⟩
  have hstart : (bytes.take (bytes.length - kFooterLen)).take 4 = kMagic := by
    unfold kHeaderLen kFooterLen at hlong
    rw [List.take_take, Nat.min_eq_left (by unfold kFooterLen; omega)]
    exact hmagic
  have hpayload : bytes.take (bytes.length - kFooterLen) =
      kMagic ++ (putU32 kPersistenceFormatVersion ++ rest) := by
    rw [← hstart, u32_eq_some.mp hversion, List.take_append_drop]
  have hrest := readHeader_eq_some.mp hheader
  rw [← hrest] at hpayload
  unfold Record.payload
  simp only [List.append_assoc]
  rw [hbytes, hlen, UInt64.ofNat_toNat]
  calc _ = bytes.take (bytes.length - kFooterLen) ++
        bytes.drop (bytes.length - kFooterLen) := by
        rw [hpayload]
        simp only [List.append_assoc]
    _ = bytes := List.take_append_drop _ _

/-- **Only saved records parse.** -/
theorem parseRecord_ok {bytes : Bytes} {r : Record} (h : parseRecord bytes = .ok r) :
    (∀ e ∈ r.entries, Encodable e) ∧ r.entries.length ≤ kMaxEntryCount ∧
      r.payload ++ putU32 (crc32c r.payload) = bytes := by
  rw [parseRecord_eq] at h
  by_cases hcrc : ¬ bytes.length < kHeaderLen + kFooterLen ∧
      getLE (bytes.drop (bytes.length - kFooterLen)) ≠
        (crc32c (bytes.take (bytes.length - kFooterLen))).toNat
  · rw [if_pos hcrc] at h
    cases h
  rw [if_neg hcrc] at h
  obtain ⟨henc, hcount, footer, hfooter, hbytes⟩ := parseUnchecked_ok h
  refine ⟨henc, hcount, ?_⟩
  have hlen : bytes.length - kFooterLen = r.payload.length := by
    rw [← hbytes, List.length_append, hfooter, Nat.add_sub_cancel]
  obtain ⟨-, -, -, -, hlong, -⟩ := parseUnchecked_eq_ok h
  have hsum : getLE footer = (crc32c r.payload).toNat := by
    rw [hlen, ← hbytes, List.drop_left, List.take_left] at hcrc
    exact not_not.mp fun hne => hcrc ⟨hbytes ▸ hlong, hne⟩
  rw [← hbytes, putU32, ← hsum]
  unfold kFooterLen at hfooter
  rw [← hfooter, putLE_getLE]

theorem payload_inj {r s : Record} (hr : ∀ e ∈ r.entries, Encodable e)
    (hrcount : r.entries.length < 2 ^ 64) (hs : ∀ e ∈ s.entries, Writable e)
    (hscount : s.entries.length < 2 ^ 64) {x y : Bytes} (heq : r.payload ++ x = s.payload ++ y) :
    r = s ∧ x = y := by
  obtain ⟨⟨rid⟩, ⟨repoch⟩, ⟨rledger⟩, ⟨raccount⟩, rentries⟩ := r
  obtain ⟨⟨sid⟩, ⟨sepoch⟩, ⟨sledger⟩, ⟨saccount⟩, sentries⟩ := s
  unfold Record.payload at heq
  simp only [List.append_assoc, List.append_cancel_left_eq] at heq
  obtain ⟨hid, heq⟩ := exact_u64.cancel trivial trivial heq
  obtain ⟨hepoch, heq⟩ := exact_u64.cancel trivial trivial heq
  obtain ⟨hledger, heq⟩ := exact_u64.cancel trivial trivial heq
  obtain ⟨haccount, heq⟩ := exact_u64.cancel trivial trivial heq
  obtain ⟨hcount, heq⟩ := exact_u64.cancel trivial trivial heq
  have hlen := congrArg UInt64.toNat hcount
  rw [UInt64.toNat_ofNat_of_lt' hrcount, UInt64.toNat_ofNat_of_lt' hscount] at hlen
  obtain ⟨hentries, hxy⟩ := flatMap_encodeEntry_inj hr hs hlen heq
  refine ⟨?_, hxy⟩
  simp only at hid hepoch hledger haccount hentries
  rw [hid, hepoch, hledger, haccount, hentries]

end El
