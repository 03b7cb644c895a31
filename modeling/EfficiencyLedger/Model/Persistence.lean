import EfficiencyLedger.Model.Codec
import EfficiencyLedger.Model.Ledger

/-!
# The durable record

`save_to_string` and `load_from_string`, with the checksum of `crc32c.cpp` and the digest of
`digest.cpp`. A load has two phases: it parses the whole record without touching the ledger, then
installs the header, clears the books and replays the entries.
-/

namespace El

open Wire

/-! ### Checksum and digest -/

/-- The reflected CRC-32C polynomial. -/
def kPolynomial : UInt32 := 0x82F63B78

def crcShift (c : UInt32) : UInt32 :=
  if c &&& 1 ≠ 0 then kPolynomial ^^^ (c >>> 1) else c >>> 1

def crcTable : Array UInt32 := (Array.range 256).map fun i => crcShift^[8] (UInt32.ofNat i)

def crc32c (data : Bytes) (seed : UInt32 := 0) : UInt32 :=
  ~~~(data.foldl (fun crc b =>
    crcTable.getD ((crc ^^^ b.toUInt32) &&& 0xFF).toNat 0 ^^^ (crc >>> 8)) (~~~seed))

def kFnvPrime : UInt64 := 1099511628211

def kFnvOffset : UInt64 := 1469598103934665603

/-- `HashAccumulator::mix_bytes`. -/
def mixBytes (state : UInt64) (bytes : Bytes) : UInt64 :=
  bytes.foldl (fun state b => (state ^^^ b.toUInt64) * kFnvPrime) state

/-! ### The record -/

/-- The bytes of `ELLD`. -/
def kMagic : Bytes := [0x45, 0x4C, 0x4C, 0x44]

def kHeaderLen : Nat := 48

def kFooterLen : Nat := 4

def kPersistenceFormatVersion : UInt32 := 1

def kMaxEntryCount : Nat := 1 <<< 28

/-- The bytes fed to the digest. -/
def digestStream (history : List LedgerEntry) : Bytes :=
  kMagic ++ putU64 kPersistenceFormatVersion.toUInt64 ++ putU64 (UInt64.ofNat history.length) ++
    history.flatMap encodeEntry

namespace EfficiencyLedger

def digest (s : EfficiencyLedger) : UInt64 := mixBytes kFnvOffset (digestStream s.history)

/-- The record without its checksum. -/
def payload (s : EfficiencyLedger) : Bytes :=
  kMagic ++ putU32 kPersistenceFormatVersion ++ putU64 s.ledgerId.value ++ putU64 s.epoch.value ++
    putU64 s.ledgerGeneration.value ++ putU64 s.accountGeneration.value ++
    putU64 (UInt64.ofNat s.history.length) ++ s.history.flatMap encodeEntry

def saveToString (s : EfficiencyLedger) : Bytes := s.payload ++ putU32 (crc32c s.payload)

end EfficiencyLedger

/-- What a failed load reports: the text written to the `err` argument, if any, and the status. -/
structure LoadFailure where
  err : Option String
  status : Status
  deriving DecidableEq

/-- The parsed record. -/
structure Record where
  ledgerId : LedgerId
  epoch : CoordinatorEpoch
  ledgerGeneration : LedgerGeneration
  accountGeneration : AccountGeneration
  entries : List LedgerEntry

def corrupt (err : Option String) (message : String) : LoadFailure :=
  ⟨err, ⟨ErrorCode.kPersistenceCorrupt, message⟩⟩

/-- The five counters of the header. -/
def readHeader : Reader (UInt64 × UInt64 × UInt64 × UInt64 × UInt64) := do
  let ledgerId ← u64
  let epoch ← u64
  let ledgerGen ← u64
  let accountGen ← u64
  let count ← u64
  pure (ledgerId, epoch, ledgerGen, accountGen, count)

/-- The entry loop: `n` more entries, the next one at index `i`. -/
def decodeEntries : Nat → Nat → Bytes → Except LoadFailure (List LedgerEntry × Bytes)
  | 0, _, rest => .ok ([], rest)
  | n + 1, i, rest =>
    match decodeEntry {} rest with
    | none => .error (corrupt (some "decode entry") ("corrupt entry at index " ++ toString i))
    | some (e, rest) =>
      match decodeEntries n (i + 1) rest with
      | .error f => .error f
      | .ok (es, rest) => .ok (e :: es, rest)

/-- The parse phase of `load_from_string`. The entries are decoded from the whole buffer; one that
runs into the footer leaves the position behind the end of the payload. -/
def parseRecord (bytes : Bytes) : Except LoadFailure Record :=
  if bytes.length < kHeaderLen + kFooterLen then
    .error (corrupt (some "truncated") "truncated persistence record")
  else
    let payload := bytes.take (bytes.length - kFooterLen)
    let footer := bytes.drop (bytes.length - kFooterLen)
    if getLE footer ≠ (crc32c payload).toNat then
      .error (corrupt (some "checksum mismatch") "CRC-32C mismatch")
    else if bytes.take 4 ≠ kMagic then .error (corrupt (some "bad magic") "bad magic")
    else
      match u32 (payload.drop 4) with
      | none => .error (corrupt (some "read version") "truncated")
      | some (version, rest) =>
        if version ≠ kPersistenceFormatVersion then
          .error (corrupt (some "unknown version") "unknown persistence format version")
        else
          match readHeader rest with
          | none => .error (corrupt none "truncated")
          | some ((ledgerId, epoch, ledgerGen, accountGen, count), rest) =>
            if count.toNat > kMaxEntryCount then .error (corrupt none "absurd entry count")
            else
              match decodeEntries count.toNat 0 (rest ++ footer) with
              | .error f => .error f
              | .ok (entries, left) =>
                if left.length ≠ kFooterLen then
                  .error (corrupt (some "trailing garbage") "trailing garbage after entries")
                else .ok ⟨⟨ledgerId⟩, ⟨epoch⟩, ⟨ledgerGen⟩, ⟨accountGen⟩, entries⟩

/-- The header of the record takes the place of the ledger's, and the books are cleared. -/
def installRecord (r : Record) (s : EfficiencyLedger) : EfficiencyLedger :=
  { s with
    toBooks := {}
    ledgerId := r.ledgerId
    epoch := r.epoch
    ledgerGeneration := r.ledgerGeneration
    accountGeneration := r.accountGeneration
    shuttingDown := false
    epochAdvanced := false }

section Load

variable (ord : IterationOrder)

def loadFromString (bytes : Bytes) : EStateM LoadFailure EfficiencyLedger PUnit := fun s =>
  match parseRecord bytes with
  | .error f => .error f s
  | .ok r =>
    match loadHistory ord r.entries (installRecord r s) with
    | .ok _ s' => .ok ⟨⟩ s'
    | .error st s' =>
      .error (corrupt (some ("replay: " ++ st.message))
        ("replay rejected loaded history: " ++ st.message)) s'

/-- `load` of a path that holds the file, if there is one. -/
def load (file : Option Bytes) : LedgerM PUnit := fun s =>
  match file with
  | none => .error ⟨ErrorCode.kPersistenceCorrupt, "cannot open file for read"⟩ s
  | some bytes =>
    match loadFromString ord bytes s with
    | .ok _ s' => .ok ⟨⟩ s'
    | .error f s' => .error f.status s'

end Load

end El
