import EfficiencyLedger.Lib.Wire
import EfficiencyLedger.Model.Entry

/-!
# The binary form of an entry

`encodeEntry` and `decodeEntry` of `ledger.cpp`. A reader position in the buffer is the suffix that
is left to read; the decoder writes into an entry that it is given, and what it does not write there
(an absent optional field, an empty note) stays.
-/

namespace El

open Wire

/-- `static_cast<std::uint8_t>` of an enumeration. -/
def toByte {ε : Type} [Enumerators 8 ε] (x : ByteEnum ε) : UInt8 := UInt8.ofBitVec x.toBits

/-- `static_cast` of a byte to an enumeration. -/
def ofByte {ε : Type} [Enumerators 8 ε] (b : UInt8) : ByteEnum ε := OpenEnum.ofBits b.toBitVec

def putUsage (u : ResourceUsage) : Bytes := (List.ofFn u.data).flatMap putU64

def putSharedRef (sh : SharedRef) : Bytes :=
  putU8 (toByte sh.policy) ++ putU32 (UInt32.ofNat sh.participants.length) ++
    sh.participants.flatMap fun p => putU64 p.account.value ++ putU64 p.weight

def putFences (f : AuthorityFences) : Bytes :=
  putU64 f.epoch.value ++ putU64 f.workerBoot.value ++ putU64 f.ledgerGeneration.value ++
    putU64 f.accountGeneration.value ++ putU64 f.workloadGeneration.value ++
    putU64 f.resourceGeneration.value ++ putU64 f.reservationGeneration.value ++
    putU64 f.allocationGeneration.value ++ putU64 f.transferGeneration.value ++
    putU64 f.recoveryGeneration.value ++ putU64 f.cacheGeneration.value ++
    putU64 f.evidenceGeneration.value ++ putU64 f.accountingGeneration.value ++
    putU64 f.publication.value

def putOwners (o : Owners) : Bytes :=
  putU64 o.resource.value ++ putU64 o.transfer.value ++ putU64 o.reservation.value ++
    putU64 o.allocation.value ++ putU64 o.recovery.value ++ putU64 o.cacheObject.value ++
    putU64 o.device.value ++ putU64 o.request.value ++ putU64 o.workload.value ++
    putU64 o.job.value ++ putU64 o.service.value

/-- What `encode_entry` writes after the length prefix. -/
def encodeBody (e : LedgerEntry) : Bytes :=
  putU64 e.id.value ++ putU8 (toByte e.event) ++ putU8 (toByte e.classification) ++
    putU8 (toByte e.subcategory.useful) ++ putU8 (toByte e.subcategory.overhead) ++
    putU8 (toByte e.subcategory.waste) ++ putU8 (toByte e.subcategory.avoided) ++
    putU8 (toByte e.subcategory.stranded) ++ putUsage e.usage ++
    putOptional putUsage e.avoidedWork ++ putOptional putUsage e.strandedCapacity ++
    putU8 (toByte e.provenance) ++ putU8 (toByte e.freshness) ++ putU64 e.account.value ++
    putOptional putSharedRef e.shared ++ putFences e.fences ++ putOwners e.owners ++
    putU64 e.attempt.id.value ++ putU64 e.attempt.generation.value ++
    putU8 (toByte e.attemptOutcome) ++ putOptional (fun t => putU64 t.value) e.revisionTarget ++
    putU32 (UInt32.ofNat e.note.length) ++ e.note

/-- The length prefix holds the low 32 bits of the length of the body. -/
def encodeEntry (e : LedgerEntry) : Bytes :=
  let body := encodeBody e
  putU32 (UInt32.ofNat body.length) ++ body

def readUsage : Reader ResourceUsage := do
  let vs ← many u64 kDimensionCount
  pure ⟨fun d => vs.getD d 0⟩

def readParticipant : Reader SharedParticipant := do
  let acc ← u64
  let w ← u64
  pure ⟨⟨acc⟩, w⟩

def readSharedRef : Reader SharedRef := do
  let pol ← u8
  let n ← u32
  if n.toNat > kMaxSharedParticipants then failure
  else
    let participants ← many readParticipant n.toNat
    pure ⟨ofByte pol, participants⟩

def readFences : Reader AuthorityFences := do
  let epoch ← u64
  let workerBoot ← u64
  let ledgerGeneration ← u64
  let accountGeneration ← u64
  let workloadGeneration ← u64
  let resourceGeneration ← u64
  let reservationGeneration ← u64
  let allocationGeneration ← u64
  let transferGeneration ← u64
  let recoveryGeneration ← u64
  let cacheGeneration ← u64
  let evidenceGeneration ← u64
  let accountingGeneration ← u64
  let publication ← u64
  pure ⟨⟨epoch⟩, ⟨workerBoot⟩, ⟨ledgerGeneration⟩, ⟨accountGeneration⟩, ⟨workloadGeneration⟩,
    ⟨resourceGeneration⟩, ⟨reservationGeneration⟩, ⟨allocationGeneration⟩, ⟨transferGeneration⟩,
    ⟨recoveryGeneration⟩, ⟨cacheGeneration⟩, ⟨evidenceGeneration⟩, ⟨accountingGeneration⟩,
    ⟨publication⟩⟩

def readOwners : Reader Owners := do
  let resource ← u64
  let transfer ← u64
  let reservation ← u64
  let allocation ← u64
  let recovery ← u64
  let cacheObject ← u64
  let device ← u64
  let request ← u64
  let workload ← u64
  let job ← u64
  let service ← u64
  pure ⟨⟨resource⟩, ⟨transfer⟩, ⟨reservation⟩, ⟨allocation⟩, ⟨recovery⟩, ⟨cacheObject⟩, ⟨device⟩,
    ⟨request⟩, ⟨workload⟩, ⟨job⟩, ⟨service⟩⟩

def kMaxNoteLength : Nat := 1 <<< 20

/-- The note takes all that is left of the body; an empty one leaves `old` in place. -/
def readNote (old : Bytes) : Reader Bytes := do
  let len ← u32
  let rest ← get
  if len.toNat > kMaxNoteLength then failure
  else if rest.length ≠ len.toNat then failure
  else if len.toNat > 0 then
    set ([] : Bytes)
    pure rest
  else pure old

/-- The fields of the body, read into the entry `e`. -/
def decodeBody (e : LedgerEntry) : Reader LedgerEntry := do
  let id ← u64
  let event ← u8
  let classification ← u8
  let useful ← u8
  let overhead ← u8
  let waste ← u8
  let avoided ← u8
  let stranded ← u8
  let usage ← readUsage
  let avoidedWork ← optional readUsage e.avoidedWork
  let strandedCapacity ← optional readUsage e.strandedCapacity
  let provenance ← u8
  let freshness ← u8
  let account ← u64
  let shared ← optional readSharedRef e.shared
  let fences ← readFences
  let owners ← readOwners
  let attemptId ← u64
  let attemptGeneration ← u64
  let attemptOutcome ← u8
  let revisionTarget ← optional (Identity.mk <$> u64) e.revisionTarget
  let note ← readNote e.note
  pure
    { id := ⟨id⟩
      event := ofByte event
      classification := ofByte classification
      subcategory := ⟨ofByte useful, ofByte overhead, ofByte waste, ofByte avoided,
        ofByte stranded⟩
      usage, avoidedWork, strandedCapacity
      provenance := ofByte provenance
      freshness := ofByte freshness
      account := ⟨account⟩
      shared, fences, owners
      attempt := ⟨⟨attemptId⟩, ⟨attemptGeneration⟩⟩
      attemptOutcome := ofByte attemptOutcome
      revisionTarget, note }

def kMaxBodyLength : Nat := 1 <<< 26

/-- `decode_entry`: the length prefix, then the body in a buffer of its own. -/
def decodeEntry (e : LedgerEntry) : Reader LedgerEntry := do
  let len ← u32
  let rest ← get
  if len.toNat > kMaxBodyLength then failure
  else if rest.length < len.toNat then failure
  else
    set (rest.drop len.toNat)
    match decodeBody e (rest.take len.toNat) with
    | none => failure
    | some (e, _) => pure e

/-- `decode_entry_bytes` at an offset into a buffer: the entry and the offset behind it. -/
def decodeEntryBytes (buf : Bytes) (offset : Nat) (e : LedgerEntry) : Option (LedgerEntry × Nat) :=
  (decodeEntry e (buf.drop offset)).map fun (e, rest) => (e, buf.length - rest.length)

end El
