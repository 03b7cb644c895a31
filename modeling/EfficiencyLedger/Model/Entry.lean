import EfficiencyLedger.Lib.CheckedU64
import EfficiencyLedger.Model.Enums
import Mathlib.Data.Fintype.Basic
import Mathlib.Data.Fintype.Pi

/-!
# Identities, quantities and ledger entries

The data model of `id.hpp`, `resource.hpp`, `attribution.hpp` and `entry.hpp`. Quantities are
64-bit counters over the sixteen resource dimensions; a string is its list of bytes.
-/

namespace El

open CheckedU64

abbrev Bytes := List UInt8

/-! ### Identities -/

/-- The authority domains an entry or a ledger names. -/
inductive IdTag where
  | coordinatorEpoch | ledgerId | ledgerGeneration | accountId | accountGeneration | serviceId
  | workloadId | workloadGeneration | requestId | jobId | attemptId | attemptGeneration
  | workerBootId | resourceId | resourceGeneration | deviceId | allocationId
  | allocationGeneration | reservationId | reservationGeneration | transferId
  | transferGeneration | recoveryId | recoveryGeneration | cacheObjectId | cacheGeneration
  | evidenceGeneration | accountingEntryId | accountingGeneration | publicationId

/-- A 64-bit identity of one authority domain; identities of two domains are not interchangeable. -/
structure Identity (tag : IdTag) where
  value : UInt64 := 0
  deriving DecidableEq, Repr

namespace Identity

variable {tag : IdTag}

/-- The zero value is invalid (an unset fence, owner or attempt). -/
abbrev valid (i : Identity tag) : Prop := i.value ≠ 0

instance : LE (Identity tag) := ⟨fun a b => a.value ≤ b.value⟩
instance : LT (Identity tag) := ⟨fun a b => a.value < b.value⟩
instance (a b : Identity tag) : Decidable (a ≤ b) := inferInstanceAs (Decidable (a.value ≤ b.value))
instance (a b : Identity tag) : Decidable (a < b) := inferInstanceAs (Decidable (a.value < b.value))

theorem not_le {a b : Identity tag} : ¬ a ≤ b ↔ b < a := UInt64.not_le

theorem lt_trans {a b c : Identity tag} (hab : a < b) (hbc : b < c) : a < c :=
  UInt64.lt_trans hab hbc

end Identity

abbrev CoordinatorEpoch := Identity .coordinatorEpoch
abbrev LedgerId := Identity .ledgerId
abbrev LedgerGeneration := Identity .ledgerGeneration
abbrev AccountId := Identity .accountId
abbrev AccountGeneration := Identity .accountGeneration
abbrev AttemptId := Identity .attemptId
abbrev AttemptGeneration := Identity .attemptGeneration
abbrev WorkerBootId := Identity .workerBootId
abbrev TransferId := Identity .transferId
abbrev ReservationId := Identity .reservationId
abbrev AllocationId := Identity .allocationId
abbrev RecoveryId := Identity .recoveryId
abbrev AccountingEntryId := Identity .accountingEntryId
abbrev PublicationId := Identity .publicationId

/-! ### Quantities -/

abbrev kDimensionCount : Nat := 16

abbrev Dimension := Fin kDimensionCount

/-- One counter for each resource dimension. -/
abbrev DimTotals := Dimension → UInt64

/-- Exact `a * b / d` and its remainder: the product has 128 bits, and both results are narrowed
to 64 bits. -/
def mulDiv (a b d : UInt64) : UInt64 × UInt64 :=
  let p := a.toNat * b.toNat
  (UInt64.ofNat (p / d.toNat), UInt64.ofNat (p % d.toNat))

structure ResourceUsage where
  data : DimTotals := fun _ => 0
  deriving DecidableEq

def ResourceUsage.isZero (u : ResourceUsage) : Prop := ∀ d, u.data d = 0

instance (u : ResourceUsage) : Decidable u.isZero :=
  inferInstanceAs (Decidable (∀ d, u.data d = 0))

/-- The loop of the element-wise `add`: it stops at the first sum that does not fit, with the sums
before it written. -/
def addLoop (other : ResourceUsage) : List Dimension → ResourceUsage → Bool × ResourceUsage
  | [], u => (true, u)
  | d :: ds, u =>
    match checkedAdd (u.data d) (other.data d) with
    | none => (false, u)
    | some out => addLoop other ds ⟨Function.update u.data d out⟩

/-- The element-wise `add`: what it returns, and the usage it leaves. -/
def ResourceUsage.add (u other : ResourceUsage) : Bool × ResourceUsage :=
  addLoop other (List.finRange kDimensionCount) u

def ResourceUsage.set (u : ResourceUsage) (d : Dimension) (amount : UInt64) : ResourceUsage :=
  ⟨Function.update u.data d amount⟩

/-- A checked operation on one cell: its outcome, and the usage it leaves. -/
def ResourceUsage.changeCell (u : ResourceUsage) (d : Dimension) (out : Option UInt64) :
    Bool × ResourceUsage :=
  match out with
  | none => (false, u)
  | some v => (true, ⟨Function.update u.data d v⟩)

/-- `add` of a quantity in one dimension. -/
def ResourceUsage.addCell (u : ResourceUsage) (d : Dimension) (amount : UInt64) :
    Bool × ResourceUsage := u.changeCell d (checkedAdd (u.data d) amount)

def ResourceUsage.sub (u : ResourceUsage) (d : Dimension) (amount : UInt64) :
    Bool × ResourceUsage := u.changeCell d (checkedSub (u.data d) amount)

def ResourceUsage.mul (u : ResourceUsage) (d : Dimension) (factor : UInt64) :
    Bool × ResourceUsage := u.changeCell d (checkedMul (u.data d) factor)

/-! ### Shared attribution -/

def kMaxSharedParticipants : Nat := 4096

structure SharedParticipant where
  account : AccountId
  weight : UInt64 := 0
  deriving DecidableEq

structure SharedRef where
  policy : ByteEnum AttributionPolicy := AttributionPolicy.kEqualShare
  participants : List SharedParticipant := []
  deriving DecidableEq

/-- The participant loop of `SharedRef::valid`: valid accounts, positive weights and a total that
fits; the total where the loop goes through. -/
def participantTotal : List SharedParticipant → UInt64 → Option UInt64
  | [], total => some total
  | p :: ps, total =>
    if ¬ p.account.valid then none
    else if p.weight = 0 then none
    else match checkedAdd total p.weight with
      | none => none
      | some total => participantTotal ps total

def SharedRef.valid (sh : SharedRef) : Bool :=
  if sh.participants = [] then true
  else if sh.participants.length > kMaxSharedParticipants then false
  else match participantTotal sh.participants 0 with
    | none => false
    | some total => if sh.participants.length = 1 then true else total ≠ 0

/-! ### Entries -/

structure Subcategory where
  useful : ByteEnum UsefulReason := UsefulReason.kAuthoritativeExecution
  overhead : ByteEnum OverheadReason := OverheadReason.kRequiredTransfer
  waste : ByteEnum WasteReason := WasteReason.kFailedAttempt
  avoided : ByteEnum AvoidedWorkReason := AvoidedWorkReason.kCacheHit
  stranded : ByteEnum StrandedReason := StrandedReason.kFragmentation
  deriving DecidableEq

/-- The fences of an entry; zero is unset. -/
structure AuthorityFences where
  epoch : CoordinatorEpoch := {}
  workerBoot : WorkerBootId := {}
  ledgerGeneration : LedgerGeneration := {}
  accountGeneration : AccountGeneration := {}
  workloadGeneration : Identity .workloadGeneration := {}
  resourceGeneration : Identity .resourceGeneration := {}
  reservationGeneration : Identity .reservationGeneration := {}
  allocationGeneration : Identity .allocationGeneration := {}
  transferGeneration : Identity .transferGeneration := {}
  recoveryGeneration : Identity .recoveryGeneration := {}
  cacheGeneration : Identity .cacheGeneration := {}
  evidenceGeneration : Identity .evidenceGeneration := {}
  accountingGeneration : Identity .accountingGeneration := {}
  publication : PublicationId := {}
  deriving DecidableEq

/-- The objects whose lifetime is being accounted; zero is unset. -/
structure Owners where
  resource : Identity .resourceId := {}
  transfer : TransferId := {}
  reservation : ReservationId := {}
  allocation : AllocationId := {}
  recovery : RecoveryId := {}
  cacheObject : Identity .cacheObjectId := {}
  device : Identity .deviceId := {}
  request : Identity .requestId := {}
  workload : Identity .workloadId := {}
  job : Identity .jobId := {}
  service : Identity .serviceId := {}
  deriving DecidableEq

/-- Attempt-scoped authority; id zero means the entry is not attempt-scoped. -/
structure AttemptOptions where
  id : AttemptId := {}
  generation : AttemptGeneration := {}
  deriving DecidableEq

structure LedgerEntry where
  id : AccountingEntryId := {}
  event : ByteEnum EventType := EventType.kExecutionCompleted
  classification : ByteEnum EfficiencyClass := EfficiencyClass.kUnknown
  subcategory : Subcategory := {}
  usage : ResourceUsage := {}
  avoidedWork : Option ResourceUsage := none
  strandedCapacity : Option ResourceUsage := none
  provenance : ByteEnum Provenance := Provenance.kUnknown
  freshness : ByteEnum Freshness := Freshness.kCurrent
  account : AccountId := {}
  shared : Option SharedRef := none
  fences : AuthorityFences := {}
  owners : Owners := {}
  attempt : AttemptOptions := {}
  attemptOutcome : ByteEnum AttemptOutcome := AttemptOutcome.kPending
  revisionTarget : Option AccountingEntryId := none
  note : Bytes := []
  deriving DecidableEq

namespace LedgerEntry

abbrev hasAttempt (e : LedgerEntry) : Prop := e.attempt.id.valid

abbrev hasOutcome (e : LedgerEntry) : Prop := e.attemptOutcome ≠ AttemptOutcome.kPending

/-- The malformed-input check made before any accounting; `ResourceUsage::valid` is always true. -/
def validate (e : LedgerEntry) : Bool :=
  if ¬ e.id.valid then false
  else if e.event.toBits > (EventType.kReclassify : ByteEnum EventType).toBits then false
  else if e.classification.toBits > (EfficiencyClass.kUnknown : ByteEnum EfficiencyClass).toBits then
    false
  else if e.provenance.toBits > (Provenance.kUnknown : ByteEnum Provenance).toBits then false
  else if e.freshness.toBits > (Freshness.kUnknown : ByteEnum Freshness).toBits then false
  else if e.attemptOutcome.toBits > (AttemptOutcome.kSuperseded : ByteEnum AttemptOutcome).toBits then
    false
  else if e.shared.any (fun sh => !sh.valid) then false
  else if e.hasOutcome ∧ ¬ e.attempt.id.valid then false
  else if ¬ e.account.valid ∧ e.shared = none then false
  else true

end LedgerEntry

end El
