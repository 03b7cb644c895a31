import EfficiencyLedger.Lib.OpenEnum

/-!
# The enumerations of the ledger

Every enumeration of `enums.hpp` and `attribution.hpp` has `std::uint8_t` as its underlying type
(`ErrorCode` of `error.hpp` has `std::uint16_t`), so a decoded entry may hold any byte; the values
are `OpenEnum`s over the names below, in the order of their values.
-/

namespace El

/-- An `enum class … : std::uint8_t`. -/
abbrev ByteEnum (ε : Type) [Enumerators 8 ε] := OpenEnum 8 ε

inductive EfficiencyClass where
  | kUseful | kNecessaryOverhead | kAvoidableWaste | kAvoidedWork | kStrandedCapacity | kUnknown
  deriving DecidableEq, Repr

instance : Enumerators 8 EfficiencyClass where
  all := [.kUseful, .kNecessaryOverhead, .kAvoidableWaste, .kAvoidedWork, .kStrandedCapacity,
    .kUnknown]
  index := EfficiencyClass.ctorIdx
  all_index x := by cases x <;> rfl
  map_index := rfl
  length_le := by decide

inductive UsefulReason where
  | kAuthoritativeExecution | kAcceptedOutput | kCommittedProgress | kReusedValidState
  deriving DecidableEq, Repr

instance : Enumerators 8 UsefulReason where
  all := [.kAuthoritativeExecution, .kAcceptedOutput, .kCommittedProgress, .kReusedValidState]
  index := UsefulReason.ctorIdx
  all_index x := by cases x <;> rfl
  map_index := rfl
  length_le := by decide

inductive OverheadReason where
  | kRequiredTransfer | kRequiredCheckpoint | kRequiredRecovery | kRequiredReplication
  | kRequiredWarmup | kRequiredCoordination
  deriving DecidableEq, Repr

instance : Enumerators 8 OverheadReason where
  all := [.kRequiredTransfer, .kRequiredCheckpoint, .kRequiredRecovery, .kRequiredReplication,
    .kRequiredWarmup, .kRequiredCoordination]
  index := OverheadReason.ctorIdx
  all_index x := by cases x <;> rfl
  map_index := rfl
  length_le := by decide

inductive WasteReason where
  | kFailedAttempt | kDuplicateAttempt | kStaleAttempt | kRejectedCompletion
  | kCancelledAfterWork | kRecomputation | kDuplicateTransfer | kUnusedPrefetch | kInvalidReuse
  | kExpiredResidency | kAbandonedRecovery | kRolledBackWork | kSpeculationRejected
  | kPolicyMisprediction | kIdleReservedCapacity | kFragmentationLoss
  deriving DecidableEq, Repr

instance : Enumerators 8 WasteReason where
  all := [.kFailedAttempt, .kDuplicateAttempt, .kStaleAttempt, .kRejectedCompletion,
    .kCancelledAfterWork, .kRecomputation, .kDuplicateTransfer, .kUnusedPrefetch, .kInvalidReuse,
    .kExpiredResidency, .kAbandonedRecovery, .kRolledBackWork, .kSpeculationRejected,
    .kPolicyMisprediction, .kIdleReservedCapacity, .kFragmentationLoss]
  index := WasteReason.ctorIdx
  all_index x := by cases x <;> rfl
  map_index := rfl
  length_le := by decide

inductive AvoidedWorkReason where
  | kCacheHit | kPrefixReuse | kTensorReuse | kGraphReplay | kKernelReuse | kWarmResidency
  | kCheckpointRestore | kDeduplicatedTransfer | kSharedExecution
  deriving DecidableEq, Repr

instance : Enumerators 8 AvoidedWorkReason where
  all := [.kCacheHit, .kPrefixReuse, .kTensorReuse, .kGraphReplay, .kKernelReuse, .kWarmResidency,
    .kCheckpointRestore, .kDeduplicatedTransfer, .kSharedExecution]
  index := AvoidedWorkReason.ctorIdx
  all_index x := by cases x <;> rfl
  map_index := rfl
  length_le := by decide

inductive StrandedReason where
  | kFragmentation | kReservationIdle | kUnusableHeadroom | kTopologyMismatch
  | kIncompatibleDevice | kPinnedButUnused | kResidencyHold | kCapacityFenced
  | kResourceUnavailableByAuthority | kMemoryHeadroom | kWarmStandbyIdle
  | kCapacityWithoutDemand | kCapacityBlockedByConstraint
  deriving DecidableEq, Repr

instance : Enumerators 8 StrandedReason where
  all := [.kFragmentation, .kReservationIdle, .kUnusableHeadroom, .kTopologyMismatch,
    .kIncompatibleDevice, .kPinnedButUnused, .kResidencyHold, .kCapacityFenced,
    .kResourceUnavailableByAuthority, .kMemoryHeadroom, .kWarmStandbyIdle,
    .kCapacityWithoutDemand, .kCapacityBlockedByConstraint]
  index := StrandedReason.ctorIdx
  all_index x := by cases x <;> rfl
  map_index := rfl
  length_le := by decide

inductive Provenance where
  | kMeasured | kReported | kDerived | kEstimated | kReconstructed | kSynthetic | kPolicy
  | kUnknown
  deriving DecidableEq, Repr

instance : Enumerators 8 Provenance where
  all := [.kMeasured, .kReported, .kDerived, .kEstimated, .kReconstructed, .kSynthetic, .kPolicy,
    .kUnknown]
  index := Provenance.ctorIdx
  all_index x := by cases x <;> rfl
  map_index := rfl
  length_le := by decide

inductive Freshness where
  | kCurrent | kStale | kExpired | kRevalidationRequired | kHistorical | kUnknown
  deriving DecidableEq, Repr

instance : Enumerators 8 Freshness where
  all := [.kCurrent, .kStale, .kExpired, .kRevalidationRequired, .kHistorical, .kUnknown]
  index := Freshness.ctorIdx
  all_index x := by cases x <;> rfl
  map_index := rfl
  length_le := by decide

inductive EventType where
  | kExecutionStarted | kExecutionProgress | kExecutionCompleted | kOutputPublished
  | kOutputRejected | kAttemptFailed | kAttemptCancelled | kAttemptSuperseded | kRetryStarted
  | kTransferStarted | kTransferCompleted | kTransferDiscarded | kResidencyAcquired
  | kResidencyReleased | kReservationAcquired | kReservationReleased | kCacheHit | kCacheMiss
  | kStateReused | kStateRecomputed | kCheckpointWritten | kCheckpointRestored | kRecoveryStarted
  | kRecoveryCompleted | kRecoveryFailed | kAllocationAcquired | kAllocationReleased
  | kFragmentationObserved | kCapacityStranded | kCapacityRestored | kWorkAccepted
  | kWorkRejected | kCommitAuthorized | kCommitRejected | kClassify | kReclassify
  deriving DecidableEq, Repr

instance : Enumerators 8 EventType where
  all := [.kExecutionStarted, .kExecutionProgress, .kExecutionCompleted, .kOutputPublished,
    .kOutputRejected, .kAttemptFailed, .kAttemptCancelled, .kAttemptSuperseded, .kRetryStarted,
    .kTransferStarted, .kTransferCompleted, .kTransferDiscarded, .kResidencyAcquired,
    .kResidencyReleased, .kReservationAcquired, .kReservationReleased, .kCacheHit, .kCacheMiss,
    .kStateReused, .kStateRecomputed, .kCheckpointWritten, .kCheckpointRestored,
    .kRecoveryStarted, .kRecoveryCompleted, .kRecoveryFailed, .kAllocationAcquired,
    .kAllocationReleased, .kFragmentationObserved, .kCapacityStranded, .kCapacityRestored,
    .kWorkAccepted, .kWorkRejected, .kCommitAuthorized, .kCommitRejected, .kClassify, .kReclassify]
  index := EventType.ctorIdx
  all_index x := by cases x <;> rfl
  map_index := rfl
  length_le := by decide

/-- Terminal outcome of an execution attempt. -/
inductive AttemptOutcome where
  | kPending | kSucceeded | kFailed | kCancelled | kSuperseded
  deriving DecidableEq, Repr

instance : Enumerators 8 AttemptOutcome where
  all := [.kPending, .kSucceeded, .kFailed, .kCancelled, .kSuperseded]
  index := AttemptOutcome.ctorIdx
  all_index x := by cases x <;> rfl
  map_index := rfl
  length_le := by decide

/-- Shared-work attribution policies. -/
inductive AttributionPolicy where
  | kDirectOwnership | kEqualShare | kByBytes | kByTokens | kByExecutionTime
  | kByReservedCapacity | kByWeight | kUnattributedShared
  deriving DecidableEq, Repr

instance : Enumerators 8 AttributionPolicy where
  all := [.kDirectOwnership, .kEqualShare, .kByBytes, .kByTokens, .kByExecutionTime,
    .kByReservedCapacity, .kByWeight, .kUnattributedShared]
  index := AttributionPolicy.ctorIdx
  all_index x := by cases x <;> rfl
  map_index := rfl
  length_le := by decide

inductive ErrorCode where
  | kOk | kInvalidInput | kDuplicateEntry | kStaleAuthority | kStaleEvidence
  | kUnknownClassification | kAccountNotFound | kAttemptNotFound | kReconciliationFailure
  | kOverflow | kPersistenceCorrupt | kProtocolError | kResourceExhausted | kOutcomeUnknown
  | kCancelled | kShuttingDown | kNotAuthoritative
  deriving DecidableEq, Repr

instance : Enumerators 16 ErrorCode where
  all := [.kOk, .kInvalidInput, .kDuplicateEntry, .kStaleAuthority, .kStaleEvidence,
    .kUnknownClassification, .kAccountNotFound, .kAttemptNotFound, .kReconciliationFailure,
    .kOverflow, .kPersistenceCorrupt, .kProtocolError, .kResourceExhausted, .kOutcomeUnknown,
    .kCancelled, .kShuttingDown, .kNotAuthoritative]
  index := ErrorCode.ctorIdx
  all_index x := by cases x <;> rfl
  map_index := rfl
  length_le := by decide

/-- An error code with its message (`Status`). -/
structure Status where
  code : OpenEnum 16 ErrorCode := ErrorCode.kOk
  message : String := ""
  deriving DecidableEq

namespace Status

def success : Status := {}

def ok (st : Status) : Bool := st.code = ErrorCode.kOk

theorem not_ok {st : Status} (h : st.code ≠ ErrorCode.kOk) : ¬ st.ok = true := by
  rwa [ok, decide_eq_true_iff]

end Status

end El
