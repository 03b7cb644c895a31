import EfficiencyLedger.Model.Attribution

/-!
# The ledger

The state of `EfficiencyLedger` and its mutations, one call at a time (every public method holds
the mutex for its whole body). `appendLocked` is the single path by which an entry enters the
history: the checks come first, then the totals are posted, then the entry is recorded. A call that
returns an error keeps whatever it had already written.
-/

namespace El

/-- What the ledger knows of an attempt. -/
structure AttemptState where
  outcome : ByteEnum AttemptOutcome := AttemptOutcome.kPending
  generation : AttemptGeneration := {}
  lastPublication : PublicationId := {}
  authoritative : Bool := false
  deriving DecidableEq

/-- The containers that a load clears and a replay rebuilds. -/
structure Books where
  history : List LedgerEntry := []
  index : Finmap (fun _ : AccountingEntryId => Nat) := ∅
  attempts : Finmap (fun _ : AttemptId => AttemptState) := ∅
  transferCompleted : Finset TransferId := ∅
  reservationReleased : Finset ReservationId := ∅
  allocationReleased : Finset AllocationId := ∅
  recoveryCompleted : Finset RecoveryId := ∅
  accounts : Accounts := ∅

def kDefaultLedgerId : LedgerId := ⟨1⟩

structure EfficiencyLedger extends Books where
  epoch : CoordinatorEpoch := ⟨1⟩
  ledgerId : LedgerId := kDefaultLedgerId
  ledgerGeneration : LedgerGeneration := ⟨1⟩
  accountGeneration : AccountGeneration := ⟨1⟩
  shuttingDown : Bool := false
  epochAdvanced : Bool := false
  /-- While true, live-worker fencing is skipped. -/
  replaying : Bool := false
  liveWorkers : Finset WorkerBootId := ∅

namespace EfficiencyLedger

/-- The constructor `EfficiencyLedger(LedgerId)`. -/
def fresh (id : LedgerId) : EfficiencyLedger := { ledgerId := id }

end EfficiencyLedger

/-- A method of the ledger: it returns normally or with an error status, in a new state either way. -/
abbrev LedgerM := EStateM Status EfficiencyLedger

/-- Return the status where the condition holds. -/
def rejectIf (c : Prop) [Decidable c] (st : Status) : LedgerM PUnit :=
  if c then throw st else pure ⟨⟩

/-- `if (!st.ok()) return st;` -/
def returnUnlessOk (st : Status) : LedgerM PUnit := if st.ok then pure ⟨⟩ else throw st

/-- Code that works on the account totals of the ledger. -/
def onAccounts (m : AccountsM PUnit) : LedgerM PUnit := fun s =>
  match m s.accounts with
  | .ok _ accounts => .ok ⟨⟩ { s with accounts }
  | .error st accounts => .error st { s with accounts }

/-! ### Checks -/

def isConsumptionClass (c : ByteEnum EfficiencyClass) : Bool :=
  c = EfficiencyClass.kUseful ∨ c = EfficiencyClass.kNecessaryOverhead ∨
    c = EfficiencyClass.kAvoidableWaste ∨ c = EfficiencyClass.kUnknown

/-- A publication id, or a reuse event. -/
def isAuthoritativeUse (e : LedgerEntry) : Bool :=
  e.fences.publication.valid ∨ e.event = EventType.kCacheHit ∨ e.event = EventType.kStateReused ∨
    e.event = EventType.kCheckpointRestored

def isLifecycleCompletion (e : LedgerEntry) : Bool :=
  e.event = EventType.kTransferCompleted ∨ e.event = EventType.kReservationReleased ∨
    e.event = EventType.kAllocationReleased ∨ e.event = EventType.kRecoveryCompleted ∨
    e.event = EventType.kRecoveryFailed

/-- The events that signal the completion of an attempt. -/
def isCompletionSignal (event : ByteEnum EventType) : Bool :=
  event = EventType.kExecutionCompleted ∨ event = EventType.kOutputPublished ∨
    event = EventType.kOutputRejected ∨ event = EventType.kWorkAccepted ∨
    event = EventType.kWorkRejected ∨ event = EventType.kCommitAuthorized ∨
    event = EventType.kCommitRejected

/-- The part of `check_authority` about an attempt already on record. -/
def checkAttempt (st : AttemptState) (e : LedgerEntry) : Status :=
  if st.generation.valid ∧ e.attempt.generation.valid ∧ st.generation ≠ e.attempt.generation then
    ⟨ErrorCode.kStaleAuthority, "stale attempt generation"⟩
  else if st.outcome ≠ AttemptOutcome.kPending ∧ e.hasOutcome then
    ⟨ErrorCode.kStaleAuthority, "attempt already terminal"⟩
  else if st.outcome ≠ AttemptOutcome.kPending ∧ isCompletionSignal e.event then
    ⟨ErrorCode.kStaleAuthority, "stale completion after terminal attempt"⟩
  else if e.fences.publication.valid ∧ st.lastPublication.valid ∧
      e.fences.publication ≤ st.lastPublication then
    ⟨ErrorCode.kStaleAuthority, "stale/duplicate publication"⟩
  else .success

def checkAuthority (s : EfficiencyLedger) (e : LedgerEntry) : Status :=
  if e.fences.epoch.valid ∧ e.fences.epoch ≠ s.epoch then
    ⟨ErrorCode.kStaleAuthority, "stale coordinator epoch"⟩
  else if e.fences.ledgerGeneration.valid ∧ e.fences.ledgerGeneration ≠ s.ledgerGeneration then
    ⟨ErrorCode.kStaleAuthority, "stale ledger generation"⟩
  else if e.fences.accountGeneration.valid ∧ e.fences.accountGeneration ≠ s.accountGeneration then
    ⟨ErrorCode.kStaleAuthority, "stale account generation"⟩
  else if s.replaying = false ∧ e.fences.workerBoot.valid ∧ e.fences.workerBoot ∉ s.liveWorkers then
    ⟨ErrorCode.kStaleAuthority, "stale worker boot id"⟩
  else if e.hasAttempt then
    match s.attempts.lookup e.attempt.id with
    | none => .success
    | some st => checkAttempt st e
  else .success

def checkClassificationConsistency (e : LedgerEntry) : Status :=
  let c := e.classification
  if c = EfficiencyClass.kAvoidedWork then
    if ¬ e.usage.isZero then
      ⟨ErrorCode.kInvalidInput, "avoided work must not consume physical"⟩
    else if e.avoidedWork = none then
      ⟨ErrorCode.kInvalidInput, "avoided work requires avoided-work usage evidence"⟩
    else .success
  else if c = EfficiencyClass.kStrandedCapacity then
    if ¬ e.usage.isZero then
      ⟨ErrorCode.kInvalidInput, "stranded capacity must not consume physical"⟩
    else if e.strandedCapacity = none then
      ⟨ErrorCode.kInvalidInput, "stranded capacity requires capacity evidence"⟩
    else .success
  else if isConsumptionClass c then
    if e.avoidedWork ≠ none ∨ e.strandedCapacity ≠ none then
      ⟨ErrorCode.kInvalidInput,
        "consumption class entries must not carry avoided/stranded usage"⟩
    else if c = EfficiencyClass.kUseful ∧ ¬ isAuthoritativeUse e then
      ⟨ErrorCode.kNotAuthoritative,
        "USEFUL classification requires authoritative publication or valid reuse"⟩
    else .success
  else .success

/-- The at-most-once lifecycle gates. -/
def checkLifecycle (b : Books) (e : LedgerEntry) : Status :=
  if isLifecycleCompletion e then
    if e.event = EventType.kTransferCompleted ∧ e.owners.transfer.valid ∧
        e.owners.transfer ∈ b.transferCompleted then
      ⟨ErrorCode.kDuplicateEntry, "duplicate transfer completion"⟩
    else if e.event = EventType.kReservationReleased ∧ e.owners.reservation.valid ∧
        e.owners.reservation ∈ b.reservationReleased then
      ⟨ErrorCode.kDuplicateEntry, "duplicate reservation release"⟩
    else if e.event = EventType.kAllocationReleased ∧ e.owners.allocation.valid ∧
        e.owners.allocation ∈ b.allocationReleased then
      ⟨ErrorCode.kDuplicateEntry, "duplicate allocation release"⟩
    else if (e.event = EventType.kRecoveryCompleted ∨ e.event = EventType.kRecoveryFailed) ∧
        e.owners.recovery.valid ∧ e.owners.recovery ∈ b.recoveryCompleted then
      ⟨ErrorCode.kDuplicateEntry, "duplicate recovery completion"⟩
    else .success
  else .success

/-! ### Recording an accepted entry -/

/-- The new state of the attempt of an accepted entry. -/
def AttemptState.record (st : AttemptState) (e : LedgerEntry) : AttemptState :=
  let st := if e.hasOutcome then
      { st with
        outcome := e.attemptOutcome
        generation := e.attempt.generation
        authoritative := true }
    else st
  if e.fences.publication.valid ∧
      (¬ st.lastPublication.valid ∨ st.lastPublication < e.fences.publication) then
    { st with lastPublication := e.fences.publication }
  else st

namespace Books

def recordLifecycle (b : Books) (e : LedgerEntry) : Books :=
  if isLifecycleCompletion e then
    { b with
      transferCompleted :=
        if e.event = EventType.kTransferCompleted ∧ e.owners.transfer.valid then
          insert e.owners.transfer b.transferCompleted
        else b.transferCompleted
      reservationReleased :=
        if e.event = EventType.kReservationReleased ∧ e.owners.reservation.valid then
          insert e.owners.reservation b.reservationReleased
        else b.reservationReleased
      allocationReleased :=
        if e.event = EventType.kAllocationReleased ∧ e.owners.allocation.valid then
          insert e.owners.allocation b.allocationReleased
        else b.allocationReleased
      recoveryCompleted :=
        if (e.event = EventType.kRecoveryCompleted ∨ e.event = EventType.kRecoveryFailed) ∧
            e.owners.recovery.valid then
          insert e.owners.recovery b.recoveryCompleted
        else b.recoveryCompleted }
  else b

def recordAttempt (b : Books) (e : LedgerEntry) : Books :=
  if e.hasAttempt then
    { b with
      attempts := b.attempts.insert e.attempt.id
        (((b.attempts.lookup e.attempt.id).getD {}).record e) }
  else b

/-- `history_.push_back(e); index_[e.id] = history_.size() - 1;` -/
def pushEntry (b : Books) (e : LedgerEntry) : Books :=
  { b with
    history := b.history ++ [e]
    index := b.index.insert e.id b.history.length }

end Books

def modifyBooks (f : Books → Books) : LedgerM PUnit := fun s => .ok ⟨⟩ { s with toBooks := f s.toBooks }

/-! ### Append -/

/-- `move_out`: takes the physical share out of a bucket, dimension by dimension. -/
def moveOut (b : Bucket) (sh : AttributionShare) : AggregateM PUnit :=
  forDims fun d => Counters.post ⟨(b, d), .debit, sh.physical d,
    ⟨ErrorCode.kReconciliationFailure, "reclassify underflow"⟩⟩

/-- `move_in`: adds the physical share to a bucket, dimension by dimension. -/
def moveIn (b : Bucket) (sh : AttributionShare) : AggregateM PUnit :=
  forDims fun d => Counters.post ⟨(b, d), .credit, sh.physical d,
    ⟨ErrorCode.kReconciliationFailure, "reclassify overflow"⟩⟩

/-- The body of the share loop of `apply_reclassify_locked`, at the account of the share. -/
def moveShare (oldCls newCls : ByteEnum EfficiencyClass) (sh : AttributionShare) :
    AggregateM PUnit := do
  match consumptionBucket oldCls with
  | some b => moveOut b sh
  | none => throw ⟨ErrorCode.kReconciliationFailure, "reclassify underflow"⟩
  match consumptionBucket newCls with
  | some b => moveIn b sh
  | none => throw ⟨ErrorCode.kReconciliationFailure, "reclassify overflow"⟩

def applyReclassifyLocked (revision : LedgerEntry) : LedgerM PUnit := do
  let s ← get
  match revision.revisionTarget with
  | none => throw ⟨ErrorCode.kInvalidInput, "revision event missing target"⟩
  | some targetId =>
    match s.index.lookup targetId with
    | none => throw ⟨ErrorCode.kInvalidInput, "revision target entry does not exist"⟩
    | some i =>
      let target := s.history.getD i {}
      let oldCls := target.classification
      let newCls := revision.classification
      rejectIf (isConsumptionClass oldCls ≠ isConsumptionClass newCls)
        ⟨ErrorCode.kInvalidInput, "cannot reclassify across consumption / non-consumption classes"⟩
      (if isConsumptionClass oldCls then
        (computeAttribution target).shares.forM fun sh =>
          onAccounts (atAccount sh.account (moveShare oldCls newCls sh))
      else pure ⟨⟩)
      modifyBooks (·.pushEntry revision)

section Append

variable (ord : IterationOrder)

def appendLocked (e : LedgerEntry) : LedgerM PUnit := do
  let s ← get
  rejectIf s.shuttingDown ⟨ErrorCode.kShuttingDown, "ledger is shutting down"⟩
  rejectIf (¬ e.validate) ⟨ErrorCode.kInvalidInput, "invalid accounting entry"⟩
  if e.event = EventType.kReclassify then
    rejectIf (e.id ∈ s.index) ⟨ErrorCode.kDuplicateEntry, "duplicate revision entry"⟩
    rejectIf (¬ e.usage.isZero) ⟨ErrorCode.kInvalidInput, "revision event must not consume"⟩
    returnUnlessOk (checkAuthority s e)
    applyReclassifyLocked e
  else
    rejectIf (e.id ∈ s.index) ⟨ErrorCode.kDuplicateEntry, "duplicate entry id"⟩
    returnUnlessOk (checkClassificationConsistency e)
    returnUnlessOk (checkAuthority s e)
    returnUnlessOk (checkLifecycle s.toBooks e)
    let attr := computeAttribution e
    rejectIf attr.invalid ⟨ErrorCode.kInvalidInput, "unable to attribute entry"⟩
    onAccounts (applyAttribution ord e attr)
    modifyBooks (·.recordLifecycle e)
    modifyBooks (·.recordAttempt e)
    modifyBooks (·.pushEntry e)

/-- `append` of a vector: stops at the first error. -/
def appendAll (entries : List LedgerEntry) : LedgerM PUnit := entries.forM (appendLocked ord)

structure ReclassifyRequest where
  revisionId : AccountingEntryId
  target : AccountingEntryId
  newClassification : ByteEnum EfficiencyClass := EfficiencyClass.kUnknown
  newSubcategory : Subcategory := {}
  fences : AuthorityFences := {}
  provenance : ByteEnum Provenance := Provenance.kDerived
  note : Bytes := []

/-- The revision event `reclassify` builds; it takes owner and attempt from its target. -/
def revisionOf (b : Books) (req : ReclassifyRequest) : LedgerEntry :=
  let rev : LedgerEntry :=
    { id := req.revisionId
      event := EventType.kReclassify
      classification := req.newClassification
      subcategory := req.newSubcategory
      provenance := req.provenance
      fences := req.fences
      revisionTarget := some req.target
      note := req.note }
  match b.index.lookup req.target with
  | none => rev
  | some i =>
    let t := b.history.getD i {}
    { rev with
      account := if t.account.valid then t.account else ⟨kResidualAccountValue⟩
      attempt := t.attempt }

def reclassify (req : ReclassifyRequest) : LedgerM PUnit := do
  let s ← get
  appendLocked ord (revisionOf s.toBooks req)

/-- Replaces the books by what the entries replay to; stops at the first rejected entry. -/
def loadHistory (entries : List LedgerEntry) : LedgerM PUnit := fun s =>
  let cleared := { s with toBooks := {}, replaying := true }
  match appendAll ord entries cleared with
  | .ok _ s' => .ok ⟨⟩ { s' with replaying := false }
  | .error st s' =>
    .error ⟨st.code, "replay failed: " ++ st.message⟩ { s' with replaying := false }

end Append

/-! ### Authority state and queries -/

namespace EfficiencyLedger

def advanceEpoch (s : EfficiencyLedger) : EfficiencyLedger :=
  { s with epoch := ⟨s.epoch.value + 1⟩, epochAdvanced := true }

def setEpoch (s : EfficiencyLedger) (epoch : CoordinatorEpoch) : EfficiencyLedger :=
  { s with epoch }

def setLedgerGeneration (s : EfficiencyLedger) (gen : LedgerGeneration) : EfficiencyLedger :=
  { s with ledgerGeneration := gen }

def setAccountGeneration (s : EfficiencyLedger) (gen : AccountGeneration) : EfficiencyLedger :=
  { s with accountGeneration := gen }

def setSystemGeneration (s : EfficiencyLedger) (ledgerGen : LedgerGeneration)
    (accountGen : AccountGeneration) : EfficiencyLedger :=
  { s with ledgerGeneration := ledgerGen, accountGeneration := accountGen }

def registerWorker (s : EfficiencyLedger) (boot : WorkerBootId) : EfficiencyLedger :=
  if boot.valid then { s with liveWorkers := insert boot s.liveWorkers } else s

def unregisterWorker (s : EfficiencyLedger) (boot : WorkerBootId) : EfficiencyLedger :=
  { s with liveWorkers := s.liveWorkers.erase boot }

def setShuttingDown (s : EfficiencyLedger) : EfficiencyLedger := { s with shuttingDown := true }

/-- The totals of an account, all zero where it has none. -/
def accountSummary (s : EfficiencyLedger) (acc : AccountId) : AccountAggregate := s.accounts.get acc

end EfficiencyLedger

end El
