import EfficiencyLedger.Model.Network

/-!
# The worker

`el_worker.cpp`: a worker registers its boot id and then appends the entries of its mode, one after the
other, whatever comes back for them.
-/

namespace El

open Wire

/-- `mk`: `ns` accelerator nanoseconds. -/
def mk (id : UInt64) (ev : EventType) (cls : EfficiencyClass) (ns : UInt64) (acc : AccountId)
    (pub : UInt64) (boot : WorkerBootId) (att : AttemptId) (out : AttemptOutcome) : LedgerEntry :=
  let sub : Subcategory := {}
  let sub := if cls = .kUseful then { sub with useful := UsefulReason.kAuthoritativeExecution } else sub
  let sub := if cls = .kAvoidableWaste then { sub with waste := WasteReason.kFailedAttempt } else sub
  { id := ⟨id⟩
    event := ev
    classification := cls
    subcategory := sub
    usage := ⟨fun d => if d.val = 0 then ns else 0⟩
    account := acc
    fences := { workerBoot := boot, publication := ⟨pub⟩ }
    attempt := { id := att }
    attemptOutcome := out }

inductive WorkerMode where
  | scenario
  | append
  | killsleep
  /-- Any other word on the command line. -/
  | other
  deriving DecidableEq

/-- The entries that a worker sends, with its own boot id. -/
def WorkerMode.entries (wb : WorkerBootId) : WorkerMode → List LedgerEntry
  | scenario =>
    let acc : AccountId := ⟨3⟩
    [mk 1 .kAttemptFailed .kAvoidableWaste 300 acc 0 wb ⟨11⟩ .kFailed,
      mk 2 .kOutputPublished .kUseful 200 acc 1 wb ⟨12⟩ .kSucceeded,
      -- the attempt has ended, and then an id again
      mk 3 .kExecutionCompleted .kUseful 200 acc 1 wb ⟨12⟩ .kSucceeded,
      mk 1 .kAttemptFailed .kAvoidableWaste 300 acc 0 wb ⟨11⟩ .kFailed]
  | append => [mk 10 .kOutputPublished .kUseful 250 ⟨3⟩ 5 wb ⟨20⟩ .kSucceeded]
  | killsleep => [mk 20 .kOutputPublished .kUseful 150 ⟨3⟩ 6 wb ⟨21⟩ .kSucceeded]
  | other => []

/-- The frame that registers a worker. -/
def registration (boot : WorkerBootId) : Frame :=
  ⟨MessageKind.kRegister.toBits, 0, putU64 boot.value, by
    rw [putU64, length_putLE]
    decide⟩

/-- The frame of `send_append`; `write_frame` refuses a body that does not fit. -/
def sendAppend (e : LedgerEntry) : Option Frame :=
  Frame.ofMessage ⟨MessageKind.kAppend.toBits, 0, encodeEntry e⟩

/-- What a worker with this boot id sends. -/
def workerScript (boot : WorkerBootId) (mode : WorkerMode) : List Frame :=
  registration boot :: (mode.entries boot).filterMap sendAppend

end El
