import EfficiencyLedger.Lib.Machine
import EfficiencyLedger.Model.Persistence

/-!
# Runs of the ledger

The public mutations as one type of operations, and the run of a list of them. Operations that
return an error are steps like any other.
-/

namespace El

/-- A call of a public method that may change the ledger. -/
inductive Op where
  | append (e : LedgerEntry)
  | appendAll (entries : List LedgerEntry)
  | reclassify (req : ReclassifyRequest)
  | registerWorker (boot : WorkerBootId)
  | unregisterWorker (boot : WorkerBootId)
  | advanceEpoch
  | setEpoch (epoch : CoordinatorEpoch)
  | setLedgerGeneration (gen : LedgerGeneration)
  | setAccountGeneration (gen : AccountGeneration)
  | setSystemGeneration (ledgerGen : LedgerGeneration) (accountGen : AccountGeneration)
  | setShuttingDown
  | loadHistory (entries : List LedgerEntry)
  | load (file : Option Bytes)

namespace Op

variable (ord : IterationOrder)

/-- The call, with its status. -/
def exec : Op → LedgerM PUnit
  | .append e => appendLocked ord e
  | .appendAll entries => El.appendAll ord entries
  | .reclassify req => El.reclassify ord req
  | .registerWorker boot => modify (·.registerWorker boot)
  | .unregisterWorker boot => modify (·.unregisterWorker boot)
  | .advanceEpoch => modify (·.advanceEpoch)
  | .setEpoch epoch => modify (·.setEpoch epoch)
  | .setLedgerGeneration gen => modify (·.setLedgerGeneration gen)
  | .setAccountGeneration gen => modify (·.setAccountGeneration gen)
  | .setSystemGeneration ledgerGen accountGen => modify (·.setSystemGeneration ledgerGen accountGen)
  | .setShuttingDown => modify (·.setShuttingDown)
  | .loadHistory entries => El.loadHistory ord entries
  | .load file => El.load ord file

/-- The ledger after the call, whatever it returned. -/
def step (s : EfficiencyLedger) (op : Op) : EfficiencyLedger := (op.exec ord s).state

end Op

/-- The ledger after a list of calls. -/
def run (ord : IterationOrder) : EfficiencyLedger → List Op → EfficiencyLedger :=
  Machine.run (Op.step ord)

/-! ### Calls one after the other -/

/-- What a call returns to its client. -/
def statusOf : EStateM.Result Status EfficiencyLedger PUnit → Status
  | .ok _ _ => .success
  | .error st _ => st

/-- The statuses of calls that run one after the other, and the ledger they leave. -/
def execAll {ι : Type} (f : ι → LedgerM PUnit) :
    List ι → EfficiencyLedger → List (ι × Status) × EfficiencyLedger
  | [], s => ([], s)
  | i :: is, s =>
    let rest := execAll f is (f i s).state
    ((i, statusOf (f i s)) :: rest.1, rest.2)

end El
