import EfficiencyLedger.Model.Persistence
import EfficiencyLedger.Model.Reconcile

/-!
# Queries

What the ledger answers without changing: single entries by their id, the whole history, and the totals
of one account or of all of them. The listing of all accounts is sorted, since the map that holds them
is iterated over in no particular order.
-/

namespace El

/-- The totals of an account as they are handed out. -/
structure AccountSummary extends AccountAggregate where
  account : AccountId
  deriving DecidableEq

namespace EfficiencyLedger

variable (s : EfficiencyLedger)

def contains (id : AccountingEntryId) : Bool := id ∈ s.index

def get (id : AccountingEntryId) : Option LedgerEntry :=
  (s.index.lookup id).map fun i => s.history.getD i {}

def entryCount : Nat := s.history.length

def hasAccount (acc : AccountId) : Bool := acc ∈ s.accounts

def hasWorker (boot : WorkerBootId) : Bool := boot ∈ s.liveWorkers

/-- `account_summary`; all zero where there is no such account. -/
def summary (acc : AccountId) : AccountSummary := { s.accountSummary acc with account := acc }

/-- `account_summaries`: one for each account, by the value of its id. -/
def accountSummaries (accs : Enumeration s.accounts) : List AccountSummary :=
  (accs.order.map s.summary).mergeSort fun a b => a.account.value ≤ b.account.value

end EfficiencyLedger

/-- A hexadecimal digit. -/
def hexDigit (nib : UInt64) : Char :=
  if nib < 10 then Char.ofNat (48 + nib.toNat) else Char.ofNat (97 + (nib - 10).toNat)

/-- `Digest::hex`, the highest digit first. -/
def digestHex (value : UInt64) : String :=
  String.ofList ((List.range 16).map fun k => hexDigit (value >>> UInt64.ofNat (60 - 4 * k) &&& 0xF))

end El
