import EfficiencyLedger.Model.Ledger

/-!
# Reconciliation

`reconcile` adds up the totals of all accounts, dimension by dimension and without checks, and
compares the physical usage with the classified usage, over all accounts and in each.
-/

namespace El

/-- The names of the resource dimensions, in the order of their values. -/
def dimensionNames : List String :=
  ["AcceleratorNanoseconds", "CpuNanoseconds", "EnergyMicroJoules", "TransferBytes",
    "StorageBytes", "MemoryByteNanoseconds", "AcceleratorMemoryByteNanoseconds",
    "HostMemoryByteNanoseconds", "PinnedMemoryByteNanoseconds", "NetworkByteNanoseconds",
    "Operations", "Tokens", "Requests", "WorkUnits", "CapacityByteNanoseconds",
    "DeviceNanoseconds"]

/-- The accounts of the map in the order in which the standard library iterates over it. -/
structure Enumeration (accounts : Accounts) where
  order : List AccountId
  nodup : order.Nodup
  mem_order : ∀ a, a ∈ order ↔ a ∈ accounts

structure Reconciliation where
  closed : Bool
  perDimensionClosed : Dimension → Bool
  physical : DimTotals
  /-- Useful, overhead, waste and unknown. -/
  classified : DimTotals
  unclassified : DimTotals
  avoided : DimTotals
  stranded : DimTotals
  entryCount : Nat
  messages : List String

/-- The classified usage of an account; the additions may wrap around. -/
def AccountAggregate.classified (agg : AccountAggregate) : DimTotals := fun d =>
  agg.useful d + agg.overhead d + agg.waste d + agg.unknown d

/-- A counter added up over accounts; the additions may wrap around. -/
def addUp (accounts : Accounts) (counter : AccountAggregate → DimTotals)
    (order : List AccountId) : DimTotals := fun d =>
  order.foldl (fun sum acc => sum + counter (accounts.get acc) d) 0

/-- The messages about one account, one for each dimension that does not close. -/
def closureMessages (agg : AccountAggregate) : List String :=
  (List.finRange kDimensionCount).filterMap fun d =>
    if agg.classified d ≠ agg.physical d then
      some ("dimension " ++ dimensionNames.getD d "" ++ " does not close for an account")
    else none

/-- The loops of `reconcile` over the accounts in this order. -/
def reconcileAccounts (accounts : Accounts) (order : List AccountId) (entryCount : Nat) :
    Reconciliation :=
  let physical := addUp accounts AccountAggregate.physical order
  let classified := addUp accounts AccountAggregate.classified order
  let perDimensionClosed (d : Dimension) : Bool :=
    physical d = classified d ∧
      ∀ acc ∈ order, (accounts.get acc).classified d = (accounts.get acc).physical d
  let closed : Bool := ∀ d, perDimensionClosed d = true
  let messages := order.flatMap fun acc => closureMessages (accounts.get acc)
  { closed
    perDimensionClosed
    physical
    classified
    unclassified := fun d => physical d - classified d
    avoided := addUp accounts AccountAggregate.avoided order
    stranded := addUp accounts AccountAggregate.stranded order
    entryCount
    messages := if closed ∧ messages = [] then ["reconciliation closed"] else messages }

def reconcile (s : EfficiencyLedger) (accs : Enumeration s.accounts) : Reconciliation :=
  reconcileAccounts s.accounts accs.order s.history.length

end El
