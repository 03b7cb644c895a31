import EfficiencyLedger.Lib.Counters
import EfficiencyLedger.Model.Entry
import Mathlib.Data.Finmap

/-!
# Attribution of an entry to accounts

`computeAttribution` splits the quantities of an entry over its beneficiaries with
largest-remainder rounding (`distributeDim`), and `applyAttribution` posts the shares to the
per-account totals: first to a local map, then, account by account and counter by counter, to the
accounts of the ledger. Every addition is checked, and what the second loop wrote before a failing
addition stays written.
-/

namespace El

open CheckedU64 Counters

/-- The reserved account of the attribution residual. -/
def kResidualAccountValue : UInt64 := 0xFFFFFFFFFFFFFFFF

/-! ### Per-account totals -/

/-- The counters an account keeps for each dimension. -/
inductive Bucket where
  | physical | useful | overhead | waste | unknown | avoided | stranded
  deriving DecidableEq

structure AccountAggregate where
  physical : DimTotals := fun _ => 0
  useful : DimTotals := fun _ => 0
  overhead : DimTotals := fun _ => 0
  waste : DimTotals := fun _ => 0
  unknown : DimTotals := fun _ => 0
  avoided : DimTotals := fun _ => 0
  stranded : DimTotals := fun _ => 0
  deriving DecidableEq

namespace AccountAggregate

/-- A reference to one of the seven arrays, read. -/
def bucket (agg : AccountAggregate) : Bucket → DimTotals
  | .physical => agg.physical
  | .useful => agg.useful
  | .overhead => agg.overhead
  | .waste => agg.waste
  | .unknown => agg.unknown
  | .avoided => agg.avoided
  | .stranded => agg.stranded

/-- A reference to one of the seven arrays, written. -/
def setBucket (agg : AccountAggregate) (b : Bucket) (v : DimTotals) : AccountAggregate :=
  match b with
  | .physical => { agg with physical := v }
  | .useful => { agg with useful := v }
  | .overhead => { agg with overhead := v }
  | .waste => { agg with waste := v }
  | .unknown => { agg with unknown := v }
  | .avoided => { agg with avoided := v }
  | .stranded => { agg with stranded := v }

@[simp] theorem bucket_setBucket_self (agg : AccountAggregate) (b : Bucket) (v : DimTotals) :
    (agg.setBucket b v).bucket b = v := by
  cases b <;> rfl

theorem bucket_setBucket_of_ne (agg : AccountAggregate) (v : DimTotals) {b b' : Bucket}
    (h : b' ≠ b) : (agg.setBucket b v).bucket b' = agg.bucket b' := by
  cases b <;> cases b' <;> first | rfl | exact absurd rfl h

theorem ext_bucket {agg agg' : AccountAggregate} (h : ∀ b, agg.bucket b = agg'.bucket b) :
    agg = agg' := by
  cases agg
  cases agg'
  simp only [mk.injEq]
  exact ⟨h .physical, h .useful, h .overhead, h .waste, h .unknown, h .avoided, h .stranded⟩

end AccountAggregate

/-- One counter of an account. -/
abbrev Cell := Bucket × Dimension

instance : CounterStore AccountAggregate Cell where
  read agg c := agg.bucket c.1 c.2
  write agg c v := agg.setBucket c.1 (Function.update (agg.bucket c.1) c.2 v)
  read_write_self agg c v := by simp
  read_write_of_ne agg v c c' h := by
    by_cases hb : c'.1 = c.1
    · have hd : c'.2 ≠ c.2 := fun hd => h (Prod.ext hb hd)
      rw [hb]
      simp [hd]
    · rw [AccountAggregate.bucket_setBucket_of_ne _ _ hb]

/-- `std::unordered_map<AccountId, AccountAggregate>`. -/
abbrev Accounts := Finmap fun _ : AccountId => AccountAggregate

/-- The totals of an account, zero where the map does not hold it. -/
def Accounts.get (accounts : Accounts) (acc : AccountId) : AccountAggregate :=
  (accounts.lookup acc).getD {}

instance : CounterStore Accounts (AccountId × Cell) where
  read accounts k := CounterStore.read (accounts.get k.1) k.2
  write accounts k v := accounts.insert k.1 (CounterStore.write (accounts.get k.1) k.2 v)
  read_write_self accounts k v := by
    simp [Accounts.get, CounterStore.read_write_self]
  read_write_of_ne accounts v k k' h := by
    by_cases ha : k'.1 = k.1
    · have hc : k'.2 ≠ k.2 := fun hc => h (Prod.ext ha hc)
      rw [ha]
      simp [Accounts.get, CounterStore.read_write_of_ne _ _ hc]
    · simp [Accounts.get, Finmap.lookup_insert_of_ne _ ha]

/-! ### The split of one quantity -/

/-- The quotient loop of `distribute_dim`: the quotients, the remainders and the sum of the
quotients; where the sum does not fit the loop returns early and the later cells stay zero. -/
def allocate (amount totalw : UInt64) :
    List UInt64 → UInt64 → List UInt64 × List UInt64 × Option UInt64
  | [], allocated => ([], [], some allocated)
  | w :: ws, allocated =>
    let qr := mulDiv amount w totalw
    match checkedAdd allocated qr.1 with
    | none => (qr.1 :: ws.map (fun _ => 0), qr.2 :: ws.map (fun _ => 0), none)
    | some allocated =>
      let rest := allocate amount totalw ws allocated
      (qr.1 :: rest.1, qr.2 :: rest.2.1, rest.2.2)

/-- The order in which the leftover units are handed out: larger remainder first, then lower
index. -/
def remainderBefore (rems : List UInt64) (a b : Nat) : Bool :=
  if rems.getD a 0 ≠ rems.getD b 0 then rems.getD a 0 > rems.getD b 0 else a < b

/-- The shares of `amount` in proportion to `weights`, and the residual left to no one. -/
def distributeDim (amount : UInt64) (weights : List UInt64) : List UInt64 × UInt64 :=
  if weights = [] ∨ amount = 0 then (weights.map fun _ => 0, amount)
  else match weights.foldlM checkedAdd 0 with
    | none => (weights.map fun _ => 0, amount)
    | some totalw =>
      if totalw = 0 then (weights.map fun _ => 0, amount)
      else match allocate amount totalw weights 0 with
        | (out, _, none) => (out, amount)
        | (out, rems, some allocated) =>
          if allocated < amount then
            let order := (List.range weights.length).mergeSort fun a b => !remainderBefore rems b a
            ((order.take (amount - allocated).toNat).foldl (fun out k => out.modify k (· + 1)) out, 0)
          else (out, 0)

/-! ### The shares of an entry -/

structure AttributionShare where
  account : AccountId
  physical : DimTotals := fun _ => 0
  avoided : DimTotals := fun _ => 0
  stranded : DimTotals := fun _ => 0

structure AttributionResult where
  shares : List AttributionShare := []
  residual : DimTotals := fun _ => 0
  invalid : Bool := false

/-- The beneficiaries of an entry with their weights: the participants, or the owner alone, or no
one. -/
def participantsOf (e : LedgerEntry) : List (AccountId × UInt64) :=
  let owner := if e.account.valid then [(e.account, 1)] else []
  match e.shared with
  | none => owner
  | some sh => if sh.participants = [] then owner else sh.participants.map fun p => (p.account, p.weight)

/-- One dimension of one optional quantity: a share for each participant, and the residual. -/
def distributeInto (participants : List (AccountId × UInt64)) (src : Option ResourceUsage)
    (d : Dimension) : List UInt64 × UInt64 :=
  match src with
  | none => (participants.map fun _ => 0, 0)
  | some u =>
    if participants = [] then ([], u.data d)
    else distributeDim (u.data d) (participants.map (·.2))

def computeAttribution (e : LedgerEntry) : AttributionResult :=
  let participants := participantsOf e
  let physical := distributeInto participants (some e.usage)
  let avoided := distributeInto participants e.avoidedWork
  let stranded := distributeInto participants e.strandedCapacity
  let shares := participants.zipIdx.map fun (p, i) =>
    { account := p.1
      physical := fun d => (physical d).1.getD i 0
      avoided := fun d => (avoided d).1.getD i 0
      stranded := fun d => (stranded d).1.getD i 0 : AttributionShare }
  let any := ∃ d, (physical d).2 ≠ 0 ∨ (avoided d).2 ≠ 0 ∨ (stranded d).2 ≠ 0
  let res : AttributionShare :=
    { account := ⟨kResidualAccountValue⟩
      physical := fun d => (physical d).2
      avoided := fun d => (avoided d).2
      stranded := fun d => (stranded d).2 }
  { shares := if any then shares ++ [res] else shares
    residual := fun d => (physical d).2 }

/-! ### Posting the shares -/

/-- The bucket a consumption class is counted in (`switch` over the class). -/
def consumptionBucket : ByteEnum EfficiencyClass → Option Bucket
  | .named .kUseful => some .useful
  | .named .kNecessaryOverhead => some .overhead
  | .named .kAvoidableWaste => some .waste
  | .named .kUnknown => some .unknown
  | _ => none

def Bucket.name : Bucket → String
  | .physical => "physical"
  | .useful => "useful"
  | .overhead => "overhead"
  | .waste => "waste"
  | .unknown => "unknown"
  | .avoided => "avoided"
  | .stranded => "stranded"

abbrev AggregateM := EStateM Status AccountAggregate

/-- The loop over the resource dimensions. -/
def forDims {m : Type → Type} [Monad m] (f : Dimension → m PUnit) : m PUnit :=
  (List.finRange kDimensionCount).forM f

/-- The checked addition of `v` to one counter, in place. -/
def chargeCell (b : Bucket) (d : Dimension) (v : UInt64) : AggregateM PUnit :=
  post ⟨(b, d), .credit, v, ⟨ErrorCode.kOverflow, b.name ++ " overflow"⟩⟩

def accumulateShare (cls : ByteEnum EfficiencyClass) (sh : AttributionShare) : AggregateM PUnit := do
  forDims fun d => do
    chargeCell .physical d (sh.physical d)
    chargeCell .avoided d (sh.avoided d)
    chargeCell .stranded d (sh.stranded d)
  match consumptionBucket cls with
  | some b => forDims fun d => chargeCell b d (sh.physical d)
  | none => pure ⟨⟩

/-- The first loop of `apply_attribution`, into a map of its own. -/
def pendingOf (cls : ByteEnum EfficiencyClass) (shares : List AttributionShare) :
    Except Status Accounts :=
  shares.foldlM (fun pending sh =>
    match accumulateShare cls sh (pending.get sh.account) with
    | .ok _ agg => .ok (pending.insert sh.account agg)
    | .error st _ => .error st) ∅

def commitCells (agg : AccountAggregate) : AggregateM PUnit :=
  forDims fun d => do
    chargeCell .physical d (agg.physical d)
    chargeCell .avoided d (agg.avoided d)
    chargeCell .stranded d (agg.stranded d)
    chargeCell .useful d (agg.useful d)
    chargeCell .overhead d (agg.overhead d)
    chargeCell .waste d (agg.waste d)
    chargeCell .unknown d (agg.unknown d)

abbrev AccountsM := EStateM Status Accounts

/-- Code that works on the totals of one account through a reference into the map; nothing is done
where the map does not hold the account. -/
def atAccount (acc : AccountId) (m : AggregateM PUnit) : AccountsM PUnit := fun accounts =>
  match accounts.lookup acc with
  | none => .ok ⟨⟩ accounts
  | some agg =>
    match m agg with
    | .ok _ agg' => .ok ⟨⟩ (accounts.insert acc agg')
    | .error st agg' => .error st (accounts.insert acc agg')

def commitAccount (acc : AccountId) (agg : AccountAggregate) : AccountsM PUnit := do
  let accounts ← get
  if acc ∈ accounts then atAccount acc (commitCells agg)
  else set (accounts.insert acc agg)

/-- The order in which the standard library iterates over a freshly built unordered map, as a
function of the keys in the order in which the code accessed them: some order of the distinct
keys. -/
structure IterationOrder where
  arrange : List AccountId → List AccountId
  perm : ∀ l, (arrange l).Perm l.dedup

/-- The order of the last accesses. -/
instance : Inhabited IterationOrder := ⟨⟨List.dedup, fun _ => .refl _⟩⟩

def applyAttribution (ord : IterationOrder) (e : LedgerEntry) (attr : AttributionResult) :
    AccountsM PUnit := fun accounts =>
  match pendingOf e.classification attr.shares with
  | .error st => .error st accounts
  | .ok pending =>
    ((ord.arrange (attr.shares.map (·.account))).forM fun acc =>
      commitAccount acc (pending.get acc)) accounts

end El
