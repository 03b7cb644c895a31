import EfficiencyLedger.Model.Ledger
import EfficiencyLedger.Proof.Shares
import Mathlib.Algebra.BigOperators.Fin

/-!
# The totals loops are lists of postings

`applyAttribution` works in two passes, over a map of its own and over the map of the ledger.
`applyAttribution_eq` shows that together they are one list of postings to the ledger's counters,
`appendPostings`: account by account, dimension by dimension, each counter gets exactly what the
entry attributes to it (`net_appendPostings`).
-/

namespace El

open CheckedU64 Counters CounterStore

/-! ### The counters of one account, in the order of the commit loop -/

def kBuckets : List Bucket :=
  [.physical, .avoided, .stranded, .useful, .overhead, .waste, .unknown]

def rowCells (d : Dimension) : List Cell := kBuckets.map fun b => (b, d)

def kCells : List Cell := (List.finRange kDimensionCount).flatMap rowCells

theorem mem_kBuckets (b : Bucket) : b ∈ kBuckets := by
  cases b <;> decide

theorem mem_kCells (c : Cell) : c ∈ kCells := by
  refine List.mem_flatMap.mpr ⟨c.2, List.mem_finRange _, List.mem_map.mpr ⟨c.1, mem_kBuckets _, rfl⟩⟩

theorem nodup_kCells : kCells.Nodup := by
  have hprod : ((List.finRange kDimensionCount).product kBuckets).Nodup :=
    (List.nodup_finRange _).product (by decide)
  have hswap : kCells = ((List.finRange kDimensionCount).product kBuckets).map Prod.swap := by
    simp only [List.product, List.map_flatMap, List.map_map]
    rfl
  rw [hswap]
  exact hprod.map Prod.swap_injective

/-- The posting `chargeCell` makes. -/
def charge (c : Cell) (v : UInt64) : Posting Cell Status :=
  ⟨c, .credit, v, ⟨ErrorCode.kOverflow, c.1.name ++ " overflow"⟩⟩

/-- The postings of one account, each counter with the amount `agg` holds for it. -/
def cellPostings (agg : AccountAggregate) : List (Posting Cell Status) :=
  kCells.map fun c => charge c (agg.bucket c.1 c.2)

theorem credits_cellPostings (agg : AccountAggregate) : Credits (cellPostings agg) := by
  intro p hp
  obtain ⟨c, -, rfl⟩ := List.mem_map.mp hp
  rfl

theorem keys_cellPostings (agg : AccountAggregate) :
    (cellPostings agg).map Posting.key = kCells := by
  simp [cellPostings, charge, Function.comp_def]

theorem net_cellPostings (agg : AccountAggregate) (c : Cell) :
    net (cellPostings agg) c = (agg.bucket c.1 c.2).toNat := by
  have hmem : charge c (agg.bucket c.1 c.2) ∈ cellPostings agg :=
    List.mem_map_of_mem (mem_kCells c)
  have hnodup : ((cellPostings agg).map Posting.key).Nodup := by
    rw [keys_cellPostings]
    exact nodup_kCells
  exact net_of_mem hnodup hmem

theorem commitCells_eq (agg : AccountAggregate) : commitCells agg = postAll (cellPostings agg) := by
  rw [cellPostings, kCells, List.map_flatMap, postAll_flatMap]
  show forDims _ = _
  unfold forDims
  congr 1
  funext d
  simp only [rowCells, kBuckets, List.map_cons, List.map_nil, postAll_cons, chargeCell]
  have hlast : (postAll [] : AggregateM PUnit) = pure ⟨⟩ := rfl
  rw [hlast, bind_pure_unit]
  rfl

/-! ### Postings at one account of the map -/

/-- A posting to a counter of the account `a`. -/
def postingAt {ε : Type} (a : AccountId) (p : Posting Cell ε) : Posting (AccountId × Cell) ε :=
  ⟨(a, p.key), p.side, p.amount, p.onFail⟩

theorem get_insert_self (accounts : Accounts) (a : AccountId) (agg : AccountAggregate) :
    Accounts.get (accounts.insert a agg) a = agg := by
  simp [Accounts.get]

theorem get_insert_of_ne (accounts : Accounts) (agg : AccountAggregate) {a a' : AccountId}
    (h : a' ≠ a) : Accounts.get (accounts.insert a agg) a' = accounts.get a' := by
  simp [Accounts.get, Finmap.lookup_insert_of_ne _ h]

theorem post_at {a : AccountId} {accounts : Accounts} (p : Posting Cell Status) :
    post (postingAt a p) accounts = match post p (accounts.get a) with
      | .ok _ agg => .ok ⟨⟩ (accounts.insert a agg)
      | .error st _ => .error st accounts := by
  have hupd : (postingAt a p).updated accounts = p.updated (accounts.get a) := rfl
  unfold post
  rw [hupd]
  cases p.updated (accounts.get a) <;> rfl

theorem insert_get_self {a : AccountId} {accounts : Accounts} (h : a ∈ accounts) :
    accounts.insert a (accounts.get a) = accounts := by
  obtain ⟨agg, hagg⟩ := Finmap.mem_iff.mp h
  apply Finmap.ext_lookup
  intro a'
  by_cases ha : a' = a
  · subst ha
    simp [Accounts.get, hagg]
  · rw [Finmap.lookup_insert_of_ne _ ha]

theorem atAccount_of_mem {a : AccountId} {accounts : Accounts} (h : a ∈ accounts)
    (m : AggregateM PUnit) :
    atAccount a m accounts = match m (accounts.get a) with
      | .ok _ agg => .ok ⟨⟩ (accounts.insert a agg)
      | .error st agg => .error st (accounts.insert a agg) := by
  obtain ⟨agg, hagg⟩ := Finmap.mem_iff.mp h
  have hget : accounts.get a = agg := by simp [Accounts.get, hagg]
  rw [hget]
  cases hm : m agg <;> simp only [atAccount, hagg, hm]

theorem atAccount_postAll {a : AccountId} (ps : List (Posting Cell Status)) :
    ∀ {accounts : Accounts}, a ∈ accounts →
      atAccount a (postAll ps) accounts = postAll (ps.map (postingAt a)) accounts := by
  induction ps with
  | nil =>
    intro accounts h
    rw [atAccount_of_mem h]
    simp [insert_get_self h]
  | cons p ps ih =>
    intro accounts h
    have hmem (agg : AccountAggregate) : a ∈ accounts.insert a agg := by simp
    rw [atAccount_of_mem h, List.map_cons, postAll_cons, postAll_cons, EStateM.bind_apply,
      EStateM.bind_apply, post_at]
    by_cases hfits : p.Fits (accounts.get a)
    · obtain ⟨v, -, hpost⟩ := post_of_fits hfits
      rw [hpost]
      simp only
      rw [← ih (hmem _), atAccount_of_mem (hmem _), get_insert_self]
      simp only [Finmap.insert_insert]
    · rw [post_of_not_fits hfits]
      simp only [insert_get_self h]

theorem postAll_at_of_ok {a : AccountId} {ps : List (Posting Cell Status)} (hps : ps ≠ []) :
    ∀ {accounts : Accounts} {agg : AccountAggregate},
      postAll ps (accounts.get a) = .ok ⟨⟩ agg →
      postAll (ps.map (postingAt a)) accounts = .ok ⟨⟩ (accounts.insert a agg) := by
  intro accounts agg h
  obtain ⟨p, ps, rfl⟩ := List.exists_cons_of_ne_nil hps
  rw [postAll_cons, EStateM.bind_apply] at h
  rw [List.map_cons, postAll_cons, EStateM.bind_apply, post_at]
  cases hp : post p (accounts.get a) with
  | error st agg' => rw [hp] at h; cases h
  | ok u agg' =>
    rw [hp] at h
    have hmem : a ∈ accounts.insert a agg' := by simp
    simp only at h ⊢
    rw [← atAccount_postAll ps hmem, atAccount_of_mem hmem, get_insert_self, h]
    simp only [Finmap.insert_insert]

theorem postAll_cellPostings_zero (agg : AccountAggregate) :
    postAll (cellPostings agg) ({} : AccountAggregate) = .ok ⟨⟩ agg := by
  have hzero (c : Cell) : read ({} : AccountAggregate) c = 0 := by
    obtain ⟨b, d⟩ := c
    cases b <;> rfl
  obtain ⟨agg', h⟩ : ∃ agg', postAll (cellPostings agg) ({} : AccountAggregate) = .ok ⟨⟩ agg' := by
    apply (postAll_credits_ok_iff (credits_cellPostings agg) _).mpr
    intro c
    have hlt := toNat_lt_limit (agg.bucket c.1 c.2)
    rw [hzero, net_cellPostings]
    simp only [UInt64.toNat_zero]
    omega
  have heq : agg' = agg := by
    refine AccountAggregate.ext_bucket fun b => funext fun d => ?_
    have hread := read_of_postAll_ok h (b, d)
    rw [hzero, net_cellPostings, UInt64.toNat_zero] at hread
    rw [← UInt64.toNat_inj]
    change ((agg'.bucket b d).toNat : Int) = (0 : Nat) + ((agg.bucket b d).toNat : Int) at hread
    omega
  rw [h, heq]

theorem commitAccount_eq (a : AccountId) (agg : AccountAggregate) :
    commitAccount a agg = postAll ((cellPostings agg).map (postingAt a)) := by
  funext accounts
  unfold commitAccount
  rw [EStateM.bind_of_ok (EStateM.get_apply accounts)]
  by_cases hmem : a ∈ accounts
  · rw [if_pos hmem, commitCells_eq, atAccount_postAll _ hmem]
  · have hget : accounts.get a = {} := by
      simp [Accounts.get, Finmap.lookup_eq_none.mpr hmem]
    have hne : cellPostings agg ≠ [] := by
      simp [cellPostings, kCells, rowCells, kBuckets, List.finRange]
    rw [if_neg hmem, EStateM.set_apply]
    exact (postAll_at_of_ok hne (by rw [hget, postAll_cellPostings_zero])).symm

/-! ### The first loop -/

/-- The postings of `accumulateShare`. -/
def sharePostings (cls : ByteEnum EfficiencyClass) (sh : AttributionShare) :
    List (Posting Cell Status) :=
  ((List.finRange kDimensionCount).flatMap fun d =>
    [charge (.physical, d) (sh.physical d), charge (.avoided, d) (sh.avoided d),
      charge (.stranded, d) (sh.stranded d)]) ++
  match consumptionBucket cls with
  | some b => (List.finRange kDimensionCount).map fun d => charge (b, d) (sh.physical d)
  | none => []

theorem accumulateShare_eq (cls : ByteEnum EfficiencyClass) (sh : AttributionShare) :
    accumulateShare cls sh = postAll (sharePostings cls sh) := by
  have hlast : (postAll [] : AggregateM PUnit) = pure ⟨⟩ := rfl
  have hrow (d : Dimension) : (do
      chargeCell .physical d (sh.physical d)
      chargeCell .avoided d (sh.avoided d)
      chargeCell .stranded d (sh.stranded d)) =
      (postAll [charge (.physical, d) (sh.physical d), charge (.avoided, d) (sh.avoided d),
        charge (.stranded, d) (sh.stranded d)] : AggregateM PUnit) := by
    simp only [postAll_cons, hlast, bind_pure_unit]
    rfl
  unfold accumulateShare sharePostings
  rw [postAll_append, postAll_flatMap]
  simp only [hrow]
  cases consumptionBucket cls with
  | none => rfl
  | some b =>
    simp only [postAll]
    rfl

theorem sum_finRange_ite (v : Dimension → Int) (d : Dimension) :
    ((List.finRange kDimensionCount).map fun d' => if d' = d then v d' else 0).sum = v d := by
  rw [← Fin.sum_univ_def, Finset.sum_ite_eq' Finset.univ d v, if_pos (Finset.mem_univ d)]

theorem net_column (b b' : Bucket) (v : DimTotals) (d : Dimension) :
    net ((List.finRange kDimensionCount).map fun d' => charge (b', d') (v d')) (b, d) =
      if b' = b then ((v d).toNat : Int) else 0 := by
  rw [net, List.map_map]
  by_cases hb : b' = b
  · rw [if_pos hb, ← sum_finRange_ite (fun d => ((v d).toNat : Int)) d]
    congr 1
    apply List.map_congr_left
    intro d' _
    simp [charge, Posting.signed, hb]
  · rw [if_neg hb]
    apply List.sum_eq_zero
    intro x hx
    obtain ⟨d', -, rfl⟩ := List.mem_map.mp hx
    simp [charge, hb]

theorem consumptionBucket_cases {cls : ByteEnum EfficiencyClass} {b : Bucket}
    (h : consumptionBucket cls = some b) :
    b = .useful ∨ b = .overhead ∨ b = .waste ∨ b = .unknown := by
  unfold consumptionBucket at h
  split at h <;> simp_all

theorem net_sharePostings (cls : ByteEnum EfficiencyClass) (sh : AttributionShare) (b : Bucket)
    (d : Dimension) : net (sharePostings cls sh) (b, d) = (sh.amount cls b d).toNat := by
  have hrows : net ((List.finRange kDimensionCount).flatMap fun d =>
      [charge (.physical, d) (sh.physical d), charge (.avoided, d) (sh.avoided d),
        charge (.stranded, d) (sh.stranded d)]) (b, d) =
      (if Bucket.physical = b then ((sh.physical d).toNat : Int) else 0) +
        (if Bucket.avoided = b then ((sh.avoided d).toNat : Int) else 0) +
        (if Bucket.stranded = b then ((sh.stranded d).toNat : Int) else 0) := by
    rw [net_flatMap, ← net_column, ← net_column, ← net_column, net, net, net, List.map_map,
      List.map_map, List.map_map, ← List.sum_map_add, ← List.sum_map_add]
    congr 1
    apply List.map_congr_left
    intro d' _
    simp only [net_cons, net_nil, Function.comp_apply]
    ring
  rw [sharePostings, net_append, hrows]
  cases hc : consumptionBucket cls with
  | none => cases b <;> simp [AttributionShare.amount, hc]
  | some b' =>
    rw [net_column]
    rcases consumptionBucket_cases hc with rfl | rfl | rfl | rfl <;> cases b <;>
      simp [AttributionShare.amount, hc]

theorem credits_sharePostings (cls : ByteEnum EfficiencyClass) (sh : AttributionShare) :
    Credits (sharePostings cls sh) := by
  intro p hp
  rcases List.mem_append.mp hp with h | h
  · obtain ⟨d, -, hd⟩ := List.mem_flatMap.mp h
    simp only [List.mem_cons, List.not_mem_nil, or_false] at hd
    rcases hd with rfl | rfl | rfl <;> rfl
  · cases hc : consumptionBucket cls with
    | none => simp [hc] at h
    | some b =>
      rw [hc] at h
      obtain ⟨d, -, rfl⟩ := List.mem_map.mp h
      rfl

theorem pendingOf_spec (cls : ByteEnum EfficiencyClass) (shares : List AttributionShare)
    (hfit : ∀ a b d, postedBy cls shares a b d < u64Limit) :
    ∃ pending, pendingOf cls shares = .ok pending ∧
      ∀ a b d, ((pending.get a).bucket b d).toNat = postedBy cls shares a b d := by
  suffices hgen : ∀ start : Accounts,
      (∀ a b d, ((start.get a).bucket b d).toNat + postedBy cls shares a b d < u64Limit) →
      ∃ pending, shares.foldlM (fun pending sh =>
          match accumulateShare cls sh (Accounts.get pending sh.account) with
          | .ok _ agg => .ok (pending.insert sh.account agg)
          | .error st _ => .error st) start = (.ok pending : Except Status Accounts) ∧
        ∀ a b d, ((pending.get a).bucket b d).toNat =
          ((start.get a).bucket b d).toNat + postedBy cls shares a b d by
    have hzero (a : AccountId) (b : Bucket) (d : Dimension) :
        ((Accounts.get ∅ a).bucket b d).toNat = 0 := by
      cases b <;> rfl
    obtain ⟨pending, hok, hval⟩ := hgen ∅ fun a b d => by
      rw [hzero, Nat.zero_add]
      exact hfit a b d
    exact ⟨pending, hok, fun a b d => by rw [hval, hzero, Nat.zero_add]⟩
  clear hfit
  induction shares with
  | nil => exact fun start _ => ⟨start, rfl, fun a b d => rfl⟩
  | cons sh shares ih =>
    intro start hfit
    obtain ⟨agg, hagg⟩ : ∃ agg, accumulateShare cls sh (start.get sh.account) = .ok ⟨⟩ agg := by
      rw [accumulateShare_eq]
      refine (postAll_credits_ok_iff (credits_sharePostings cls sh) _).mpr fun ⟨b, d⟩ => ?_
      have := hfit sh.account b d
      rw [postedBy_cons, if_pos rfl] at this
      rw [net_sharePostings]
      change (((start.get sh.account).bucket b d).toNat : Int) + _ < _
      omega
    have hread (b : Bucket) (d : Dimension) : (agg.bucket b d).toNat =
        ((start.get sh.account).bucket b d).toNat + (sh.amount cls b d).toNat := by
      rw [accumulateShare_eq] at hagg
      have h := read_of_postAll_ok hagg (b, d)
      rw [net_sharePostings] at h
      change ((agg.bucket b d).toNat : Int) = ((start.get sh.account).bucket b d).toNat + _ at h
      omega
    have hnext (a : AccountId) (b : Bucket) (d : Dimension) :
        ((Accounts.get (start.insert sh.account agg) a).bucket b d).toNat +
            postedBy cls shares a b d =
          ((start.get a).bucket b d).toNat + postedBy cls (sh :: shares) a b d := by
      rw [postedBy_cons]
      by_cases ha : sh.account = a
      · subst ha
        rw [get_insert_self, hread, if_pos rfl]
        omega
      · rw [get_insert_of_ne _ _ (Ne.symm ha), if_neg ha, Nat.zero_add]
    obtain ⟨pending, hok, hval⟩ := ih (start.insert sh.account agg) fun a b d => by
      rw [hnext]
      exact hfit a b d
    refine ⟨pending, ?_, fun a b d => by rw [hval, hnext]⟩
    rw [List.foldlM_cons, hagg]
    exact hok

/-! ### Both loops -/

/-- What the entry brings to the counters of an account. -/
def entryTotals (e : LedgerEntry) (a : AccountId) : AccountAggregate :=
  let cells (b : Bucket) : DimTotals := fun d => UInt64.ofNat (attributed e a b d)
  { physical := cells .physical
    useful := cells .useful
    overhead := cells .overhead
    waste := cells .waste
    unknown := cells .unknown
    avoided := cells .avoided
    stranded := cells .stranded }

theorem bucket_entryTotals (e : LedgerEntry) (a : AccountId) (b : Bucket) (d : Dimension) :
    ((entryTotals e a).bucket b d).toNat = attributed e a b d := by
  rw [← toNat_ofNat_of_lt (attributed_lt e a b d)]
  cases b <;> rfl

/-- The accounts the first loop accesses, in order. -/
def accountsOf (e : LedgerEntry) : List AccountId := (computeAttribution e).shares.map (·.account)

section Append

variable (ord : IterationOrder) (e : LedgerEntry)

/-- The postings an ordinary entry makes to the totals of the ledger, in order. -/
def appendPostings : List (Posting (AccountId × Cell) Status) :=
  (ord.arrange (accountsOf e)).flatMap fun a => (cellPostings (entryTotals e a)).map (postingAt a)

/-- **The totals loops of an entry are its postings.** -/
theorem applyAttribution_eq :
    applyAttribution ord e (computeAttribution e) = postAll (appendPostings ord e) := by
  obtain ⟨pending, hok, hval⟩ := pendingOf_spec e.classification (computeAttribution e).shares
    (attributed_lt e)
  have hget (a : AccountId) : pending.get a = entryTotals e a := by
    refine AccountAggregate.ext_bucket fun b => funext fun d => ?_
    rw [← UInt64.toNat_inj, hval, bucket_entryTotals]
    rfl
  funext accounts
  unfold applyAttribution
  simp only [hok, hget, commitAccount_eq]
  rw [appendPostings, postAll_flatMap]
  rfl

theorem mem_arrange {a : AccountId} {l : List AccountId} : a ∈ ord.arrange l ↔ a ∈ l := by
  rw [(ord.perm l).mem_iff, List.mem_dedup]

theorem mem_appendPostings {p : Posting (AccountId × Cell) Status} :
    p ∈ appendPostings ord e ↔ ∃ a ∈ accountsOf e, ∃ b d,
      p = postingAt a (charge (b, d) ((entryTotals e a).bucket b d)) := by
  constructor
  · intro hp
    obtain ⟨a, ha, hp⟩ := List.mem_flatMap.mp hp
    obtain ⟨q, hq, rfl⟩ := List.mem_map.mp hp
    obtain ⟨⟨b, d⟩, -, rfl⟩ := List.mem_map.mp hq
    exact ⟨a, (mem_arrange ord).mp ha, b, d, rfl⟩
  · rintro ⟨a, ha, b, d, rfl⟩
    exact List.mem_flatMap.mpr ⟨a, (mem_arrange ord).mpr ha,
      List.mem_map_of_mem (List.mem_map_of_mem (mem_kCells (b, d)))⟩

theorem credits_appendPostings : Credits (appendPostings ord e) := by
  intro p hp
  obtain ⟨a, -, b, d, rfl⟩ := (mem_appendPostings ord e).mp hp
  rfl

theorem nodup_keys_appendPostings : ((appendPostings ord e).map Posting.key).Nodup := by
  have hkeys : (appendPostings ord e).map Posting.key =
      (ord.arrange (accountsOf e)).product kCells := by
    have hkey (a : AccountId) : ((cellPostings (entryTotals e a)).map (postingAt a)).map Posting.key =
        kCells.map (Prod.mk a) := by
      rw [← keys_cellPostings (entryTotals e a), List.map_map, List.map_map]
      rfl
    simp only [appendPostings, List.map_flatMap, hkey]
    rfl
  rw [hkeys]
  exact List.Nodup.product ((ord.perm _).nodup_iff.mpr (List.nodup_dedup _)) nodup_kCells

theorem net_appendPostings (a : AccountId) (b : Bucket) (d : Dimension) :
    net (appendPostings ord e) (a, b, d) = attributed e a b d := by
  by_cases ha : a ∈ accountsOf e
  · have hmem := (mem_appendPostings ord e).mpr ⟨a, ha, b, d, rfl⟩
    have hnet := net_of_mem (nodup_keys_appendPostings ord e) hmem
    rw [← bucket_entryTotals]
    exact hnet
  · have hzero : attributed e a b d = 0 := by
      refine attributed_eq_zero e a b d fun sh hsh heq => ha ?_
      exact List.mem_map.mpr ⟨sh, hsh, heq⟩
    rw [hzero]
    apply net_eq_zero
    intro p hp hk
    obtain ⟨a', ha', b', d', rfl⟩ := (mem_appendPostings ord e).mp hp
    rw [show a' = a from congrArg Prod.fst hk] at ha'
    exact absurd ha' ha

end Append

/-! ### Revisions -/

/-- The postings that move a share from one bucket of its account to another. -/
def movePostings (src dst : Bucket) (sh : AttributionShare) : List (Posting Cell Status) :=
  ((List.finRange kDimensionCount).map fun d =>
    ⟨(src, d), .debit, sh.physical d,
      ⟨ErrorCode.kReconciliationFailure, "reclassify underflow"⟩⟩) ++
  (List.finRange kDimensionCount).map fun d =>
    ⟨(dst, d), .credit, sh.physical d, ⟨ErrorCode.kReconciliationFailure, "reclassify overflow"⟩⟩

theorem moveShare_eq {oldCls newCls : ByteEnum EfficiencyClass} {src dst : Bucket}
    (hsrc : consumptionBucket oldCls = some src) (hdst : consumptionBucket newCls = some dst)
    (sh : AttributionShare) :
    moveShare oldCls newCls sh = postAll (movePostings src dst sh) := by
  have hforM (f : Dimension → Posting Cell Status) :
      (forDims fun d => post (f d) : AggregateM PUnit) =
        postAll ((List.finRange kDimensionCount).map f) := by
    rw [postAll]
    rfl
  unfold moveShare movePostings
  simp only [hsrc, hdst, postAll_append, ← hforM]
  rfl

/-- The postings of a revision that moves the shares of its target from the bucket of one class to
that of another; shares of accounts the ledger does not hold are skipped. -/
def revisionPostings (accounts : Accounts) (oldCls newCls : ByteEnum EfficiencyClass)
    (shares : List AttributionShare) : List (Posting (AccountId × Cell) Status) :=
  match consumptionBucket oldCls, consumptionBucket newCls with
  | some src, some dst => (shares.filter (·.account ∈ accounts)).flatMap fun sh =>
      (movePostings src dst sh).map (postingAt sh.account)
  | _, _ => []

theorem mem_atAccount {a a' : AccountId} {accounts : Accounts} {m : AggregateM PUnit} :
    a' ∈ (atAccount a m accounts).state ↔ a' ∈ accounts := by
  by_cases ha : a ∈ accounts
  · have hins (agg : AccountAggregate) : a' ∈ accounts.insert a agg ↔ a' ∈ accounts := by
      rw [Finmap.mem_insert]
      exact ⟨fun h => h.elim (fun he => he ▸ ha) id, .inr⟩
    rw [atAccount_of_mem ha]
    cases m (accounts.get a) with
    | ok u agg => exact hins agg
    | error st agg => exact hins agg
  · simp [atAccount, Finmap.lookup_eq_none.mpr ha]

theorem moveShares_eq {oldCls newCls : ByteEnum EfficiencyClass} {src dst : Bucket}
    (hsrc : consumptionBucket oldCls = some src) (hdst : consumptionBucket newCls = some dst)
    (shares : List AttributionShare) : ∀ accounts : Accounts,
      (shares.forM fun sh => atAccount sh.account (moveShare oldCls newCls sh)) accounts =
        postAll (revisionPostings accounts oldCls newCls shares) accounts := by
  simp only [revisionPostings, hsrc, hdst, moveShare_eq hsrc hdst]
  induction shares with
  | nil => exact fun accounts => rfl
  | cons sh shares ih =>
    intro accounts
    rw [EStateM.forM_cons_apply, EStateM.bind_apply]
    by_cases hmem : sh.account ∈ accounts
    · rw [List.filter_cons_of_pos (by simpa using hmem), List.flatMap_cons, postAll_append,
        EStateM.bind_apply, ← atAccount_postAll _ hmem]
      have hkeep (a : AccountId) :=
        @mem_atAccount sh.account a accounts (postAll (movePostings src dst sh))
      cases hrun : atAccount sh.account (postAll (movePostings src dst sh)) accounts with
      | error st accounts' => rfl
      | ok u accounts' =>
        rw [hrun] at hkeep
        simp only [EStateM.Result.state] at hkeep
        simp only [ih, hkeep]
    · rw [List.filter_cons_of_neg (by simpa using hmem)]
      simp only [atAccount, Finmap.lookup_eq_none.mpr hmem]
      exact ih accounts

/-- One unit for the bucket a revision moves to, minus one for the bucket it moves from. -/
def moveWeight (src dst b : Bucket) : Int := (if dst = b then 1 else 0) - if src = b then 1 else 0

theorem net_movePostings (src dst : Bucket) (sh : AttributionShare) (b : Bucket) (d : Dimension) :
    net (movePostings src dst sh) (b, d) = (sh.physical d).toNat * moveWeight src dst b := by
  have hcol (b' : Bucket) (f : Dimension → Int) :
      ((List.finRange kDimensionCount).map fun d' => if (b', d') = (b, d) then f d' else 0).sum =
        if b' = b then f d else 0 := by
    by_cases hb : b' = b
    · simp [hb, sum_finRange_ite]
    · simp [hb]
  rw [movePostings, net_append, net, net, List.map_map, List.map_map]
  simp only [Function.comp_def, Posting.signed]
  rw [hcol src fun d' => -((sh.physical d').toNat : Int), hcol dst fun d' => (sh.physical d').toNat]
  unfold moveWeight
  by_cases hs : src = b <;> by_cases hd : dst = b <;> simp [hs, hd]

theorem net_map_postingAt (a a' : AccountId) (c : Cell) (ps : List (Posting Cell Status)) :
    net (ps.map (postingAt a)) (a', c) = if a = a' then net ps c else 0 := by
  have hsigned (p : Posting Cell Status) : (postingAt a p).signed = p.signed := rfl
  induction ps with
  | nil => simp
  | cons p ps ih =>
    rw [List.map_cons, net_cons, net_cons, ih, hsigned]
    by_cases ha : a = a'
    · simp [postingAt, ha]
    · simp [postingAt, ha]

/-- Either the map holds the account of the share, or there is nothing to move. -/
def Movable (accounts : Accounts) (shares : List AttributionShare) : Prop :=
  ∀ sh ∈ shares, sh.account ∈ accounts ∨ ∀ d, sh.physical d = 0

theorem net_revisionPostings {oldCls newCls : ByteEnum EfficiencyClass} {src dst : Bucket}
    (hsrc : consumptionBucket oldCls = some src) (hdst : consumptionBucket newCls = some dst)
    {accounts : Accounts} {shares : List AttributionShare} (h : Movable accounts shares)
    (cls : ByteEnum EfficiencyClass) (a : AccountId) (b : Bucket) (d : Dimension) :
    net (revisionPostings accounts oldCls newCls shares) (a, b, d) =
      postedBy cls shares a .physical d * moveWeight src dst b := by
  simp only [revisionPostings, hsrc, hdst, net_flatMap, net_map_postingAt, net_movePostings]
  induction shares with
  | nil => simp
  | cons sh shares ih =>
    have htail : Movable accounts shares := fun x hx => h x (by simp [hx])
    rw [postedBy_cons]
    by_cases hmem : sh.account ∈ accounts
    · rw [List.filter_cons_of_pos (by simpa using hmem), List.map_cons, List.sum_cons, ih htail]
      by_cases ha : sh.account = a
      · simp only [ha, if_true, AttributionShare.amount]
        push_cast
        ring
      · simp only [ha, if_false, Nat.zero_add, Int.zero_add]
    · have hzero : sh.amount cls .physical d = 0 := (h sh (by simp)).resolve_left hmem d
      rw [List.filter_cons_of_neg (by simpa using hmem), ih htail, hzero]
      simp

theorem filter_revisionPostings (oldCls newCls : ByteEnum EfficiencyClass) {accounts : Accounts}
    {shares : List AttributionShare} (h : Movable accounts shares) {src dst : Bucket}
    (hsrc : consumptionBucket oldCls = some src) (hdst : consumptionBucket newCls = some dst) :
    (revisionPostings accounts oldCls newCls shares).filter (·.amount ≠ 0) =
      (shares.flatMap fun sh => (movePostings src dst sh).map (postingAt sh.account)).filter
        (·.amount ≠ 0) := by
  simp only [revisionPostings, hsrc, hdst]
  induction shares with
  | nil => rfl
  | cons sh shares ih =>
    have htail : Movable accounts shares := fun x hx => h x (by simp [hx])
    rw [List.flatMap_cons, List.filter_append, ← ih htail]
    by_cases hmem : sh.account ∈ accounts
    · rw [List.filter_cons_of_pos (by simpa using hmem), List.flatMap_cons, List.filter_append]
    · have hzero := (h sh (by simp)).resolve_left hmem
      have hnone : ((movePostings src dst sh).map (postingAt sh.account)).filter (·.amount ≠ 0) =
          [] := by
        apply List.filter_eq_nil_iff.mpr
        intro p hp
        obtain ⟨q, hq, rfl⟩ := List.mem_map.mp hp
        rcases List.mem_append.mp hq with hq | hq
        · obtain ⟨d, -, rfl⟩ := List.mem_map.mp hq
          simp [postingAt, hzero d]
        · obtain ⟨d, -, rfl⟩ := List.mem_map.mp hq
          simp [postingAt, hzero d]
      rw [List.filter_cons_of_neg (by simpa using hmem), hnone, List.nil_append]

end El
