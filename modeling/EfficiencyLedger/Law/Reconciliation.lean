import EfficiencyLedger.Law.Closure
import EfficiencyLedger.Model.Reconcile
import Mathlib.Algebra.Order.BigOperators.Group.Finset

/-!
# Reconciliation

`reconcile` adds without checks. Calls that give up in the middle may leave the consumption totals
behind the physical total of an account, but never ahead of it (`bounded_run`). So the sum that is
compared in each account does not wrap around, and the verdict is exact (`reconcile_exact`). Nothing
bounds the sums over all accounts: what is reported is their exact value where they fit
(`reported_exact_iff`), and two accounts are enough to leave that range (`reported_wraps`).
-/

namespace El

open CheckedU64 Counters CounterStore EStateM

/-! ### The consumption totals never exceed the physical one -/

/-- Cut anywhere, the postings leave the consumption totals behind the physical total. -/
def Lags (ps : List (Posting (AccountId × Cell) Status)) : Prop :=
  ∀ pre, pre <+: ps → ∀ a d, imbalance pre a d ≤ 0

theorem lags_nil : Lags [] := by
  intro pre hpre a d
  rw [List.prefix_nil.mp hpre]
  exact Int.le_refl 0

theorem Lags.append {ps qs : List (Posting (AccountId × Cell) Status)} (hps : Lags ps)
    (hqs : Lags qs) : Lags (ps ++ qs) := by
  rintro pre ⟨suf, hsplit⟩ a d
  rcases List.append_eq_append_iff.mp hsplit with ⟨rest, hps', -⟩ | ⟨rest, rfl, hqs'⟩
  · exact hps pre ⟨rest, hps'.symm⟩ a d
  · have hleft := hps ps (List.prefix_refl ps) a d
    have hright := hqs rest ⟨suf, hqs'.symm⟩ a d
    rw [imbalance_append]
    omega

theorem lags_flatMap {ι : Type} {l : List ι} {f : ι → List (Posting (AccountId × Cell) Status)}
    (h : ∀ x ∈ l, Lags (f x)) : Lags (l.flatMap f) := by
  induction l with
  | nil => exact lags_nil
  | cons x l ih =>
    rw [List.flatMap_cons]
    exact (h x (by simp)).append (ih fun y hy => h y (List.mem_cons_of_mem x hy))

theorem sum_classWeight_le (c : ByteEnum EfficiencyClass) :
    classWeight c .useful + classWeight c .overhead + classWeight c .waste +
      classWeight c .unknown ≤ 1 := by
  cases hclass : isConsumptionClass c with
  | true => exact (sum_classWeight_consumption hclass).le
  | false =>
    have hnone : consumptionBucket c = none := by
      apply Option.isNone_iff_eq_none.mp
      rw [← consumptionBucket_isSome] at hclass
      simpa using hclass
    simp only [classWeight_eq_zero hnone]
    decide

theorem attributed_classes_le (e : LedgerEntry) (a : AccountId) (d : Dimension) :
    attributed e a .useful d + attributed e a .overhead d + attributed e a .waste d +
      attributed e a .unknown d ≤ attributed e a .physical d := by
  have hsum := attributed_classes e a d
  have hweights := sum_classWeight_le e.classification
  have hmul := Int.mul_le_mul_of_nonneg_left hweights
    (Int.natCast_nonneg (attributed e a .physical d))
  rw [mul_one, ← hsum] at hmul
  omega

theorem lags_rowPostings (e : LedgerEntry) (a : AccountId) (d : Dimension) :
    Lags (rowPostings e a d) := by
  intro pre hpre a' d'
  obtain ⟨bs, hbs, rfl⟩ := List.prefix_map_iff.mp hpre
  have hnodup : bs.Nodup := hbs.sublist.nodup (by decide)
  have hclasses := attributed_classes_le e a d
  -- The physical amount comes first.
  have hfirst : bs = [] ∨ Bucket.physical ∈ bs := by
    cases bs with
    | nil => exact .inl rfl
    | cons x bs =>
      obtain ⟨rfl, -⟩ := List.cons_prefix_cons.mp hbs
      exact .inr (List.mem_cons_self ..)
  rcases hfirst with rfl | hphysical
  · exact Int.le_refl 0
  · unfold imbalance
    simp only [net_rowPart hnodup, hphysical, true_and]
    by_cases hcell : a = a' ∧ d = d'
    · obtain ⟨rfl, rfl⟩ := hcell
      simp only [and_true, if_true]
      split_ifs <;> omega
    · simp only [hcell, and_false, if_false]
      omega

theorem lags_appendPostings (ord : IterationOrder) (e : LedgerEntry) :
    Lags (appendPostings ord e) := by
  rw [appendPostings_eq_rows]
  apply lags_flatMap
  intro a _
  apply lags_flatMap
  intro d _
  exact lags_rowPostings e a d

theorem lags_movePostings {c c' : ByteEnum EfficiencyClass} {src dst : Bucket}
    (hsrc : consumptionBucket c = some src) (hdst : consumptionBucket c' = some dst)
    (sh : AttributionShare) (a : AccountId) :
    Lags ((movePostings src dst sh).map (postingAt a)) := by
  -- The move of a share takes the whole of it out before it adds any of it.
  intro pre hpre a' d
  by_cases ha : a = a'
  · subst ha
    obtain ⟨suf, hsplit⟩ := hpre
    obtain ⟨taken, added, htaken, hadded, hsub, rfl, -⟩ := exists_movedPart_of_split hsplit.symm
    rw [imbalance_movedPart hsrc hdst htaken hadded]
    by_cases hd : d ∈ added
    · rw [if_pos hd, if_pos (hsub hd)]
      omega
    · rw [if_neg hd]
      split <;> omega
  · refine (imbalance_eq_zero a' d fun p hp hk _ => absurd ?_ ha).le
    obtain ⟨q, -, rfl⟩ := List.mem_map.mp (hpre.subset hp)
    exact hk

theorem lags_postings (ord : IterationOrder) (b : Books) (e : LedgerEntry) :
    Lags (postings ord b e) := by
  by_cases hevent : e.event = EventType.kReclassify
  · cases ht : b.target e with
    | none =>
      have hnil : postings ord b e = [] := by
        rw [postings, if_pos hevent, ht]
      rw [hnil]
      exact lags_nil
    | some t =>
      rw [postings_of_revision ord hevent ht]
      unfold revisionPostings
      split
      · rename_i src dst hsrc hdst
        apply lags_flatMap
        intro sh _
        exact lags_movePostings hsrc hdst sh sh.account
      · exact lags_nil
  · rw [postings_of_ordinary ord b hevent]
    exact lags_appendPostings ord e

theorem Accounts.Bounded.postAll {accounts accounts' : Accounts}
    {ps : List (Posting (AccountId × Cell) Status)} (h : accounts.Bounded) (hps : Lags ps)
    {pre : List (Posting (AccountId × Cell) Status)} (hpre : pre <+: ps)
    (hpost : Counters.postAll pre accounts = .ok ⟨⟩ accounts') : accounts'.Bounded := by
  intro a d
  have hbounded := h a d
  have hlags := hps pre hpre a d
  have hdifference := difference_of_postAll hpost a d
  omega

theorem bounded_appendLocked (ord : IterationOrder) (s : EfficiencyLedger) (e : LedgerEntry)
    (h : s.accounts.Bounded) : (appendLocked ord e s).state.accounts.Bounded := by
  obtain ⟨pre, hpre, hpost⟩ := accounts_appendLocked ord s e
  exact h.postAll (lags_postings ord s.toBooks e) hpre hpost

/-- **In every reachable state the consumption totals of an account add up to its physical total at
most.** -/
theorem bounded_run (ord : IterationOrder) (id : LedgerId) (ops : List Op) :
    (run ord (.fresh id) ops).accounts.Bounded :=
  books_invariant (P := fun b => b.accounts.Bounded) (fun _ _ => Nat.le_refl 0)
    (bounded_appendLocked ord) (s := .fresh id) (fun _ _ => Nat.le_refl 0) ops

/-! ### The verdict -/

theorem get_of_not_mem {accounts : Accounts} {a : AccountId} (h : a ∉ accounts) :
    accounts.get a = {} := by
  rw [Accounts.get, Finmap.lookup_eq_none.mpr h]
  rfl

section Bounded

variable {accounts : Accounts} (h : accounts.Bounded) (a : AccountId) (d : Dimension)
include h

theorem toNat_classified : ((accounts.get a).classified d).toNat =
    ((accounts.get a).useful d).toNat + ((accounts.get a).overhead d).toNat +
      ((accounts.get a).waste d).toNat + ((accounts.get a).unknown d).toNat := by
  have hbounded := h a d
  have hlt := toNat_lt_limit ((accounts.get a).physical d)
  have htwo := toNat_add_of_lt (a := (accounts.get a).useful d) (b := (accounts.get a).overhead d)
    (by omega)
  have hthree := toNat_add_of_lt (a := (accounts.get a).useful d + (accounts.get a).overhead d)
    (b := (accounts.get a).waste d) (by omega)
  unfold AccountAggregate.classified
  rw [toNat_add_of_lt (by omega), hthree, htwo]

theorem classified_eq_physical_iff :
    (accounts.get a).classified d = (accounts.get a).physical d ↔
      ((accounts.get a).physical d).toNat =
        ((accounts.get a).useful d).toNat + ((accounts.get a).overhead d).toNat +
          ((accounts.get a).waste d).toNat + ((accounts.get a).unknown d).toNat := by
  rw [← UInt64.toNat_inj, toNat_classified h]
  exact eq_comm

theorem perDimensionClosed_iff (accs : Enumeration accounts) (entryCount : Nat) :
    (reconcileAccounts accounts accs.order entryCount).perDimensionClosed d = true ↔
      ∀ a, ((accounts.get a).physical d).toNat =
        ((accounts.get a).useful d).toNat + ((accounts.get a).overhead d).toNat +
          ((accounts.get a).waste d).toNat + ((accounts.get a).unknown d).toNat := by
  rw [reconcileAccounts, decide_eq_true_iff]
  constructor
  · rintro ⟨-, hequal⟩ a
    by_cases ha : a ∈ accounts
    · exact (classified_eq_physical_iff h a d).mp (hequal a ((accs.mem_order a).mpr ha))
    · rw [get_of_not_mem ha]
      rfl
  · intro hexact
    have hequal (a : AccountId) := (classified_eq_physical_iff h a d).mpr (hexact a)
    refine ⟨?_, fun a _ => hequal a⟩
    unfold addUp
    simp only [hequal]

end Bounded

/-- **The verdict of `reconcile` is exact** in every reachable state: the report is closed, as a whole
or in a dimension, exactly where the totals are. -/
theorem reconcile_exact (ord : IterationOrder) (id : LedgerId) (ops : List Op)
    (accs : Enumeration (run ord (.fresh id) ops).accounts) :
    let s := run ord (.fresh id) ops
    ((reconcile s accs).closed = true ↔ s.accounts.Closed) ∧
      ∀ d, (reconcile s accs).perDimensionClosed d = true ↔
        ∀ a, ((s.accounts.get a).physical d).toNat =
          ((s.accounts.get a).useful d).toNat + ((s.accounts.get a).overhead d).toNat +
            ((s.accounts.get a).waste d).toNat + ((s.accounts.get a).unknown d).toNat := by
  intro s
  have hdim (d : Dimension) :=
    perDimensionClosed_iff (bounded_run ord id ops) d accs s.history.length
  refine ⟨?_, hdim⟩
  rw [reconcile, reconcileAccounts, decide_eq_true_iff]
  constructor
  · intro hclosed a d
    exact (hdim d).mp (hclosed d) a
  · intro hclosed d
    exact (hdim d).mpr fun a => hclosed a d

/-! ### The totals over all accounts -/

/-- Every map can be iterated over. -/
instance (accounts : Accounts) : Nonempty (Enumeration accounts) :=
  ⟨{ order := accounts.keys.toList
     nodup := accounts.keys.nodup_toList
     mem_order := fun a => by rw [Finset.mem_toList, Finmap.mem_keys] }⟩

/-- The exact sum over all accounts. -/
def Accounts.total (accounts : Accounts) (amount : AccountAggregate → Nat) : Nat :=
  ∑ a ∈ accounts.keys, amount (accounts.get a)

theorem toNat_foldl_add (accounts : Accounts) (counter : AccountAggregate → DimTotals)
    (d : Dimension) (order : List AccountId) :
    ∀ start : UInt64,
      (order.foldl (fun sum acc => sum + counter (accounts.get acc) d) start).toNat =
        (start.toNat + (order.map fun a => (counter (accounts.get a) d).toNat).sum) % u64Limit := by
  induction order with
  | nil =>
    intro start
    exact (Nat.mod_eq_of_lt (toNat_lt_limit start)).symm
  | cons a order ih =>
    intro start
    rw [List.foldl_cons, ih, UInt64.toNat_add, List.map_cons, List.sum_cons, ← Nat.add_assoc]
    exact Nat.mod_add_mod ..

theorem toNat_addUp {accounts : Accounts} (accs : Enumeration accounts)
    (counter : AccountAggregate → DimTotals) (d : Dimension) :
    (addUp accounts counter accs.order d).toNat =
      accounts.total (fun agg => (counter agg d).toNat) % u64Limit := by
  have hkeys : accs.order.toFinset = accounts.keys := by
    ext a
    rw [List.mem_toFinset, accs.mem_order, Finmap.mem_keys]
  rw [addUp, toNat_foldl_add, UInt64.toNat_zero, Nat.zero_add, Accounts.total, ← hkeys,
    List.sum_toFinset _ accs.nodup]

theorem toNat_addUp_eq_iff {accounts : Accounts} (accs : Enumeration accounts)
    (counter : AccountAggregate → DimTotals) (d : Dimension) :
    (addUp accounts counter accs.order d).toNat =
        accounts.total (fun agg => (counter agg d).toNat) ↔
      accounts.total (fun agg => (counter agg d).toNat) < u64Limit := by
  constructor
  · intro hexact
    rw [← hexact]
    exact toNat_lt_limit _
  · intro hfits
    rw [toNat_addUp, Nat.mod_eq_of_lt hfits]

theorem total_classified {accounts : Accounts} (h : accounts.Bounded) (d : Dimension) :
    accounts.total (fun agg => (agg.classified d).toNat) =
      accounts.total fun agg => (agg.useful d).toNat + (agg.overhead d).toNat +
        (agg.waste d).toNat + (agg.unknown d).toNat :=
  Finset.sum_congr rfl fun a _ => toNat_classified h a d

theorem Accounts.Bounded.total_le {accounts : Accounts} (h : accounts.Bounded) (d : Dimension) :
    accounts.total (fun agg => (agg.classified d).toNat) ≤
      accounts.total fun agg => (agg.physical d).toNat := by
  apply Finset.sum_le_sum
  intro a _
  exact (toNat_classified h a d).trans_le (h a d)

/-- **The reported totals are exact where the exact ones fit**, in every reachable state and every
dimension. -/
theorem reported_exact_iff (ord : IterationOrder) (id : LedgerId) (ops : List Op)
    (accs : Enumeration (run ord (.fresh id) ops).accounts) (d : Dimension) :
    let s := run ord (.fresh id) ops
    let r := reconcile s accs
    ((r.physical d).toNat = s.accounts.total (fun agg => (agg.physical d).toNat) ∧
      (r.classified d).toNat = s.accounts.total (fun agg => (agg.useful d).toNat +
        (agg.overhead d).toNat + (agg.waste d).toNat + (agg.unknown d).toNat) ∧
      (r.avoided d).toNat = s.accounts.total (fun agg => (agg.avoided d).toNat) ∧
      (r.stranded d).toNat = s.accounts.total (fun agg => (agg.stranded d).toNat)) ↔
    s.accounts.total (fun agg => (agg.physical d).toNat) < u64Limit ∧
      s.accounts.total (fun agg => (agg.avoided d).toNat) < u64Limit ∧
      s.accounts.total (fun agg => (agg.stranded d).toNat) < u64Limit := by
  intro s r
  have hbounded : s.accounts.Bounded := bounded_run ord id ops
  have hexact (counter : AccountAggregate → DimTotals) := toNat_addUp_eq_iff accs counter d
  rw [← total_classified hbounded]
  constructor
  · rintro ⟨hphysical, -, havoided, hstranded⟩
    exact ⟨(hexact _).mp hphysical, (hexact _).mp havoided, (hexact _).mp hstranded⟩
  · rintro ⟨hphysical, havoided, hstranded⟩
    have hclassified := (hbounded.total_le d).trans_lt hphysical
    exact ⟨(hexact _).mpr hphysical, (hexact _).mpr hclassified, (hexact _).mpr havoided,
      (hexact _).mpr hstranded⟩

/-- Two accounts with usage in the first dimension, the largest amount and one unit. -/
def twoAccounts : List Op :=
  let entry (id : UInt64) (account : AccountId) (amount : UInt64) : LedgerEntry :=
    { id := ⟨id⟩
      event := EventType.kExecutionProgress
      usage := ⟨fun d => if d.val = 0 then amount else 0⟩
      account }
  [.append (entry 1 ⟨7⟩ 0xFFFFFFFFFFFFFFFF), .append (entry 2 ⟨8⟩ 1)]

theorem total_twoAccounts :
    (run default (.fresh kDefaultLedgerId) twoAccounts).accounts.total
      (fun agg => (agg.physical 0).toNat) = u64Limit := by
  decide +kernel

/-- The usage of two accounts is more than a counter holds. -/
theorem reported_wraps :
    ¬ ∀ (ord : IterationOrder) (id : LedgerId) (ops : List Op)
      (accs : Enumeration (run ord (.fresh id) ops).accounts) (d : Dimension),
      let s := run ord (.fresh id) ops
      let r := reconcile s accs
      (r.physical d).toNat = s.accounts.total (fun agg => (agg.physical d).toNat) ∧
        (r.classified d).toNat = s.accounts.total (fun agg => (agg.useful d).toNat +
          (agg.overhead d).toNat + (agg.waste d).toNat + (agg.unknown d).toNat) ∧
        (r.avoided d).toNat = s.accounts.total (fun agg => (agg.avoided d).toNat) ∧
        (r.stranded d).toNat = s.accounts.total (fun agg => (agg.stranded d).toNat) := by
  intro h
  obtain ⟨accs⟩ : Nonempty (Enumeration
      (run default (.fresh kDefaultLedgerId) twoAccounts).accounts) := inferInstance
  have hphysical := (h default kDefaultLedgerId twoAccounts accs 0).1
  exact absurd (hphysical.trans total_twoAccounts) (toNat_lt_limit _).ne

end El
