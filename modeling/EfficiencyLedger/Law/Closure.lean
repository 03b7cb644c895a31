import EfficiencyLedger.Law.Atomicity
import EfficiencyLedger.Proof.Totals

/-!
# Closure of the totals

The physical total of an account is the sum of its four consumption totals. The commit loop keeps
this also where it gives up, since it adds the physical amount of a row first and the bucket of the
class has at least as much room. The share loop of a revision gives up in the middle of a share, and
what it had taken out of the old bucket by then is lost (`closed_run`).
-/

namespace El

open CheckedU64 Counters CounterStore EStateM

/-- In every account and dimension the four consumption totals add up to the physical one. -/
def Accounts.Closed (accounts : Accounts) : Prop :=
  ∀ a d, ((accounts.get a).physical d).toNat =
    ((accounts.get a).useful d).toNat + ((accounts.get a).overhead d).toNat +
      ((accounts.get a).waste d).toNat + ((accounts.get a).unknown d).toNat

/-- In every account and dimension the four consumption totals add up to the physical one at most. -/
def Accounts.Bounded (accounts : Accounts) : Prop :=
  ∀ a d, ((accounts.get a).useful d).toNat + ((accounts.get a).overhead d).toNat +
      ((accounts.get a).waste d).toNat + ((accounts.get a).unknown d).toNat ≤
    ((accounts.get a).physical d).toNat

theorem Accounts.Closed.bounded {accounts : Accounts} (h : accounts.Closed) : accounts.Bounded :=
  fun a d => (h a d).ge

theorem Accounts.Bounded.bucket_le {accounts : Accounts} (h : accounts.Bounded)
    {c : ByteEnum EfficiencyClass} {bk : Bucket} (hbk : consumptionBucket c = some bk) (a : AccountId)
    (d : Dimension) :
    ((accounts.get a).bucket bk d).toNat ≤ ((accounts.get a).physical d).toNat := by
  have hsum := h a d
  rcases consumptionBucket_cases hbk with rfl | rfl | rfl | rfl <;>
    simp only [AccountAggregate.bucket] <;> omega

/-- By how much postings move the consumption totals of an account away from its physical total. -/
def imbalance (ps : List (Posting (AccountId × Cell) Status)) (a : AccountId) (d : Dimension) : Int :=
  net ps (a, .useful, d) + net ps (a, .overhead, d) + net ps (a, .waste, d) +
    net ps (a, .unknown, d) - net ps (a, .physical, d)

section Imbalance

variable (a : AccountId) (d : Dimension)

theorem imbalance_append (ps qs : List (Posting (AccountId × Cell) Status)) :
    imbalance (ps ++ qs) a d = imbalance ps a d + imbalance qs a d := by
  simp only [imbalance, net_append]
  ring

theorem imbalance_flatMap {ι : Type} {l : List ι} {f : ι → List (Posting (AccountId × Cell) Status)}
    (h : ∀ x ∈ l, imbalance (f x) a d = 0) : imbalance (l.flatMap f) a d = 0 := by
  induction l with
  | nil => rfl
  | cons x l ih =>
    have htail := ih fun y hy => h y (List.mem_cons_of_mem x hy)
    rw [List.flatMap_cons, imbalance_append, h x (by simp), htail, Int.add_zero]

theorem imbalance_eq_zero {ps : List (Posting (AccountId × Cell) Status)}
    (h : ∀ p ∈ ps, p.key.1 = a → p.key.2.1.quantity = .physical → p.amount = 0) :
    imbalance ps a d = 0 := by
  have hnet {bk : Bucket} (hbk : bk.quantity = .physical) : net ps (a, bk, d) = 0 := by
    refine net_eq_zero fun p hp hk => h p hp (congrArg Prod.fst hk) ?_
    rw [hk]
    exact hbk
  unfold imbalance
  rw [hnet rfl, hnet rfl, hnet rfl, hnet rfl, hnet rfl]
  rfl

end Imbalance

theorem difference_of_postAll {ps : List (Posting (AccountId × Cell) Status)}
    {accounts accounts' : Accounts} (hpost : postAll ps accounts = .ok ⟨⟩ accounts') (a : AccountId)
    (d : Dimension) :
    (((accounts'.get a).useful d).toNat + ((accounts'.get a).overhead d).toNat +
        ((accounts'.get a).waste d).toNat + ((accounts'.get a).unknown d).toNat -
        ((accounts'.get a).physical d).toNat : Int) =
      ((accounts.get a).useful d).toNat + ((accounts.get a).overhead d).toNat +
        ((accounts.get a).waste d).toNat + ((accounts.get a).unknown d).toNat -
        ((accounts.get a).physical d).toNat + imbalance ps a d := by
  have hread (bk : Bucket) := toNat_read_of_postAll hpost a bk d
  have hphysical := hread .physical
  have huseful := hread .useful
  have hoverhead := hread .overhead
  have hwaste := hread .waste
  have hunknown := hread .unknown
  simp only [AccountAggregate.bucket] at hphysical huseful hoverhead hwaste hunknown
  unfold imbalance
  omega

theorem Accounts.Closed.postAll_iff {ps : List (Posting (AccountId × Cell) Status)}
    {accounts accounts' : Accounts} (h : accounts.Closed)
    (hpost : postAll ps accounts = .ok ⟨⟩ accounts') :
    accounts'.Closed ↔ ∀ a d, imbalance ps a d = 0 := by
  refine forall_congr' fun a => forall_congr' fun d => ?_
  have hclosed := h a d
  have hdifference := difference_of_postAll hpost a d
  omega

/-! ### Ordinary entries -/

theorem classification_named {e : LedgerEntry} (h : e.validate = true) :
    ∃ c, e.classification = .named c :=
  OpenEnum.named_of_toBits_le (by decide) (validate_eq_true_iff.mp h).classification

theorem usage_isZero_of_consistent {e : LedgerEntry} (hvalid : e.validate = true)
    (h : (checkClassificationConsistency e).ok = true)
    (hclass : isConsumptionClass e.classification = false) : e.usage.isZero := by
  obtain ⟨c, hc⟩ := classification_named hvalid
  by_contra hzero
  unfold checkClassificationConsistency at h
  rw [hc] at h hclass
  cases c with
  | kUseful | kNecessaryOverhead | kAvoidableWaste | kUnknown => cases hclass
  | kAvoidedWork =>
    rw [if_pos rfl, if_pos hzero] at h
    exact Status.not_ok (by decide) h
  | kStrandedCapacity =>
    rw [if_neg (by decide), if_pos rfl, if_pos hzero] at h
    exact Status.not_ok (by decide) h

theorem no_other_quantity {e : LedgerEntry} (h : (checkClassificationConsistency e).ok = true)
    (hclass : isConsumptionClass e.classification = true) :
    e.avoidedWork = none ∧ e.strandedCapacity = none := by
  by_contra hother
  have hcarries : e.avoidedWork ≠ none ∨ e.strandedCapacity ≠ none := by
    by_cases ha : e.avoidedWork = none
    · exact .inr fun hs => hother ⟨ha, hs⟩
    · exact .inl ha
  have havoided : e.classification ≠ EfficiencyClass.kAvoidedWork := by
    intro hc
    rw [hc] at hclass
    cases hclass
  have hstranded : e.classification ≠ EfficiencyClass.kStrandedCapacity := by
    intro hc
    rw [hc] at hclass
    cases hclass
  unfold checkClassificationConsistency at h
  simp only at h
  rw [if_neg havoided, if_neg hstranded, if_pos hclass, if_pos hcarries] at h
  exact Status.not_ok (by decide) h

theorem sum_classWeight_consumption {c : ByteEnum EfficiencyClass}
    (h : isConsumptionClass c = true) :
    classWeight c .useful + classWeight c .overhead + classWeight c .waste +
      classWeight c .unknown = 1 := by
  cases c with
  | unnamed v hv => cases h
  | named x => cases x <;> first | rfl | cases h

theorem attributed_classes (e : LedgerEntry) (a : AccountId) (d : Dimension) :
    (attributed e a .useful d + attributed e a .overhead d + attributed e a .waste d +
        attributed e a .unknown d : Int) =
      attributed e a .physical d * (classWeight e.classification .useful +
        classWeight e.classification .overhead + classWeight e.classification .waste +
        classWeight e.classification .unknown) := by
  have huseful := attributed_of_consumption (c := EfficiencyClass.kUseful) rfl e a d
  have hoverhead := attributed_of_consumption (c := EfficiencyClass.kNecessaryOverhead) rfl e a d
  have hwaste := attributed_of_consumption (c := EfficiencyClass.kAvoidableWaste) rfl e a d
  have hunknown := attributed_of_consumption (c := EfficiencyClass.kUnknown) rfl e a d
  rw [huseful, hoverhead, hwaste, hunknown, ← mul_add, ← mul_add, ← mul_add]

theorem attributed_class_le {c : ByteEnum EfficiencyClass} {bk : Bucket}
    (hbk : consumptionBucket c = some bk) (e : LedgerEntry) (a : AccountId) (d : Dimension) :
    attributed e a bk d ≤ attributed e a .physical d := by
  have hshare := attributed_of_consumption hbk e a d
  unfold classWeight at hshare
  split at hshare <;> omega

theorem attributed_balanced {b : Books} {e : LedgerEntry} (hvalid : e.validate = true)
    (hadm : b.AdmitsOrdinary e) (a : AccountId) (d : Dimension) :
    (attributed e a .physical d : Int) =
      attributed e a .useful d + attributed e a .overhead d + attributed e a .waste d +
        attributed e a .unknown d := by
  rw [attributed_classes]
  cases hclass : isConsumptionClass e.classification with
  | true => rw [sum_classWeight_consumption hclass, mul_one]
  | false =>
    have hzero := usage_isZero_of_consistent hvalid hadm.classification hclass
    rw [attributed_physical_eq_zero hzero]
    simp

/-! ### The rows of the commit loop -/

/-- The postings of an entry to one account in one dimension. -/
def rowPostings (e : LedgerEntry) (a : AccountId) (d : Dimension) :
    List (Posting (AccountId × Cell) Status) :=
  kBuckets.map fun bk => postingAt a (charge (bk, d) ((entryTotals e a).bucket bk d))

theorem appendPostings_eq_rows (ord : IterationOrder) (e : LedgerEntry) :
    appendPostings ord e = (ord.arrange (accountsOf e)).flatMap fun a =>
      (List.finRange kDimensionCount).flatMap (rowPostings e a) := by
  simp only [appendPostings, cellPostings, kCells, List.map_flatMap, rowCells, List.map_map]
  rfl

theorem flatMap_eq_append_cons {ι α : Type} {f : ι → List α} {l : List ι} {p : α} {suf : List α} :
    ∀ {pre : List α}, l.flatMap f = pre ++ p :: suf →
      ∃ l₁ x r₁ r₂, x ∈ l ∧ l₁ <+: l ∧ pre = l₁.flatMap f ++ r₁ ∧ f x = r₁ ++ p :: r₂ := by
  induction l with
  | nil =>
    intro pre h
    simp at h
  | cons x l ih =>
    intro pre h
    rw [List.flatMap_cons] at h
    rcases List.append_eq_append_iff.mp h with ⟨r, hpre, hrest⟩ | ⟨r, hx, hrest⟩
    · obtain ⟨l₁, y, r₁, r₂, hy, hl₁, hr, hfy⟩ := ih hrest
      refine ⟨x :: l₁, y, r₁, r₂, List.mem_cons_of_mem x hy, List.cons_prefix_cons.mpr ⟨rfl, hl₁⟩,
        ?_, hfy⟩
      rw [hpre, hr, List.flatMap_cons, List.append_assoc]
    · cases r with
      | nil =>
        have hnext : l.flatMap f = [] ++ p :: suf := by simpa using hrest.symm
        obtain ⟨l₁, y, r₁, r₂, hy, hl₁, hr, hfy⟩ := ih hnext
        refine ⟨x :: l₁, y, r₁, r₂, List.mem_cons_of_mem x hy,
          List.cons_prefix_cons.mpr ⟨rfl, hl₁⟩, ?_, hfy⟩
        rw [List.flatMap_cons, List.append_assoc, ← hr, hx]
        simp
      | cons q r =>
        obtain ⟨hq, hsuf⟩ := List.cons_eq_cons.mp (by simpa using hrest)
        exact ⟨[], x, pre, r, List.mem_cons_self .., List.nil_prefix, rfl, by rw [hx, hq]⟩

theorem net_rowPart {bs : List Bucket} (hbs : bs.Nodup) (e : LedgerEntry) (a a' : AccountId)
    (d d' : Dimension) (bk : Bucket) :
    net (bs.map fun bk => postingAt a (charge (bk, d) ((entryTotals e a).bucket bk d)))
        (a', bk, d') =
      if bk ∈ bs ∧ a = a' ∧ d = d' then (attributed e a bk d : Int) else 0 := by
  split
  · rename_i h
    obtain ⟨hbk, rfl, rfl⟩ := h
    have hinj : Function.Injective fun bk : Bucket => (a, bk, d) := by
      intro x y hxy
      simpa using hxy
    rw [← bucket_entryTotals]
    exact net_map_of_mem hinj hbs hbk
  · rename_i h
    refine net_eq_zero fun p hp hk => absurd ?_ h
    obtain ⟨bk', hbk', rfl⟩ := List.mem_map.mp hp
    have hkey : (a, bk', d) = (a', bk, d') := hk
    obtain ⟨rfl, hcell⟩ := Prod.mk.inj hkey
    obtain ⟨rfl, rfl⟩ := Prod.mk.inj hcell
    exact ⟨hbk', rfl, rfl⟩

theorem imbalance_rowPostings {b : Books} {e : LedgerEntry} (hvalid : e.validate = true)
    (hadm : b.AdmitsOrdinary e) (a a' : AccountId) (d d' : Dimension) :
    imbalance (rowPostings e a d) a' d' = 0 := by
  have hnet (bk : Bucket) : net (rowPostings e a d) (a', bk, d') =
      if a = a' ∧ d = d' then (attributed e a bk d : Int) else 0 := by
    rw [rowPostings, net_rowPart (by decide)]
    simp only [mem_kBuckets, true_and]
  have hbalanced := attributed_balanced hvalid hadm a d
  unfold imbalance
  rw [hnet, hnet, hnet, hnet, hnet]
  split
  · omega
  · rfl

theorem amount_ne_zero_of_blocked {ps : List (Posting (AccountId × Cell) Status)}
    {p : Posting (AccountId × Cell) Status} {accounts accounts' : Accounts}
    (hpost : postAll ps accounts = .ok ⟨⟩ accounts') (hp : p.Blocked accounts ps) : p.amount ≠ 0 := by
  intro hzero
  have hread := read_of_postAll_ok hpost p.key
  have hlt := toNat_lt_limit (read accounts' p.key)
  unfold Posting.Blocked at hp
  rw [hzero, UInt64.toNat_zero] at hp
  cases hside : p.side with
  | credit =>
    simp only [hside] at hp
    omega
  | debit =>
    simp only [hside] at hp
    omega

section Stop

variable {ord : IterationOrder} {b : Books} {e : LedgerEntry} {accounts accounts' : Accounts}
  {pre suf : List (Posting (AccountId × Cell) Status)} {a : AccountId} {d : Dimension}

theorem not_blocked_consumption {c : ByteEnum EfficiencyClass} {bk : Bucket}
    (hbk : consumptionBucket c = some bk) (hbounded : accounts.Bounded)
    (hpost : postAll pre accounts = .ok ⟨⟩ accounts')
    (hsplit : appendPostings ord e =
      pre ++ postingAt a (charge (bk, d) ((entryTotals e a).bucket bk d)) :: suf)
    (hphysical : postingAt a (charge (.physical, d) ((entryTotals e a).bucket .physical d)) ∈ pre) :
    ¬ (postingAt a (charge (bk, d) ((entryTotals e a).bucket bk d))).Blocked accounts pre := by
  -- The commit loop never gives up at the bucket of a class: the physical total, which is at least
  -- as large, had room for the same amount.
  intro hblocked
  have hnodup := nodup_keys_appendPostings ord e
  rw [hsplit, List.map_append, List.map_cons] at hnodup
  have hfresh : net pre (a, bk, d) = 0 := by
    apply net_eq_zero
    intro q hq hk
    have hdisjoint := (List.nodup_append.mp hnodup).2.2 q.key (List.mem_map_of_mem hq) (a, bk, d)
      (List.mem_cons_self ..)
    exact absurd hk hdisjoint
  have hnet := net_of_mem (List.Nodup.of_append_left hnodup) hphysical
  have hread := read_of_postAll_ok hpost (a, .physical, d)
  have hlt := toNat_lt_limit (read accounts' (a, Bucket.physical, d))
  have hshare := attributed_class_le hbk e a d
  have htotal := hbounded.bucket_le hbk a d
  rw [← bucket_entryTotals, ← bucket_entryTotals] at hshare
  have hover : (u64Limit : Int) ≤ ((accounts.get a).bucket bk d).toNat + net pre (a, bk, d) +
      ((entryTotals e a).bucket bk d).toNat := hblocked
  have hroom : (((accounts.get a).physical d).toNat : Int) +
      ((entryTotals e a).bucket .physical d).toNat < u64Limit := by
    have hmoved : net pre (a, .physical, d) = ((entryTotals e a).bucket .physical d).toNat := hnet
    have hafter : ((read accounts' (a, Bucket.physical, d)).toNat : Int) =
        ((accounts.get a).physical d).toNat + net pre (a, .physical, d) := hread
    omega
  omega

theorem usage_isZero_of_other {q : Quantity} (hvalid : e.validate = true)
    (hadm : b.AdmitsOrdinary e) (hq : q ≠ .physical) (h : attributed e a q.bucket d ≠ 0) :
    e.usage.isZero := by
  apply usage_isZero_of_consistent hvalid hadm.classification
  by_contra hclass
  obtain ⟨havoided, hstranded⟩ := no_other_quantity hadm.classification (by simpa using hclass)
  have hle := attributed_le e a q.bucket d
  have hzero : e.quantity q.bucket.quantity d = 0 := by
    cases q with
    | physical => exact absurd rfl hq
    | avoided => exact quantity_eq_zero (q := .avoided) havoided d
    | stranded => exact quantity_eq_zero (q := .stranded) hstranded d
  rw [hzero] at hle
  exact h (Nat.le_zero.mp hle)

theorem bucket_cases (bk : Bucket) :
    (∃ q : Quantity, bk = q.bucket) ∨ ∃ c, consumptionBucket c = some bk := by
  cases bk with
  | physical => exact .inl ⟨.physical, rfl⟩
  | avoided => exact .inl ⟨.avoided, rfl⟩
  | stranded => exact .inl ⟨.stranded, rfl⟩
  | useful => exact .inr ⟨EfficiencyClass.kUseful, rfl⟩
  | overhead => exact .inr ⟨EfficiencyClass.kNecessaryOverhead, rfl⟩
  | waste => exact .inr ⟨EfficiencyClass.kAvoidableWaste, rfl⟩
  | unknown => exact .inr ⟨EfficiencyClass.kUnknown, rfl⟩

theorem exists_row_of_split {p : Posting (AccountId × Cell) Status}
    (hsplit : appendPostings ord e = pre ++ p :: suf) :
    ∃ (as : List AccountId) (a : AccountId) (ds : List Dimension) (d : Dimension)
      (bs : List Bucket) (bk : Bucket) (bs' : List Bucket), kBuckets = bs ++ bk :: bs' ∧
      p = postingAt a (charge (bk, d) ((entryTotals e a).bucket bk d)) ∧
      pre = (as.flatMap fun a => (List.finRange kDimensionCount).flatMap (rowPostings e a)) ++
        (ds.flatMap (rowPostings e a) ++
          bs.map fun bk => postingAt a (charge (bk, d) ((entryTotals e a).bucket bk d))) := by
  rw [appendPostings_eq_rows] at hsplit
  obtain ⟨as, a, ra, ra', -, -, rfl, hacc⟩ := flatMap_eq_append_cons hsplit
  obtain ⟨ds, d, rd, rd', -, -, rfl, hrow⟩ := flatMap_eq_append_cons hacc
  obtain ⟨bs, rest, hbuckets, rfl, hrest⟩ := List.map_eq_append_iff.mp hrow
  obtain ⟨bk, bs', rfl, rfl, rfl⟩ := List.map_eq_cons_iff.mp hrest
  exact ⟨as, a, ds, d, bs, bk, bs', hbuckets, rfl, rfl⟩

theorem quantity_of_stopsAt {p : Posting (AccountId × Cell) Status} (hbounded : accounts.Bounded)
    (hstop : StopsAt accounts (appendPostings ord e) pre p)
    (hpost : postAll pre accounts = .ok ⟨⟩ accounts') :
    ∃ a q d, p = postingAt a (charge (Quantity.bucket q, d) ((entryTotals e a).bucket q.bucket d)) := by
  obtain ⟨suf, hsplit⟩ := hstop.split
  obtain ⟨as, a, ds, d, bs, bk, bs', hbuckets, rfl, rfl⟩ := exists_row_of_split hsplit
  rcases bucket_cases bk with ⟨q, rfl⟩ | ⟨c, hc⟩
  · exact ⟨a, q, d, rfl⟩
  · -- In every row the physical amount comes first.
    cases bs with
    | nil =>
      obtain ⟨rfl, -⟩ := List.cons_eq_cons.mp hbuckets
      exact absurd hc (consumptionBucket_ne_quantity c .physical)
    | cons x bs =>
      obtain ⟨rfl, -⟩ := List.cons_eq_cons.mp hbuckets
      refine absurd hstop.blocked (not_blocked_consumption hc hbounded hpost hsplit ?_)
      exact List.mem_append_right _ (List.mem_append_right _ (List.mem_cons_self ..))

/-- **Where the commit loop gives up, what it added before is balanced.** -/
theorem imbalance_of_stopsAt {p : Posting (AccountId × Cell) Status} (hvalid : e.validate = true)
    (hadm : b.AdmitsOrdinary e) (hclosed : accounts.Closed)
    (hstop : StopsAt accounts (appendPostings ord e) pre p)
    (hpost : postAll pre accounts = .ok ⟨⟩ accounts') (a' : AccountId) (d' : Dimension) :
    imbalance pre a' d' = 0 := by
  obtain ⟨a₁, q, d₁, hquantity⟩ := quantity_of_stopsAt hclosed.bounded hstop hpost
  obtain ⟨suf, hsplit⟩ := hstop.split
  obtain ⟨as, a, ds, d, bs, bk, bs', hbuckets, rfl, rfl⟩ := exists_row_of_split hsplit
  have hkey : (a, bk, d) = (a₁, q.bucket, d₁) := congrArg Posting.key hquantity
  obtain ⟨rfl, hcell⟩ := Prod.mk.inj hkey
  obtain ⟨rfl, rfl⟩ := Prod.mk.inj hcell
  have hfull (a : AccountId) (d : Dimension) := imbalance_rowPostings hvalid hadm a a' d d'
  rw [imbalance_append, imbalance_append,
    imbalance_flatMap a' d' fun a _ => imbalance_flatMap a' d' fun d _ => hfull a d,
    imbalance_flatMap a' d' fun d _ => hfull a d, Int.zero_add, Int.zero_add]
  have hne := amount_ne_zero_of_blocked hpost hstop.blocked
  cases bs with
  | nil => rfl
  | cons x bs =>
    obtain ⟨rfl, hbs⟩ := List.cons_eq_cons.mp hbuckets
    have hq : q ≠ .physical := by
      rintro rfl
      have htail : [.avoided, .stranded, .useful, .overhead, .waste, .unknown] =
        bs ++ Bucket.physical :: bs' := hbs
      have hmem : Bucket.physical ∈ bs ++ Bucket.physical :: bs' := by simp
      rw [← htail] at hmem
      exact absurd hmem (by decide)
    have hamount : attributed e a q.bucket d ≠ 0 := by
      rw [← bucket_entryTotals]
      exact fun h => hne (UInt64.toNat_inj.mp h)
    have hzero := usage_isZero_of_other hvalid hadm hq hamount
    apply imbalance_eq_zero a' d'
    intro p hp _ hphysical
    obtain ⟨bk, -, rfl⟩ := List.mem_map.mp hp
    have hle := attributed_le e a bk d
    have husage : e.quantity bk.quantity d = 0 := by
      rw [show bk.quantity = .physical from hphysical]
      exact hzero d
    rw [husage, ← bucket_entryTotals] at hle
    exact UInt64.toNat_inj.mp (Nat.le_zero.mp hle)

end Stop

/-! ### Revisions -/

theorem imbalance_revisionPostings (accounts : Accounts) (oldCls newCls : ByteEnum EfficiencyClass)
    (shares : List AttributionShare) (a : AccountId) (d : Dimension) :
    imbalance (revisionPostings accounts oldCls newCls shares) a d = 0 := by
  unfold revisionPostings
  split
  · rename_i src dst hsrc hdst
    apply imbalance_flatMap a d
    intro sh _
    have hweights : moveWeight src dst .useful + moveWeight src dst .overhead +
        moveWeight src dst .waste + moveWeight src dst .unknown - moveWeight src dst .physical = 0 := by
      rcases consumptionBucket_cases hsrc with rfl | rfl | rfl | rfl <;>
        rcases consumptionBucket_cases hdst with rfl | rfl | rfl | rfl <;> decide
    unfold imbalance
    simp only [net_map_postingAt, net_movePostings]
    split
    · rw [← mul_add, ← mul_add, ← mul_add, ← mul_sub, hweights, mul_zero]
    · rfl
  · rfl

/-- Where the share loop of an admitted revision gives up, it had moved whole shares, and nothing of
the share it gave up in. -/
def StopsBetweenShares (s : EfficiencyLedger) (e : LedgerEntry) : Prop :=
  s.Admits e → e.event = EventType.kReclassify → ∀ t, s.target e = some t → ∀ pre p,
    StopsAt s.accounts (revisionPostings s.accounts t.classification e.classification
      (computeAttribution t).shares) pre p →
    ∃ moved rest,
      pre = revisionPostings s.accounts t.classification e.classification moved ++ rest ∧
        ∀ q ∈ rest, q.amount = 0

/-- The postings of one amount for each of some dimensions to one bucket. -/
def columnAt (a : AccountId) (bk : Bucket) (side : Side) (v : DimTotals) (st : Status)
    (ds : List Dimension) : List (Posting (AccountId × Cell) Status) :=
  ds.map fun d => postingAt a ⟨(bk, d), side, v d, st⟩

section Column

variable {a : AccountId} {bk : Bucket} {side : Side} {v : DimTotals} {st : Status}
  {ds : List Dimension}

theorem net_columnAt (hds : ds.Nodup) (bk' : Bucket) (d : Dimension) :
    net (columnAt a bk side v st ds) (a, bk', d) =
      if bk = bk' ∧ d ∈ ds then (⟨(bk, d), side, v d, st⟩ : Posting Cell Status).signed else 0 := by
  split
  · rename_i h
    obtain ⟨rfl, hd⟩ := h
    have hinj : Function.Injective fun d : Dimension => (a, bk, d) := by
      intro x y hxy
      simpa using hxy
    exact net_map_of_mem hinj hds hd
  · rename_i h
    refine net_eq_zero fun p hp hk => absurd ?_ h
    obtain ⟨d', hd', rfl⟩ := List.mem_map.mp hp
    have hkey : (bk, d') = (bk', d) := congrArg Prod.snd hk
    obtain ⟨rfl, rfl⟩ := Prod.mk.inj hkey
    exact ⟨rfl, hd'⟩

theorem imbalance_columnAt {c : ByteEnum EfficiencyClass} (hbk : consumptionBucket c = some bk)
    (hds : ds.Nodup) (d : Dimension) :
    imbalance (columnAt a bk side v st ds) a d =
      if d ∈ ds then (⟨(bk, d), side, v d, st⟩ : Posting Cell Status).signed else 0 := by
  unfold imbalance
  simp only [net_columnAt hds]
  rcases consumptionBucket_cases hbk with rfl | rfl | rfl | rfl <;> simp

end Column

/-- The move of a share up to some point: dimensions taken out of the one bucket, and dimensions added
to the other. -/
def movedPart (src dst : Bucket) (sh : AttributionShare) (a : AccountId)
    (taken added : List Dimension) : List (Posting (AccountId × Cell) Status) :=
  columnAt a src .debit sh.physical
      ⟨ErrorCode.kReconciliationFailure, "reclassify underflow"⟩ taken ++
    columnAt a dst .credit sh.physical
      ⟨ErrorCode.kReconciliationFailure, "reclassify overflow"⟩ added

section Move

variable {src dst : Bucket} {sh : AttributionShare} {a : AccountId}

theorem imbalance_movedPart {c c' : ByteEnum EfficiencyClass} (hsrc : consumptionBucket c = some src)
    (hdst : consumptionBucket c' = some dst) {taken added : List Dimension} (htaken : taken.Nodup)
    (hadded : added.Nodup) (d : Dimension) :
    imbalance (movedPart src dst sh a taken added) a d =
      (if d ∈ added then ((sh.physical d).toNat : Int) else 0) -
        if d ∈ taken then ((sh.physical d).toNat : Int) else 0 := by
  rw [movedPart, imbalance_append, imbalance_columnAt hsrc htaken, imbalance_columnAt hdst hadded]
  simp only [Posting.signed]
  split_ifs <;> omega

theorem exists_movedPart_of_split {r r' : List (Posting (AccountId × Cell) Status)}
    (hsplit : (movePostings src dst sh).map (postingAt a) = r ++ r') :
    ∃ taken added : List Dimension, taken.Nodup ∧ added.Nodup ∧ added ⊆ taken ∧
      r = movedPart src dst sh a taken added ∧
      (added = [] ∨ ∀ p ∈ r', ∃ d ∈ taken, d ∉ added ∧ p.amount = sh.physical d) := by
  -- Where the move of a share is cut, it had not begun to add, or it had taken everything out and
  -- what is left are dimensions not yet added.
  have hfull := List.nodup_finRange kDimensionCount
  rw [movePostings, List.map_append, List.map_map, List.map_map] at hsplit
  rcases List.append_eq_append_iff.mp hsplit with ⟨some, rfl, hin⟩ | ⟨left, hout, -⟩
  · obtain ⟨ds, ds', hds, rfl, rfl⟩ := List.map_eq_append_iff.mp hin
    have hparts := hfull
    rw [hds, List.nodup_append] at hparts
    obtain ⟨hadded, -, hdisjoint⟩ := hparts
    refine ⟨List.finRange kDimensionCount, ds, hfull, hadded, fun d _ => List.mem_finRange d, rfl,
      .inr fun p hp => ?_⟩
    obtain ⟨d, hd, rfl⟩ := List.mem_map.mp hp
    exact ⟨d, List.mem_finRange d, fun hmem => hdisjoint d hmem d hd rfl, rfl⟩
  · obtain ⟨ds, ds', hds, rfl, -⟩ := List.map_eq_append_iff.mp hout
    rw [hds] at hfull
    exact ⟨ds, [], List.Nodup.of_append_left hfull, List.nodup_nil, List.nil_subset _,
      (List.append_nil _).symm, .inl rfl⟩

theorem zero_of_balanced_part {c c' : ByteEnum EfficiencyClass}
    (hsrc : consumptionBucket c = some src) (hdst : consumptionBucket c' = some dst)
    {r r' : List (Posting (AccountId × Cell) Status)} {p : Posting (AccountId × Cell) Status}
    (hp : p.amount ≠ 0) (hsplit : (movePostings src dst sh).map (postingAt a) = r ++ p :: r')
    (hbalanced : ∀ d, imbalance r a d = 0) : ∀ q ∈ r, q.amount = 0 := by
  obtain ⟨taken, added, htaken, hadded, -, rfl, hleft⟩ := exists_movedPart_of_split hsplit
  have hzero {d : Dimension} (hd : d ∈ taken) (hfresh : d ∉ added) : sh.physical d = 0 := by
    have hbal := hbalanced d
    rw [imbalance_movedPart hsrc hdst htaken hadded, if_neg hfresh, if_pos hd] at hbal
    apply UInt64.toNat_inj.mp
    rw [UInt64.toNat_zero]
    omega
  rcases hleft with rfl | hleft
  · intro q hq
    rw [movedPart, columnAt, columnAt, List.map_nil, List.append_nil] at hq
    obtain ⟨d, hd, rfl⟩ := List.mem_map.mp hq
    exact hzero hd List.not_mem_nil
  · -- The first dimension that was not added again was blocked.
    obtain ⟨d, hd, hfresh, hamount⟩ := hleft p (List.mem_cons_self ..)
    exact absurd (hamount.trans (hzero hd hfresh)) hp

end Move

theorem stopsBetweenShares_of_closed {ord : IterationOrder} {s : EfficiencyLedger} {e : LedgerEntry}
    (h : s.accounts.Closed) (hafter : (appendLocked ord e s).state.accounts.Closed) :
    StopsBetweenShares s e := by
  intro hadm hevent t ht pre p hstop
  have hpostings := postings_of_revision ord hevent ht
  obtain ⟨accounts, hpre, hcall⟩ := appendLocked_of_stopsAt ord hadm (by rwa [hpostings])
  rw [hcall, Result.state, withBooks_toBooks, withAccounts_accounts] at hafter
  have hne := amount_ne_zero_of_blocked hpre hstop.blocked
  obtain ⟨suf, hsplit⟩ := hstop.split
  cases hsrc : consumptionBucket t.classification with
  | none => simp [revisionPostings, hsrc] at hsplit
  | some src =>
    cases hdst : consumptionBucket e.classification with
    | none => simp [revisionPostings, hsrc, hdst] at hsplit
    | some dst =>
      have hmoves (shares : List AttributionShare) :
          revisionPostings s.accounts t.classification e.classification shares =
            (shares.filter (·.account ∈ s.accounts)).flatMap fun sh =>
              (movePostings src dst sh).map (postingAt sh.account) := by
        simp only [revisionPostings, hsrc, hdst]
      rw [hmoves] at hsplit
      obtain ⟨moved, sh, r, r', -, hmoved, rfl, hcut⟩ := flatMap_eq_append_cons hsplit
      have hheld : moved.filter (·.account ∈ s.accounts) = moved := by
        apply List.filter_eq_self.mpr
        intro x hx
        exact (List.mem_filter.mp (hmoved.subset hx)).2
      have hpostings' : (moved.flatMap fun sh => (movePostings src dst sh).map (postingAt sh.account)) =
          revisionPostings s.accounts t.classification e.classification moved := by
        rw [hmoves, hheld]
      rw [hpostings'] at hpre ⊢
      refine ⟨moved, r, rfl, zero_of_balanced_part hsrc hdst hne hcut fun d => ?_⟩
      have hbalanced := (h.postAll_iff hpre).mp hafter sh.account d
      rwa [imbalance_append, imbalance_revisionPostings, Int.zero_add] at hbalanced

/-- **What a call does to closed totals**: it leaves them closed, but for a revision that gives up in
the middle of a share. -/
theorem closed_appendLocked_iff (ord : IterationOrder) {s : EfficiencyLedger} {e : LedgerEntry}
    (h : s.accounts.Closed) :
    (appendLocked ord e s).state.accounts.Closed ↔ StopsBetweenShares s e := by
  refine ⟨stopsBetweenShares_of_closed h, fun hmeets => ?_⟩
  rcases appendLocked_cases ord s e with ⟨-, hrun⟩ | ⟨hadm, accounts, hpost, hrun⟩ |
    ⟨hadm, pre, p, accounts, hstop, hpre, hrun⟩
  · rw [hrun]
    exact h
  · rw [hrun, Result.state, withBooks_toBooks, Books.record_accounts, withAccounts_accounts]
    apply (h.postAll_iff hpost).mpr
    intro a d
    by_cases hevent : e.event = EventType.kReclassify
    · obtain ⟨-, t, ht, -⟩ := hadm.books.revision hevent
      rw [postings_of_revision ord hevent ht]
      exact imbalance_revisionPostings ..
    · have hbalanced := attributed_balanced hadm.books.valid (hadm.books.ordinary hevent) a d
      unfold imbalance
      simp only [net_postings_of_ordinary ord a _ d hevent]
      omega
  · rw [hrun, Result.state, withBooks_toBooks, withAccounts_accounts]
    apply (h.postAll_iff hpre).mpr
    intro a d
    by_cases hevent : e.event = EventType.kReclassify
    · obtain ⟨-, t, ht, -⟩ := hadm.books.revision hevent
      rw [postings_of_revision ord hevent ht] at hstop
      obtain ⟨moved, rest, rfl, hrest⟩ := hmeets hadm hevent t ht pre p hstop
      rw [imbalance_append, imbalance_revisionPostings, Int.zero_add]
      exact imbalance_eq_zero a d fun q hq _ _ => hrest q hq
    · rw [postings_of_ordinary ord _ hevent] at hstop
      exact imbalance_of_stopsAt hadm.books.valid (hadm.books.ordinary hevent) h hstop hpre a d

/-- **Closure**: the totals are closed after every run in which no revision gives up in the middle of
a share. -/
theorem closed_run (ord : IterationOrder) (id : LedgerId) (ops : List Op)
    (h : AppendsMeet ord StopsBetweenShares (.fresh id) ops) :
    (run ord (.fresh id) ops).accounts.Closed :=
  books_invariant_of_appendsMeet (P := fun b => b.accounts.Closed) (fun _ _ => rfl)
    (fun _ _ hs he => (closed_appendLocked_iff ord hs).mpr he) (fun _ _ => rfl) h

theorem stopsBetweenShares_of_isOk (ord : IterationOrder) {s : EfficiencyLedger} {e : LedgerEntry}
    (h : (appendLocked ord e s).isOk = true) : StopsBetweenShares s e := by
  intro hadm hevent t ht pre p hstop
  rw [← postings_of_revision ord hevent ht] at hstop
  exact absurd hstop (not_stopsAt_of_isOk ord h hadm)

/-- Two entries of one account, both of unknown class, and a first revision. -/
def revisedToWaste : List Op :=
  [.append (twoDimensions 1 5 5), .append (twoDimensions 2 5 0),
    .reclassify { revisionId := ⟨3⟩, target := ⟨1⟩, newClassification := EfficiencyClass.kAvoidableWaste }]

theorem closed_revisedToWaste :
    (run default (.fresh kDefaultLedgerId) revisedToWaste).accounts.Closed := by
  refine closed_run default kDefaultLedgerId revisedToWaste
    ⟨⟨?_, fun _ _ => trivial⟩, ⟨?_, fun _ _ => trivial⟩, ⟨?_, fun _ _ => trivial⟩, trivial⟩
  · exact stopsBetweenShares_of_isOk default (by decide +kernel)
  · exact stopsBetweenShares_of_isOk default (by decide +kernel)
  · exact stopsBetweenShares_of_isOk default (by decide +kernel)

/-- The first entry is revised once more. -/
def revisedAgain : List Op :=
  revisedToWaste ++ [.reclassify
    { revisionId := ⟨4⟩, target := ⟨1⟩, newClassification := EfficiencyClass.kNecessaryOverhead }]

theorem totals_revisedAgain :
    let agg := Accounts.get (run default (.fresh kDefaultLedgerId) revisedAgain).accounts ⟨7⟩
    (agg.physical 0).toNat ≠ (agg.useful 0).toNat + (agg.overhead 0).toNat + (agg.waste 0).toNat +
      (agg.unknown 0).toNat := by
  decide +kernel

/-- The second revision takes from the unknown total once more: in the first dimension the second
entry still has as much, in the next nothing is left. -/
theorem second_revision_opens :
    ¬ ∀ (ord : IterationOrder) (id : LedgerId) (ops : List Op),
      (run ord (.fresh id) ops).accounts.Closed :=
  fun h => totals_revisedAgain (h default kDefaultLedgerId revisedAgain ⟨7⟩ 0)

end El
