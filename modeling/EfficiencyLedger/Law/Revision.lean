import EfficiencyLedger.Proof.Totals

/-!
# Chains of revisions

A revision takes the usage of its target out of the bucket of the target's own class, also where an
earlier revision had moved it elsewhere. `Rebuilt.bucket_eq_sum` is what the buckets hold after any
history; the last revision decides exactly where what the superseded ones moved cancels
(`last_revision_iff`).
-/

namespace El

open CheckedU64 Counters CounterStore

/-- The class of the latest revision of an entry, or its own where there is none. -/
def currentClass (es : List LedgerEntry) (t : LedgerEntry) : ByteEnum EfficiencyClass :=
  match (revisionsOf es t).getLast? with
  | none => t.classification
  | some r => r.classification

/-- The revisions of an entry but for the latest. -/
def superseded (es : List LedgerEntry) (t : LedgerEntry) : List LedgerEntry :=
  (revisionsOf es t).dropLast

/-- How often the usage of an entry is counted in a bucket. -/
def revisedWeight (es : List LedgerEntry) (bk : Bucket) (t : LedgerEntry) : Int :=
  classWeight t.classification bk +
    ((revisionsOf es t).map fun r =>
      classWeight r.classification bk - classWeight t.classification bk).sum

section Rebuilt

variable {ord : IterationOrder} {F : LedgerEntry → Prop} {es : List LedgerEntry} {b : Books}

theorem revisionsOf_append_ordinary {e : LedgerEntry} (h : e.event ≠ EventType.kReclassify)
    (t : LedgerEntry) : revisionsOf (es ++ [e]) t = revisionsOf es t := by
  rw [revisionsOf, List.filter_append, List.filter_cons_of_neg (by simp [h]), List.filter_nil,
    List.append_nil]
  rfl

theorem revisionsOf_append_revision {e : LedgerEntry} (h : e.event = EventType.kReclassify)
    (t : LedgerEntry) : revisionsOf (es ++ [e]) t =
      if e.revisionTarget = some t.id then revisionsOf es t ++ [e] else revisionsOf es t := by
  split
  · rename_i ht
    rw [revisionsOf, List.filter_append, List.filter_cons_of_pos (by simp [h, ht])]
    rfl
  · rename_i ht
    rw [revisionsOf, List.filter_append, List.filter_cons_of_neg (by simp [ht]), List.filter_nil,
      List.append_nil]
    rfl

theorem Books.RevisionsKnown.revisionsOf_fresh (h : b.RevisionsKnown) {e : LedgerEntry}
    (he : e.id ∉ b.index) : revisionsOf b.history e = [] := by
  apply List.eq_nil_iff_forall_not_mem.mpr
  intro r hr
  obtain ⟨hmem, hevent, hid⟩ := mem_revisionsOf.mp hr
  obtain ⟨t, ht, htid, -⟩ := h.target r hmem hevent
  rw [hid, Option.some.injEq] at htid
  exact he (h.wf.mem_index.mpr ⟨t, ht, htid.symm⟩)

theorem Books.Wf.revisedWeight_append_revision (h : b.Wf) {e t t' : LedgerEntry}
    (hevent : e.event = EventType.kReclassify) (ht : t ∈ b.history)
    (hid : e.revisionTarget = some t.id) (ht' : t' ∈ b.history) (bk : Bucket) :
    revisedWeight (b.history ++ [e]) bk t' = revisedWeight b.history bk t' +
      if t' = t then classWeight e.classification bk - classWeight t'.classification bk else 0 := by
  unfold revisedWeight
  rw [revisionsOf_append_revision hevent]
  by_cases heq : t' = t
  · subst heq
    rw [if_pos hid, if_pos rfl, List.map_append, List.sum_append, List.map_singleton,
      List.sum_singleton]
    ring
  · have hne : e.revisionTarget ≠ some t'.id := by
      intro hid'
      rw [hid, Option.some.injEq] at hid'
      exact heq (h.id_injective ht ht' hid').symm
    rw [if_neg hne, if_neg heq, Int.add_zero]

/-- **What a committed entry counts**: the weighted usage of the history changes by the net of its
postings. -/
theorem Books.RevisionsKnown.sum_weighted_append (h : b.RevisionsKnown) (ord : IterationOrder)
    {e : LedgerEntry} (hadm : b.Admits e) {c : ByteEnum EfficiencyClass} {bk : Bucket}
    (hbk : consumptionBucket c = some bk) (a : AccountId) (d : Dimension) :
    ((ordinaryEntries (b.history ++ [e])).map fun t =>
        (attributed t a .physical d : Int) * revisedWeight (b.history ++ [e]) bk t).sum =
      ((ordinaryEntries b.history).map fun t =>
        (attributed t a .physical d : Int) * revisedWeight b.history bk t).sum +
        net (postings ord b e) (a, bk, d) := by
  by_cases hevent : e.event = EventType.kReclassify
  · obtain ⟨t, ht, hnet⟩ := net_postings_of_revision ord a bk d h.wf hadm hevent
    obtain ⟨hmem, hid⟩ := h.wf.target_eq_some.mp ht
    have hweight : ∀ t' ∈ ordinaryEntries b.history,
        (attributed t' a .physical d : Int) * revisedWeight (b.history ++ [e]) bk t' =
          attributed t' a .physical d * revisedWeight b.history bk t' +
            if t' = t then attributed t' a .physical d *
              (classWeight e.classification bk - classWeight t'.classification bk) else 0 := by
      intro t' ht'
      rw [h.wf.revisedWeight_append_revision hevent hmem hid (mem_ordinaryEntries.mp ht').1, mul_add,
        mul_ite, mul_zero]
    rw [ordinaryEntries_append_revision hevent, List.map_congr_left hweight, List.sum_map_add,
      List.sum_map_ite_eq, hnet]
    congr 1
    have hnodup : (ordinaryEntries b.history).Nodup := h.wf.nodup.filter _
    by_cases hord : t ∈ ordinaryEntries b.history
    · rw [List.count_eq_one_of_mem hnodup hord]
      simp
    · have hzero : attributed t a .physical d = 0 := by
        refine h.attributed_eq_zero hmem ?_ a d
        exact not_not.mp fun hne => hord (mem_ordinaryEntries.mpr ⟨hmem, hne⟩)
      simp [hzero]
  · have hweight (t : LedgerEntry) :
        revisedWeight (b.history ++ [e]) bk t = revisedWeight b.history bk t := by
      unfold revisedWeight
      rw [revisionsOf_append_ordinary hevent]
    have hnew : revisedWeight b.history bk e = classWeight e.classification bk := by
      unfold revisedWeight
      rw [h.revisionsOf_fresh hadm.fresh]
      simp
    rw [net_postings_of_ordinary ord a bk d hevent, attributed_of_consumption hbk,
      ordinaryEntries_append hevent, List.map_append, List.sum_append]
    simp only [hweight, List.map_cons, List.map_nil, List.sum_cons, List.sum_nil, hnew, Int.add_zero]

/-- **What a consumption bucket holds**: the usage of every ordinary entry, with the weight its
class and its revisions give it. -/
theorem Rebuilt.bucket_eq_sum (h : Rebuilt ord F es b) {c : ByteEnum EfficiencyClass} {bk : Bucket}
    (hbk : consumptionBucket c = some bk) (a : AccountId) (d : Dimension) :
    (((b.accounts.get a).bucket bk d).toNat : Int) =
      ((ordinaryEntries es).map fun t => attributed t a .physical d * revisedWeight es bk t).sum := by
  induction h with
  | nil =>
    cases bk <;> rfl
  | @snoc es b e accounts h hF hadm hpost ih =>
    have hread := toNat_read_of_postAll hpost a bk d
    have hsum := h.revisionsKnown.sum_weighted_append ord hadm hbk a d
    rw [h.history] at hsum
    rw [Books.record_accounts, withAccounts_accounts, hread, ih, hsum]

end Rebuilt

/-! ### The latest revision -/

/-- The usage of an account that superseded revisions have brought to the bucket of a class. -/
def supersededInto (es : List LedgerEntry) (a : AccountId) (d : Dimension)
    (c : ByteEnum EfficiencyClass) : Nat :=
  ((ordinaryEntries es).map fun t =>
    attributed t a .physical d * (superseded es t).countP (·.classification = c)).sum

/-- The usage of an account that superseded revisions have taken from the bucket of a class. -/
def supersededOutOf (es : List LedgerEntry) (a : AccountId) (d : Dimension)
    (c : ByteEnum EfficiencyClass) : Nat :=
  ((ordinaryEntries es).map fun t =>
    attributed t a .physical d * (superseded es t).countP fun _ => t.classification = c).sum

/-- The usage of an account over the ordinary consumption entries whose current class is `c`. -/
def currentUsage (es : List LedgerEntry) (a : AccountId) (d : Dimension)
    (c : ByteEnum EfficiencyClass) : Nat :=
  ((ordinaryEntries es).map fun t =>
    if isConsumptionClass t.classification ∧ currentClass es t = c then attributed t a .physical d
    else 0).sum

theorem revisedWeight_eq (es : List LedgerEntry) (bk : Bucket) (t : LedgerEntry) :
    revisedWeight es bk t = classWeight (currentClass es t) bk +
      ((superseded es t).map fun r =>
        classWeight r.classification bk - classWeight t.classification bk).sum := by
  unfold revisedWeight currentClass superseded
  rcases List.eq_nil_or_concat (revisionsOf es t) with hnil | ⟨rs, r, hconcat⟩
  · rw [hnil]
    simp
  · rw [hconcat]
    simp only [List.concat_eq_append, List.map_append, List.sum_append, List.map_cons, List.map_nil,
      List.sum_cons, List.sum_nil, List.getLast?_append, List.getLast?_singleton, Option.some_or,
      List.dropLast_concat]
    ring

theorem sum_classWeight {c c' : ByteEnum EfficiencyClass} {bk : Bucket}
    (h : consumptionBucket c = some bk) (rs : List LedgerEntry) :
    (rs.map fun r => classWeight r.classification bk - classWeight c' bk).sum =
      (rs.countP (·.classification = c) : Int) - rs.countP fun _ => c' = c := by
  induction rs with
  | nil => rfl
  | cons r rs ih =>
    rw [List.map_cons, List.sum_cons, ih, classWeight_eq h, classWeight_eq h, List.countP_cons,
      List.countP_cons]
    push_cast
    simp only [decide_eq_true_eq]
    ring

theorem sum_map_nat {l : List LedgerEntry} {f : LedgerEntry → Int} {g u v : LedgerEntry → Nat}
    (h : ∀ t ∈ l, f t = g t + ((u t : Int) - v t)) :
    (l.map f).sum = (l.map g).sum + (((l.map u).sum : Int) - (l.map v).sum) := by
  induction l with
  | nil => rfl
  | cons t l ih =>
    have htail := ih fun x hx => h x (List.mem_cons_of_mem t hx)
    have hhead := h t (by simp)
    simp only [List.map_cons, List.sum_cons]
    omega

section Rebuilt

variable {ord : IterationOrder} {F : LedgerEntry → Prop} {es : List LedgerEntry} {b : Books}

theorem Rebuilt.isConsumptionClass_current (h : Rebuilt ord F es b) {t : LedgerEntry}
    (ht : t ∈ es) : isConsumptionClass (currentClass es t) = isConsumptionClass t.classification := by
  unfold currentClass
  cases hlast : (revisionsOf es t).getLast? with
  | none => rfl
  | some r =>
    obtain ⟨hr, hevent, hid⟩ := mem_revisionsOf.mp (List.mem_of_getLast? hlast)
    have hknown := h.revisionsKnown.target r
    rw [h.history] at hknown
    obtain ⟨t', ht', hid', hcls⟩ := hknown hr hevent
    rw [hid, Option.some.injEq] at hid'
    rw [h.id_injective ht ht' hid', hcls]

theorem Rebuilt.bucket_eq_current (h : Rebuilt ord F es b) {c : ByteEnum EfficiencyClass}
    {bk : Bucket} (hbk : consumptionBucket c = some bk) (a : AccountId) (d : Dimension) :
    (((b.accounts.get a).bucket bk d).toNat : Int) = currentUsage es a d c +
      ((supersededInto es a d c : Int) - supersededOutOf es a d c) := by
  rw [h.bucket_eq_sum hbk]
  apply sum_map_nat
  intro t ht
  have hcons : isConsumptionClass c = true := by
    rw [← consumptionBucket_isSome, hbk]
    rfl
  have hcurrent := h.isConsumptionClass_current (mem_ordinaryEntries.mp ht).1
  have hiff : isConsumptionClass t.classification = true ∧ currentClass es t = c ↔
      currentClass es t = c :=
    ⟨fun hc => hc.2, fun hc => ⟨by rw [← hcurrent, hc, hcons], hc⟩⟩
  rw [revisedWeight_eq, classWeight_eq hbk, sum_classWeight hbk]
  simp only [hiff]
  push_cast
  rw [mul_add, mul_sub, mul_ite, mul_one, mul_zero]

end Rebuilt

/-- **When the last revision wins**: exactly where, account by account and class by class, the
superseded revisions brought in as much as they took out. -/
theorem last_revision_iff (ord : IterationOrder) (s s' : EfficiencyLedger) (es : List LedgerEntry)
    (h : loadHistory ord es s = .ok ⟨⟩ s') :
    (∀ a d c bk, consumptionBucket c = some bk →
      ((s'.accountSummary a).bucket bk d).toNat = currentUsage es a d c) ↔
    ∀ a d c, isConsumptionClass c → supersededInto es a d c = supersededOutOf es a d c := by
  obtain ⟨b, hb, rfl⟩ := rebuilt_of_loadHistory ord h
  constructor
  · intro hlast a d c hc
    rw [← consumptionBucket_isSome] at hc
    obtain ⟨bk, hbk⟩ := Option.isSome_iff_exists.mp hc
    have hsum := hb.bucket_eq_current hbk a d
    have hcur : ((b.accounts.get a).bucket bk d).toNat = currentUsage es a d c := hlast a d c bk hbk
    omega
  · intro hbalance a d c bk hbk
    have hsum := hb.bucket_eq_current hbk a d
    have hbal := hbalance a d c (by rw [← consumptionBucket_isSome, hbk]; rfl)
    show ((b.accounts.get a).bucket bk d).toNat = currentUsage es a d c
    omega

/-- Two entries of one account, the first revised to useful and then to waste. -/
def revisedTwice : List LedgerEntry :=
  let entry (id : UInt64) : LedgerEntry :=
    { id := ⟨id⟩, event := EventType.kExecutionProgress, usage := ⟨fun _ => 5⟩, account := ⟨7⟩ }
  let revision (id : UInt64) (c : EfficiencyClass) : LedgerEntry :=
    { id := ⟨id⟩, event := EventType.kReclassify, classification := c, account := ⟨7⟩
      revisionTarget := some ⟨1⟩ }
  [entry 1, entry 2, revision 3 .kUseful, revision 4 .kAvoidableWaste]

theorem last_revision_revisedTwice :
    let s' := (loadHistory default revisedTwice (.fresh kDefaultLedgerId)).state
    (∀ a d c bk, consumptionBucket c = some bk →
      ((s'.accountSummary a).bucket bk d).toNat = currentUsage revisedTwice a d c) ↔
    ∀ a d c, isConsumptionClass c →
      supersededInto revisedTwice a d c = supersededOutOf revisedTwice a d c :=
  last_revision_iff default (.fresh kDefaultLedgerId) _ revisedTwice
    (EStateM.Result.eq_ok_of_isOk (by decide +kernel))

/-- After both revisions the usage of the first entry is still counted as useful. -/
theorem superseded_revision_counts :
    ¬ ∀ (ord : IterationOrder) (s s' : EfficiencyLedger) (es : List LedgerEntry),
      loadHistory ord es s = .ok ⟨⟩ s' → ∀ a d c bk, consumptionBucket c = some bk →
        ((s'.accountSummary a).bucket bk d).toNat = currentUsage es a d c := by
  intro h
  have huseful := h default (.fresh kDefaultLedgerId) _ revisedTwice
    (EStateM.Result.eq_ok_of_isOk (by decide +kernel)) ⟨7⟩ 0 EfficiencyClass.kUseful .useful rfl
  have hbucket : (((loadHistory default revisedTwice (.fresh kDefaultLedgerId)).state.accountSummary
    ⟨7⟩).bucket .useful 0).toNat = 5 := by decide +kernel
  have hcurrent : currentUsage revisedTwice ⟨7⟩ 0 EfficiencyClass.kUseful = 0 := by decide +kernel
  rw [hbucket, hcurrent] at huseful
  cases huseful

end El
