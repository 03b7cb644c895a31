import EfficiencyLedger.Proof.Replay

/-!
# What a rebuilt entry brings to the totals

In rebuilt books an ordinary entry has brought to every counter what it attributes to it
(`net_postings_of_ordinary`), and a revision has moved the usage of its target between the buckets
of the two classes (`net_postings_of_revision`). The laws about totals are inductions over
`Rebuilt`, or over a run, with these two.
-/

namespace El

open CheckedU64 Counters CounterStore

/-- The entries that are not revisions. -/
def ordinaryEntries (es : List LedgerEntry) : List LedgerEntry :=
  es.filter fun e => e.event ≠ EventType.kReclassify

section

variable {es : List LedgerEntry} {e : LedgerEntry}

theorem mem_ordinaryEntries : e ∈ ordinaryEntries es ↔ e ∈ es ∧ e.event ≠ EventType.kReclassify := by
  rw [ordinaryEntries, List.mem_filter, decide_eq_true_iff]

theorem ordinaryEntries_append (h : e.event ≠ EventType.kReclassify) :
    ordinaryEntries (es ++ [e]) = ordinaryEntries es ++ [e] := by
  rw [ordinaryEntries, List.filter_append, List.filter_cons_of_pos (by simpa using h)]
  rfl

theorem ordinaryEntries_append_revision (h : e.event = EventType.kReclassify) :
    ordinaryEntries (es ++ [e]) = ordinaryEntries es := by
  rw [ordinaryEntries, List.filter_append, List.filter_cons_of_neg (by simpa using h),
    List.filter_nil, List.append_nil]
  rfl

theorem sum_ordinaryEntries_append (es : List LedgerEntry) (e : LedgerEntry) (f : LedgerEntry → Nat) :
    ((ordinaryEntries (es ++ [e])).map f).sum =
      ((ordinaryEntries es).map f).sum + if e.event = EventType.kReclassify then 0 else f e := by
  by_cases hevent : e.event = EventType.kReclassify
  · rw [ordinaryEntries_append_revision hevent, if_pos hevent, Nat.add_zero]
  · rw [ordinaryEntries_append hevent, if_neg hevent, List.map_append, List.sum_append,
      List.map_singleton, List.sum_singleton]

end

/-- One where the class is counted in the bucket. -/
def classWeight (c : ByteEnum EfficiencyClass) (bk : Bucket) : Int :=
  if consumptionBucket c = some bk then 1 else 0

theorem consumptionBucket_ne_quantity (c : ByteEnum EfficiencyClass) (q : Quantity) :
    consumptionBucket c ≠ some q.bucket := by
  cases c with
  | unnamed v h => cases q <;> simp [consumptionBucket]
  | named x => cases x <;> cases q <;> decide

theorem classWeight_quantity (c : ByteEnum EfficiencyClass) (q : Quantity) :
    classWeight c q.bucket = 0 := if_neg (consumptionBucket_ne_quantity c q)

theorem classWeight_eq_zero {c : ByteEnum EfficiencyClass} (h : consumptionBucket c = none)
    (bk : Bucket) : classWeight c bk = 0 := by
  rw [classWeight, h]
  rfl

theorem consumptionBucket_inj {c c' : ByteEnum EfficiencyClass} {bk : Bucket}
    (h : consumptionBucket c = some bk) (h' : consumptionBucket c' = some bk) : c = c' := by
  unfold consumptionBucket at h h'
  split at h <;> split at h' <;> first | rfl | cases h <;> cases h'

theorem consumptionBucket_useful :
    consumptionBucket (EfficiencyClass.kUseful : ByteEnum EfficiencyClass) = some .useful := rfl

theorem classWeight_eq {c c' : ByteEnum EfficiencyClass} {bk : Bucket}
    (h : consumptionBucket c = some bk) : classWeight c' bk = if c' = c then 1 else 0 := by
  unfold classWeight
  by_cases heq : c' = c
  · rw [if_pos heq, heq, if_pos h]
  · rw [if_neg heq, if_neg fun h' => heq (consumptionBucket_inj h' h)]

theorem attributed_of_consumption {c : ByteEnum EfficiencyClass} {bk : Bucket}
    (h : consumptionBucket c = some bk) (e : LedgerEntry) (a : AccountId) (d : Dimension) :
    (attributed e a bk d : Int) =
      attributed e a .physical d * classWeight e.classification bk := by
  have hamount (sh : AttributionShare) : sh.amount e.classification bk =
      if consumptionBucket e.classification = some bk then sh.physical else fun _ => 0 := by
    cases bk with
    | physical => exact absurd h (consumptionBucket_ne_quantity c .physical)
    | avoided => exact absurd h (consumptionBucket_ne_quantity c .avoided)
    | stranded => exact absurd h (consumptionBucket_ne_quantity c .stranded)
    | useful | overhead | waste | unknown => rfl
  unfold attributed postedBy classWeight
  simp only [hamount]
  split
  · rw [mul_one]
    rfl
  · simp

theorem exists_attributed {e : LedgerEntry} (h : ¬ e.usage.isZero) :
    ∃ a d, 0 < attributed e a .physical d := by
  obtain ⟨d, hd⟩ := not_forall.mp h
  by_contra hno
  push Not at hno
  have hsum : ∑ a ∈ (accountsOf e).toFinset, attributed e a .physical d = (e.usage.data d).toNat :=
    sum_attributed e d .physical fun sh hsh => List.mem_toFinset.mpr (List.mem_map_of_mem hsh)
  rw [Finset.sum_eq_zero fun a _ => Nat.le_zero.mp (hno a d)] at hsum
  exact hd (UInt64.toNat_inj.mp hsum.symm)

section Net

variable (ord : IterationOrder) {b : Books} {e : LedgerEntry} (a : AccountId) (bk : Bucket)
  (d : Dimension)

theorem net_postings_of_ordinary (h : e.event ≠ EventType.kReclassify) :
    net (postings ord b e) (a, bk, d) = attributed e a bk d := by
  rw [postings_of_ordinary ord b h]
  exact net_appendPostings ord e a bk d

theorem net_postings_of_revision (hwf : b.Wf) (hadm : b.Admits e)
    (h : e.event = EventType.kReclassify) :
    ∃ t, b.target e = some t ∧ net (postings ord b e) (a, bk, d) =
      attributed t a .physical d * (classWeight e.classification bk - classWeight t.classification bk) := by
  obtain ⟨-, t, ht, hcls⟩ := hadm.revision h
  refine ⟨t, ht, ?_⟩
  rw [postings_of_revision ord h ht]
  rw [← consumptionBucket_isSome, ← consumptionBucket_isSome] at hcls
  cases hsrc : consumptionBucket t.classification with
  | none =>
    have hdst : consumptionBucket e.classification = none := by
      rw [hsrc, Option.isSome_none] at hcls
      exact Option.isNone_iff_eq_none.mp (by simpa using hcls.symm)
    rw [classWeight_eq_zero hdst, classWeight_eq_zero hsrc]
    simp [revisionPostings, hsrc]
  | some src =>
    obtain ⟨dst, hdst⟩ : ∃ dst, consumptionBucket e.classification = some dst := by
      rw [← Option.isSome_iff_exists, ← hcls, hsrc]
      rfl
    rw [net_revisionPostings hsrc hdst (hwf.movable_target ht) t.classification]
    unfold classWeight moveWeight
    simp only [hsrc, hdst, Option.some.injEq]
    rfl

theorem net_postings_quantity (hwf : b.Wf) (hadm : b.Admits e) (q : Quantity) :
    net (postings ord b e) (a, q.bucket, d) =
      if e.event = EventType.kReclassify then 0 else (attributed e a q.bucket d : Int) := by
  by_cases hevent : e.event = EventType.kReclassify
  · obtain ⟨t, -, hnet⟩ := net_postings_of_revision ord a q.bucket d hwf hadm hevent
    rw [hnet, classWeight_quantity, classWeight_quantity, if_pos hevent, Int.sub_self, Int.mul_zero]
  · rw [if_neg hevent]
    exact net_postings_of_ordinary ord a q.bucket d hevent

end Net

theorem toNat_read_of_postAll {ps : List (Posting (AccountId × Cell) Status)}
    {accounts accounts' : Accounts} (h : postAll ps accounts = .ok ⟨⟩ accounts') (a : AccountId)
    (bk : Bucket) (d : Dimension) :
    (((accounts'.get a).bucket bk d).toNat : Int) =
      ((accounts.get a).bucket bk d).toNat + net ps (a, bk, d) :=
  read_of_postAll_ok h (a, bk, d)

/-! ### Revisions and their targets -/

/-- The revisions of an entry, in order. -/
def revisionsOf (es : List LedgerEntry) (t : LedgerEntry) : List LedgerEntry :=
  es.filter fun r => r.event = EventType.kReclassify ∧ r.revisionTarget = some t.id

theorem mem_revisionsOf {es : List LedgerEntry} {t r : LedgerEntry} :
    r ∈ revisionsOf es t ↔
      r ∈ es ∧ r.event = EventType.kReclassify ∧ r.revisionTarget = some t.id := by
  rw [revisionsOf, List.mem_filter, decide_eq_true_iff]

section Rebuilt

variable {ord : IterationOrder} {F : LedgerEntry → Prop} {es : List LedgerEntry} {b : Books}

theorem Rebuilt.id_injective (h : Rebuilt ord F es b) {e e' : LedgerEntry} (he : e ∈ es)
    (he' : e' ∈ es) (hid : e.id = e'.id) : e = e' := by
  rw [← h.history] at he he'
  exact h.wf.id_injective he he' hid

end Rebuilt

/-- What is known of the revisions in a history. -/
structure Books.RevisionsKnown (b : Books) : Prop where
  wf : b.Wf
  usage : ∀ r ∈ b.history, r.event = EventType.kReclassify → r.usage.isZero
  target : ∀ r ∈ b.history, r.event = EventType.kReclassify → ∃ t ∈ b.history,
    r.revisionTarget = some t.id ∧
      isConsumptionClass t.classification = isConsumptionClass r.classification

section RevisionsKnown

variable {ord : IterationOrder} {F : LedgerEntry → Prop} {es : List LedgerEntry} {b : Books}

theorem revisionsKnown_empty : Books.RevisionsKnown {} :=
  ⟨Books.wf_empty, fun _ hr => (by cases hr), fun _ hr => (by cases hr)⟩

theorem Books.RevisionsKnown.commit (h : b.RevisionsKnown) {e : LedgerEntry} (hadm : b.Admits e)
    {accounts : Accounts} (hpost : postAll (postings ord b e) b.accounts = .ok ⟨⟩ accounts) :
    ((b.withAccounts accounts).record e).RevisionsKnown := by
  have hhistory : ((b.withAccounts accounts).record e).history = b.history ++ [e] :=
    Books.record_history _ e
  have hmem {r : LedgerEntry} (hr : r ∈ b.history ++ [e]) : r ∈ b.history ∨ r = e := by
    simpa using hr
  refine ⟨h.wf.commit hadm hpost, fun r hr hevent => ?_, fun r hr hevent => ?_⟩
  · rw [hhistory] at hr
    rcases hmem hr with hold | rfl
    · exact h.usage r hold hevent
    · exact (hadm.revision hevent).usage
  · rw [hhistory] at hr ⊢
    rcases hmem hr with hold | rfl
    · obtain ⟨t, ht, hid, hcls⟩ := h.target r hold hevent
      exact ⟨t, List.mem_append_left _ ht, hid, hcls⟩
    · obtain ⟨-, t, ht, hcls⟩ := hadm.revision hevent
      obtain ⟨hold, hid⟩ := h.wf.target_eq_some.mp ht
      exact ⟨t, List.mem_append_left _ hold, hid, hcls⟩

theorem revisionsKnown_appendLocked (ord : IterationOrder) (s : EfficiencyLedger) (e : LedgerEntry)
    (h : s.RevisionsKnown) : (appendLocked ord e s).state.RevisionsKnown := by
  have hwf := wf_appendLocked ord s e h.wf
  rcases appendLocked_cases ord s e with ⟨-, hrun⟩ | ⟨hadm, accounts, hpost, hrun⟩ |
    ⟨-, pre, p, accounts, -, -, hrun⟩
  · rw [hrun]
    exact h
  · rw [hrun]
    exact h.commit hadm.books hpost
  · rw [hrun] at hwf ⊢
    exact ⟨hwf, h.usage, h.target⟩

theorem Rebuilt.revisionsKnown (h : Rebuilt ord F es b) : b.RevisionsKnown := by
  induction h with
  | nil => exact revisionsKnown_empty
  | snoc h hF hadm hpost ih => exact ih.commit hadm hpost

theorem Books.RevisionsKnown.attributed_eq_zero (h : b.RevisionsKnown) {e : LedgerEntry}
    (he : e ∈ b.history) (hevent : e.event = EventType.kReclassify) (a : AccountId) (d : Dimension) :
    attributed e a .physical d = 0 :=
  attributed_physical_eq_zero (h.usage e he hevent) a d

end RevisionsKnown

end El
