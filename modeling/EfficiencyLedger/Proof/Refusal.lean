import EfficiencyLedger.Proof.Books

/-!
# What gets an entry refused

An entry that the fences turn away is refused by them or by an earlier check
(`refusedAsStale_of_authority`). For the other direction, `probe` is an entry that uses nothing and
passes every check of its own content: on a ledger that still takes entries (`Open`) it goes through
where the fences let it (`exists_probe`). So a fence holds for all entries only where it holds for
the probe.
-/

namespace El

open CheckedU64 Counters

/-! ### Refusals -/

/-- The checks that `append` makes before it looks at the fences. -/
def checksBeforeAuthority (s : EfficiencyLedger) (e : LedgerEntry) : Status :=
  if s.shuttingDown then ⟨ErrorCode.kShuttingDown, "ledger is shutting down"⟩
  else if ¬ e.validate then ⟨ErrorCode.kInvalidInput, "invalid accounting entry"⟩
  else if e.event = EventType.kReclassify then
    if e.id ∈ s.index then ⟨ErrorCode.kDuplicateEntry, "duplicate revision entry"⟩
    else if ¬ e.usage.isZero then ⟨ErrorCode.kInvalidInput, "revision event must not consume"⟩
    else .success
  else if e.id ∈ s.index then ⟨ErrorCode.kDuplicateEntry, "duplicate entry id"⟩
  else checkClassificationConsistency e

theorem refusal_eq (s : EfficiencyLedger) (e : LedgerEntry) :
    ∃ later, refusal s e =
      if (checksBeforeAuthority s e).ok = false then checksBeforeAuthority s e
      else if (checkAuthority s e).ok = false then checkAuthority s e
      else later := by
  have hfences (later : Status) : (if ¬ (checkAuthority s e).ok = true then checkAuthority s e
      else later) = if (checkAuthority s e).ok = false then checkAuthority s e else later := by
    simp only [Bool.not_eq_true]
  unfold refusal checksBeforeAuthority
  by_cases hrun : s.shuttingDown = true
  · rw [if_pos hrun, if_pos hrun]
    exact ⟨.success, rfl⟩
  rw [if_neg hrun, if_neg hrun]
  by_cases hvalid : ¬ e.validate = true
  · rw [if_pos hvalid, if_pos hvalid]
    exact ⟨.success, rfl⟩
  rw [if_neg hvalid, if_neg hvalid]
  by_cases hevent : e.event = EventType.kReclassify
  · rw [if_pos hevent, if_pos hevent]
    by_cases hfresh : e.id ∈ s.index
    · rw [if_pos hfresh, if_pos hfresh]
      exact ⟨.success, rfl⟩
    rw [if_neg hfresh, if_neg hfresh]
    by_cases husage : ¬ e.usage.isZero
    · rw [if_pos husage, if_pos husage]
      exact ⟨.success, rfl⟩
    rw [if_neg husage, if_neg husage, hfences]
    exact ⟨_, rfl⟩
  · rw [if_neg hevent, if_neg hevent]
    by_cases hfresh : e.id ∈ s.index
    · rw [if_pos hfresh, if_pos hfresh]
      exact ⟨.success, rfl⟩
    rw [if_neg hfresh, if_neg hfresh, hfences]
    refine ⟨checkLifecycle s.toBooks e, ?_⟩
    by_cases hconsistent : (checkClassificationConsistency e).ok = true
    · have hpass : ¬ (checkClassificationConsistency e).ok = false := by simp [hconsistent]
      rw [if_neg (not_not.mpr hconsistent), if_neg hpass]
    · have hfail : (checkClassificationConsistency e).ok = false := by simpa using hconsistent
      rw [if_pos hconsistent, if_pos hfail]

theorem refusal_of_authority {s : EfficiencyLedger} {e : LedgerEntry}
    (h : (checkAuthority s e).ok = false) :
    (refusal s e).code = ErrorCode.kStaleAuthority ∨
      refusal s e = checksBeforeAuthority s e ∧ (checksBeforeAuthority s e).ok = false := by
  obtain ⟨later, hrefusal⟩ := refusal_eq s e
  by_cases hbefore : (checksBeforeAuthority s e).ok = false
  · rw [if_pos hbefore] at hrefusal
    exact .inr ⟨hrefusal, hbefore⟩
  · rw [if_neg hbefore, if_pos h] at hrefusal
    have hauth : ¬ (checkAuthority s e).ok = true := by simp [h]
    rw [hrefusal]
    exact .inl ((code_checkAuthority s e).resolve_left hauth)

/-- The call changes nothing and returns a stale-authority error, or the error of an earlier
check. -/
def RefusedAsStale (ord : IterationOrder) (s : EfficiencyLedger) (e : LedgerEntry) : Prop :=
  appendLocked ord e s = .error (refusal s e) s ∧
    ((refusal s e).code = ErrorCode.kStaleAuthority ∨
      refusal s e = checksBeforeAuthority s e ∧ (checksBeforeAuthority s e).ok = false)

section

variable {ord : IterationOrder} {s : EfficiencyLedger} {e : LedgerEntry}

theorem refusedAsStale_of_authority (h : (checkAuthority s e).ok = false) :
    RefusedAsStale ord s e := by
  refine ⟨(appendLocked_of_not_admits ord fun hadm => ?_).1, refusal_of_authority h⟩
  have hauth := checkAuthority_ok_iff.mpr ⟨hadm.fences, hadm.worker, hadm.books.attempt⟩
  rw [h] at hauth
  cases hauth

/-! ### A ledger that takes entries -/

/-- The ledger is not shut down, and some entry id is left. -/
structure EfficiencyLedger.Open (s : EfficiencyLedger) : Prop where
  running : s.shuttingDown = false
  spare : ∃ id : AccountingEntryId, id.valid ∧ id ∉ s.index

theorem refusedAsStale_of_not_open (h : ¬ s.Open) : RefusedAsStale ord s e := by
  have hbefore : (checksBeforeAuthority s e).ok = false := by
    unfold checksBeforeAuthority
    by_cases hrun : s.shuttingDown = true
    · rw [if_pos hrun]
      rfl
    rw [if_neg hrun]
    by_cases hvalid : ¬ e.validate = true
    · rw [if_pos hvalid]
      rfl
    have hmem : e.id ∈ s.index := by
      by_contra hfresh
      exact h ⟨by simpa using hrun, e.id, (validate_eq_true_iff.mp (not_not.mp hvalid)).id, hfresh⟩
    rw [if_neg hvalid, if_pos hmem, if_pos hmem]
    split <;> rfl
  obtain ⟨later, hrefusal⟩ := refusal_eq s e
  rw [if_pos hbefore] at hrefusal
  refine ⟨(appendLocked_of_not_admits ord fun hadm => ?_).1, .inr ⟨hrefusal, hbefore⟩⟩
  exact h ⟨hadm.running, e.id, (validate_eq_true_iff.mp hadm.books.valid).id, hadm.books.fresh⟩

/-! ### An entry that passes every other check -/

/-- Every total has room for what the entry brings to it. -/
def EfficiencyLedger.HasRoom (s : EfficiencyLedger) (e : LedgerEntry) : Prop :=
  ∀ a b d, ((s.accounts.get a).bucket b d).toNat + attributed e a b d < u64Limit

theorem hasRoom_iff (ord : IterationOrder) (hevent : e.event ≠ EventType.kReclassify) :
    s.HasRoom e ↔ ∃ accounts, postAll (postings ord s.toBooks e) s.accounts = .ok ⟨⟩ accounts := by
  rw [postings_of_ordinary ord _ hevent, postAll_credits_ok_iff (credits_appendPostings ord e)]
  constructor
  · rintro hroom ⟨a, b, d⟩
    have hcell := hroom a b d
    rw [net_appendPostings]
    change (((s.accounts.get a).bucket b d).toNat : Int) + _ < _
    omega
  · intro hroom a b d
    have hcell := hroom (a, b, d)
    rw [net_appendPostings] at hcell
    change (((s.accounts.get a).bucket b d).toNat : Int) + _ < _ at hcell
    omega

theorem hasRoom_of_quantity_eq_zero (s : EfficiencyLedger) (hzero : ∀ q d, e.quantity q d = 0) :
    s.HasRoom e := by
  intro a b d
  have hle := attributed_le e a b d
  rw [hzero, UInt64.toNat_zero] at hle
  have hlt := toNat_lt_limit ((s.accounts.get a).bucket b d)
  omega

theorem appendLocked_of_hasRoom (ord : IterationOrder) (hadm : s.Admits e)
    (hevent : e.event ≠ EventType.kReclassify) (hroom : s.HasRoom e) :
    ∃ accounts, appendLocked ord e s =
      .ok ⟨⟩ (s.withBooks ((s.toBooks.withAccounts accounts).record e)) := by
  obtain ⟨accounts, hpost⟩ := (hasRoom_iff ord hevent).mp hroom
  refine ⟨accounts, ?_⟩
  rw [appendLocked_of_admits ord hadm]
  simp only [commit, hpost]

theorem not_refusedAsStale_of_isOk (h : (appendLocked ord e s).isOk = true) :
    ¬ RefusedAsStale ord s e := by
  rintro ⟨hcall, -⟩
  rw [hcall] at h
  cases h

end

/-- An entry of an attempt that uses nothing. -/
def probe (id : AccountingEntryId) (attempt : AttemptOptions) (fences : AuthorityFences) :
    LedgerEntry :=
  { id
    event := EventType.kExecutionProgress
    account := ⟨1⟩
    attempt
    fences }

theorem quantity_probe (id : AccountingEntryId) (attempt : AttemptOptions)
    (fences : AuthorityFences) (q : Quantity) (d : Dimension) :
    (probe id attempt fences).quantity q d = 0 := by
  cases q <;> rfl

theorem valid_probe {id : AccountingEntryId} (hid : id.valid) (attempt : AttemptOptions)
    (fences : AuthorityFences) : (probe id attempt fences).validate = true := by
  have hfields : (probe ⟨1⟩ {} {}).Valid := validate_eq_true_iff.mp (by decide)
  exact validate_eq_true_iff.mpr
    { id := hid
      event := hfields.event
      classification := hfields.classification
      provenance := hfields.provenance
      freshness := hfields.freshness
      attemptOutcome := hfields.attemptOutcome
      shared := hfields.shared
      attempt := fun hout => absurd rfl hout
      account := hfields.account }

theorem exists_probe (ord : IterationOrder) {s : EfficiencyLedger} (hopen : s.Open)
    (attempt : AttemptOptions) (fences : AuthorityFences) :
    ∃ id, (checkAuthority s (probe id attempt fences)).ok = true →
      (appendLocked ord (probe id attempt fences) s).isOk = true := by
  obtain ⟨hrun, id, hid, hfresh⟩ := hopen
  refine ⟨id, fun hauth => ?_⟩
  have hevent : (probe id attempt fences).event ≠ EventType.kReclassify := by
    show (EventType.kExecutionProgress : ByteEnum EventType) ≠ EventType.kReclassify
    decide
  obtain ⟨hfences, hworker, hattempt⟩ := checkAuthority_ok_iff.mp hauth
  have hadm : s.Admits (probe id attempt fences) :=
    ⟨hrun, hfences, hworker, valid_probe hid attempt fences, hfresh, hattempt,
      fun hrev => absurd hrev hevent, fun _ => ⟨rfl, rfl⟩⟩
  obtain ⟨accounts, hcall⟩ := appendLocked_of_hasRoom ord hadm hevent
    (hasRoom_of_quantity_eq_zero s (quantity_probe id attempt fences))
  rw [hcall]
  rfl

end El
