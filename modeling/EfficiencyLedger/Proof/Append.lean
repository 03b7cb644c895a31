import EfficiencyLedger.Proof.Postings

/-!
# What `appendLocked` does

One call either refuses the entry and leaves the ledger alone, or makes the postings of the entry
and then records it (`appendLocked_of_not_admits`, `appendLocked_of_admits`). `Admits` is the
conjunction of all checks, split into the part about the header (fences, workers, shutdown) and
`Books.Admits`, the part about the books, which a replay repeats. Every invariant of the ledger
is derived from these two theorems.
-/

namespace El

open CheckedU64 Counters CounterStore

/-! ### Parts of the state -/

def Books.withAccounts (b : Books) (accounts : Accounts) : Books := { b with accounts }

/-- The ledger with other books and the same header. -/
def EfficiencyLedger.withBooks (s : EfficiencyLedger) (b : Books) : EfficiencyLedger :=
  { s with toBooks := b }

section

variable (b : Books) (accounts : Accounts) (s : EfficiencyLedger)

@[simp] theorem withAccounts_accounts : (b.withAccounts accounts).accounts = accounts := rfl

@[simp] theorem withAccounts_history : (b.withAccounts accounts).history = b.history := rfl

@[simp] theorem withAccounts_index : (b.withAccounts accounts).index = b.index := rfl

@[simp] theorem withBooks_toBooks : (s.withBooks b).toBooks = b := rfl

end

/-! ### Admission -/

namespace Books

/-- The entry a revision targets. -/
def target (b : Books) (e : LedgerEntry) : Option LedgerEntry :=
  e.revisionTarget.bind fun t => (b.index.lookup t).map fun i => b.history.getD i {}

/-- The part of `checkAuthority` about attempts. -/
def attemptStatus (b : Books) (e : LedgerEntry) : Status :=
  if e.hasAttempt then
    match b.attempts.lookup e.attempt.id with
    | none => .success
    | some st => checkAttempt st e
  else .success

/-- The checks of a revision. -/
structure AdmitsRevision (b : Books) (e : LedgerEntry) : Prop where
  usage : e.usage.isZero
  target : ∃ t, b.target e = some t ∧
    isConsumptionClass t.classification = isConsumptionClass e.classification

/-- The checks of an ordinary entry. -/
structure AdmitsOrdinary (b : Books) (e : LedgerEntry) : Prop where
  classification : (checkClassificationConsistency e).ok = true
  lifecycle : (checkLifecycle b e).ok = true

/-- The checks that read nothing but the books. -/
structure Admits (b : Books) (e : LedgerEntry) : Prop where
  valid : e.validate = true
  fresh : e.id ∉ b.index
  attempt : (b.attemptStatus e).ok = true
  revision : e.event = EventType.kReclassify → b.AdmitsRevision e
  ordinary : e.event ≠ EventType.kReclassify → b.AdmitsOrdinary e

end Books

namespace EfficiencyLedger

/-- The epoch and generation fences of the entry, where set, are those of the ledger. -/
structure FencesMatch (s : EfficiencyLedger) (e : LedgerEntry) : Prop where
  epoch : e.fences.epoch.valid → e.fences.epoch = s.epoch
  ledgerGeneration : e.fences.ledgerGeneration.valid →
    e.fences.ledgerGeneration = s.ledgerGeneration
  accountGeneration : e.fences.accountGeneration.valid →
    e.fences.accountGeneration = s.accountGeneration

/-- The worker of the entry is live, or the ledger is replaying. -/
def WorkerLive (s : EfficiencyLedger) (e : LedgerEntry) : Prop :=
  s.replaying = false → e.fences.workerBoot.valid → e.fences.workerBoot ∈ s.liveWorkers

/-- The entry passes every check of `appendLocked`. -/
structure Admits (s : EfficiencyLedger) (e : LedgerEntry) : Prop where
  running : s.shuttingDown = false
  fences : s.FencesMatch e
  worker : s.WorkerLive e
  books : s.toBooks.Admits e

end EfficiencyLedger

theorem checkAuthority_ok_iff {s : EfficiencyLedger} {e : LedgerEntry} :
    (checkAuthority s e).ok = true ↔
      s.FencesMatch e ∧ s.WorkerLive e ∧ (s.attemptStatus e).ok = true := by
  have hstale (m : String) : (⟨ErrorCode.kStaleAuthority, m⟩ : Status).ok = false := rfl
  unfold checkAuthority
  by_cases hepoch : e.fences.epoch.valid ∧ e.fences.epoch ≠ s.epoch
  · rw [if_pos hepoch, hstale]
    exact ⟨fun h => (by cases h), fun h => absurd (h.1.epoch hepoch.1) hepoch.2⟩
  rw [if_neg hepoch]
  by_cases hledger : e.fences.ledgerGeneration.valid ∧
      e.fences.ledgerGeneration ≠ s.ledgerGeneration
  · rw [if_pos hledger, hstale]
    exact ⟨fun h => (by cases h), fun h => absurd (h.1.ledgerGeneration hledger.1) hledger.2⟩
  rw [if_neg hledger]
  by_cases haccount : e.fences.accountGeneration.valid ∧
      e.fences.accountGeneration ≠ s.accountGeneration
  · rw [if_pos haccount, hstale]
    exact ⟨fun h => (by cases h), fun h => absurd (h.1.accountGeneration haccount.1) haccount.2⟩
  rw [if_neg haccount]
  by_cases hworker : s.replaying = false ∧ e.fences.workerBoot.valid ∧
      e.fences.workerBoot ∉ s.liveWorkers
  · rw [if_pos hworker, hstale]
    exact ⟨fun h => (by cases h), fun h => absurd (h.2.1 hworker.1 hworker.2.1) hworker.2.2⟩
  rw [if_neg hworker]
  have hfences : s.FencesMatch e := by
    refine ⟨fun h => ?_, fun h => ?_, fun h => ?_⟩
    · exact not_not.mp fun hne => hepoch ⟨h, hne⟩
    · exact not_not.mp fun hne => hledger ⟨h, hne⟩
    · exact not_not.mp fun hne => haccount ⟨h, hne⟩
  have hlive : s.WorkerLive e := fun hr hv => not_not.mp fun hne => hworker ⟨hr, hv, hne⟩
  exact ⟨fun h => ⟨hfences, hlive, h⟩, fun h => h.2.2⟩

/-! ### The postings and the records of an entry -/

/-- The postings of an admitted entry to the totals. -/
def postings (ord : IterationOrder) (b : Books) (e : LedgerEntry) :
    List (Posting (AccountId × Cell) Status) :=
  if e.event = EventType.kReclassify then
    match b.target e with
    | none => []
    | some t =>
      revisionPostings b.accounts t.classification e.classification (computeAttribution t).shares
  else appendPostings ord e

theorem postings_of_revision (ord : IterationOrder) {b : Books} {e t : LedgerEntry}
    (hevent : e.event = EventType.kReclassify) (ht : b.target e = some t) :
    postings ord b e = revisionPostings b.accounts t.classification e.classification
      (computeAttribution t).shares := by
  rw [postings, if_pos hevent, ht]

theorem postings_of_ordinary (ord : IterationOrder) (b : Books) {e : LedgerEntry}
    (hevent : e.event ≠ EventType.kReclassify) : postings ord b e = appendPostings ord e :=
  if_neg hevent

namespace Books

/-- The books with an admitted entry recorded, its postings made. -/
def record (b : Books) (e : LedgerEntry) : Books :=
  if e.event = EventType.kReclassify then b.pushEntry e
  else ((b.recordLifecycle e).recordAttempt e).pushEntry e

@[simp] theorem pushEntry_accounts (b : Books) (e : LedgerEntry) :
    (b.pushEntry e).accounts = b.accounts := rfl

@[simp] theorem recordAttempt_accounts (b : Books) (e : LedgerEntry) :
    (b.recordAttempt e).accounts = b.accounts := by
  unfold recordAttempt
  split <;> rfl

@[simp] theorem recordLifecycle_accounts (b : Books) (e : LedgerEntry) :
    (b.recordLifecycle e).accounts = b.accounts := by
  unfold recordLifecycle
  split <;> rfl

@[simp] theorem recordAttempt_history (b : Books) (e : LedgerEntry) :
    (b.recordAttempt e).history = b.history := by
  unfold recordAttempt
  split <;> rfl

@[simp] theorem recordLifecycle_history (b : Books) (e : LedgerEntry) :
    (b.recordLifecycle e).history = b.history := by
  unfold recordLifecycle
  split <;> rfl

@[simp] theorem recordAttempt_index (b : Books) (e : LedgerEntry) :
    (b.recordAttempt e).index = b.index := by
  unfold recordAttempt
  split <;> rfl

@[simp] theorem recordLifecycle_index (b : Books) (e : LedgerEntry) :
    (b.recordLifecycle e).index = b.index := by
  unfold recordLifecycle
  split <;> rfl

@[simp] theorem record_accounts (b : Books) (e : LedgerEntry) :
    (b.record e).accounts = b.accounts := by
  unfold record
  split <;> simp

@[simp] theorem record_history (b : Books) (e : LedgerEntry) :
    (b.record e).history = b.history ++ [e] := by
  unfold record
  split <;> simp [pushEntry]

@[simp] theorem record_index (b : Books) (e : LedgerEntry) :
    (b.record e).index = b.index.insert e.id b.history.length := by
  unfold record
  split <;> simp [pushEntry]

end Books

/-- What an admitted entry does: its postings, then its records; postings that were made before
the first without room stay. -/
def commit (ord : IterationOrder) (e : LedgerEntry) : LedgerM PUnit := fun s =>
  match postAll (postings ord s.toBooks e) s.accounts with
  | .ok _ accounts => .ok ⟨⟩ (s.withBooks ((s.toBooks.withAccounts accounts).record e))
  | .error st accounts => .error st (s.withBooks (s.toBooks.withAccounts accounts))

/-- The codes with which the totals loops give up. -/
def Status.totalsFailure (st : Status) : Bool :=
  st.code = ErrorCode.kOverflow ∨ st.code = ErrorCode.kReconciliationFailure

theorem ok_of_totalsFailure {st : Status} (h : st.totalsFailure = true) : st.ok = false := by
  rw [Status.totalsFailure, decide_eq_true_iff] at h
  refine Bool.eq_false_iff.mpr (Status.not_ok ?_)
  rcases h with hcode | hcode
  · rw [hcode]
    decide
  · rw [hcode]
    decide

theorem totalsFailure_postings {ord : IterationOrder} {b : Books} {e : LedgerEntry}
    {p : Posting (AccountId × Cell) Status} (hp : p ∈ postings ord b e) :
    p.onFail.totalsFailure = true := by
  unfold postings at hp
  split at hp
  · cases ht : b.target e with
    | none => simp [ht] at hp
    | some t =>
      simp only [ht, revisionPostings] at hp
      split at hp
      · obtain ⟨sh, -, hp⟩ := List.mem_flatMap.mp hp
        obtain ⟨q, hq, rfl⟩ := List.mem_map.mp hp
        rcases List.mem_append.mp hq with hq | hq
        · obtain ⟨d, -, rfl⟩ := List.mem_map.mp hq
          rfl
        · obtain ⟨d, -, rfl⟩ := List.mem_map.mp hq
          rfl
      · simp at hp
  · obtain ⟨a, -, b, d, rfl⟩ := (mem_appendPostings ord e).mp hp
    rfl

/-! ### The two outcomes -/

section Steps

variable {c : Prop} [Decidable c] {st : Status} {s : EfficiencyLedger} {f : PUnit → LedgerM PUnit}

theorem rejectIf_of_neg (h : ¬ c) : (rejectIf c st >>= f) s = f ⟨⟩ s := by
  rw [rejectIf, if_neg h]
  rfl

theorem rejectIf_of_pos (h : c) : (rejectIf c st >>= f) s = .error st s := by
  rw [rejectIf, if_pos h]
  rfl

theorem returnUnlessOk_of_ok (h : st.ok = true) : (returnUnlessOk st >>= f) s = f ⟨⟩ s := by
  rw [returnUnlessOk, if_pos h]
  rfl

theorem returnUnlessOk_of_not_ok (h : ¬ st.ok = true) :
    (returnUnlessOk st >>= f) s = .error st s := by
  rw [returnUnlessOk, if_neg h]
  rfl

end Steps

theorem code_checkAttempt (st : AttemptState) (e : LedgerEntry) :
    (checkAttempt st e).ok = true ∨ (checkAttempt st e).code = ErrorCode.kStaleAuthority := by
  unfold checkAttempt
  split
  · exact .inr rfl
  split
  · exact .inr rfl
  split
  · exact .inr rfl
  split
  · exact .inr rfl
  · exact .inl rfl

theorem code_checkAuthority (s : EfficiencyLedger) (e : LedgerEntry) :
    (checkAuthority s e).ok = true ∨ (checkAuthority s e).code = ErrorCode.kStaleAuthority := by
  unfold checkAuthority
  split
  · exact .inr rfl
  split
  · exact .inr rfl
  split
  · exact .inr rfl
  split
  · exact .inr rfl
  split
  · split
    · exact .inl rfl
    · exact code_checkAttempt _ e
  · exact .inl rfl

theorem totalsFailure_checkAuthority (s : EfficiencyLedger) (e : LedgerEntry) :
    (checkAuthority s e).totalsFailure = false := by
  rcases code_checkAuthority s e with hok | hstale
  · apply Bool.eq_false_iff.mpr
    intro hfail
    rw [ok_of_totalsFailure hfail] at hok
    cases hok
  · rw [Status.totalsFailure, hstale]
    decide

theorem totalsFailure_checkClassificationConsistency (e : LedgerEntry) :
    (checkClassificationConsistency e).totalsFailure = false := by
  unfold checkClassificationConsistency
  simp only
  split_ifs <;> rfl

theorem totalsFailure_checkLifecycle (b : Books) (e : LedgerEntry) :
    (checkLifecycle b e).totalsFailure = false := by
  unfold checkLifecycle
  split_ifs <;> rfl

theorem onAccounts_bind (m : AccountsM PUnit) (f : PUnit → AccountsM PUnit) :
    onAccounts (m >>= f) = onAccounts m >>= fun u => onAccounts (f u) := by
  funext s
  rw [EStateM.bind_apply]
  unfold onAccounts
  rw [EStateM.bind_apply]
  cases m s.accounts <;> rfl

theorem onAccounts_forM {ι : Type} (l : List ι) (f : ι → AccountsM PUnit) :
    (l.forM fun x => onAccounts (f x)) = onAccounts (l.forM f) := by
  induction l with
  | nil => rfl
  | cons x l ih =>
    have hcons : ((x :: l).forM f : AccountsM PUnit) = (f x >>= fun _ => l.forM f) := rfl
    rw [hcons, onAccounts_bind, ← ih]
    rfl

theorem consumptionBucket_isSome (c : ByteEnum EfficiencyClass) :
    (consumptionBucket c).isSome = isConsumptionClass c := by
  cases c with
  | unnamed v h => rfl
  | named x => cases x <;> rfl

theorem applyReclassifyLocked_of_target {s : EfficiencyLedger} {e t : LedgerEntry}
    (hevent : e.event = EventType.kReclassify) (ht : s.target e = some t) (ord : IterationOrder)
    (hcls : isConsumptionClass t.classification = isConsumptionClass e.classification) :
    applyReclassifyLocked e s = commit ord e s := by
  obtain ⟨id, hid, i, hi, rfl⟩ : ∃ id, e.revisionTarget = some id ∧ ∃ i,
      s.index.lookup id = some i ∧ s.history.getD i {} = t := by
    obtain ⟨id, hid, hmap⟩ := Option.bind_eq_some_iff.mp ht
    obtain ⟨i, hi, h⟩ := Option.map_eq_some_iff.mp hmap
    exact ⟨id, hid, i, hi, h⟩
  have hpost := postings_of_revision ord hevent ht
  unfold applyReclassifyLocked
  rw [EStateM.bind_of_ok (EStateM.get_apply s)]
  simp only [hid, hi]
  rw [rejectIf_of_neg (not_not.mpr hcls)]
  unfold commit
  rw [hpost]
  have hrecord (b : Books) : b.record e = b.pushEntry e := if_pos hevent
  simp only [hrecord]
  cases hsrc : consumptionBucket (s.history.getD i {}).classification with
  | none =>
    have hno := consumptionBucket_isSome (s.history.getD i {}).classification
    rw [hsrc] at hno
    rw [← hno]
    simp only [revisionPostings, hsrc]
    rfl
  | some src =>
    have hyes := consumptionBucket_isSome (s.history.getD i {}).classification
    obtain ⟨dst, hdst⟩ : ∃ dst, consumptionBucket e.classification = some dst := by
      rw [← Option.isSome_iff_exists, consumptionBucket_isSome, ← hcls, ← hyes, hsrc]
      rfl
    rw [hsrc] at hyes
    rw [← hyes, onAccounts_forM, EStateM.bind_apply]
    simp only [Option.isSome_some, if_true, onAccounts, moveShares_eq hsrc hdst]
    cases postAll (revisionPostings s.accounts (s.history.getD i {}).classification
      e.classification (computeAttribution (s.history.getD i {})).shares) s.accounts <;> rfl

/-- The status with which an entry that is not admitted is refused: the first check that fails. -/
def refusal (s : EfficiencyLedger) (e : LedgerEntry) : Status :=
  if s.shuttingDown then ⟨ErrorCode.kShuttingDown, "ledger is shutting down"⟩
  else if ¬ e.validate then ⟨ErrorCode.kInvalidInput, "invalid accounting entry"⟩
  else if e.event = EventType.kReclassify then
    if e.id ∈ s.index then ⟨ErrorCode.kDuplicateEntry, "duplicate revision entry"⟩
    else if ¬ e.usage.isZero then ⟨ErrorCode.kInvalidInput, "revision event must not consume"⟩
    else if ¬ (checkAuthority s e).ok then checkAuthority s e
    else if e.revisionTarget = none then ⟨ErrorCode.kInvalidInput, "revision event missing target"⟩
    else if s.target e = none then
      ⟨ErrorCode.kInvalidInput, "revision target entry does not exist"⟩
    else
      ⟨ErrorCode.kInvalidInput, "cannot reclassify across consumption / non-consumption classes"⟩
  else if e.id ∈ s.index then ⟨ErrorCode.kDuplicateEntry, "duplicate entry id"⟩
  else if ¬ (checkClassificationConsistency e).ok then checkClassificationConsistency e
  else if ¬ (checkAuthority s e).ok then checkAuthority s e
  else checkLifecycle s.toBooks e

section Append

variable (ord : IterationOrder) {s : EfficiencyLedger} {e : LedgerEntry}

/-- **An admitted entry is committed.** -/
theorem appendLocked_of_admits (h : s.Admits e) : appendLocked ord e s = commit ord e s := by
  obtain ⟨hrun, hfences, hworker, hvalid, hfresh, hattempt, hrev, hord⟩ := h
  have hauth := checkAuthority_ok_iff.mpr ⟨hfences, hworker, hattempt⟩
  unfold appendLocked
  rw [EStateM.bind_of_ok (EStateM.get_apply s), rejectIf_of_neg (by simp [hrun]),
    rejectIf_of_neg (by simp [hvalid])]
  by_cases hevent : e.event = EventType.kReclassify
  · obtain ⟨husage, t, ht, hcls⟩ := hrev hevent
    rw [if_pos hevent, rejectIf_of_neg hfresh, rejectIf_of_neg (not_not.mpr husage),
      returnUnlessOk_of_ok hauth, applyReclassifyLocked_of_target hevent ht ord hcls]
  · obtain ⟨hconsistent, hlife⟩ := hord hevent
    have hpost := postings_of_ordinary ord s.toBooks hevent
    have hrecord (b : Books) :
        b.record e = ((b.recordLifecycle e).recordAttempt e).pushEntry e := if_neg hevent
    have hinvalid : ¬ (computeAttribution e).invalid = true := by simp [computeAttribution]
    rw [if_neg hevent, rejectIf_of_neg hfresh, returnUnlessOk_of_ok hconsistent,
      returnUnlessOk_of_ok hauth, returnUnlessOk_of_ok hlife, rejectIf_of_neg hinvalid,
      applyAttribution_eq, EStateM.bind_apply]
    unfold commit onAccounts
    rw [hpost]
    simp only [hrecord]
    cases postAll (appendPostings ord e) s.accounts <;> rfl

/-- **An entry that is not admitted is refused and leaves the ledger alone.** -/
theorem appendLocked_of_not_admits (h : ¬ s.Admits e) :
    appendLocked ord e s = .error (refusal s e) s ∧ (refusal s e).ok = false ∧
      (refusal s e).totalsFailure = false := by
  unfold appendLocked refusal
  rw [EStateM.bind_of_ok (EStateM.get_apply s)]
  by_cases hrun : s.shuttingDown
  · rw [rejectIf_of_pos hrun, if_pos hrun]
    exact ⟨rfl, rfl, rfl⟩
  rw [rejectIf_of_neg hrun, if_neg hrun]
  by_cases hvalid : ¬ e.validate
  · rw [rejectIf_of_pos hvalid, if_pos hvalid]
    exact ⟨rfl, rfl, rfl⟩
  rw [rejectIf_of_neg hvalid, if_neg hvalid]
  have hvalid' : e.validate = true := not_not.mp hvalid
  by_cases hevent : e.event = EventType.kReclassify
  · rw [if_pos hevent, if_pos hevent]
    by_cases hfresh : e.id ∈ s.index
    · rw [rejectIf_of_pos hfresh, if_pos hfresh]
      exact ⟨rfl, rfl, rfl⟩
    rw [rejectIf_of_neg hfresh, if_neg hfresh]
    by_cases husage : ¬ e.usage.isZero
    · rw [rejectIf_of_pos husage, if_pos husage]
      exact ⟨rfl, rfl, rfl⟩
    rw [rejectIf_of_neg husage, if_neg husage]
    by_cases hauth : ¬ (checkAuthority s e).ok
    · rw [returnUnlessOk_of_not_ok hauth, if_pos hauth]
      exact ⟨rfl, by simpa using hauth, totalsFailure_checkAuthority s e⟩
    rw [returnUnlessOk_of_ok (not_not.mp hauth), if_neg hauth]
    unfold applyReclassifyLocked Books.target
    rw [EStateM.bind_of_ok (EStateM.get_apply s)]
    cases hid : e.revisionTarget with
    | none => exact ⟨rfl, rfl, rfl⟩
    | some id =>
      cases hi : s.index.lookup id with
      | none =>
        simp only [hi, Option.bind_some, Option.map_none]
        exact ⟨rfl, rfl, rfl⟩
      | some i =>
        simp only [hi, Option.bind_some, Option.map_some]
        have ht : s.target e = some (s.history.getD i {}) := by
          simp [Books.target, hid, hi]
        by_cases hcls : isConsumptionClass (s.history.getD i {}).classification =
            isConsumptionClass e.classification
        · obtain ⟨hfences, hworker, hattempt⟩ := checkAuthority_ok_iff.mp (not_not.mp hauth)
          exact absurd ⟨by simpa using hrun, hfences, hworker, hvalid', hfresh, hattempt,
            fun _ => ⟨not_not.mp husage, _, ht, hcls⟩, fun hne => absurd hevent hne⟩ h
        · rw [rejectIf_of_pos hcls]
          exact ⟨rfl, rfl, rfl⟩
  · rw [if_neg hevent, if_neg hevent]
    by_cases hfresh : e.id ∈ s.index
    · rw [rejectIf_of_pos hfresh, if_pos hfresh]
      exact ⟨rfl, rfl, rfl⟩
    rw [rejectIf_of_neg hfresh, if_neg hfresh]
    by_cases hconsistent : ¬ (checkClassificationConsistency e).ok
    · rw [returnUnlessOk_of_not_ok hconsistent, if_pos hconsistent]
      exact ⟨rfl, by simpa using hconsistent, totalsFailure_checkClassificationConsistency e⟩
    rw [returnUnlessOk_of_ok (not_not.mp hconsistent), if_neg hconsistent]
    by_cases hauth : ¬ (checkAuthority s e).ok
    · rw [returnUnlessOk_of_not_ok hauth, if_pos hauth]
      exact ⟨rfl, by simpa using hauth, totalsFailure_checkAuthority s e⟩
    rw [returnUnlessOk_of_ok (not_not.mp hauth), if_neg hauth]
    by_cases hlife : ¬ (checkLifecycle s.toBooks e).ok
    · rw [returnUnlessOk_of_not_ok hlife]
      exact ⟨rfl, by simpa using hlife, totalsFailure_checkLifecycle s.toBooks e⟩
    obtain ⟨hfences, hworker, hattempt⟩ := checkAuthority_ok_iff.mp (not_not.mp hauth)
    exact absurd ⟨by simpa using hrun, hfences, hworker, hvalid', hfresh, hattempt,
      fun hrev => absurd hrev hevent,
      fun _ => ⟨not_not.mp hconsistent, not_not.mp hlife⟩⟩ h

/-- **The three outcomes of a call**: refused; recorded with all its postings made; or given up at
the first posting without room, with the postings before it made. -/
theorem appendLocked_cases (s : EfficiencyLedger) (e : LedgerEntry) :
    (¬ s.Admits e ∧ appendLocked ord e s = .error (refusal s e) s) ∨
    (s.Admits e ∧ ∃ accounts, postAll (postings ord s.toBooks e) s.accounts = .ok ⟨⟩ accounts ∧
      appendLocked ord e s =
        .ok ⟨⟩ (s.withBooks ((s.toBooks.withAccounts accounts).record e))) ∨
    (s.Admits e ∧ ∃ pre p accounts, StopsAt s.accounts (postings ord s.toBooks e) pre p ∧
      postAll pre s.accounts = .ok ⟨⟩ accounts ∧
      appendLocked ord e s = .error p.onFail (s.withBooks (s.toBooks.withAccounts accounts))) := by
  by_cases hadm : s.Admits e
  · right
    have hcommit := appendLocked_of_admits ord hadm
    unfold commit at hcommit
    cases hpost : postAll (postings ord s.toBooks e) s.accounts with
    | ok u accounts =>
      left
      rw [hpost] at hcommit
      exact ⟨hadm, accounts, rfl, hcommit⟩
    | error st accounts =>
      right
      obtain ⟨pre, p, hstop, hpre, rfl⟩ := stopsAt_of_postAll_error hpost
      rw [hpost] at hcommit
      exact ⟨hadm, pre, p, accounts, hstop, hpre, hcommit⟩
  · exact .inl ⟨hadm, (appendLocked_of_not_admits ord hadm).1⟩

theorem appendLocked_eq_ok {s' : EfficiencyLedger} (h : appendLocked ord e s = .ok ⟨⟩ s') :
    s.Admits e ∧ ∃ accounts, postAll (postings ord s.toBooks e) s.accounts = .ok ⟨⟩ accounts ∧
      s' = s.withBooks ((s.toBooks.withAccounts accounts).record e) := by
  rcases appendLocked_cases ord s e with ⟨-, hrun⟩ | ⟨hadm, accounts, hpost, hrun⟩ |
    ⟨-, pre, p, accounts, -, -, hrun⟩
  · rw [hrun] at h
    cases h
  · rw [hrun] at h
    cases h
    exact ⟨hadm, accounts, hpost, rfl⟩
  · rw [hrun] at h
    cases h

/-- **Invariants of the books**: what survives new totals and the record of an admitted entry
survives a call. -/
theorem books_appendLocked {P : Books → Prop} (h : P s.toBooks)
    (hposted : ∀ (ps : List (Posting (AccountId × Cell) Status)) accounts,
      postAll ps s.accounts = .ok ⟨⟩ accounts → P (s.toBooks.withAccounts accounts))
    (hrecorded : s.Admits e → ∀ accounts,
      postAll (postings ord s.toBooks e) s.accounts = .ok ⟨⟩ accounts →
        P ((s.toBooks.withAccounts accounts).record e)) :
    P (appendLocked ord e s).state.toBooks := by
  rcases appendLocked_cases ord s e with ⟨-, hrun⟩ | ⟨hadm, accounts, hpost, hrun⟩ |
    ⟨-, pre, p, accounts, -, hpre, hrun⟩
  · rw [hrun]
    exact h
  · rw [hrun]
    exact hrecorded hadm accounts hpost
  · rw [hrun]
    exact hposted pre accounts hpre

theorem accounts_appendLocked (s : EfficiencyLedger) (e : LedgerEntry) :
    ∃ pre, pre <+: postings ord s.toBooks e ∧
      postAll pre s.accounts = .ok ⟨⟩ (appendLocked ord e s).state.accounts := by
  rcases appendLocked_cases ord s e with ⟨-, hrun⟩ | ⟨-, accounts, hpost, hrun⟩ |
    ⟨-, pre, p, accounts, hstop, hpre, hrun⟩
  · rw [hrun]
    exact ⟨[], List.nil_prefix, rfl⟩
  · rw [hrun, EStateM.Result.state, withBooks_toBooks, Books.record_accounts, withAccounts_accounts]
    exact ⟨_, List.prefix_refl _, hpost⟩
  · obtain ⟨suf, hsplit⟩ := hstop.split
    rw [hrun, EStateM.Result.state, withBooks_toBooks, withAccounts_accounts]
    exact ⟨pre, ⟨p :: suf, hsplit.symm⟩, hpre⟩

theorem totalsFailure_of_stopsAt {b : Books} {pre : List (Posting (AccountId × Cell) Status)}
    {p : Posting (AccountId × Cell) Status} (h : StopsAt b.accounts (postings ord b e) pre p) :
    p.onFail.totalsFailure = true := by
  obtain ⟨suf, hsplit⟩ := h.split
  exact totalsFailure_postings (hsplit ▸ List.mem_append_right pre (List.mem_cons_self ..))

theorem appendLocked_eq_error {s' : EfficiencyLedger} {st : Status}
    (h : appendLocked ord e s = .error st s') :
    st.ok = false ∧ ∃ accounts, s' = s.withBooks (s.toBooks.withAccounts accounts) := by
  rcases appendLocked_cases ord s e with ⟨hno, hrun⟩ | ⟨-, accounts, -, hrun⟩ |
    ⟨-, pre, p, accounts, hstop, -, hrun⟩
  · have hfail := (appendLocked_of_not_admits ord hno).2.1
    rw [hrun] at h
    cases h
    exact ⟨hfail, s.accounts, rfl⟩
  · rw [hrun] at h
    cases h
  · have hfail := ok_of_totalsFailure (totalsFailure_of_stopsAt ord hstop)
    rw [hrun] at h
    cases h
    exact ⟨hfail, accounts, rfl⟩

section Stop

variable {pre : List (Posting (AccountId × Cell) Status)} {p : Posting (AccountId × Cell) Status}

theorem appendLocked_of_stopsAt (hadm : s.Admits e)
    (hstop : StopsAt s.accounts (postings ord s.toBooks e) pre p) :
    ∃ accounts, postAll pre s.accounts = .ok ⟨⟩ accounts ∧
      appendLocked ord e s = .error p.onFail (s.withBooks (s.toBooks.withAccounts accounts)) := by
  obtain ⟨accounts, hpre, herr⟩ := hstop.postAll_error
  refine ⟨accounts, hpre, ?_⟩
  rw [appendLocked_of_admits ord hadm]
  simp only [commit, herr]

theorem not_stopsAt_of_isOk (h : (appendLocked ord e s).isOk = true) (hadm : s.Admits e) :
    ¬ StopsAt s.accounts (postings ord s.toBooks e) pre p := by
  intro hstop
  obtain ⟨accounts, -, hcall⟩ := appendLocked_of_stopsAt ord hadm hstop
  rw [hcall] at h
  cases h

end Stop

end Append

/-! ### The accounts of the map -/

theorem mem_of_postAll_ok {ps : List (Posting (AccountId × Cell) Status)} :
    ∀ {accounts accounts' : Accounts}, postAll ps accounts = .ok ⟨⟩ accounts' →
      ∀ a, a ∈ accounts' ↔ a ∈ accounts ∨ ∃ p ∈ ps, p.key.1 = a := by
  induction ps with
  | nil =>
    intro accounts accounts' h a
    cases h
    simp
  | cons p ps ih =>
    intro accounts accounts' h a
    rw [postAll_cons, EStateM.bind_apply] at h
    cases hp : post p accounts with
    | error st accounts₁ =>
      rw [hp] at h
      cases h
    | ok u accounts₁ =>
      rw [hp] at h
      obtain ⟨v, -, hpost⟩ := post_of_fits (fits_of_post_ok hp)
      have hwrite : accounts₁ = write accounts p.key v := by
        rw [hpost] at hp
        cases hp
        rfl
      have hins : a ∈ accounts₁ ↔ a = p.key.1 ∨ a ∈ accounts := by
        rw [hwrite]
        exact Finmap.mem_insert
      rw [ih h, hins]
      simp only [List.mem_cons, exists_eq_or_imp]
      constructor
      · rintro ((rfl | hmem) | hex)
        · exact .inr (.inl rfl)
        · exact .inl hmem
        · exact .inr (.inr hex)
      · rintro (hmem | hkey | hex)
        · exact .inl (.inr hmem)
        · exact .inl (.inl hkey.symm)
        · exact .inr hex

end El
