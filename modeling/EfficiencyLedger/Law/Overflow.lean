import EfficiencyLedger.Law.Reconciliation

/-!
# Overflow

Of all the additions that an append checks, those of the physical, avoided and stranded totals decide
(`overflow_exact`): the shares of one entry always fit, and a class has room wherever the physical
total has, since the consumption totals never exceed it.
-/

namespace El

open CheckedU64 Counters CounterStore EStateM

theorem postAll_appendPostings_ok_iff (ord : IterationOrder) (e : LedgerEntry) {accounts : Accounts}
    (hbounded : accounts.Bounded) :
    (∃ accounts', postAll (appendPostings ord e) accounts = .ok ⟨⟩ accounts') ↔
      ∀ a (q : Quantity) d,
        ((accounts.get a).bucket q.bucket d).toNat + attributed e a q.bucket d < u64Limit := by
  rw [postAll_credits_ok_iff (credits_appendPostings ord e)]
  constructor
  · intro hroom a q d
    have hcounter := hroom (a, q.bucket, d)
    rw [net_appendPostings] at hcounter
    exact_mod_cast hcounter
  · rintro hroom ⟨a, bk, d⟩
    rw [net_appendPostings]
    suffices hfits : ((accounts.get a).bucket bk d).toNat + attributed e a bk d < u64Limit by
      exact_mod_cast hfits
    rcases bucket_cases bk with ⟨q, rfl⟩ | ⟨c, hc⟩
    · exact hroom a q d
    · have htotal := hbounded.bucket_le hc a d
      have hshare := attributed_class_le hc e a d
      exact (Nat.add_le_add htotal hshare).trans_lt (hroom a .physical d)

section Overflow

variable {ord : IterationOrder} {s : EfficiencyLedger} {e : LedgerEntry}

theorem status_of_stopsAt {accounts accounts' : Accounts}
    {pre : List (Posting (AccountId × Cell) Status)} {p : Posting (AccountId × Cell) Status}
    (hbounded : accounts.Bounded) (hstop : StopsAt accounts (appendPostings ord e) pre p)
    (hpost : postAll pre accounts = .ok ⟨⟩ accounts') :
    ∃ q : Quantity, p.onFail = ⟨ErrorCode.kOverflow, q.bucket.name ++ " overflow"⟩ := by
  obtain ⟨a, q, d, rfl⟩ := quantity_of_stopsAt hbounded hstop hpost
  exact ⟨q, rfl⟩

theorem appendLocked_overflow_iff (hbounded : s.accounts.Bounded) (hadm : s.Admits e)
    (hevent : e.event ≠ EventType.kReclassify) :
    (statusOf (appendLocked ord e s)).code = ErrorCode.kOverflow ↔
      ∃ a d, ∃ q : Quantity,
        u64Limit ≤ ((s.accounts.get a).bucket q.bucket d).toNat + attributed e a q.bucket d := by
  have hroom := postAll_appendPostings_ok_iff ord e hbounded
  rcases appendLocked_cases ord s e with ⟨hno, -⟩ | ⟨-, accounts, hpost, hrun⟩ |
    ⟨-, pre, p, accounts, hstop, hpre, hrun⟩
  · exact absurd hadm hno
  · rw [postings_of_ordinary ord _ hevent] at hpost
    rw [hrun, statusOf]
    constructor
    · intro hcode
      exact absurd hcode (by decide)
    · rintro ⟨a, d, q, hover⟩
      exact absurd (hroom.mp ⟨accounts, hpost⟩ a q d) (Nat.not_lt.mpr hover)
  · rw [postings_of_ordinary ord _ hevent] at hstop
    obtain ⟨q, hstatus⟩ := status_of_stopsAt hbounded hstop hpre
    rw [hrun, statusOf, hstatus]
    refine ⟨fun _ => ?_, fun _ => rfl⟩
    by_contra hnone
    obtain ⟨accounts₁, hok⟩ := hroom.mpr fun a q d => Nat.not_le.mp fun hover =>
      hnone ⟨a, d, q, hover⟩
    obtain ⟨accounts₂, -, herr⟩ := hstop.postAll_error
    rw [hok] at herr
    cases herr

theorem message_of_overflow (hbounded : s.accounts.Bounded)
    (hevent : e.event ≠ EventType.kReclassify) {st : Status} {s' : EfficiencyLedger}
    (hcall : appendLocked ord e s = .error st s') (hcode : st.code = ErrorCode.kOverflow) :
    ∃ q : Quantity, st.message = q.bucket.name ++ " overflow" := by
  rcases appendLocked_cases ord s e with ⟨hno, hrun⟩ | ⟨-, accounts, hpost, hrun⟩ |
    ⟨-, pre, p, accounts, hstop, hpre, hrun⟩
  · obtain ⟨-, -, hother⟩ := appendLocked_of_not_admits ord hno
    rw [hrun] at hcall
    cases hcall
    rw [Status.totalsFailure, decide_eq_false_iff_not] at hother
    exact absurd (.inl hcode) hother
  · rw [hrun] at hcall
    cases hcall
  · rw [postings_of_ordinary ord _ hevent] at hstop
    obtain ⟨q, hstatus⟩ := status_of_stopsAt hbounded hstop hpre
    rw [hrun] at hcall
    cases hcall
    exact ⟨q, congrArg Status.message hstatus⟩

end Overflow

/-- **Overflow is reported exactly when it is real**: an ordinary entry that passes the other checks
overflows iff the ledger still accepts entries and some physical, avoided or stranded total has no
room for what the entry brings to it. The loop over the shares goes through in any case. -/
theorem overflow_exact (ord : IterationOrder) (id : LedgerId) (ops : List Op) (e : LedgerEntry)
    (hevent : e.event ≠ EventType.kReclassify) (hvalid : e.validate = true)
    (hfresh : e.id ∉ (run ord (.fresh id) ops).index)
    (hconsistent : (checkClassificationConsistency e).ok = true)
    (hauthority : (checkAuthority (run ord (.fresh id) ops) e).ok = true)
    (hlifecycle : (checkLifecycle (run ord (.fresh id) ops).toBooks e).ok = true) :
    let s := run ord (.fresh id) ops
    ((statusOf (appendLocked ord e s)).code = ErrorCode.kOverflow ↔
      s.shuttingDown = false ∧ ∃ a d, ∃ q : Quantity,
        2 ^ 64 - 1 < ((s.accounts.get a).bucket q.bucket d).toNat + attributed e a q.bucket d) ∧
    (∃ pending, pendingOf e.classification (computeAttribution e).shares = .ok pending) ∧
    ∀ st s', appendLocked ord e s = .error st s' → st.code = ErrorCode.kOverflow →
      ∃ q : Quantity, st.message = q.bucket.name ++ " overflow" := by
  intro s
  have hbounded : s.accounts.Bounded := bounded_run ord id ops
  refine ⟨?_, ?_, fun st s' hcall hcode => message_of_overflow hbounded hevent hcall hcode⟩
  · cases hrun : s.shuttingDown with
    | true =>
      have hrefused : appendLocked ord e s = .error (refusal s e) s :=
        (appendLocked_of_not_admits ord fun hadm => by
          have hopen := hadm.running
          rw [hrun] at hopen
          cases hopen).1
      have hstatus : refusal s e = ⟨ErrorCode.kShuttingDown, "ledger is shutting down"⟩ := if_pos hrun
      rw [hrefused, statusOf, hstatus]
      constructor
      · intro hcode
        exact absurd hcode (by decide)
      · rintro ⟨hopen, -⟩
        cases hopen
    | false =>
      obtain ⟨hfences, hworker, hattempt⟩ := checkAuthority_ok_iff.mp hauthority
      have hadm : s.Admits e := ⟨hrun, hfences, hworker, hvalid, hfresh, hattempt,
        fun hrev => absurd hrev hevent, fun _ => ⟨hconsistent, hlifecycle⟩⟩
      rw [appendLocked_overflow_iff hbounded hadm hevent]
      exact (and_iff_right rfl).symm
  · obtain ⟨pending, hok, -⟩ := pendingOf_spec e.classification (computeAttribution e).shares
      (attributed_lt e)
    exact ⟨pending, hok⟩

/-- The first dimension of an account is full. -/
def filled : List Op := [.append (twoDimensions 1 0xFFFFFFFFFFFFFFFF 0)]

theorem overflow_exact_filled :
    let s := run default (.fresh kDefaultLedgerId) filled
    let e := twoDimensions 2 1 0
    ((statusOf (appendLocked default e s)).code = ErrorCode.kOverflow ↔
      s.shuttingDown = false ∧ ∃ a d, ∃ q : Quantity,
        2 ^ 64 - 1 < ((s.accounts.get a).bucket q.bucket d).toNat + attributed e a q.bucket d) ∧
    (∃ pending, pendingOf e.classification (computeAttribution e).shares = .ok pending) ∧
    ∀ st s', appendLocked default e s = .error st s' → st.code = ErrorCode.kOverflow →
      ∃ q : Quantity, st.message = q.bucket.name ++ " overflow" :=
  overflow_exact default kDefaultLedgerId filled (twoDimensions 2 1 0) (by decide) (by decide)
    (by decide +kernel) (by decide) (by decide +kernel) (by decide +kernel)

/-- The ledger is shut down afterwards. -/
def filledAndClosed : List Op := filled ++ [.setShuttingDown]

theorem code_filledAndClosed :
    (statusOf (appendLocked default (twoDimensions 2 1 0)
      (run default (.fresh kDefaultLedgerId) filledAndClosed))).code = ErrorCode.kShuttingDown := by
  decide +kernel

/-- A ledger that is shutting down says so, whatever the entry would bring. -/
theorem shutdown_before_overflow :
    ¬ ∀ (ord : IterationOrder) (id : LedgerId) (ops : List Op) (e : LedgerEntry),
      e.event ≠ EventType.kReclassify → e.validate = true →
      e.id ∉ (run ord (.fresh id) ops).index → (checkClassificationConsistency e).ok = true →
      (checkAuthority (run ord (.fresh id) ops) e).ok = true →
      (checkLifecycle (run ord (.fresh id) ops).toBooks e).ok = true →
      let s := run ord (.fresh id) ops
      ((statusOf (appendLocked ord e s)).code = ErrorCode.kOverflow ↔ ∃ a d, ∃ q : Quantity,
        2 ^ 64 - 1 < ((s.accounts.get a).bucket q.bucket d).toNat + attributed e a q.bucket d) := by
  intro h
  have hover := h default kDefaultLedgerId filledAndClosed (twoDimensions 2 1 0) (by decide)
    (by decide) (by decide +kernel) (by decide) (by decide +kernel) (by decide +kernel)
  have hcode := hover.mpr ⟨⟨7⟩, 0, .physical, by decide +kernel⟩
  rw [code_filledAndClosed] at hcode
  exact absurd hcode (by decide)

end El
