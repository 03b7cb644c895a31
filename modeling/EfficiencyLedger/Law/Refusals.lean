import EfficiencyLedger.Law.Growth
import EfficiencyLedger.Law.Overflow
import EfficiencyLedger.Proof.Coordinator

/-!
# Which refusals pass

The postings of an admitted entry can fail in two ways only (`total_failures`): an ordinary entry finds
no room in a physical, avoided or stranded total, or a revision finds less in the class of its target
than it has to take out. The other messages of the totals loops are never returned.

The books only grow, so most of what gets an entry refused stays. An entry that is refused now, and
goes through later without a load, was refused by a fence of the header or of a worker, for a target
that was not there yet, or for a class that held too little (`passes_iff`).
-/

namespace El

open CheckedU64 Counters CounterStore EStateM

/-! ### Where the totals loops give up -/

theorem split_of_flatMap {ι α : Type} {f : ι → List α} {l : List ι} {pre suf : List α} {p : α}
    (h : l.flatMap f = pre ++ p :: suf) :
    ∃ l₁ x l₂ r r', l = l₁ ++ x :: l₂ ∧ pre = l₁.flatMap f ++ r ∧ f x = r ++ p :: r' := by
  rw [List.flatMap_def, List.flatten_eq_append_iff] at h
  rcases h with ⟨as, bs, hmap, rfl, hrest⟩ | ⟨as, r, q, r', ds, hmap, rfl, hrest⟩
  · obtain ⟨l₁, l₂, rfl, rfl, rfl⟩ := List.map_eq_append_iff.mp hmap
    obtain ⟨empty, r', cs, hbs, hempty, -⟩ := List.flatten_eq_cons_iff.mp hrest.symm
    obtain ⟨m, l₃, rfl, rfl, hcons⟩ := List.map_eq_append_iff.mp hbs
    obtain ⟨x, l₄, rfl, hx, -⟩ := List.map_eq_cons_iff.mp hcons
    refine ⟨l₁ ++ m, x, l₄, [], r', (List.append_assoc _ _ _).symm, ?_, hx⟩
    have hnone : (m.map f).flatten = [] := List.flatten_eq_nil_iff.mpr hempty
    rw [List.flatMap_append, List.flatMap_def, List.flatMap_def, hnone, List.append_nil,
      List.append_nil]
  · obtain ⟨l₁, l₂, rfl, rfl, hcons⟩ := List.map_eq_append_iff.mp hmap
    obtain ⟨x, l₃, rfl, hx, -⟩ := List.map_eq_cons_iff.mp hcons
    obtain ⟨rfl, -⟩ := List.cons_eq_cons.mp hrest
    exact ⟨l₁, x, l₃, r, r', rfl, by rw [List.flatMap_def], hx⟩

/-- What a revision takes out of a bucket. -/
abbrev takenOut (a : AccountId) (src : Bucket) (sh : AttributionShare) (ds : List Dimension) :
    List (Posting (AccountId × Cell) Status) :=
  columnAt a src .debit sh.physical ⟨ErrorCode.kReconciliationFailure, "reclassify underflow"⟩ ds

theorem move_split {src dst : Bucket} {sh : AttributionShare} {a : AccountId}
    {r r' : List (Posting (AccountId × Cell) Status)} {p : Posting (AccountId × Cell) Status}
    (hsplit : (movePostings src dst sh).map (postingAt a) = r ++ p :: r') :
    (∃ taken d, taken.Nodup ∧ d ∉ taken ∧ r = takenOut a src sh taken ∧
      p = ⟨(a, src, d), .debit, sh.physical d,
        ⟨ErrorCode.kReconciliationFailure, "reclassify underflow"⟩⟩) ∨
      ∃ added d, added.Nodup ∧ d ∉ added ∧ p.side = .credit ∧ p.key = (a, dst, d) ∧
        p.amount = sh.physical d ∧
        r = movedPart src dst sh a (List.finRange kDimensionCount) added := by
  have hnodup := List.nodup_finRange kDimensionCount
  have hcut {side : Side} {bk : Bucket} {st : Status}
      {r r' : List (Posting (AccountId × Cell) Status)}
      (h : columnAt a bk side sh.physical st (List.finRange kDimensionCount) = r ++ p :: r') :
      ∃ ds d, ds.Nodup ∧ d ∉ ds ∧ r = columnAt a bk side sh.physical st ds ∧
        p = ⟨(a, bk, d), side, sh.physical d, st⟩ := by
    obtain ⟨ds, rest, hds, rfl, hrest⟩ := List.map_eq_append_iff.mp h
    obtain ⟨d, ds', rfl, rfl, -⟩ := List.map_eq_cons_iff.mp hrest
    rw [hds, List.nodup_append] at hnodup
    exact ⟨ds, d, hnodup.1, fun hmem => hnodup.2.2 d hmem d List.mem_cons_self rfl, rfl, rfl⟩
  have hcolumns : takenOut a src sh (List.finRange kDimensionCount) ++
      columnAt a dst .credit sh.physical
        ⟨ErrorCode.kReconciliationFailure, "reclassify overflow"⟩ (List.finRange kDimensionCount) =
      r ++ p :: r' := by
    rw [← hsplit, movePostings, List.map_append, List.map_map, List.map_map]
    rfl
  have hadds {ins : List (Posting (AccountId × Cell) Status)}
      (hr : r = takenOut a src sh (List.finRange kDimensionCount) ++ ins)
      (hins : columnAt a dst .credit sh.physical
        ⟨ErrorCode.kReconciliationFailure, "reclassify overflow"⟩ (List.finRange kDimensionCount) =
          ins ++ p :: r') :
      ∃ added d, added.Nodup ∧ d ∉ added ∧ p.side = .credit ∧ p.key = (a, dst, d) ∧
        p.amount = sh.physical d ∧
        r = movedPart src dst sh a (List.finRange kDimensionCount) added := by
    obtain ⟨added, d, hadded, hfresh, rfl, rfl⟩ := hcut hins
    exact ⟨added, d, hadded, hfresh, rfl, rfl, rfl, hr⟩
  rcases List.append_eq_append_iff.mp hcolumns with ⟨ins, hr, hins⟩ | ⟨outs, houts, hrest⟩
  · exact .inr (hadds hr hins)
  · cases outs with
    | nil =>
      rw [List.append_nil] at houts
      exact .inr (hadds (houts.symm.trans (List.append_nil _).symm) hrest.symm)
    | cons q outs =>
      obtain ⟨rfl, -⟩ := List.cons_eq_cons.mp hrest
      exact .inl (hcut houts)

/-- Where a revision gives up: some shares have been moved, and of the next one some dimensions have been
taken out. What it adds to a class it has taken from another one of the same account, and together
they stay below the physical total. -/
theorem split_of_stopsAt {accounts : Accounts} (hbounded : accounts.Bounded)
    {c c' : ByteEnum EfficiencyClass} {src dst : Bucket} (hsrc : consumptionBucket c = some src)
    (hdst : consumptionBucket c' = some dst) {shares : List AttributionShare}
    {pre : List (Posting (AccountId × Cell) Status)} {p : Posting (AccountId × Cell) Status}
    (hstop : StopsAt accounts (revisionPostings accounts c c' shares) pre p) :
    ∃ moved sh rest taken d, shares.filter (·.account ∈ accounts) = moved ++ sh :: rest ∧
      taken.Nodup ∧ d ∉ taken ∧
      pre = revisionPostings accounts c c' moved ++ takenOut sh.account src sh taken ∧
      p = ⟨(sh.account, src, d), .debit, sh.physical d,
        ⟨ErrorCode.kReconciliationFailure, "reclassify underflow"⟩⟩ := by
  obtain ⟨suf, hsplit⟩ := hstop.split
  obtain ⟨accounts', hpre, -⟩ := hstop.postAll_error
  have hmoves (shares : List AttributionShare) : revisionPostings accounts c c' shares =
      (shares.filter (·.account ∈ accounts)).flatMap fun sh =>
        (movePostings src dst sh).map (postingAt sh.account) := by
    simp only [revisionPostings, hsrc, hdst]
  rw [hmoves] at hsplit
  obtain ⟨moved, sh, rest, r, r', hheld, rfl, hcut⟩ := split_of_flatMap hsplit
  have hmoved : moved.filter (·.account ∈ accounts) = moved := by
    apply List.filter_eq_self.mpr
    intro x hx
    have hmem : x ∈ shares.filter (·.account ∈ accounts) := by simp [hheld, hx]
    exact (List.mem_filter.mp hmem).2
  rcases move_split hcut with ⟨taken, d, htaken, hd, rfl, rfl⟩ |
    ⟨added, d, hadded, hfresh, hside, hkey, hamount, rfl⟩
  · refine ⟨moved, sh, rest, taken, d, hheld, htaken, hd, ?_, rfl⟩
    rw [hmoves, hmoved]
  · exfalso
    have hwhole : imbalance
        (moved.flatMap fun sh => (movePostings src dst sh).map (postingAt sh.account))
        sh.account d = 0 := by
      have hbalanced := imbalance_revisionPostings accounts c c' moved sh.account d
      rwa [hmoves, hmoved] at hbalanced
    -- all of the share has been taken out, and nothing added in this dimension
    have hpart : imbalance (movedPart src dst sh sh.account (List.finRange kDimensionCount) added)
        sh.account d = 0 - ((sh.physical d).toNat : Int) := by
      rw [imbalance_movedPart hsrc hdst (List.nodup_finRange kDimensionCount) hadded,
        if_neg hfresh, if_pos (List.mem_finRange d)]
    have hdifference := difference_of_postAll hpre sh.account d
    rw [imbalance_append, hwhole, hpart] at hdifference
    have hbefore := hbounded sh.account d
    have hlt := toNat_lt_limit ((accounts'.get sh.account).physical d)
    have hread := read_of_postAll_ok hpre (sh.account, dst, d)
    have hblocked := hstop.blocked
    unfold Posting.Blocked at hblocked
    rw [hside] at hblocked
    simp only [hkey, hamount] at hblocked
    have hover : (u64Limit : Int) ≤ ((accounts'.get sh.account).bucket dst d).toNat +
        (sh.physical d).toNat := by
      change (((accounts'.get sh.account).bucket dst d).toNat : Int) = _ at hread
      rw [hread]
      exact hblocked
    rcases consumptionBucket_cases hdst with rfl | rfl | rfl | rfl <;>
      simp only [AccountAggregate.bucket] at hover <;> omega

/-- **A revision gives up only where a class holds too little.** -/
theorem underflow_of_stopsAt {accounts : Accounts} (hbounded : accounts.Bounded)
    {c c' : ByteEnum EfficiencyClass} {shares : List AttributionShare}
    {pre : List (Posting (AccountId × Cell) Status)} {p : Posting (AccountId × Cell) Status}
    (hstop : StopsAt accounts (revisionPostings accounts c c' shares) pre p) :
    p.onFail = ⟨ErrorCode.kReconciliationFailure, "reclassify underflow"⟩ := by
  obtain ⟨suf, hsplit⟩ := hstop.split
  cases hsrc : consumptionBucket c with
  | none => simp [revisionPostings, hsrc] at hsplit
  | some src =>
    cases hdst : consumptionBucket c' with
    | none => simp [revisionPostings, hsrc, hdst] at hsplit
    | some dst =>
      obtain ⟨moved, sh, rest, taken, d, -, -, -, -, rfl⟩ :=
        split_of_stopsAt hbounded hsrc hdst hstop
      rfl

/-- **How the postings of an admitted entry can fail.** In every reachable state an ordinary entry
fails for a physical, avoided or stranded total, and a revision because a class holds too little; no
class ever overflows. -/
theorem total_failures (ord : IterationOrder) (id : LedgerId) (ops : List Op) (e : LedgerEntry)
    (st : Status) (h : statusOf (appendLocked ord e (run ord (.fresh id) ops)) = st)
    (hfail : st.totalsFailure = true) :
    e.event ≠ EventType.kReclassify ∧
        (∃ q : Quantity, st = ⟨ErrorCode.kOverflow, q.bucket.name ++ " overflow"⟩) ∨
      e.event = EventType.kReclassify ∧
        st = ⟨ErrorCode.kReconciliationFailure, "reclassify underflow"⟩ := by
  have hbounded := bounded_run ord id ops
  generalize run ord (.fresh id) ops = s at h hbounded
  rcases appendLocked_cases ord s e with ⟨hno, hrun⟩ | ⟨-, accounts, hpost, hrun⟩ |
    ⟨hadm, pre, p, accounts, hstop, hpre, hrun⟩
  · have hother := (appendLocked_of_not_admits ord hno).2.2
    rw [hrun] at h
    change refusal s e = st at h
    rw [h, hfail] at hother
    cases hother
  · rw [hrun] at h
    subst h
    cases hfail
  · rw [hrun] at h
    change p.onFail = st at h
    subst h
    by_cases hevent : e.event = EventType.kReclassify
    · obtain ⟨-, t, ht, -⟩ := hadm.books.revision hevent
      rw [postings_of_revision ord hevent ht] at hstop
      exact .inr ⟨hevent, underflow_of_stopsAt hbounded hstop⟩
    · rw [postings_of_ordinary ord _ hevent] at hstop
      exact .inl ⟨hevent, status_of_stopsAt hbounded hstop hpre⟩

/-- A revision of the entry with the id 1. -/
def revisionToWaste : LedgerEntry :=
  { id := ⟨9⟩
    event := EventType.kReclassify
    classification := EfficiencyClass.kAvoidableWaste
    account := ⟨7⟩
    revisionTarget := some ⟨1⟩ }

/-- The entry with the id 1, and a first revision of it. -/
def revisedOnce : List Op :=
  [.append (twoDimensions 1 5 5), .append { revisionToWaste with id := ⟨2⟩ }]

theorem total_failures_revisedOnce :
    let st := statusOf (appendLocked default revisionToWaste (run default (.fresh ⟨1⟩) revisedOnce))
    revisionToWaste.event ≠ EventType.kReclassify ∧
        (∃ q : Quantity, st = ⟨ErrorCode.kOverflow, q.bucket.name ++ " overflow"⟩) ∨
      revisionToWaste.event = EventType.kReclassify ∧
        st = ⟨ErrorCode.kReconciliationFailure, "reclassify underflow"⟩ :=
  total_failures default ⟨1⟩ revisedOnce revisionToWaste _ rfl (by decide +kernel)

/-! ### Attempts that have ended -/

/-- The generation of an attempt gets on record with its outcome. -/
def Books.GenerationsTerminal (b : Books) : Prop :=
  ∀ A st, b.attempts.lookup A = some st → st.generation.valid →
    st.outcome ≠ AttemptOutcome.kPending

theorem generationsTerminal_record {st : AttemptState} {e : LedgerEntry}
    (h : st.generation.valid → st.outcome ≠ AttemptOutcome.kPending)
    (hvalid : (st.record e).generation.valid) : (st.record e).outcome ≠ AttemptOutcome.kPending := by
  rw [AttemptState.record_generation] at hvalid
  rw [AttemptState.record_outcome]
  by_cases hout : e.hasOutcome
  · rw [if_pos hout]
    exact hout
  · rw [if_neg hout] at hvalid ⊢
    exact h hvalid

theorem generationsTerminal_appendLocked (ord : IterationOrder) (s : EfficiencyLedger)
    (e : LedgerEntry) (h : s.GenerationsTerminal) :
    (appendLocked ord e s).state.GenerationsTerminal := by
  refine books_appendLocked ord h (fun _ accounts _ => ?_) fun _ accounts _ A st hst => ?_
  · exact h
  · rw [record_attempts] at hst
    split at hst
    · cases hst
      refine generationsTerminal_record fun hvalid => ?_
      cases hlookup : s.attempts.lookup A with
      | none =>
        change ((s.attempts.lookup A).getD {}).generation.valid at hvalid
        rw [hlookup] at hvalid
        exact absurd rfl hvalid
      | some st =>
        change ((s.attempts.lookup A).getD {}).generation.valid at hvalid
        change ((s.attempts.lookup A).getD {}).outcome ≠ _
        rw [hlookup] at hvalid ⊢
        exact h A st hlookup hvalid
    · exact h A st hst

theorem generationsTerminal_run (ord : IterationOrder) (id : LedgerId) (ops : List Op) :
    (run ord (.fresh id) ops).GenerationsTerminal :=
  books_invariant (P := Books.GenerationsTerminal) (fun _ _ hst => (by cases hst))
    (generationsTerminal_appendLocked ord) (s := .fresh id) (fun _ _ hst => (by cases hst)) ops

theorem checkAttempt_of_allows {st : AttemptState} {e : LedgerEntry} (h : st.Allows e) :
    (checkAttempt st e).ok = true := by
  unfold checkAttempt
  rw [if_neg fun hgen => hgen.2.2 (h.generation hgen.1 hgen.2.1),
    if_neg fun hout => h.outcome hout.1 hout.2, if_neg fun hcomp => ?_,
    if_neg fun hpub => Identity.not_le.mpr (h.publication hpub.1 hpub.2.1) hpub.2.2]
  · rfl
  · have hno := h.completion hcomp.1
    rw [hcomp.2] at hno
    cases hno

theorem AttemptState.Precedes.allows {st st' : AttemptState} {e : LedgerEntry}
    (h : st.Precedes st') (hgen : st.generation.valid → st.outcome ≠ AttemptOutcome.kPending)
    (hallows : st'.Allows e) : st.Allows e := by
  refine ⟨fun hst he => ?_, fun hout => ?_, fun hout => ?_, fun he hst => ?_⟩
  · have hsame := h.generation (hgen hst)
    rw [← hsame]
    exact hallows.generation (by rwa [hsame]) he
  · exact hallows.outcome (by rwa [h.outcome hout])
  · exact hallows.completion (by rwa [h.outcome hout])
  · have hle := h.publication
    have hlt := hallows.publication he (Identity.valid_of_le hst hle)
    exact UInt64.lt_of_le_of_lt hle hlt

/-! ### What stays in the way -/

section Stays

variable {b c : Books} {e : LedgerEntry}

theorem attemptStatus_of_extends (hgen : b.GenerationsTerminal) (h : b.Extends c)
    (hok : (c.attemptStatus e).ok = true) : (b.attemptStatus e).ok = true := by
  unfold Books.attemptStatus at hok ⊢
  by_cases hattempt : e.hasAttempt
  · rw [if_pos hattempt] at hok ⊢
    cases hst : b.attempts.lookup e.attempt.id with
    | none => rfl
    | some st =>
      obtain ⟨st', hst', hprecedes⟩ := h.attempts _ st hst
      rw [hst'] at hok
      have hallows : st'.Allows e := allows_of_checkAttempt hok
      exact checkAttempt_of_allows (hprecedes.allows (hgen _ st hst) hallows)
  · rw [if_neg hattempt]
    rfl

theorem checkLifecycle_of_free (h : ∀ k : LifecycleKind, k.completes e → (k.owner e).valid →
    k.owner e ∉ k.completed b) : (checkLifecycle b e).ok = true := by
  unfold checkLifecycle
  split_ifs with hlife htransfer hreservation hallocation hrecovery
  · exact absurd htransfer.2.2 (h .transfer htransfer.1 htransfer.2.1)
  · exact absurd hreservation.2.2 (h .reservation hreservation.1 hreservation.2.1)
  · exact absurd hallocation.2.2 (h .allocation hallocation.1 hallocation.2.1)
  · exact absurd hrecovery.2.2 (h .recovery hrecovery.1 hrecovery.2.1)
  · rfl
  · rfl

theorem checkLifecycle_of_extends (h : b.Extends c) (hok : (checkLifecycle c e).ok = true) :
    (checkLifecycle b e).ok = true :=
  checkLifecycle_of_free fun k hcompletes hvalid hmem =>
    k.owner_notMem_of_checkLifecycle hok ⟨hcompletes, hvalid⟩ (h.completed k hmem)

theorem mem_index_of_extends (h : b.Extends c) {id : AccountingEntryId} (hid : id ∈ b.index) :
    id ∈ c.index := by
  have hsome := Finmap.mem_iff.mp hid
  rw [← h.index id hid] at hsome
  exact Finmap.mem_iff.mpr hsome

theorem target_of_extends (hb : b.Wf) (hc : c.Wf) (h : b.Extends c) {t : LedgerEntry}
    (ht : b.target e = some t) : c.target e = some t := by
  obtain ⟨hmem, hid⟩ := hb.target_eq_some.mp ht
  exact hc.target_eq_some.mpr ⟨h.history.subset hmem, hid⟩

end Stays

theorem shuttingDown_run (ord : IterationOrder) {ops : List Op} :
    ∀ {s : EfficiencyLedger}, (∀ op ∈ ops, op.isLoad = false) → s.shuttingDown = true →
      (run ord s ops).shuttingDown = true := by
  induction ops with
  | nil => exact fun _ hs => hs
  | cons op ops ih =>
    intro s h hs
    refine ih (fun x hx => h x (by simp [hx])) ?_
    have hstart : (op.start s).shuttingDown = true := by
      have hop := h op (by simp)
      cases op with
      | registerWorker boot =>
        show (s.registerWorker boot).shuttingDown = true
        unfold EfficiencyLedger.registerWorker
        split <;> exact hs
      | loadHistory entries => cases hop
      | load file => cases hop
      | setShuttingDown => rfl
      | append _ | appendAll _ | reclassify _ | unregisterWorker _ | advanceEpoch | setEpoch _
      | setLedgerGeneration _ | setAccountGeneration _ | setSystemGeneration _ _ => exact hs
    have hend : (El.appendAll ord (op.entries s) (op.start s)).state.shuttingDown = true := by
      refine EStateM.forM_invariant (P := fun t : EfficiencyLedger => t.shuttingDown = true)
        (C := fun _ _ => True) (fun t e ht _ => ?_) hstart
        (callsMeet_of_all (fun _ _ => trivial) _ _)
      obtain ⟨b, hb⟩ := appendLocked_withBooks ord t e
      rw [hb]
      exact ht
    rcases op.step_spec ord s with hstep | hstep
    · rw [hstep]
      exact hend
    · rw [hstep]
      exact hend

/-! ### Refusals that pass -/

/-- The refusals that a later call can find gone. -/
def passingRefusals : List Status :=
  [⟨ErrorCode.kStaleAuthority, "stale coordinator epoch"⟩,
    ⟨ErrorCode.kStaleAuthority, "stale ledger generation"⟩,
    ⟨ErrorCode.kStaleAuthority, "stale account generation"⟩,
    ⟨ErrorCode.kStaleAuthority, "stale worker boot id"⟩,
    ⟨ErrorCode.kInvalidInput, "revision target entry does not exist"⟩,
    ⟨ErrorCode.kReconciliationFailure, "reclassify underflow"⟩]

/-- In some reachable state an entry is refused with the status, and some calls later, none of them a
load, it goes through. -/
def Passes (st : Status) : Prop :=
  ∃ (ord : IterationOrder) (id : LedgerId) (before ops : List Op) (e : LedgerEntry),
    (∀ op ∈ ops, op.isLoad = false) ∧ st ≠ .success ∧
      statusOf (appendLocked ord e (run ord (.fresh id) before)) = st ∧
      (appendLocked ord e (run ord (run ord (.fresh id) before) ops)).isOk = true

section Passing

variable {s t : EfficiencyLedger} {e : LedgerEntry}

theorem passing_of_checkAuthority (hattempt : (s.attemptStatus e).ok = true)
    (h : ¬(checkAuthority s e).ok = true) : checkAuthority s e ∈ passingRefusals := by
  unfold checkAuthority at h ⊢
  split_ifs at h ⊢ with hepoch hledger haccount hworker he
  · decide
  · decide
  · decide
  · decide
  · unfold Books.attemptStatus at hattempt
    rw [if_pos he] at hattempt
    exact absurd hattempt h
  · exact absurd rfl h

theorem passing_of_refusal (hgen : s.GenerationsTerminal) (hb : s.toBooks.Wf) (hc : t.toBooks.Wf)
    (hextends : s.toBooks.Extends t.toBooks)
    (hshutdown : s.shuttingDown = true → t.shuttingDown = true) (hadm : t.Admits e)
    (hno : ¬s.Admits e) : refusal s e ∈ passingRefusals := by
  have hattempt := attemptStatus_of_extends hgen hextends hadm.books.attempt
  have hfresh : e.id ∉ s.index := fun hid => hadm.books.fresh (mem_index_of_extends hextends hid)
  have hrunning : ¬s.shuttingDown = true := fun hdown => by
    have hopen := hadm.running
    rw [hshutdown hdown] at hopen
    cases hopen
  unfold refusal
  rw [if_neg hrunning, if_neg (not_not.mpr hadm.books.valid)]
  by_cases hevent : e.event = EventType.kReclassify
  · obtain ⟨husage, u, hu, hclass⟩ := hadm.books.revision hevent
    rw [if_pos hevent, if_neg hfresh, if_neg (not_not.mpr husage)]
    by_cases hauth : ¬(checkAuthority s e).ok = true
    · rw [if_pos hauth]
      exact passing_of_checkAuthority hattempt hauth
    rw [if_neg hauth]
    by_cases hnone : e.revisionTarget = none
    · unfold Books.target at hu
      rw [hnone] at hu
      cases hu
    rw [if_neg hnone]
    cases hmissing : s.target e with
    | none =>
      rw [if_pos rfl]
      decide
    | some u' =>
      have hsame := target_of_extends hb hc hextends hmissing
      rw [hu] at hsame
      cases hsame
      refine absurd ?_ hno
      obtain ⟨hfences, hworker, -⟩ := checkAuthority_ok_iff.mp (not_not.mp hauth)
      exact ⟨by simpa using hrunning, hfences, hworker, hadm.books.valid, hfresh, hattempt,
        fun _ => ⟨husage, u, hmissing, hclass⟩, fun hne => absurd hevent hne⟩
  · obtain ⟨hconsistent, hlifecycle⟩ := hadm.books.ordinary hevent
    rw [if_neg hevent, if_neg hfresh, if_neg (not_not.mpr hconsistent)]
    by_cases hauth : ¬(checkAuthority s e).ok = true
    · rw [if_pos hauth]
      exact passing_of_checkAuthority hattempt hauth
    · obtain ⟨hfences, hworker, -⟩ := checkAuthority_ok_iff.mp (not_not.mp hauth)
      refine absurd ?_ hno
      exact ⟨by simpa using hrunning, hfences, hworker, hadm.books.valid, hfresh, hattempt,
        fun hrev => absurd hrev hevent,
        fun _ => ⟨hconsistent, checkLifecycle_of_extends hextends hlifecycle⟩⟩

theorem not_isOk_of_overflow {ord : IterationOrder} (hs : s.accounts.Bounded)
    (ht : t.accounts.Bounded) (hextends : s.toBooks.Extends t.toBooks)
    (hevent : e.event ≠ EventType.kReclassify)
    {pre : List (Posting (AccountId × Cell) Status)} {p : Posting (AccountId × Cell) Status}
    (hstop : StopsAt s.accounts (appendPostings ord e) pre p) :
    ¬(appendLocked ord e t).isOk = true := by
  -- Where a total has no room for an entry, it never has again.
  intro hok
  have hcall := EStateM.Result.eq_ok_of_isOk hok
  obtain ⟨-, accounts, hpost, -⟩ := appendLocked_eq_ok ord hcall
  rw [postings_of_ordinary ord _ hevent] at hpost
  have hroom := (postAll_appendPostings_ok_iff ord e ht).mp ⟨accounts, hpost⟩
  obtain ⟨accounts', hbefore⟩ := (postAll_appendPostings_ok_iff ord e hs).mpr fun a q d =>
    Nat.lt_of_le_of_lt (Nat.add_le_add_right (hextends.totals a q d) _) (hroom a q d)
  obtain ⟨accounts'', -, herr⟩ := hstop.postAll_error
  rw [hbefore] at herr
  cases herr

end Passing

/-- Each of them does pass: the fence comes to match, the worker registers, the target is appended, or
another entry fills up the class. -/
theorem passes_of_passingRefusals (st : Status) (h : st ∈ passingRefusals) : Passes st := by
  have hpasses (before ops : List Op) (e : LedgerEntry) (hrun : (∀ op ∈ ops, op.isLoad = false) ∧
      st ≠ .success ∧ statusOf (appendLocked default e (run default (.fresh ⟨1⟩) before)) = st ∧
      (appendLocked default e (run default (run default (.fresh ⟨1⟩) before) ops)).isOk = true) :
      Passes st := ⟨default, ⟨1⟩, before, ops, e, hrun⟩
  simp only [passingRefusals, List.mem_cons, List.not_mem_nil, or_false] at h
  rcases h with rfl | rfl | rfl | rfl | rfl | rfl
  · exact hpasses [] [.setEpoch ⟨2⟩] (probe ⟨1⟩ {} { epoch := ⟨2⟩ }) (by decide +kernel)
  · exact hpasses [] [.setLedgerGeneration ⟨2⟩] (probe ⟨1⟩ {} { ledgerGeneration := ⟨2⟩ })
      (by decide +kernel)
  · exact hpasses [] [.setAccountGeneration ⟨2⟩] (probe ⟨1⟩ {} { accountGeneration := ⟨2⟩ })
      (by decide +kernel)
  · exact hpasses [] [.registerWorker ⟨2⟩] (probe ⟨1⟩ {} { workerBoot := ⟨2⟩ }) (by decide +kernel)
  · exact hpasses [] [.append (twoDimensions 1 5 5)] revisionToWaste (by decide +kernel)
  · exact hpasses revisedOnce [.append (twoDimensions 3 5 5)] revisionToWaste (by decide +kernel)

/-- **What gets an entry refused mostly stays.** Without loads, an entry that was refused goes through
later only if a fence of the header or of its worker was in the way, the target of a revision was not
there yet, or its class held too little; and each of these can happen. A duplicate, an attempt that has
ended, a completed owner, a full total or a shutdown refuse it forever. -/
theorem passes_iff (st : Status) : Passes st ↔ st ∈ passingRefusals := by
  constructor
  · rintro ⟨ord, id, before, ops, e, hload, hne, hstatus, hok⟩
    have hs := bounded_run ord id before
    have hgen := generationsTerminal_run ord id before
    have hb := wf_run ord id before
    -- the calls in between are part of the same run
    have hwhole : run ord (run ord (.fresh id) before) ops = run ord (.fresh id) (before ++ ops) :=
      (Machine.run_append _ _ _ _).symm
    have ht := bounded_run ord id (before ++ ops)
    have hc := wf_run ord id (before ++ ops)
    rw [← hwhole] at ht hc
    generalize run ord (.fresh id) before = s at *
    have hextends := extends_run ord s ops hload
    have hcall := EStateM.Result.eq_ok_of_isOk hok
    obtain ⟨hadm, -⟩ := appendLocked_eq_ok ord hcall
    rcases appendLocked_cases ord s e with ⟨hno, hrun⟩ | ⟨-, accounts, -, hrun⟩ |
      ⟨hadm', pre, p, accounts, hstop, -, hrun⟩
    · rw [hrun] at hstatus
      change refusal s e = st at hstatus
      rw [← hstatus]
      exact passing_of_refusal hgen hb hc hextends (shuttingDown_run ord hload) hadm hno
    · rw [hrun] at hstatus
      exact absurd hstatus.symm hne
    · rw [hrun] at hstatus
      change p.onFail = st at hstatus
      rw [← hstatus]
      by_cases hevent : e.event = EventType.kReclassify
      · obtain ⟨-, u, hu, -⟩ := hadm'.books.revision hevent
        rw [postings_of_revision ord hevent hu] at hstop
        rw [underflow_of_stopsAt hs hstop]
        decide
      · rw [postings_of_ordinary ord _ hevent] at hstop
        exact absurd hok (not_isOk_of_overflow hs ht hextends hevent hstop)
  · exact passes_of_passingRefusals st

end El
