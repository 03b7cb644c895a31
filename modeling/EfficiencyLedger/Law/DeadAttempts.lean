import EfficiencyLedger.Law.Attempts
import EfficiencyLedger.Proof.Totals

/-!
# Credit for dead attempts

The check of an attempt on record turns away outcomes and completion signals, and nothing else: an
entry of another kind that is classified USEFUL, and a revision to USEFUL, are accepted also after
the attempt has failed. `addsNoUseful_iff` says which accepted entries leave the useful totals
where they are; in a run whose entries do so while the attempt is dead, it gets no more credit
(`no_credit_of_dead`).
-/

namespace El

open EStateM Machine Counters

/-- The attempt is on record as failed, cancelled or superseded. -/
def Dead (A : AttemptId) (b : Books) : Prop :=
  ∃ st, b.attempts.lookup A = some st ∧ (st.outcome = AttemptOutcome.kFailed ∨
    st.outcome = AttemptOutcome.kCancelled ∨ st.outcome = AttemptOutcome.kSuperseded)

/-- The entry is scoped to the attempt, or revises an entry that is. -/
def Scoped (A : AttemptId) (b : Books) (e : LedgerEntry) : Prop :=
  e.hasAttempt ∧ e.attempt.id = A ∨
    e.event = EventType.kReclassify ∧ ∃ t, b.target e = some t ∧ t.hasAttempt ∧ t.attempt.id = A

/-- The entry brings usage to the useful totals, its own or that of its target. -/
def CreditsUseful (b : Books) (e : LedgerEntry) : Prop :=
  e.classification = EfficiencyClass.kUseful ∧
    if e.event = EventType.kReclassify then
      ∃ t, b.target e = some t ∧ t.classification ≠ EfficiencyClass.kUseful ∧ ¬ t.usage.isZero
    else ¬ e.usage.isZero

/-- If the entry is accepted, no useful total of any account grows. -/
def AddsNoUseful (ord : IterationOrder) (s : EfficiencyLedger) (e : LedgerEntry) : Prop :=
  ∀ s', appendLocked ord e s = .ok ⟨⟩ s' →
    ∀ a d, (s'.accountSummary a).useful d ≤ (s.accountSummary a).useful d

/-! ### What an accepted entry does to the useful totals -/

theorem net_useful (ord : IterationOrder) {b : Books} {e : LedgerEntry} (hwf : b.Wf)
    (hadm : b.Admits e) :
    ∃ (x : LedgerEntry) (w : Int),
      (∀ a d, net (postings ord b e) (a, .useful, d) = attributed x a .physical d * w) ∧
        (CreditsUseful b e ↔ 0 < w ∧ ¬ x.usage.isZero) := by
  by_cases hevent : e.event = EventType.kReclassify
  · obtain ⟨-, t, ht, -⟩ := hadm.revision hevent
    refine ⟨t, classWeight e.classification .useful - classWeight t.classification .useful,
      fun a d => ?_, ?_⟩
    · obtain ⟨t', ht', hnet⟩ := net_postings_of_revision ord a .useful d hwf hadm hevent
      rw [ht, Option.some.injEq] at ht'
      rw [hnet, ht']
    · unfold CreditsUseful
      rw [if_pos hevent, classWeight_eq consumptionBucket_useful, classWeight_eq consumptionBucket_useful, ht]
      simp only [Option.some.injEq, exists_eq_left']
      by_cases he : e.classification = EfficiencyClass.kUseful <;>
        by_cases htu : t.classification = EfficiencyClass.kUseful <;> simp [he, htu]
  · refine ⟨e, classWeight e.classification .useful, fun a d => ?_, ?_⟩
    · rw [net_postings_of_ordinary ord a .useful d hevent, attributed_of_consumption consumptionBucket_useful]
    · unfold CreditsUseful
      rw [if_neg hevent, classWeight_eq consumptionBucket_useful]
      by_cases he : e.classification = EfficiencyClass.kUseful <;> simp [he]

/-- **Which accepted entries add no useful credit.** -/
theorem addsNoUseful_iff (ord : IterationOrder) {s s' : EfficiencyLedger} {e : LedgerEntry}
    (hwf : s.toBooks.Wf) (hadm : s.Admits e) (hcall : appendLocked ord e s = .ok ⟨⟩ s') :
    AddsNoUseful ord s e ↔ ¬ CreditsUseful s.toBooks e := by
  obtain ⟨-, accounts, hpost, rfl⟩ := appendLocked_eq_ok ord hcall
  obtain ⟨x, w, hnet, hcredits⟩ := net_useful ord hwf hadm.books
  have hread (a : AccountId) (d : Dimension) :
      (((accounts.get a).useful d).toNat : Int) =
        ((s.accountSummary a).useful d).toNat + attributed x a .physical d * w := by
    rw [← hnet]
    exact toNat_read_of_postAll hpost a .useful d
  have hle (a : AccountId) (d : Dimension) :
      (accounts.get a).useful d ≤ (s.accountSummary a).useful d ↔
        (attributed x a .physical d : Int) * w ≤ 0 := by
    rw [UInt64.le_iff_toNat_le]
    have := hread a d
    omega
  have hadds : AddsNoUseful ord s e ↔ ∀ a d, (attributed x a .physical d : Int) * w ≤ 0 := by
    unfold AddsNoUseful
    simp only [← hle]
    constructor
    · intro h
      have hafter := h _ hcall
      simpa [EfficiencyLedger.accountSummary] using hafter
    · intro h t ht
      rw [hcall] at ht
      cases ht
      simpa [EfficiencyLedger.accountSummary] using h
  rw [hadds, hcredits]
  constructor
  · rintro h ⟨hw, husage⟩
    obtain ⟨a, d, hpos⟩ := exists_attributed husage
    have hmul := Int.mul_pos (Int.natCast_pos.mpr hpos) hw
    have := h a d
    omega
  · intro h a d
    by_cases hw : 0 < w
    · have hzero : x.usage.isZero := not_not.mp fun hne => h ⟨hw, hne⟩
      rw [attributed_physical_eq_zero hzero]
      simp
    · exact Int.mul_nonpos_of_nonneg_of_nonpos (Int.natCast_nonneg _) (Int.not_lt.mp hw)

/-! ### Runs -/

theorem dead_appendLocked (A : AttemptId) (ord : IterationOrder) (s : EfficiencyLedger)
    (e : LedgerEntry) (h : Dead A s.toBooks) : Dead A (appendLocked ord e s).state.toBooks := by
  refine books_appendLocked ord h (fun _ accounts _ => ?_) fun hadm accounts _ => ?_
  · exact h
  · obtain ⟨st, hst, hdead⟩ := h
    unfold Dead
    rw [record_attempts]
    split
    · rename_i hmine
      obtain ⟨-, hattempt, rfl⟩ := hmine
      have hterm : st.outcome ≠ AttemptOutcome.kPending := by
        rcases hdead with h | h | h <;> rw [h] <;> decide
      refine ⟨_, rfl, ?_⟩
      rw [show (s.toBooks.withAccounts accounts).attempts = s.attempts from rfl, hst,
        Option.getD_some, AttemptState.record_outcome,
        if_neg ((hadm.books.allows hattempt hst).outcome hterm)]
      exact hdead
    · exact ⟨st, hst, hdead⟩

/-- Any accepted entry that is scoped to the attempt, in a state where it is dead, credits no useful
work. -/
def UncreditedWhileDead (A : AttemptId) (s : EfficiencyLedger) (e : LedgerEntry) : Prop :=
  s.Admits e → Dead A s.toBooks → Scoped A s.toBooks e → ¬ CreditsUseful s.toBooks e

/-- The condition on a step: no credit while the attempt is dead, and a load leaves it dead. -/
def KeepsUncredited (ord : IterationOrder) (A : AttemptId) (s : EfficiencyLedger) (op : Op) : Prop :=
  (op.isLoad = true → Dead A (op.step ord s).toBooks) ∧
    (op.isLoad = false → op.CallsMeet ord (UncreditedWhileDead A) s)

/-- No entry of the step that is scoped to the attempt adds useful credit. -/
def NoCredit (ord : IterationOrder) (A : AttemptId) (s : EfficiencyLedger) (op : Op) : Prop :=
  op.isLoad = false → op.CallsMeet ord (fun t e => Scoped A t.toBooks e → AddsNoUseful ord t e) s

theorem addsNoUseful_of_uncredited (ord : IterationOrder) {A : AttemptId} {s : EfficiencyLedger}
    {e : LedgerEntry} (hwf : s.toBooks.Wf) (hdead : Dead A s.toBooks)
    (h : UncreditedWhileDead A s e) (hscoped : Scoped A s.toBooks e) : AddsNoUseful ord s e := by
  intro s' hcall
  have hadm : s.Admits e := by
    by_contra hno
    rw [(appendLocked_of_not_admits ord hno).1] at hcall
    cases hcall
  exact (addsNoUseful_iff ord hwf hadm hcall).mpr (h hadm hdead hscoped) s' hcall

theorem noCredit_of_keepsUncredited {ord : IterationOrder} {A : AttemptId} {s : EfficiencyLedger}
    {op : Op} (hwf : s.toBooks.Wf) (hdead : Dead A s.toBooks) (h : KeepsUncredited ord A s op) :
    NoCredit ord A s op := by
  intro hload
  have hstart := Op.start_books_of_not_load s hload
  refine CallsMeet.of_invariant (P := fun t => t.toBooks.Wf ∧ Dead A t.toBooks)
    (fun t e ht _ => ⟨wf_appendLocked ord t e ht.1, dead_appendLocked A ord t e ht.2⟩)
    (fun t e ht hC => addsNoUseful_of_uncredited ord ht.1 ht.2 hC) ?_ (h.2 hload)
  rw [hstart]
  exact ⟨hwf, hdead⟩

/-- **No useful credit for a dead attempt**, in runs where no accepted entry and no accepted revision
of one credits it, and loads leave it dead. -/
theorem no_credit_of_dead (ord : IterationOrder) (id : LedgerId) (ops later : List Op)
    (A : AttemptId) (hdead : Dead A (run ord (.fresh id) ops).toBooks)
    (h : RunMeets (Op.step ord) (KeepsUncredited ord A) (run ord (.fresh id) ops) later) :
    RunMeets (Op.step ord) (NoCredit ord A) (run ord (.fresh id) ops) later := by
  refine RunMeets.of_invariant (P := fun s => s.toBooks.Wf ∧ Dead A s.toBooks)
    (fun s op hs hop => ⟨?_, ?_⟩) (fun s op hs hop => noCredit_of_keepsUncredited hs.1 hs.2 hop)
    ⟨wf_run ord id ops, hdead⟩ h
  · exact step_books (C := fun _ _ => True) Books.wf_empty (fun s e hs _ => wf_appendLocked ord s e hs)
      s op hs.1 (callsMeet_of_all (fun _ _ => trivial) _ _)
  · by_cases hload : op.isLoad = true
    · exact hop.1 hload
    · exact step_books_of_not_load (dead_appendLocked A ord) s (Bool.eq_false_iff.mpr hload) hs.2

/-- The attempt 5 of the account 7 fails. -/
def attemptFails : List Op :=
  [.append
    { id := ⟨1⟩
      event := EventType.kAttemptFailed
      account := ⟨7⟩
      attempt := { id := ⟨5⟩ }
      attemptOutcome := AttemptOutcome.kFailed }]

/-- An entry of the attempt 5, of the class `c` and with a publication. -/
def lateProgress (c : EfficiencyClass) : LedgerEntry :=
  { id := ⟨2⟩
    event := EventType.kExecutionProgress
    classification := c
    usage := ⟨fun _ => 5⟩
    account := ⟨7⟩
    fences := { publication := ⟨1⟩ }
    attempt := { id := ⟨5⟩ } }

theorem dead_attemptFails : Dead ⟨5⟩ (run default (.fresh kDefaultLedgerId) attemptFails).toBooks := by
  refine ⟨{ outcome := AttemptOutcome.kFailed, authoritative := true }, ?_, .inl rfl⟩
  decide +kernel

theorem no_credit_of_dead_waste :
    RunMeets (Op.step default) (NoCredit default ⟨5⟩)
      (run default (.fresh kDefaultLedgerId) attemptFails)
      [.append (lateProgress .kAvoidableWaste),
        .reclassify { revisionId := ⟨3⟩, target := ⟨2⟩ }] := by
  refine no_credit_of_dead default kDefaultLedgerId attemptFails _ ⟨5⟩ dead_attemptFails
    ⟨⟨fun h => (by cases h), fun _ => ⟨?_, fun _ _ => trivial⟩⟩,
      ⟨fun h => (by cases h), fun _ => ⟨?_, fun _ _ => trivial⟩⟩, trivial⟩
  · exact fun _ _ _ hcredits => absurd hcredits.1 (by decide)
  · intro _ _ _ hcredits
    apply absurd hcredits.1
    decide +kernel

/-- After the attempt has failed, an entry of it that reports progress as USEFUL is accepted. -/
theorem dead_attempt_credited :
    ¬ ∀ (ord : IterationOrder) (id : LedgerId) (ops later : List Op) (A : AttemptId),
      Dead A (run ord (.fresh id) ops).toBooks →
        RunMeets (Op.step ord) (NoCredit ord A) (run ord (.fresh id) ops) later := by
  intro h
  let s := run default (.fresh kDefaultLedgerId) attemptFails
  let r := appendLocked default (lateProgress .kUseful) s
  have hmeets := h default kDefaultLedgerId attemptFails [.append (lateProgress .kUseful)] ⟨5⟩
    dead_attemptFails
  have hnone : Scoped ⟨5⟩ s.toBooks (lateProgress .kUseful) →
      AddsNoUseful default s (lateProgress .kUseful) := (hmeets.1 rfl).1
  have hok : r.isOk = true := by decide +kernel
  have hle := hnone (.inl ⟨by decide, rfl⟩) r.state (Result.eq_ok_of_isOk hok) ⟨7⟩ 0
  have hmore : ¬ (r.state.accountSummary ⟨7⟩).useful 0 ≤ (s.accountSummary ⟨7⟩).useful 0 := by
    decide +kernel
  exact hmore hle

end El
