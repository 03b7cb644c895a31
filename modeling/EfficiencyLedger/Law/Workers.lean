import EfficiencyLedger.Law.Network
import EfficiencyLedger.Law.Overflow

/-!
# What a worker is told

A worker registers before it appends, and its boot id stays live as long as its session lasts: nobody
else is served in between. Its entries name no epoch and no generation. So whatever the other clients
send and however the parts interleave, a worker is told that its entry is in the history, that the id
is taken, that the attempt has ended or was published already, or that a physical total is full, and
never that it is stale itself (`worker_answers`).
-/

namespace El

open CheckedU64 Counters CounterStore EStateM Session Wire

/-! ### The entries of a worker -/

/-- What the answers to a worker say. -/
def workerStatuses : List Status :=
  [.success, ⟨ErrorCode.kDuplicateEntry, "duplicate entry id"⟩,
    ⟨ErrorCode.kStaleAuthority, "attempt already terminal"⟩,
    ⟨ErrorCode.kStaleAuthority, "stale/duplicate publication"⟩,
    ⟨ErrorCode.kOverflow, "physical overflow"⟩]

/-- An entry as a worker sends it. -/
structure SentBy (boot : WorkerBootId) (e : LedgerEntry) : Prop where
  valid : e.validate = true
  event : e.event ≠ EventType.kReclassify
  classification : (checkClassificationConsistency e).ok = true
  lifecycle : isLifecycleCompletion e = false
  fences : e.fences = { workerBoot := boot, publication := e.fences.publication }
  outcome : e.hasOutcome
  generation : ¬e.attempt.generation.valid
  avoided : e.avoidedWork = none
  stranded : e.strandedCapacity = none
  shared : e.shared = none
  note : e.note = []

theorem sentBy_mk {id : UInt64} {ev : EventType} {cls : EfficiencyClass} {ns : UInt64}
    {acc : AccountId} {pub : UInt64} {boot : WorkerBootId} {att : AttemptId} {out : AttemptOutcome}
    (hvalid : (mk id ev cls ns acc pub {} att out).validate = true)
    (hevent : (ev : ByteEnum EventType) ≠ EventType.kReclassify)
    (hclass : (checkClassificationConsistency (mk id ev cls ns acc pub {} att out)).ok = true)
    (hlife : isLifecycleCompletion (mk id ev cls ns acc pub {} att out) = false)
    (hout : (out : ByteEnum AttemptOutcome) ≠ AttemptOutcome.kPending) :
    SentBy boot (mk id ev cls ns acc pub boot att out) :=
  ⟨hvalid, hevent, hclass, hlife, rfl, hout, fun h => h rfl, rfl, rfl, rfl, rfl⟩

theorem sentBy_entries (boot : WorkerBootId) (mode : WorkerMode) :
    ∀ e ∈ mode.entries boot, SentBy boot e := by
  have hfirst : SentBy boot (mk 1 .kAttemptFailed .kAvoidableWaste 300 ⟨3⟩ 0 boot ⟨11⟩ .kFailed) :=
    sentBy_mk (by decide) (by decide) (by decide) (by decide) (by decide)
  intro e he
  cases mode with
  | scenario =>
    simp only [WorkerMode.entries, List.mem_cons, List.not_mem_nil, or_false] at he
    rcases he with rfl | rfl | rfl | rfl
    · exact hfirst
    · exact sentBy_mk (by decide) (by decide) (by decide) (by decide) (by decide)
    · exact sentBy_mk (by decide) (by decide) (by decide) (by decide) (by decide)
    · exact hfirst
  | append =>
    rw [List.mem_singleton.mp he]
    exact sentBy_mk (by decide) (by decide) (by decide) (by decide) (by decide)
  | killsleep =>
    rw [List.mem_singleton.mp he]
    exact sentBy_mk (by decide) (by decide) (by decide) (by decide) (by decide)
  | other => cases he

section Append

variable {s : EfficiencyLedger} {boot : WorkerBootId} {e : LedgerEntry}

theorem attributed_eq_zero_of_sentBy (he : SentBy boot e) {q : Quantity} (hq : q ≠ .physical)
    (a : AccountId) (d : Dimension) : attributed e a q.bucket d = 0 := by
  have hzero : e.quantity q d = 0 := by
    cases q with
    | physical => exact absurd rfl hq
    | avoided =>
      have hsource : e.source .avoided = none := by simp [LedgerEntry.source, he.avoided]
      exact quantity_eq_zero hsource d
    | stranded =>
      have hsource : e.source .stranded = none := by simp [LedgerEntry.source, he.stranded]
      exact quantity_eq_zero hsource d
  have hle := attributed_le e a q.bucket d
  have hquantity : q.bucket.quantity = q := by cases q <;> rfl
  rw [hquantity, hzero] at hle
  exact Nat.le_zero.mp hle

theorem refusal_of_sentBy (he : SentBy boot e) (hdown : s.shuttingDown = false)
    (hlive : boot.valid → boot ∈ s.liveWorkers) (hno : ¬s.Admits e) :
    refusal s e ∈ workerStatuses := by
  have hfences : s.FencesMatch e := by
    refine ⟨fun h => ?_, fun h => ?_, fun h => ?_⟩ <;>
      · rw [he.fences] at h
        exact absurd rfl h
  have hworker : s.WorkerLive e := by
    intro _ hvalid
    rw [he.fences] at hvalid ⊢
    exact hlive hvalid
  have hlife : (checkLifecycle s.toBooks e).ok = true := by
    unfold checkLifecycle
    rw [if_neg (by simp [he.lifecycle])]
    rfl
  unfold refusal
  rw [if_neg (by simp [hdown]), if_neg (not_not.mpr he.valid), if_neg he.event]
  by_cases hfresh : e.id ∈ s.index
  · rw [if_pos hfresh]
    decide
  rw [if_neg hfresh, if_neg (not_not.mpr he.classification)]
  by_cases hauth : (checkAuthority s e).ok = true
  · have hattempt := (checkAuthority_ok_iff.mp hauth).2.2
    exact absurd ⟨hdown, hfences, hworker, he.valid, hfresh, hattempt,
      fun hrev => absurd hrev he.event, fun _ => ⟨he.classification, hlife⟩⟩ hno
  rw [if_pos hauth]
  have hstatus : checkAuthority s e = s.toBooks.attemptStatus e := by
    unfold checkAuthority
    rw [if_neg fun h => h.2 (hfences.epoch h.1), if_neg fun h => h.2 (hfences.ledgerGeneration h.1),
      if_neg fun h => h.2 (hfences.accountGeneration h.1),
      if_neg fun h => h.2.2 (hworker h.1 h.2.1)]
    rfl
  rw [hstatus] at hauth ⊢
  unfold Books.attemptStatus at hauth ⊢
  by_cases hattempt : e.hasAttempt
  · rw [if_pos hattempt] at hauth ⊢
    cases hst : s.attempts.lookup e.attempt.id with
    | none =>
      rw [hst] at hauth
      exact absurd rfl hauth
    | some st =>
      rw [hst] at hauth
      simp only at hauth ⊢
      unfold checkAttempt at hauth ⊢
      rw [if_neg fun h => he.generation h.2.1] at hauth ⊢
      by_cases hterminal : st.outcome ≠ AttemptOutcome.kPending
      · rw [if_pos ⟨hterminal, he.outcome⟩]
        decide
      rw [if_neg fun h => hterminal h.1, if_neg fun h => hterminal h.1] at hauth ⊢
      split
      · decide
      · rename_i hpub
        rw [if_neg hpub] at hauth
        exact absurd rfl hauth
  · rw [if_neg hattempt] at hauth
    exact absurd rfl hauth

/-- **An entry of a live worker** gets one of the five answers. -/
theorem statusOf_of_sentBy (ord : IterationOrder) (he : SentBy boot e) (hbounded : s.accounts.Bounded)
    (hdown : s.shuttingDown = false) (hlive : boot.valid → boot ∈ s.liveWorkers) :
    statusOf (appendLocked ord e s) ∈ workerStatuses := by
  rcases appendLocked_cases ord s e with ⟨hno, hrun⟩ | ⟨-, accounts, -, hrun⟩ |
    ⟨-, pre, p, accounts, hstop, hpre, hrun⟩
  · rw [hrun]
    exact refusal_of_sentBy he hdown hlive hno
  · rw [hrun]
    exact List.mem_cons_self
  · rw [hrun]
    rw [postings_of_ordinary ord _ he.event] at hstop
    obtain ⟨a, q, d, rfl⟩ := quantity_of_stopsAt hbounded hstop hpre
    have hne := amount_ne_zero_of_blocked hpre hstop.blocked
    by_cases hq : q = .physical
    · subst hq
      show (⟨ErrorCode.kOverflow, "physical" ++ " overflow"⟩ : Status) ∈ workerStatuses
      decide
    · refine absurd ?_ hne
      show (entryTotals e a).bucket q.bucket d = 0
      rw [← UInt64.toNat_inj, bucket_entryTotals, attributed_eq_zero_of_sentBy he hq]
      rfl

end Append

/-! ### The frames of a worker -/

theorem registration_registration (boot : WorkerBootId) :
    (registration boot).registration = some boot := by
  have hlength : (registration boot).body.length = 8 := length_putU64 _
  have hvalue : getLE ((registration boot).body.take 8) = boot.value.toNat := by
    rw [List.take_of_length_le (Nat.le_of_eq hlength)]
    exact getLE_putLE (UInt64.toNat_lt _)
  unfold Frame.registration
  rw [if_pos ⟨rfl, Nat.le_of_eq hlength.symm⟩, hvalue, UInt64.ofNat_toNat]

theorem appends_of_mem_script {boot : WorkerBootId} {mode : WorkerMode} {f : Frame}
    (hf : f ∈ (mode.entries boot).filterMap sendAppend) : ∃ e, SentBy boot e ∧ f.Appends e := by
  obtain ⟨e, he, hsend⟩ := List.mem_filterMap.mp hf
  have hsent := sentBy_entries boot mode e he
  refine ⟨e, hsent, ?_⟩
  unfold sendAppend Frame.ofMessage at hsend
  split at hsend
  · cases hsend
    have henc : Encodable e := by
      refine ⟨fun sh hsh => ?_, ?_⟩
      · rw [hsent.shared] at hsh
        cases hsh
      · rw [hsent.note]
        exact Nat.zero_le _
    exact ⟨.inl rfl, Frame.entry_eq_some.mpr ⟨henc, rfl⟩⟩
  · cases hsend

/-! ### Sessions with workers -/

theorem shuttingDown_appendAll (ord : IterationOrder) (es : List LedgerEntry)
    {s : EfficiencyLedger} (h : s.shuttingDown = false) :
    (El.appendAll ord es s).state.shuttingDown = false := by
  obtain ⟨b, hb⟩ := appendAll_withBooks ord es s
  rw [hb]
  exact h

namespace Coordinator

theorem shuttingDown_start (ord : IterationOrder) (args : Arguments) (file : Option Bytes) :
    (start ord args file).ledger.shuttingDown = false := by
  have hload : (load ord file (.fresh kDefaultLedgerId)).state.shuttingDown = false := by
    cases file with
    | none => rfl
    | some bytes =>
      rw [load_state, loadFromString_state]
      cases parseRecord bytes with
      | error f => rfl
      | ok r =>
        simp only
        rw [loadHistory_state]
        exact shuttingDown_appendAll ord r.entries rfl
  unfold start
  by_cases hl : args.load = true ∧ args.hasPath = true
  · simp only [if_pos hl]
    split
    · exact hload
    · exact hload
  · simp only [if_neg hl]
    split <;> rfl

end Coordinator

section Sessions

variable {ι : Type}

/-- What is known of the session of a worker, as long as its requests are those of a worker. -/
def TellsWorker (ses : Session.Record ι Frame Answer) : Prop :=
  ∀ boot mode, ses.requests <+: workerScript boot mode →
    ∀ a ∈ ses.replies, ∃ st ∈ workerStatuses, a = (st.record, [])

/-- The worker of the session has registered, if it has sent anything yet. -/
def KnowsWorker (ses : Session.Record ι Frame Answer) (c : Coordinator) : Prop :=
  ∀ boot mode, ses.requests <+: workerScript boot mode → ses.requests ≠ [] → boot.valid →
    boot ∈ c.ledger.liveWorkers

theorem tells_handle {ord : IterationOrder} {c : Coordinator} {f : Frame}
    {ses : Session.Record ι Frame Answer} (hbounded : c.ledger.accounts.Bounded)
    (hdown : c.ledger.shuttingDown = false) (htells : TellsWorker ses) (hknows : KnowsWorker ses c) :
    TellsWorker { ses with
        requests := ses.requests ++ [f]
        replies := ses.replies ++ [(c.handle ord f).2.answer] } ∧
      KnowsWorker { ses with
        requests := ses.requests ++ [f]
        replies := ses.replies ++ [(c.handle ord f).2.answer] } (c.handle ord f).1 := by
  have hserved (boot : WorkerBootId) (mode : WorkerMode)
      (hscript : ses.requests ++ [f] <+: workerScript boot mode) :
      (∃ st ∈ workerStatuses, (c.handle ord f).2.answer = (st.record, [])) ∧
        (boot.valid → boot ∈ (c.handle ord f).1.ledger.liveWorkers) := by
    cases hrequests : ses.requests with
    | nil =>
      rw [hrequests, List.nil_append, workerScript, List.cons_prefix_cons] at hscript
      obtain ⟨rfl, -⟩ := hscript
      have hregister : c.handle ord (registration boot) =
          ({ c with
              ledger := c.ledger.registerWorker boot
              conn := some { connBoot := boot, registered := true } }, ⟨.success, []⟩) := by
        have hkind : (registration boot).kind = MessageKind.kRegister.toBits := rfl
        unfold Coordinator.handle Coordinator.register
        rw [if_pos hkind, registration_registration]
      rw [hregister]
      refine ⟨⟨.success, by decide, rfl⟩, fun hvalid => ?_⟩
      show boot ∈ (c.ledger.registerWorker boot).liveWorkers
      unfold EfficiencyLedger.registerWorker
      rw [if_pos hvalid]
      exact Finset.mem_insert_self _ _
    | cons g gs =>
      have hlive := hknows boot mode ((List.prefix_append _ _).trans hscript) (by simp [hrequests])
      rw [hrequests, workerScript, List.cons_append, List.cons_prefix_cons] at hscript
      have hmem := hscript.2.subset (List.mem_append_right gs (List.mem_singleton_self f))
      obtain ⟨e, he, happends⟩ := appends_of_mem_script hmem
      have hstatus := statusOf_of_sentBy ord he hbounded hdown hlive
      obtain ⟨b, hb⟩ := appendLocked_withBooks ord c.ledger e
      rw [Coordinator.handle_of_appends happends]
      refine ⟨?_, fun hvalid => ?_⟩
      · rw [Coordinator.append_of_entry happends.2]
        cases hcall : appendLocked ord e c.ledger with
        | ok u led => exact ⟨.success, by decide, rfl⟩
        | error st led =>
          rw [hcall] at hstatus
          exact ⟨st, hstatus, rfl⟩
      · rw [Coordinator.append_ledger happends.2, hb]
        exact hlive hvalid
  refine ⟨fun boot mode hscript a ha => ?_, fun boot mode hscript _ hvalid => ?_⟩
  · rcases List.mem_append.mp ha with hold | hnew
    · exact htells boot mode ((List.prefix_append _ _).trans hscript) a hold
    · rw [List.mem_singleton.mp hnew]
      exact (hserved boot mode hscript).1
  · exact (hserved boot mode hscript).2 hvalid

theorem tells_of_conducted {ord : IterationOrder} {args : Arguments} {file : Option Bytes}
    {c : Coordinator} {past : List (Session.Record ι Frame Answer)} {isOpen : Bool}
    (h : Conducted (Coordinator.server ord) (Coordinator.start ord args file) past isOpen c) :
    (∀ ses ∈ past, TellsWorker ses) ∧
      (isOpen = true → ∀ front ses, past = front ++ [ses] → KnowsWorker ses c) := by
  induction h with
  | start => exact ⟨fun _ hses => (by cases hses), fun hopen => (by cases hopen)⟩
  | @accept past c i h hlistens ih =>
    refine ⟨fun ses hses => ?_, fun _ front ses hsplit => ?_⟩
    · rcases List.mem_append.mp hses with hold | hnew
      · exact ih.1 ses hold
      · rw [List.mem_singleton.mp hnew]
        exact fun _ _ _ a ha => (by cases ha)
    · obtain ⟨-, hlast⟩ := List.append_inj' hsplit rfl
      cases hlast
      exact fun _ _ _ hne => absurd rfl hne
  | @handle past ses c f h ih =>
    obtain ⟨evs, hevs⟩ := run_of_conducted rfl h
    have hbounded : c.ledger.accounts.Bounded := by
      rw [hevs.run]
      exact Coordinator.books_run (P := fun b => b.accounts.Bounded) (fun _ _ => Nat.le_refl 0)
        (fun s e _ hs => bounded_appendLocked ord s e hs) args file evs
    have hdown : c.ledger.shuttingDown = false := by
      have hstart := Coordinator.shuttingDown_start ord args file
      rw [hevs.run]
      exact (@Coordinator.run_header _ (·.shuttingDown) (fun _ _ _ => rfl) ord evs _).trans hstart
    obtain ⟨htells, hknows⟩ := tells_handle (f := f) hbounded hdown (ih.1 ses (by simp))
      (ih.2 rfl past ses rfl)
    refine ⟨fun x hx => ?_, fun _ front x hsplit => ?_⟩
    · rcases List.mem_append.mp hx with hold | hnew
      · exact ih.1 x (List.mem_append_left _ hold)
      · rw [List.mem_singleton.mp hnew]
        exact htells
    · obtain ⟨-, hlast⟩ := List.append_inj' hsplit rfl
      cases hlast
      exact hknows
  | hangUp h ih => exact ⟨ih.1, fun hopen => (by cases hopen)⟩
  | giveUp h hlistens ih => exact ⟨ih.1, fun hopen => (by cases hopen)⟩

end Sessions

end El
