import EfficiencyLedger.Proof.Replay

/-!
# Replay restores the fencing state

In a run of appends and of worker registrations that never runs out of room, the books are those
that the history rebuilds (`LikeFresh`), so a replay on another fresh ledger ends in the very same
books. With the same workers live the two ledgers differ in their id alone, which no append reads
(`appendLocked_withId`); so they answer every further call alike (`replay_equivalent`).
-/

namespace El

open EStateM

namespace Op

/-- The calls that append entries. -/
def isAppend : Op → Bool
  | .append _ | .appendAll _ | .reclassify _ => true
  | _ => false

/-- The calls that register and unregister workers. -/
def isWorkerChange : Op → Bool
  | .registerWorker _ | .unregisterWorker _ => true
  | _ => false

/-- The call appends entries or changes the workers, and does not run out of room. -/
def KeepsLive (ord : IterationOrder) (s : EfficiencyLedger) (op : Op) : Prop :=
  (op.isAppend = true ∨ op.isWorkerChange = true) ∧
    ∀ st s', op.exec ord s = .error st s' → st.totalsFailure = false

theorem runMeets_keepsLive {ord : IterationOrder} {ops : List Op} : ∀ {s : EfficiencyLedger},
    (∀ op ∈ ops, op.isAppend = true ∨ op.isWorkerChange = true) →
    (∀ x ∈ (execAll (Op.exec ord) ops s).1, x.2.totalsFailure = false) →
    Machine.RunMeets (Op.step ord) (KeepsLive ord) s ops := by
  induction ops with
  | nil => exact fun _ _ => trivial
  | cons op ops ih =>
    intro s hkind hroom
    refine ⟨⟨hkind op (by simp), fun st s' hcall => ?_⟩,
      ih (fun x hx => hkind x (by simp [hx])) fun x hx => hroom x (List.mem_cons_of_mem _ hx)⟩
    have hop := hroom _ List.mem_cons_self
    rwa [hcall] at hop

end Op

/-! ### The live run -/

/-- The header is that of a new ledger, and the books are those the history rebuilds. -/
structure LikeFresh (ord : IterationOrder) (id : LedgerId) (s : EfficiencyLedger) : Prop where
  header : s = { (EfficiencyLedger.fresh id).withBooks s.toBooks with liveWorkers := s.liveWorkers }
  rebuilt : Rebuilt ord (EfficiencyLedger.fresh id).FencesMatch s.history s.toBooks
  workers : ∀ w ∈ s.liveWorkers, w.valid

section LikeFresh

variable {ord : IterationOrder} {id : LedgerId} {s : EfficiencyLedger}

theorem likeFresh_fresh : LikeFresh ord id (.fresh id) :=
  ⟨rfl, .nil, fun w hw => absurd hw (Finset.notMem_empty w)⟩

theorem LikeFresh.fencesMatch (h : LikeFresh ord id s) {e : LedgerEntry} (he : s.FencesMatch e) :
    (EfficiencyLedger.fresh id).FencesMatch e := by
  rw [h.header] at he
  exact ⟨he.epoch, he.ledgerGeneration, he.accountGeneration⟩

theorem LikeFresh.appendLocked (h : LikeFresh ord id s) {e : LedgerEntry}
    (hroom : ∀ st s', appendLocked ord e s = .error st s' → st.totalsFailure = false) :
    LikeFresh ord id (appendLocked ord e s).state := by
  rcases appendLocked_cases ord s e with ⟨-, hrun⟩ | ⟨hadm, accounts, hpost, hrun⟩ |
    ⟨-, pre, p, accounts, hstop, -, hrun⟩
  · rw [hrun]
    exact h
  · rw [hrun]
    have hnext := h.rebuilt.snoc (h.fencesMatch hadm.fences) hadm.books hpost
    refine ⟨?_, ?_, h.workers⟩
    · have hheader := congrArg (·.withBooks ((s.toBooks.withAccounts accounts).record e)) h.header
      exact hheader
    · show Rebuilt ord _ ((s.toBooks.withAccounts accounts).record e).history _
      rw [Books.record_history]
      exact hnext
  · have hfail := totalsFailure_of_stopsAt ord hstop
    rw [hroom _ _ hrun] at hfail
    cases hfail

theorem LikeFresh.appendAll (es : List LedgerEntry) : ∀ {s : EfficiencyLedger}, LikeFresh ord id s →
    (∀ st s', appendAll ord es s = .error st s' → st.totalsFailure = false) →
    LikeFresh ord id (appendAll ord es s).state := by
  induction es with
  | nil => exact fun h _ => h
  | cons e es ih =>
    intro s h hroom
    have hcons : El.appendAll ord (e :: es) s =
        (El.appendLocked ord e >>= fun _ => El.appendAll ord es) s := rfl
    rw [hcons, bind_apply] at hroom ⊢
    cases hcall : El.appendLocked ord e s with
    | ok u s' =>
      have hnext := h.appendLocked (e := e) fun st t ht => by
        rw [hcall] at ht
        cases ht
      rw [hcall] at hnext hroom
      exact ih hnext hroom
    | error st s' =>
      have hnext := h.appendLocked (e := e) fun st t ht => by
        rw [hcall] at hroom
        rw [hcall] at ht
        cases ht
        exact hroom _ _ rfl
      rw [hcall] at hnext
      exact hnext

theorem LikeFresh.step (h : LikeFresh ord id s) {op : Op} (hop : op.KeepsLive ord s) :
    LikeFresh ord id (op.step ord s) := by
  obtain ⟨hkind, hroom⟩ := hop
  cases op with
  | append e => exact h.appendLocked hroom
  | appendAll es => exact LikeFresh.appendAll es h hroom
  | reclassify req =>
    have hcall : Op.exec ord (.reclassify req) s = _ := reclassify_apply ord req s
    unfold Op.step
    rw [hcall] at hroom ⊢
    exact h.appendLocked hroom
  | registerWorker boot =>
    show LikeFresh ord id (s.registerWorker boot)
    unfold EfficiencyLedger.registerWorker
    split
    · rename_i hvalid
      refine ⟨?_, h.rebuilt, fun w hw => ?_⟩
      · exact congrArg
          (fun t : EfficiencyLedger => { t with liveWorkers := insert boot s.liveWorkers }) h.header
      · rcases Finset.mem_insert.mp hw with rfl | hold
        · exact hvalid
        · exact h.workers w hold
    · exact h
  | unregisterWorker boot =>
    refine ⟨?_, h.rebuilt, fun w hw => h.workers w (Finset.mem_of_mem_erase hw)⟩
    exact congrArg
      (fun t : EfficiencyLedger => { t with liveWorkers := s.liveWorkers.erase boot }) h.header
  | advanceEpoch | setEpoch _ | setLedgerGeneration _ | setAccountGeneration _
  | setSystemGeneration _ _ | setShuttingDown | loadHistory _ | load _ =>
    rcases hkind with hkind | hkind <;> cases hkind

end LikeFresh

/-! ### Two ledgers that differ in their id -/

/-- The ledger under another id. -/
def EfficiencyLedger.withId (s : EfficiencyLedger) (id : LedgerId) : EfficiencyLedger :=
  { s with ledgerId := id }

/-- The result under another id. -/
def resultWithId (id : LedgerId) :
    EStateM.Result Status EfficiencyLedger PUnit → EStateM.Result Status EfficiencyLedger PUnit
  | .ok u s => .ok u (s.withId id)
  | .error st s => .error st (s.withId id)

section WithId

variable (ord : IterationOrder) (id : LedgerId)

theorem appendLocked_withId (s : EfficiencyLedger) (e : LedgerEntry) :
    appendLocked ord e (s.withId id) = resultWithId id (appendLocked ord e s) := by
  have hadmits : (s.withId id).Admits e ↔ s.Admits e :=
    ⟨fun h => ⟨h.running, ⟨h.fences.1, h.fences.2, h.fences.3⟩, h.worker, h.books⟩,
      fun h => ⟨h.running, ⟨h.fences.1, h.fences.2, h.fences.3⟩, h.worker, h.books⟩⟩
  by_cases hadm : s.Admits e
  · rw [appendLocked_of_admits ord hadm, appendLocked_of_admits ord (hadmits.mpr hadm)]
    have hbooks : (s.withId id).toBooks = s.toBooks := rfl
    unfold commit
    rw [hbooks]
    cases Counters.postAll (postings ord s.toBooks e) s.accounts <;> rfl
  · rw [(appendLocked_of_not_admits ord hadm).1,
      (appendLocked_of_not_admits ord fun h => hadm (hadmits.mp h)).1]
    rfl

theorem appendAll_withId (es : List LedgerEntry) : ∀ s : EfficiencyLedger,
    appendAll ord es (s.withId id) = resultWithId id (appendAll ord es s) := by
  induction es with
  | nil => exact fun s => rfl
  | cons e es ih =>
    intro s
    have hcons (s : EfficiencyLedger) : appendAll ord (e :: es) s =
        (appendLocked ord e >>= fun _ => appendAll ord es) s := rfl
    rw [hcons, hcons, bind_apply, bind_apply, appendLocked_withId]
    cases appendLocked ord e s with
    | ok u s' => exact ih s'
    | error st s' => rfl

theorem exec_withId {op : Op} (h : op.isAppend = true) (s : EfficiencyLedger) :
    op.exec ord (s.withId id) = resultWithId id (op.exec ord s) := by
  cases op with
  | append e => exact appendLocked_withId ord id s e
  | appendAll es => exact appendAll_withId ord id es s
  | reclassify req =>
    show reclassify ord req (s.withId id) = resultWithId id (reclassify ord req s)
    rw [reclassify_apply, reclassify_apply]
    exact appendLocked_withId ord id s _
  | registerWorker _ | unregisterWorker _ | advanceEpoch | setEpoch _ | setLedgerGeneration _
  | setAccountGeneration _ | setSystemGeneration _ _ | setShuttingDown | loadHistory _ | load _ =>
    cases h

theorem execAll_withId {ops : List Op} (h : ∀ op ∈ ops, op.isAppend = true) :
    ∀ s : EfficiencyLedger, execAll (Op.exec ord) ops (s.withId id) =
      ((execAll (Op.exec ord) ops s).1, (execAll (Op.exec ord) ops s).2.withId id) := by
  induction ops with
  | nil => exact fun s => rfl
  | cons op ops ih =>
    intro s
    have hstate : (resultWithId id (op.exec ord s)).state = (op.exec ord s).state.withId id := by
      cases op.exec ord s <;> rfl
    have hstatus : statusOf (resultWithId id (op.exec ord s)) = statusOf (op.exec ord s) := by
      cases op.exec ord s <;> rfl
    simp only [execAll, exec_withId ord id (h op (by simp)) s, hstate, hstatus,
      ih fun x hx => h x (by simp [hx])]

end WithId

/-! ### The replay -/

theorem run_registerWorker (ord : IterationOrder) (ws : List WorkerBootId)
    (h : ∀ w ∈ ws, w.valid) : ∀ s : EfficiencyLedger, run ord s (ws.map .registerWorker) =
      { s with liveWorkers := s.liveWorkers ∪ ws.toFinset } := by
  induction ws with
  | nil => exact fun s => by simp [run, Machine.run]
  | cons w ws ih =>
    intro s
    have hstep : Op.step ord s (.registerWorker w) =
        { s with liveWorkers := insert w s.liveWorkers } := if_pos (h w (by simp))
    have hrun : run ord s ((w :: ws).map .registerWorker) =
        run ord (Op.step ord s (.registerWorker w)) (ws.map .registerWorker) := rfl
    rw [hrun, ih (fun x hx => h x (by simp [hx])), hstep]
    simp only [List.toFinset_cons, Finset.union_insert, Finset.insert_union]

/-- **Replay restores the fencing state.** The history of a run of appends and worker registrations
that never runs out of room loads on another fresh ledger; once the same workers are live there,
both ledgers answer all further appends and revisions alike and keep the same totals. -/
theorem replay_equivalent (ord : IterationOrder) (id id' : LedgerId) (ops further : List Op)
    (ws : List WorkerBootId)
    (hops : ∀ op ∈ ops, op.isAppend = true ∨ op.isWorkerChange = true)
    (hroom : ∀ x ∈ (execAll (Op.exec ord) ops (.fresh id)).1, x.2.totalsFailure = false)
    (hws : ∀ w, w ∈ ws ↔ w ∈ (run ord (.fresh id) ops).liveWorkers)
    (hfurther : ∀ op ∈ further, op.isAppend = true) :
    let s := run ord (.fresh id) ops
    ∃ t, loadHistory ord s.history (.fresh id') = .ok ⟨⟩ t ∧
      let u := run ord t (ws.map .registerWorker)
      (execAll (Op.exec ord) further u).1 = (execAll (Op.exec ord) further s).1 ∧
        (execAll (Op.exec ord) further u).2.accounts =
          (execAll (Op.exec ord) further s).2.accounts := by
  intro s
  have hs : LikeFresh ord id s :=
    Machine.run_invariant (fun _ _ hs hop => hs.step hop) likeFresh_fresh
      (Op.runMeets_keepsLive hops hroom)
  have hfences : Rebuilt ord (EfficiencyLedger.fresh id').FencesMatch s.history s.toBooks :=
    hs.rebuilt.of_fences fun e he =>
      have hmatch := hs.rebuilt.fences e he
      ⟨hmatch.epoch, hmatch.ledgerGeneration, hmatch.accountGeneration⟩
  refine ⟨_, loadHistory_of_rebuilt ord rfl hfences, ?_⟩
  intro u
  have hu : u = s.withId id' := by
    have hvalid : ∀ w ∈ ws, w.valid := fun w hw => hs.workers w ((hws w).mp hw)
    have hlive : ws.toFinset = s.liveWorkers := by
      ext w
      rw [List.mem_toFinset]
      exact hws w
    show run ord _ (ws.map .registerWorker) = _
    rw [run_registerWorker ord ws hvalid, hlive]
    have hempty : (((EfficiencyLedger.fresh id').withBooks s.toBooks).setReplaying
        false).liveWorkers ∪ s.liveWorkers = s.liveWorkers := Finset.empty_union _
    rw [hempty]
    exact (congrArg (·.withId id') hs.header).symm
  rw [hu, execAll_withId ord id' hfurther]
  exact ⟨rfl, rfl⟩

/-- A worker appends an entry of an attempt, is replaced, and tries again. -/
def workerReplaced : List Op :=
  let entry (id : UInt64) (workerBoot : WorkerBootId) : LedgerEntry :=
    { id := ⟨id⟩
      event := EventType.kExecutionProgress
      usage := ⟨fun _ => 5⟩
      account := ⟨7⟩
      fences := { workerBoot, publication := ⟨id⟩ }
      attempt := { id := ⟨5⟩ } }
  [.registerWorker ⟨1⟩, .append (entry 1 ⟨1⟩), .unregisterWorker ⟨1⟩, .registerWorker ⟨2⟩,
    .append (entry 2 ⟨1⟩), .append (entry 3 ⟨2⟩)]

theorem liveWorkers_workerReplaced (w : WorkerBootId) :
    w ∈ [(⟨2⟩ : WorkerBootId)] ↔ w ∈ (run default (.fresh ⟨1⟩) workerReplaced).liveWorkers := by
  have hlive : (run default (.fresh ⟨1⟩) workerReplaced).liveWorkers = {⟨2⟩} := by decide +kernel
  rw [hlive, List.mem_singleton, Finset.mem_singleton]

theorem replay_equivalent_workerReplaced :
    let s := run default (.fresh ⟨1⟩) workerReplaced
    ∃ t, loadHistory default s.history (.fresh ⟨2⟩) = .ok ⟨⟩ t ∧
      let u := run default t ([(⟨2⟩ : WorkerBootId)].map .registerWorker)
      (execAll (Op.exec default) [.reclassify { revisionId := ⟨9⟩, target := ⟨1⟩ }] u).1 =
          (execAll (Op.exec default) [.reclassify { revisionId := ⟨9⟩, target := ⟨1⟩ }] s).1 ∧
        (execAll (Op.exec default) [.reclassify { revisionId := ⟨9⟩, target := ⟨1⟩ }] u).2.accounts =
          (execAll (Op.exec default) [.reclassify { revisionId := ⟨9⟩, target := ⟨1⟩ }] s).2.accounts :=
  replay_equivalent default ⟨1⟩ ⟨2⟩ workerReplaced [.reclassify { revisionId := ⟨9⟩, target := ⟨1⟩ }]
    [⟨2⟩] (by decide +kernel) (by decide +kernel) liveWorkers_workerReplaced (by decide)

end El
