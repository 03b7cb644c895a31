import EfficiencyLedger.Law.Journal

/-!
# The ledger refines the journal

`Journal` is the ledger without its books: the header, the live workers and the accepted entries, with
one transition for each call. As long as no call leaves a residue in the totals, the ledger and the
journal go through every run side by side, loads included: the same calls go through, the same entries
are in the history, and every total is what the journal counts (`ledger_refines_journal`).
-/

namespace El

open CheckedU64 Counters CounterStore EStateM

/-! ### The abstract machine -/

structure Journal where
  epoch : CoordinatorEpoch := ⟨1⟩
  ledgerId : LedgerId
  ledgerGeneration : LedgerGeneration := ⟨1⟩
  accountGeneration : AccountGeneration := ⟨1⟩
  shuttingDown : Bool := false
  epochAdvanced : Bool := false
  replaying : Bool := false
  liveWorkers : Finset WorkerBootId := ∅
  entries : List LedgerEntry := []

namespace Journal

/-- The journal accepts the entry: its fences match the header, its worker is live, and the entries so
far leave it open. -/
structure Accepts (j : Journal) (e : LedgerEntry) : Prop where
  running : j.shuttingDown = false
  epoch : e.fences.epoch.valid → e.fences.epoch = j.epoch
  ledgerGeneration : e.fences.ledgerGeneration.valid →
    e.fences.ledgerGeneration = j.ledgerGeneration
  accountGeneration : e.fences.accountGeneration.valid →
    e.fences.accountGeneration = j.accountGeneration
  worker : j.replaying = false → e.fences.workerBoot.valid → e.fences.workerBoot ∈ j.liveWorkers
  entry : Acceptable j.entries e

open Classical in
/-- An entry that is accepted is written down. -/
noncomputable def append (j : Journal) (e : LedgerEntry) : Bool × Journal :=
  if j.Accepts e then (true, { j with entries := j.entries ++ [e] }) else (false, j)

/-- Entries are written down up to the first that is not accepted. -/
noncomputable def appendAll (j : Journal) : List LedgerEntry → Bool × Journal
  | [] => (true, j)
  | e :: es =>
    match j.append e with
    | (true, j') => j'.appendAll es
    | (false, j') => (false, j')

/-- Another journal is read in, without regard to workers. -/
noncomputable def replay (j : Journal) (es : List LedgerEntry) : Bool × Journal :=
  let result := { j with entries := [], replaying := true }.appendAll es
  (result.1, { result.2 with replaying := false })

/-- The header of a record. -/
def install (j : Journal) (r : Record) : Journal :=
  { j with
    ledgerId := r.ledgerId
    epoch := r.epoch
    ledgerGeneration := r.ledgerGeneration
    accountGeneration := r.accountGeneration
    shuttingDown := false
    epochAdvanced := false }

/-- A revision of an entry of the journal takes account and attempt from it. -/
def revision (j : Journal) (req : ReclassifyRequest) : LedgerEntry :=
  let e : LedgerEntry :=
    { id := req.revisionId
      event := EventType.kReclassify
      classification := req.newClassification
      subcategory := req.newSubcategory
      provenance := req.provenance
      fences := req.fences
      revisionTarget := some req.target
      note := req.note }
  match j.entries.find? fun t => t.id = req.target with
  | none => e
  | some t =>
    { e with
      account := if t.account.valid then t.account else ⟨kResidualAccountValue⟩
      attempt := t.attempt }

/-- A call: whether it goes through, and the journal after it. -/
noncomputable def step (j : Journal) : Op → Bool × Journal
  | .append e => j.append e
  | .appendAll es => j.appendAll es
  | .reclassify req => j.append (j.revision req)
  | .registerWorker boot =>
    (true, if boot.valid then { j with liveWorkers := insert boot j.liveWorkers } else j)
  | .unregisterWorker boot => (true, { j with liveWorkers := j.liveWorkers.erase boot })
  | .advanceEpoch => (true, { j with epoch := ⟨j.epoch.value + 1⟩, epochAdvanced := true })
  | .setEpoch epoch => (true, { j with epoch })
  | .setLedgerGeneration gen => (true, { j with ledgerGeneration := gen })
  | .setAccountGeneration gen => (true, { j with accountGeneration := gen })
  | .setSystemGeneration ledgerGen accountGen =>
    (true, { j with ledgerGeneration := ledgerGen, accountGeneration := accountGen })
  | .setShuttingDown => (true, { j with shuttingDown := true })
  | .loadHistory es => j.replay es
  | .load none => (false, j)
  | .load (some bytes) =>
    match parseRecord bytes with
    | .error _ => (false, j)
    | .ok r => (j.install r).replay r.entries

/-- Which calls of a run go through, and the journal after them. -/
noncomputable def run (j : Journal) : List Op → List Bool × Journal
  | [] => ([], j)
  | op :: ops =>
    let rest := (j.step op).2.run ops
    ((j.step op).1 :: rest.1, rest.2)

end Journal

/-! ### The journal of a ledger -/

/-- The journal that a ledger keeps. -/
def EfficiencyLedger.journal (s : EfficiencyLedger) : Journal :=
  { epoch := s.epoch
    ledgerId := s.ledgerId
    ledgerGeneration := s.ledgerGeneration
    accountGeneration := s.accountGeneration
    shuttingDown := s.shuttingDown
    epochAdvanced := s.epochAdvanced
    replaying := s.replaying
    liveWorkers := s.liveWorkers
    entries := s.history }

/-- Whether a call goes through, and the journal of the ledger after it. -/
def journalOf {ε : Type} (r : EStateM.Result ε EfficiencyLedger PUnit) : Bool × Journal :=
  (r.isOk, r.state.journal)

/-- A call does to the journal what the transition says, and keeps the books what the history makes of
them. -/
def Tracks {ε : Type} (r : EStateM.Result ε EfficiencyLedger PUnit) (t : Bool × Journal) : Prop :=
  journalOf r = t ∧ r.state.toBooks.FromHistory

section Call

variable (ord : IterationOrder) {s : EfficiencyLedger}

/-! ### Appends -/

theorem accepts_iff (h : s.toBooks.FromHistory) (e : LedgerEntry) : s.journal.Accepts e ↔
    s.Admits e ∧ ∃ accounts, postAll (postings ord s.toBooks e) s.accounts = .ok ⟨⟩ accounts := by
  have hbooks := h.commits_iff ord e
  constructor
  · rintro ⟨hrunning, hepoch, hledger, haccount, hworker, hentry⟩
    obtain ⟨hadm, hpost⟩ := hbooks.mpr hentry
    exact ⟨⟨hrunning, ⟨hepoch, hledger, haccount⟩, hworker, hadm⟩, hpost⟩
  · rintro ⟨⟨hrunning, hfences, hworker, hadm⟩, hpost⟩
    exact ⟨hrunning, hfences.epoch, hfences.ledgerGeneration, hfences.accountGeneration, hworker,
      hbooks.mp ⟨hadm, hpost⟩⟩

theorem journalOf_appendLocked (h : s.toBooks.FromHistory) (e : LedgerEntry) :
    journalOf (appendLocked ord e s) = s.journal.append e := by
  unfold Journal.append
  rcases appendLocked_cases ord s e with ⟨hno, hrun⟩ | ⟨hadm, accounts, hpost, hrun⟩ |
    ⟨hadm, pre, p, accounts, hstop, -, hrun⟩
  · rw [hrun, if_neg fun hacc => hno ((accepts_iff ord h e).mp hacc).1]
    rfl
  · have hhistory : ((s.toBooks.withAccounts accounts).record e).history = s.history ++ [e] :=
      Books.record_history _ e
    rw [hrun, if_pos ((accepts_iff ord h e).mpr ⟨hadm, accounts, hpost⟩)]
    unfold journalOf EfficiencyLedger.journal
    simp only [Result.state, withBooks_toBooks, hhistory]
    rfl
  · obtain ⟨accounts', -, herr⟩ := hstop.postAll_error
    have hno : ¬s.journal.Accepts e := fun hacc => by
      obtain ⟨-, accounts'', hpost⟩ := (accepts_iff ord h e).mp hacc
      rw [hpost] at herr
      cases herr
    rw [hrun, if_neg hno]
    rfl

theorem tracks_appendLocked (h : s.toBooks.FromHistory) {e : LedgerEntry}
    (hresidue : NoResidue ord s e) : Tracks (appendLocked ord e s) (s.journal.append e) :=
  ⟨journalOf_appendLocked ord h e, fromHistory_appendLocked h hresidue⟩

theorem tracks_appendAll (es : List LedgerEntry) : ∀ {s : EfficiencyLedger},
    s.toBooks.FromHistory → EStateM.CallsMeet (appendLocked ord) (NoResidue ord) es s →
      Tracks (appendAll ord es s) (s.journal.appendAll es) := by
  induction es with
  | nil => exact fun h _ => ⟨rfl, h⟩
  | cons e es ih =>
    intro s h hmeet
    obtain ⟨hcall, hnext⟩ := tracks_appendLocked ord h hmeet.1
    have hcons : appendAll ord (e :: es) s =
        (appendLocked ord e >>= fun _ => appendAll ord es) s := rfl
    rw [hcons, EStateM.bind_apply, Journal.appendAll, ← hcall]
    cases hrun : appendLocked ord e s with
    | ok u t =>
      rw [hrun] at hnext
      exact ih hnext (hmeet.2 t hrun)
    | error st t =>
      rw [hrun] at hnext
      exact ⟨rfl, hnext⟩

/-! ### Loads -/

theorem tracks_loadHistory (es : List LedgerEntry)
    (hmeet : EStateM.CallsMeet (appendLocked ord) (NoResidue ord) es
      { s with toBooks := {}, replaying := true }) :
    Tracks (loadHistory ord es s) (s.journal.replay es) := by
  obtain ⟨hcall, hbooks⟩ := tracks_appendAll ord es (s := { s with toBooks := {}, replaying := true })
    fromHistory_empty hmeet
  have hjournal : (({ s with toBooks := {}, replaying := true } : EfficiencyLedger).journal) =
      { s.journal with entries := [], replaying := true } := rfl
  rw [hjournal] at hcall
  unfold Journal.replay loadHistory
  simp only
  rw [← hcall]
  cases hrun : appendAll ord es { s with toBooks := {}, replaying := true } with
  | ok u t =>
    rw [hrun] at hbooks
    exact ⟨rfl, hbooks⟩
  | error st t =>
    rw [hrun] at hbooks
    exact ⟨rfl, hbooks⟩

theorem journal_installRecord (r : Record) :
    ((installRecord r s).journal.replay r.entries) = (s.journal.install r).replay r.entries := rfl

theorem tracks_load {bytes : Bytes} {r : Record} (hparse : parseRecord bytes = .ok r)
    (hmeet : EStateM.CallsMeet (appendLocked ord) (NoResidue ord) r.entries
      { installRecord r s with toBooks := {}, replaying := true }) :
    Tracks (load ord (some bytes) s) ((s.journal.install r).replay r.entries) := by
  obtain ⟨hcall, hbooks⟩ := tracks_loadHistory ord r.entries hmeet
  rw [journal_installRecord] at hcall
  unfold load
  simp only
  rw [loadFromString_of_parseRecord ord s hparse, ← hcall]
  cases hrun : loadHistory ord r.entries (installRecord r s) with
  | ok u t =>
    rw [hrun] at hbooks
    exact ⟨rfl, hbooks⟩
  | error st t =>
    rw [hrun] at hbooks
    exact ⟨rfl, hbooks⟩

theorem tracks_load_rejected (h : s.toBooks.FromHistory) {bytes : Bytes} {f : LoadFailure}
    (hparse : parseRecord bytes = .error f) :
    Tracks (load ord (some bytes) s) (false, s.journal) := by
  unfold load
  simp only
  rw [loadFromString_of_error ord s hparse]
  exact ⟨rfl, h⟩

/-! ### Revisions -/

theorem Books.Wf.find?_eq {b : Books} (h : b.Wf) (id : AccountingEntryId) :
    b.history.find? (fun t => t.id = id) = (b.index.lookup id).map fun i => b.history.getD i {} := by
  cases hlookup : b.index.lookup id with
  | none =>
    have hnot : id ∉ b.index := Finmap.lookup_eq_none.mp hlookup
    rw [h.mem_index] at hnot
    apply List.find?_eq_none.mpr
    intro t ht
    simp only [decide_eq_true_eq]
    exact fun hid => hnot ⟨t, ht, hid⟩
  | some i =>
    obtain ⟨t, ht, hid⟩ := (h.index id i).mp hlookup
    have hget : b.history.getD i {} = t := by
      rw [List.getD_eq_getElem?_getD, ht, Option.getD_some]
    have hmem := List.mem_of_getElem? ht
    rw [Option.map_some, hget]
    cases hfind : b.history.find? (fun t => t.id = id) with
    | none =>
      have hnone := List.find?_eq_none.mp hfind t hmem
      simp only [decide_eq_true_eq] at hnone
      exact absurd hid hnone
    | some x =>
      have hx := List.find?_some hfind
      simp only [decide_eq_true_eq] at hx
      rw [h.id_injective (List.mem_of_find?_eq_some hfind) hmem (hx.trans hid.symm)]

theorem revision_journal (h : s.toBooks.Wf) (req : ReclassifyRequest) :
    s.journal.revision req = revisionOf s.toBooks req := by
  have hfind : s.journal.entries.find? (fun t => t.id = req.target) = _ := h.find?_eq req.target
  unfold Journal.revision revisionOf
  rw [hfind]
  cases s.index.lookup req.target with
  | none => rfl
  | some i => rfl

/-! ### Any call -/

theorem journal_registerWorker (boot : WorkerBootId) : (s.registerWorker boot).journal =
    if boot.valid then { s.journal with liveWorkers := insert boot s.liveWorkers } else s.journal := by
  unfold EfficiencyLedger.registerWorker
  split
  · rfl
  · rfl

theorem tracks_exec (h : s.toBooks.FromHistory) (op : Op) (hmeet : op.CallsMeet ord (NoResidue ord) s) :
    Tracks (op.exec ord s) (s.journal.step op) := by
  cases op with
  | append e => exact tracks_appendLocked ord h hmeet.1
  | appendAll es => exact tracks_appendAll ord es h hmeet
  | reclassify req =>
    have hexec : Op.exec ord (.reclassify req) s = appendLocked ord (revisionOf s.toBooks req) s :=
      reclassify_apply ord req s
    have hstep : s.journal.step (.reclassify req) = s.journal.append (s.journal.revision req) := rfl
    rw [hexec, hstep, revision_journal h.wf]
    exact tracks_appendLocked ord h hmeet.1
  | registerWorker boot =>
    refine ⟨congrArg (Prod.mk true) (journal_registerWorker boot), ?_⟩
    have hbooks : (Op.exec ord (.registerWorker boot) s).state.toBooks = s.toBooks :=
      registerWorker_books s boot
    rw [hbooks]
    exact h
  | loadHistory es => exact tracks_loadHistory ord es hmeet
  | load file =>
    cases file with
    | none => exact ⟨rfl, h⟩
    | some bytes =>
      unfold Op.CallsMeet Op.entries Op.start at hmeet
      cases hparse : parseRecord bytes with
      | error f =>
        have hstep : s.journal.step (.load (some bytes)) = (false, s.journal) := by
          simp only [Journal.step, hparse]
        rw [hstep]
        exact tracks_load_rejected ord h hparse
      | ok r =>
        have hstep : s.journal.step (.load (some bytes)) =
            (s.journal.install r).replay r.entries := by
          simp only [Journal.step, hparse]
        rw [hstep]
        simp only [hparse] at hmeet
        exact tracks_load ord hparse hmeet
  | unregisterWorker _ | advanceEpoch | setEpoch _ | setLedgerGeneration _ | setAccountGeneration _
  | setSystemGeneration _ _ | setShuttingDown => exact ⟨rfl, h⟩

end Call

/-! ### Runs -/

/-- Which calls of a run go through. -/
def outcomes (ord : IterationOrder) : EfficiencyLedger → List Op → List Bool
  | _, [] => []
  | s, op :: ops => (op.exec ord s).isOk :: outcomes ord (op.step ord s) ops

theorem tracks_run (ord : IterationOrder) (ops : List Op) : ∀ {s : EfficiencyLedger},
    s.toBooks.FromHistory → AppendsMeet ord (NoResidue ord) s ops →
      s.journal.run ops = (outcomes ord s ops, (run ord s ops).journal) ∧
        (run ord s ops).toBooks.FromHistory := by
  induction ops with
  | nil => exact fun h _ => ⟨rfl, h⟩
  | cons op ops ih =>
    intro s h hmeet
    obtain ⟨hcall, hbooks⟩ := tracks_exec ord h op hmeet.1
    obtain ⟨hrest, hend⟩ := ih hbooks hmeet.2
    refine ⟨?_, hend⟩
    rw [Journal.run, ← hcall]
    simp only [journalOf, hrest]
    rfl

/-- **The ledger refines the journal.** As long as no call leaves a residue in the totals, the ledger
lets the same calls through, ends with the same header and the same entries, and every total is what
the journal counts. -/
theorem ledger_refines_journal (ord : IterationOrder) (id : LedgerId) (ops : List Op)
    (h : AppendsMeet ord (NoResidue ord) (.fresh id) ops) :
    let s := run ord (.fresh id) ops
    Journal.run { ledgerId := id } ops = (outcomes ord (.fresh id) ops, s.journal) ∧
      ∀ a bk d, (((s.accountSummary a).bucket bk d).toNat : Int) = counted s.journal.entries a bk d := by
  obtain ⟨hrun, hbooks⟩ := tracks_run ord ops (s := .fresh id) fromHistory_empty h
  exact ⟨hrun, hbooks.eq_counted⟩

/-- An entry that is submitted twice and then revised. -/
def submittedAndRevised : List Op :=
  let entry : LedgerEntry :=
    { id := ⟨1⟩, event := EventType.kExecutionProgress, usage := ⟨fun _ => 5⟩, account := ⟨7⟩ }
  [.append entry, .append entry,
    .reclassify { revisionId := ⟨2⟩, target := ⟨1⟩, newClassification := EfficiencyClass.kUseful }]

theorem ledger_refines_journal_submittedAndRevised :
    let s := run default (.fresh kDefaultLedgerId) submittedAndRevised
    Journal.run { ledgerId := kDefaultLedgerId } submittedAndRevised =
        (outcomes default (.fresh kDefaultLedgerId) submittedAndRevised, s.journal) ∧
      ∀ a bk d, (((s.accountSummary a).bucket bk d).toNat : Int) = counted s.journal.entries a bk d :=
  ledger_refines_journal default kDefaultLedgerId submittedAndRevised
    ⟨⟨noResidue_of_isOk (by decide +kernel), fun _ _ => trivial⟩,
      ⟨fun hadm => absurd hadm.books.fresh (by decide +kernel), fun _ _ => trivial⟩,
      ⟨noResidue_of_isOk (by decide +kernel), fun _ _ => trivial⟩, trivial⟩

end El
