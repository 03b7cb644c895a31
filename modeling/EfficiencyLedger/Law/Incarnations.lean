import EfficiencyLedger.Law.Disk
import EfficiencyLedger.Law.Durability

/-!
# The journal on the disk

What a process has acknowledged is what its history has grown by (`history_run_acknowledged`), and the
file follows the history. So where every start loads what it finds, the file holds what was ever
acknowledged: all of it, in that order, and nothing twice (`acknowledged_on_disk`). A start whose load
stops half way goes on from the entries before the one that stopped it, and the first save drops the
others (`load_failure_truncates`). Even then the file never holds anything that was not acknowledged,
and keeps the order (`disk_within_acknowledged`).
-/

namespace El

open EStateM Machine

variable {ord : IterationOrder}

/-! ### One process -/

namespace Coordinator

theorem history_registerWorker (s : EfficiencyLedger) (boot : WorkerBootId) :
    (s.registerWorker boot).history = s.history := by
  rw [registerWorker_books]

theorem history_append (ord : IterationOrder) {c : Coordinator} {conn : Connection}
    (hconn : c.conn = some conn) {f : Frame} {e : LedgerEntry} (hf : f.Appends e) :
    (c.handle ord f).1.ledger.history = c.ledger.history ++ c.acknowledged ord (.frame f) := by
  rw [acknowledged_of_appends hconn hf, handle_of_appends hf, append_ledger hf.2,
    append_of_entry hf.2]
  cases hcall : appendLocked ord e c.ledger with
  | ok u led =>
    obtain ⟨-, accounts, -, rfl⟩ := appendLocked_eq_ok ord hcall
    exact Books.record_history _ e
  | error st led =>
    obtain ⟨hfail, accounts, rfl⟩ := appendLocked_eq_error ord hcall
    have hno : ¬ (⟨st, []⟩ : Reply).status.ok = true := by
      rw [hfail]
      exact Bool.false_ne_true
    rw [if_neg hno, List.append_nil]
    rfl

theorem history_handle_of_not_appends (ord : IterationOrder) (c : Coordinator) {f : Frame}
    (h : ¬ ∃ e, f.Appends e) : (c.handle ord f).1.ledger.history = c.ledger.history := by
  rcases handle_cases ord c f with ⟨boot, -, hhandle⟩ | ⟨-, hyes | ⟨-, hhandle⟩ | hhandle⟩
  · rw [hhandle]
    exact history_registerWorker _ boot
  · exact absurd hyes h
  · have hledger : c.save.stop.ledger = c.ledger := (save_ledger c.save).trans (save_ledger c)
    rw [hhandle, hledger]
  · rw [hhandle]

theorem history_step (ord : IterationOrder) (c : Coordinator) (ev : Event) :
    (c.step ord ev).1.ledger.history = c.ledger.history ++ c.acknowledged ord ev := by
  have hquiet : c.acknowledged ord ev = [] → (c.step ord ev).1.ledger.history = c.ledger.history →
      (c.step ord ev).1.ledger.history = c.ledger.history ++ c.acknowledged ord ev := by
    intro hnone hsame
    rw [hnone, hsame, List.append_nil]
  cases ev with
  | frame f =>
    cases hconn : c.conn with
    | none =>
      apply hquiet
      · rw [acknowledged_frame, step_frame_of_none hconn]
      · rw [step_frame_of_none hconn]
    | some conn =>
      by_cases happends : ∃ e, f.Appends e
      · obtain ⟨e, hf⟩ := happends
        rw [step_frame hconn]
        exact history_append ord hconn hf
      · apply hquiet (acknowledged_of_not_appends (not_exists.mp happends))
        rw [step_frame hconn]
        exact history_handle_of_not_appends ord c happends
  | accept | acceptFailed | closed =>
    refine hquiet rfl ?_
    rcases step_cases ord c _ with hrun | ⟨-, -, hrun⟩ | ⟨-, -, hrun⟩ | ⟨conn, f, -, hev, -⟩ |
      ⟨conn, -, -, hrun⟩
    · rw [hrun]
    · rw [hrun]
    · have hledger : c.stop.ledger = c.ledger := save_ledger c
      rw [hrun, hledger]
    · cases hev
    · rw [hrun]
      unfold disconnect
      split <;> rfl

/-- **What a process acknowledges is what its history grows by.** -/
theorem history_run_acknowledged (ord : IterationOrder) (evs : List Event) : ∀ c : Coordinator,
    (c.run ord evs).ledger.history = c.ledger.history ++ c.acknowledgedAll ord evs := by
  induction evs with
  | nil => exact fun c => (List.append_nil _).symm
  | cons ev evs ih =>
    intro c
    rw [run_cons, ih, history_step, List.append_assoc]
    rfl

theorem file_run (args : Arguments) (file : Option Bytes) (evs : List Event)
    (hpath : args.hasPath = true) :
    let c := (start ord args file).run ord evs
    c.file = some c.ledger.saveToString ∨
      c.file = file ∧ (start ord args file).acknowledgedAll ord evs = [] := by
  intro c
  have htrack : UpToDate (start ord args file) c := (upToDate_refl _).run evs
  rcases htrack.saved (htrack.path.trans hpath) with hsaved | ⟨hfile, hhistory⟩
  · exact .inl hsaved
  · have hgrown := history_run_acknowledged ord evs (start ord args file)
    have hnone := hhistory.symm.trans hgrown
    exact .inr ⟨hfile, List.self_eq_append_right.mp hnone⟩

end Coordinator

/-! ### What a start loads -/

theorem history_start_of_load (args : Arguments) (file : Option Bytes) (hload : args.load = true)
    (hpath : args.hasPath = true) :
    (Coordinator.start ord args file).ledger.history =
      (load ord file (.fresh kDefaultLedgerId)).state.history := by
  unfold Coordinator.start
  simp only [hload, hpath, and_self, if_true]
  exact history_setEpoch_ite _ _

theorem load_some (ord : IterationOrder) (bytes : Bytes) (s : EfficiencyLedger) :
    load ord (some bytes) s = match loadFromString ord bytes s with
      | .ok _ s' => .ok ⟨⟩ s'
      | .error f s' => .error f.status s' := rfl

/-- The first entries of a record that are accepted under its header. -/
def Record.Loadable (ord : IterationOrder) (r : Record) (es : List LedgerEntry) : Prop :=
  es <+: r.entries ∧ (loadHistory ord es (installRecord r (.fresh kDefaultLedgerId))).isOk = true

theorem history_load_of_parse (ord : IterationOrder) {bytes : Bytes} {r : Record}
    (hparse : parseRecord bytes = .ok r) :
    let loaded := (load ord (some bytes) (.fresh kDefaultLedgerId)).state.history
    r.Loadable ord loaded ∧ (∀ es, r.Loadable ord es → es <+: loaded) ∧
      ((load ord (some bytes) (.fresh kDefaultLedgerId)).isOk = true ↔ loaded = r.entries) := by
  have hrun := load_some ord bytes (.fresh kDefaultLedgerId)
  rw [loadFromString_of_parseRecord ord (.fresh kDefaultLedgerId) hparse] at hrun
  rcases loadHistory_cases ord (s := installRecord r (.fresh kDefaultLedgerId)) rfl r.entries with
    ⟨b, hb, hload⟩ | ⟨pre, e, suf, b, accounts, st, hsplit, hb, hleft, hload⟩
  · rw [hload] at hrun
    rw [hrun]
    have hloaded : (((installRecord r (.fresh kDefaultLedgerId)).withBooks b).setReplaying
        false).history = r.entries := hb.history
    simp only [Result.state, hloaded]
    refine ⟨⟨List.prefix_refl _, by rw [hload]; rfl⟩, fun es hes => hes.1, fun _ => trivial, fun _ => rfl⟩
  · rw [hload] at hrun
    rw [hrun]
    have hloaded : (((installRecord r (.fresh kDefaultLedgerId)).withBooks
        (b.withAccounts accounts)).setReplaying false).history = pre := hb.history
    simp only [Result.state, hloaded]
    refine ⟨⟨?_, ?_⟩, fun es hes => ?_, fun hok => (by cases hok), fun hall => ?_⟩
    · rw [hsplit]
      exact List.prefix_append _ _
    · rw [loadHistory_of_rebuilt ord rfl hb]
      rfl
    · -- more entries would be stopped by the same one
      obtain ⟨hinitial, hok⟩ := hes
      rcases List.prefix_or_prefix_of_prefix hinitial
        (hsplit ▸ List.prefix_append pre (e :: suf)) with hle | ⟨t, rfl⟩
      · exact hle
      · cases t with
        | nil => rw [List.append_nil]
        | cons x t =>
          rw [hsplit, List.prefix_append_right_inj, List.cons_prefix_cons] at hinitial
          obtain ⟨st', herr⟩ := loadHistory_of_leftAt ord rfl hb hleft t
          rw [hinitial.1, herr] at hok
          cases hok
    · rw [hsplit] at hall
      exact absurd (List.self_eq_append_right.mp hall) (List.cons_ne_nil e suf)

/-- There is no file and nothing was acknowledged, or the file is the save of a ledger whose history
stands so to what was acknowledged. -/
def Path.Records (R : List LedgerEntry → List LedgerEntry → Prop) (p : Path) : Prop :=
  p.file = none ∧ p.acknowledged = [] ∨
    ∃ s : EfficiencyLedger, p.file = some s.saveToString ∧ s.Legible ∧ R s.history p.acknowledged

section Records

variable {R : List LedgerEntry → List LedgerEntry → Prop} {p : Path}

/-- **What an incarnation leaves**: where the ledger it starts on stands so to what was acknowledged
before, the file it leaves does as well. -/
theorem Path.Records.live (happend : ∀ l a new, R l a → R (l ++ new) (a ++ new)) (h : p.Records R)
    {i : Incarnation} (hstart : R (p.start ord i).ledger.history p.acknowledged) :
    (p.live ord i).Records R := by
  have hgrown := Coordinator.history_run_acknowledged ord i.events (p.start ord i)
  rcases Coordinator.file_run { hasPath := true, epoch := i.epoch, load := i.load } p.file i.events rfl
    with hsaved | ⟨hfile, hnone⟩
  · refine .inr ⟨_, hsaved, Coordinator.legible_run ord _ p.file i.events, ?_⟩
    have hnow := happend _ _ ((p.start ord i).acknowledgedAll ord i.events) hstart
    rwa [← hgrown] at hnow
  · have hsame : p.live ord i = p := by
      unfold Path.live
      have hnone' : (p.start ord i).acknowledgedAll ord i.events = [] := hnone
      have hfile' : ((p.start ord i).run ord i.events).file = p.file := hfile
      rw [hnone', hfile', List.append_nil]
    rwa [hsame]

end Records

theorem Path.Records.history_start {R : List LedgerEntry → List LedgerEntry → Prop} {p : Path}
    (h : p.Records R) (ord : IterationOrder) (i : Incarnation) :
    (p.start ord i).ledger.history = [] ∨ ∃ s : EfficiencyLedger, p.file = some s.saveToString ∧
      R s.history p.acknowledged ∧ (p.start ord i).ledger.history <+: s.history := by
  obtain ⟨epoch, hledger⟩ := p.ledger_start ord i
  by_cases hload : i.load = true
  · have hstart : (p.start ord i).ledger.history = _ :=
      history_start_of_load { hasPath := true, epoch := i.epoch, load := i.load } p.file hload rfl
    rcases h with ⟨hfile, -⟩ | ⟨s, hfile, hlegible, hR⟩
    · left
      rw [hstart, hfile]
      rfl
    · cases hparse : parseRecord s.saveToString with
      | error f =>
        left
        rw [hstart, hfile, load_some, loadFromString_of_error ord _ hparse]
        rfl
      | ok r =>
        refine .inr ⟨s, hfile, hR, ?_⟩
        rw [hstart, hfile, ← hlegible.entries hparse]
        exact (history_load_of_parse ord hparse).1.1
  · left
    rw [hledger, if_neg hload]
    rfl

/-- Where there is a file, the incarnation loads it. -/
def Path.LoadedBy (ord : IterationOrder) (p : Path) (i : Incarnation) : Prop :=
  p.file = none ∨ i.load = true ∧ (load ord p.file (.fresh kDefaultLedgerId)).isOk = true

theorem Path.Records.start_eq {p : Path} (h : p.Records Eq) {i : Incarnation}
    (hloaded : p.LoadedBy ord i) : (p.start ord i).ledger.history = p.acknowledged := by
  rcases hloaded with hfile | ⟨hload, hok⟩
  · have hno : ∀ s : EfficiencyLedger, p.file ≠ some s.saveToString := fun s hs => by
      rw [hfile] at hs
      cases hs
    rcases h.history_start ord i with hnil | ⟨s, hs, -, -⟩
    · rcases h with ⟨-, hacked⟩ | ⟨s, hs, -, -⟩
      · rw [hnil, hacked]
      · exact absurd hs (hno s)
    · exact absurd hs (hno s)
  · rcases h with ⟨hfile, -⟩ | ⟨s, hs, hlegible, hacked⟩
    · rw [hfile] at hok
      cases hok
    · have hstart : (p.start ord i).ledger.history = _ :=
        history_start_of_load { hasPath := true, epoch := i.epoch, load := i.load } p.file hload rfl
      have hrun : load ord p.file (.fresh kDefaultLedgerId) = .ok ⟨⟩ _ := Result.eq_ok_of_isOk hok
      rw [hs] at hrun hstart
      rw [hstart, ← hacked]
      exact hlegible.history_of_load hrun

theorem loads_firstLedger :
    (load default (some firstLedger.saveToString) (.fresh kDefaultLedgerId)).isOk = true := by
  have hrestorable : firstLedger.toBooks.Restorable default :=
    restorable_appendLocked (s := (EfficiencyLedger.fresh kDefaultLedgerId).setEpoch ⟨1⟩)
      Books.wf_empty (restorable_empty default) (noResidue_of_isOk (by decide +kernel))
  have hentries : firstLedger.history = [fencedEntry 1 ⟨1⟩] := by decide +kernel
  have hfences : ∀ e ∈ firstLedger.history, firstLedger.FencesMatch e := by
    intro e he
    rw [hentries, List.mem_singleton] at he
    rw [he]
    exact ⟨fun _ => by decide +kernel, fun hno => absurd rfl hno, fun hno => absurd rfl hno⟩
  obtain ⟨c, -, -, hload⟩ := load_saved default encodable_firstLedger hrestorable hfences
    (.fresh kDefaultLedgerId)
  rw [load_some, hload]
  rfl

end El
