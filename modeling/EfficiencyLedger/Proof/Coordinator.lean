import EfficiencyLedger.Model.Coordinator
import EfficiencyLedger.Proof.Persistence
import EfficiencyLedger.Proof.Run
import EfficiencyLedger.Proof.Replay

/-!
# Steps of the coordinator

A frame on the open connection registers a worker, appends an entry, stops the process, or changes
nothing (`handle_cases`). Appends change nothing but the books, so a run never changes the header of
the ledger (`run_header`).
-/

namespace El

open EStateM

theorem replaying_load (ord : IterationOrder) (file : Option Bytes) {s : EfficiencyLedger}
    (h : s.replaying = false) : (load ord file s).state.replaying = false := by
  cases file with
  | none => exact h
  | some bytes =>
    rw [load_state, loadFromString_state]
    cases parseRecord bytes with
    | error f => exact h
    | ok r =>
      simp only
      rw [loadHistory_state]

theorem Frame.entry_eq_some {f : Frame} {e : LedgerEntry} :
    f.entry = some e ↔ Encodable e ∧ encodeEntry e = f.body := by
  unfold Frame.entry
  constructor
  · intro h
    cases hdecode : decodeEntryBytes f.body 0 {} with
    | none =>
      rw [hdecode] at h
      cases h
    | some x =>
      obtain ⟨e', off⟩ := x
      rw [hdecode] at h
      simp only at h
      split at h
      · rename_i hoff
        cases h
        obtain ⟨henc, rest, hbody, hrest⟩ := decodeEntryBytes_eq_some.mp hdecode
        have hlen := congrArg List.length hbody
        rw [List.drop_zero, List.length_append] at hlen
        have hnil : rest = [] := by
          apply List.length_eq_zero_iff.mp
          omega
        rw [hnil, List.append_nil, List.drop_zero] at hbody
        exact ⟨henc, hbody⟩
      · cases h
  · rintro ⟨henc, hbody⟩
    have hdecode : decodeEntryBytes f.body 0 {} = some (e, f.body.length) :=
      decodeEntryBytes_eq_some.mpr ⟨henc, [], by rw [hbody, List.append_nil, List.drop_zero], rfl⟩
    rw [hdecode]
    exact if_pos rfl

/-- The frame hands the entry to `append`. -/
def Frame.Appends (f : Frame) (e : LedgerEntry) : Prop :=
  (f.kind = MessageKind.kAppend.toBits ∨ f.kind = MessageKind.kReclassify.toBits) ∧
    f.entry = some e

namespace Coordinator

variable {ord : IterationOrder} {c : Coordinator}

/-- The process has left its loop. -/
def Stopped (c : Coordinator) : Prop := c.running = false ∧ c.conn = none

/-- The process waits in `accept`. -/
def Idle (c : Coordinator) : Prop := c.running = true ∧ c.conn = none

theorem run_cons (ord : IterationOrder) (c : Coordinator) (ev : Event) (evs : List Event) :
    c.run ord (ev :: evs) = (c.step ord ev).1.run ord evs := rfl

theorem run_append (ord : IterationOrder) (c : Coordinator) (evs evs' : List Event) :
    c.run ord (evs ++ evs') = (c.run ord evs).run ord evs' := Machine.run_append _ _ _ _

theorem step_of_stopped (h : c.Stopped) (ev : Event) : c.step ord ev = (c, none) := by
  unfold step
  rw [h.2, h.1]
  rfl

theorem run_of_stopped (h : c.Stopped) (evs : List Event) : c.run ord evs = c := by
  induction evs with
  | nil => rfl
  | cons ev evs ih => rw [run_cons, step_of_stopped h, ih]

theorem step_accept (h : c.Idle) : (c.step ord .accept).1 = { c with conn := some {} } := by
  unfold step
  rw [h.2, h.1]
  rfl

theorem step_frame {conn : Connection} (h : c.conn = some conn) (f : Frame) :
    c.step ord (.frame f) = ((c.handle ord f).1, some (c.handle ord f).2) := by
  unfold step
  rw [h]

theorem step_closed {conn : Connection} (h : c.conn = some conn) :
    (c.step ord .closed).1 = c.disconnect conn := by
  unfold step
  rw [h]

theorem step_frame_of_none (h : c.conn = none) (f : Frame) : c.step ord (.frame f) = (c, none) := by
  unfold step
  rw [h]
  exact ite_self _

/-- **What an event does.** -/
theorem step_cases (ord : IterationOrder) (c : Coordinator) (ev : Event) :
    (c.step ord ev).1 = c ∨
    c.Idle ∧ ev = .accept ∧ (c.step ord ev).1 = { c with conn := some {} } ∨
    c.Idle ∧ ev = .acceptFailed ∧ (c.step ord ev).1 = c.stop ∨
    (∃ conn f, c.conn = some conn ∧ ev = .frame f ∧ (c.step ord ev).1 = (c.handle ord f).1) ∨
    ∃ conn, c.conn = some conn ∧ ev = .closed ∧ (c.step ord ev).1 = c.disconnect conn := by
  cases hconn : c.conn with
  | none =>
    by_cases hrun : c.running = true
    · cases ev with
      | accept => exact .inr (.inl ⟨⟨hrun, hconn⟩, rfl, step_accept ⟨hrun, hconn⟩⟩)
      | acceptFailed =>
        refine .inr (.inr (.inl ⟨⟨hrun, hconn⟩, rfl, ?_⟩))
        unfold step
        rw [hconn, hrun]
        rfl
      | frame f => exact .inl (by rw [step_frame_of_none hconn])
      | closed =>
        left
        unfold step
        rw [hconn, hrun]
        rfl
    · exact .inl (by rw [step_of_stopped ⟨by simpa using hrun, hconn⟩])
  | some conn =>
    cases ev with
    | accept =>
      left
      unfold step
      rw [hconn]
    | acceptFailed =>
      left
      unfold step
      rw [hconn]
    | frame f => exact .inr (.inr (.inr (.inl ⟨conn, f, rfl, rfl, by rw [step_frame hconn]⟩)))
    | closed => exact .inr (.inr (.inr (.inr ⟨conn, rfl, rfl, step_closed hconn⟩)))

theorem save_ledger (c : Coordinator) : c.save.ledger = c.ledger := by
  unfold save
  split <;> rfl

theorem save_conn (c : Coordinator) : c.save.conn = c.conn := by
  unfold save
  split <;> rfl

theorem replaying_start (ord : IterationOrder) (args : Arguments) (file : Option Bytes) :
    (start ord args file).ledger.replaying = false := by
  have hload := replaying_load ord file (s := .fresh kDefaultLedgerId) rfl
  unfold start
  by_cases hl : args.load = true ∧ args.hasPath = true
  · simp only [if_pos hl]
    split
    · exact hload
    · exact hload
  · simp only [if_neg hl]
    split <;> rfl

/-! ### Frames -/

theorem append_of_entry {f : Frame} {e : LedgerEntry} (h : f.entry = some e) :
    c.append ord f = match appendLocked ord e c.ledger with
      | .ok _ led => ({ c with ledger := led }.save, ⟨.success, []⟩)
      | .error st led => ({ c with ledger := led }, ⟨st, []⟩) := by
  unfold append
  cases hrun : appendLocked ord e c.ledger <;> simp only [h, hrun]

theorem append_ledger {f : Frame} {e : LedgerEntry} (h : f.entry = some e) :
    (c.append ord f).1.ledger = (appendLocked ord e c.ledger).state := by
  rw [append_of_entry h]
  cases appendLocked ord e c.ledger with
  | ok u led => exact save_ledger _
  | error st led => rfl

theorem append_conn (c : Coordinator) (f : Frame) : (c.append ord f).1.conn = c.conn := by
  unfold append
  split
  · split
    · exact save_conn _
    · rfl
  · rfl

theorem handle_of_appends {f : Frame} {e : LedgerEntry} (h : f.Appends e) :
    c.handle ord f = c.append ord f := by
  have hregister : f.kind ≠ MessageKind.kRegister.toBits := by
    rcases h.1 with hk | hk <;> rw [hk] <;> decide
  unfold handle
  rw [if_neg hregister, if_pos h.1]

theorem ledger_of_appends {conn : Connection} (hconn : c.conn = some conn) {f : Frame}
    {e : LedgerEntry} (h : f.Appends e) :
    (c.step ord (.frame f)).1.ledger = (appendLocked ord e c.ledger).state := by
  rw [step_frame hconn, handle_of_appends h]
  exact append_ledger h.2

/-- **What a frame does**: it registers a worker, appends an entry, stops the process, or leaves it
as it is. -/
theorem handle_cases (ord : IterationOrder) (c : Coordinator) (f : Frame) :
    (∃ boot, f.registration = some boot ∧ (c.handle ord f).1 =
      { c with
        ledger := c.ledger.registerWorker boot
        conn := some { connBoot := boot, registered := true } }) ∨
    f.registration = none ∧ ((∃ e, f.Appends e) ∨
      f.kind = MessageKind.kShutdown.toBits ∧ (c.handle ord f).1 = c.save.stop ∨
      (c.handle ord f).1 = c) := by
  unfold handle
  by_cases hregister : f.kind = MessageKind.kRegister.toBits
  · rw [if_pos hregister]
    unfold register
    cases hboot : f.registration with
    | some boot => exact .inl ⟨boot, rfl, rfl⟩
    | none => exact .inr ⟨rfl, .inr (.inr rfl)⟩
  · rw [if_neg hregister]
    refine .inr ⟨if_neg fun h => hregister h.1, ?_⟩
    by_cases happend : f.kind = MessageKind.kAppend.toBits ∨
        f.kind = MessageKind.kReclassify.toBits
    · rw [if_pos happend]
      cases hentry : f.entry with
      | some e => exact .inl ⟨e, happend, hentry⟩
      | none =>
        right; right
        unfold append
        rw [hentry]
    · rw [if_neg happend]
      by_cases hquery : f.kind = MessageKind.kQueryDigest.toBits
      · rw [if_pos hquery]
        exact .inr (.inr rfl)
      · rw [if_neg hquery]
        by_cases hshutdown : f.kind = MessageKind.kShutdown.toBits
        · rw [if_pos hshutdown]
          exact .inr (.inl ⟨hshutdown, rfl⟩)
        · rw [if_neg hshutdown]
          exact .inr (.inr rfl)

/-- **What a process does to its ledger**: an event changes the books and the workers, and never the
header. -/
theorem step_ledger (ord : IterationOrder) (c : Coordinator) (ev : Event) :
    ∃ (b : Books) (workers : Finset WorkerBootId),
      (c.step ord ev).1.ledger = { c.ledger with toBooks := b, liveWorkers := workers } := by
  have hsame : ∃ (b : Books) (workers : Finset WorkerBootId),
      c.ledger = { c.ledger with toBooks := b, liveWorkers := workers } := ⟨_, _, rfl⟩
  rcases step_cases ord c ev with hrun | ⟨-, -, hrun⟩ | ⟨-, -, hrun⟩ | ⟨conn, f, -, -, hrun⟩ |
    ⟨conn, -, -, hrun⟩
  · rw [hrun]
    exact hsame
  · rw [hrun]
    exact hsame
  · have hledger : c.stop.ledger = c.ledger := save_ledger c
    rw [hrun, hledger]
    exact hsame
  · rw [hrun]
    rcases handle_cases ord c f with ⟨boot, -, hhandle⟩ | ⟨-, ⟨e, he⟩ | ⟨-, hhandle⟩ | hhandle⟩
    · rw [hhandle]
      show ∃ b workers, c.ledger.registerWorker boot = _
      unfold EfficiencyLedger.registerWorker
      split
      · exact ⟨_, _, rfl⟩
      · exact hsame
    · obtain ⟨b, hbooks⟩ := appendLocked_withBooks ord c.ledger e
      rw [handle_of_appends he, append_ledger he.2, hbooks]
      exact ⟨b, _, rfl⟩
    · have hledger : c.save.stop.ledger = c.ledger := (save_ledger c.save).trans (save_ledger c)
      rw [hhandle, hledger]
      exact hsame
    · rw [hhandle]
      exact hsame
  · rw [hrun]
    unfold disconnect
    simp only
    split
    · exact ⟨_, _, rfl⟩
    · exact hsame

theorem run_header {α : Type} {field : EfficiencyLedger → α}
    (hfield : ∀ (s : EfficiencyLedger) (b : Books) (workers : Finset WorkerBootId),
      field { s with toBooks := b, liveWorkers := workers } = field s)
    (ord : IterationOrder) (evs : List Event) : ∀ c : Coordinator,
      field (c.run ord evs).ledger = field c.ledger := by
  induction evs with
  | nil => exact fun _ => rfl
  | cons ev evs ih =>
    intro c
    obtain ⟨b, workers, hstep⟩ := step_ledger ord c ev
    rw [run_cons, ih, hstep, hfield]

/-! ### The books of a process -/

section Books

variable {P : Books → Prop}

/-- **Invariants of the books of a process**: the empty books have it, and every append of an entry
that the binary form can hold keeps it. -/
theorem books_start (hempty : P {})
    (hcall : ∀ s e, Encodable e → P s.toBooks → P (appendLocked ord e s).state.toBooks)
    (args : Arguments) (file : Option Bytes) : P (start ord args file).ledger.toBooks := by
  have hload : P (load ord file (.fresh kDefaultLedgerId)).state.toBooks := by
    refine step_books (C := fun _ e => Encodable e) hempty (fun s e hs he => hcall s e he hs)
      (.fresh kDefaultLedgerId) (.load file) hempty (callsMeet_of_forall_mem ?_ _)
    intro e he
    cases file with
    | none => cases he
    | some bytes =>
      unfold Op.entries at he
      cases hparse : parseRecord bytes with
      | error f =>
        simp only [hparse] at he
        cases he
      | ok r =>
        simp only [hparse] at he
        exact (parseRecord_ok hparse).1 e he
  unfold start
  by_cases hl : args.load = true ∧ args.hasPath = true
  · simp only [if_pos hl]
    split
    · exact hload
    · exact hload
  · simp only [if_neg hl]
    split
    · exact hempty
    · exact hempty

theorem books_step
    (hcall : ∀ s e, Encodable e → P s.toBooks → P (appendLocked ord e s).state.toBooks)
    (h : P c.ledger.toBooks) (ev : Event) : P (c.step ord ev).1.ledger.toBooks := by
  rcases step_cases ord c ev with hrun | ⟨-, -, hrun⟩ | ⟨-, -, hrun⟩ | ⟨conn, f, -, -, hrun⟩ |
    ⟨conn, -, -, hrun⟩
  · rwa [hrun]
  · rwa [hrun]
  · have hledger : c.stop.ledger = c.ledger := save_ledger c
    rwa [hrun, hledger]
  · rw [hrun]
    rcases handle_cases ord c f with ⟨boot, -, hhandle⟩ | ⟨-, ⟨e, he⟩ | ⟨-, hhandle⟩ | hhandle⟩
    · rw [hhandle]
      show P (c.ledger.registerWorker boot).toBooks
      rwa [registerWorker_books]
    · rw [handle_of_appends he, append_ledger he.2]
      exact hcall c.ledger e (Frame.entry_eq_some.mp he.2).1 h
    · have hledger : c.save.stop.ledger = c.ledger := (save_ledger c.save).trans (save_ledger c)
      rwa [hhandle, hledger]
    · rwa [hhandle]
  · rw [hrun]
    unfold disconnect
    split
    · exact h
    · exact h

theorem books_run (hempty : P {})
    (hcall : ∀ s e, Encodable e → P s.toBooks → P (appendLocked ord e s).state.toBooks)
    (args : Arguments) (file : Option Bytes) (evs : List Event) :
    P ((start ord args file).run ord evs).ledger.toBooks :=
  Machine.run_invariant (P := fun d : Coordinator => P d.ledger.toBooks)
    (fun d ev hd (_ : True) => books_step (c := d) hcall hd ev) (books_start hempty hcall args file)
    (Machine.runMeets_of_all (fun _ _ => trivial) evs _)

end Books

theorem history_run (ord : IterationOrder) (args : Arguments) (file : Option Bytes)
    (evs : List Event) :
    let b := ((start ord args file).run ord evs).ledger.toBooks
    b.Wf ∧ (∀ e ∈ b.history, e.validate = true) ∧ ∀ e ∈ b.history, Encodable e := by
  have hwf := books_run (P := Books.Wf) Books.wf_empty
    (fun s e _ hs => wf_appendLocked ord s e hs) args file evs
  have hvalid := books_run (P := fun b => ∀ e ∈ b.history, e.validate = true)
    (fun e he => absurd he List.not_mem_nil)
    (fun s e _ hs => validate_appendLocked ord s e hs) args file evs
  have henc : ∀ e ∈ ((start ord args file).run ord evs).ledger.history, Encodable e := by
    refine books_run (P := fun b => ∀ e ∈ b.history, Encodable e)
      (fun e he => absurd he List.not_mem_nil) (fun s e he hs => ?_) args file evs
    refine books_appendLocked ord (P := fun b => ∀ e ∈ b.history, Encodable e) hs
      (fun _ accounts _ => hs) fun _ accounts _ => ?_
    rw [Books.record_history, List.forall_mem_append]
    exact ⟨hs, List.forall_mem_singleton.mpr he⟩
  exact ⟨hwf, hvalid, henc⟩

end Coordinator

end El
