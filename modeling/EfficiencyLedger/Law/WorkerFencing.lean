import EfficiencyLedger.Proof.Coordinator
import EfficiencyLedger.Proof.Refusal

/-!
# Worker-death fencing

The loop remembers one boot id for each connection, the one registered last, and unregisters it when
the connection ends; a boot id registered before another one on the same connection stays live. So
the entries of a worker are turned away after its connection has ended exactly where its boot id was
the last one registered on it (`worker_fenced`).
-/

namespace El

open Coordinator

/-! ### The refusal of a stale worker -/

/-- The frame is answered with a stale-authority error or an earlier one, if at all, and leaves the
process as it is. -/
def TurnsAway (ord : IterationOrder) (c : Coordinator) (f : Frame) (e : LedgerEntry) : Prop :=
  (c.step ord (.frame f)).1 = c ∧ ∀ reply, (c.step ord (.frame f)).2 = some reply →
    reply.status.code = ErrorCode.kStaleAuthority ∨
      reply.status = checksBeforeAuthority c.ledger e ∧
        (checksBeforeAuthority c.ledger e).ok = false

section

variable {ord : IterationOrder} {c : Coordinator} {b : WorkerBootId}

theorem turnsAway_of_stopped (h : c.Stopped) (f : Frame) (e : LedgerEntry) : TurnsAway ord c f e := by
  unfold TurnsAway
  rw [step_of_stopped h]
  exact ⟨rfl, fun reply hreply => (by cases hreply)⟩

theorem turnsAway_of_authority {f : Frame} {e : LedgerEntry} (hf : f.Appends e)
    (hauth : (checkAuthority c.ledger e).ok = false) : TurnsAway ord c f e := by
  obtain ⟨hcall, hstatus⟩ : RefusedAsStale ord c.ledger e := refusedAsStale_of_authority hauth
  unfold TurnsAway
  cases hconn : c.conn with
  | none =>
    rw [step_frame_of_none hconn]
    exact ⟨rfl, fun reply hreply => (by cases hreply)⟩
  | some conn =>
    rw [step_frame hconn, handle_of_appends hf, append_of_entry hf.2, hcall]
    refine ⟨rfl, fun reply hreply => ?_⟩
    cases hreply
    exact hstatus

theorem not_turnsAway_of_isOk {conn : Connection} (hconn : c.conn = some conn) {f : Frame}
    {e : LedgerEntry} (hf : f.Appends e) (hok : (appendLocked ord e c.ledger).isOk = true) :
    ¬ TurnsAway ord c f e := by
  rintro ⟨-, hreplies⟩
  have hstep : (c.step ord (.frame f)).2 = some ⟨.success, []⟩ := by
    rw [step_frame hconn, handle_of_appends hf, append_of_entry hf.2, EStateM.Result.eq_ok_of_isOk hok]
  rcases hreplies _ hstep with hstale | ⟨hsame, hfail⟩
  · revert hstale
    decide
  · rw [← hsame] at hfail
    revert hfail
    decide

theorem turnsAway_of_not_live (hreplaying : c.ledger.replaying = false)
    (hlive : b ∉ c.ledger.liveWorkers) (hvalid : b.valid) {f : Frame} {e : LedgerEntry}
    (hf : f.Appends e) (he : e.fences.workerBoot = b) : TurnsAway ord c f e := by
  refine turnsAway_of_authority hf (Bool.eq_false_iff.mpr fun hok => ?_)
  have hmem := (checkAuthority_ok_iff.mp hok).2.1 hreplaying (he ▸ hvalid)
  rw [he] at hmem
  exact hlive hmem

/-! ### One connection -/

/-- What the connection remembers after the frame. -/
def Connection.remember (conn : Connection) (f : Frame) : Connection :=
  match f.registration with
  | some boot => { connBoot := boot, registered := true }
  | none => conn

/-- The boot ids registered by the frames, in order. -/
def registrations (fs : List Frame) : List WorkerBootId := fs.filterMap Frame.registration

theorem foldl_remember (fs : List Frame) (conn : Connection) :
    fs.foldl Connection.remember conn = match (registrations fs).getLast? with
      | some boot => { connBoot := boot, registered := true }
      | none => conn := by
  induction fs using List.reverseRecOn with
  | nil => rfl
  | append_singleton fs f ih =>
    rw [List.foldl_append, ih]
    unfold registrations
    rw [List.filterMap_append]
    cases hf : f.registration with
    | some boot =>
      have hlast : List.filterMap Frame.registration [f] = [boot] := by simp [hf]
      rw [hlast, List.getLast?_append]
      simp [Connection.remember, hf]
    | none =>
      have hlast : List.filterMap Frame.registration [f] = [] := by simp [hf]
      rw [hlast, List.append_nil]
      simp [Connection.remember, hf]

theorem handle_workers (ord : IterationOrder) {conn : Connection} (hconn : c.conn = some conn)
    (f : Frame) :
    (c.handle ord f).1.Stopped ∧ (c.handle ord f).1.ledger = c.ledger ∨
      (c.handle ord f).1.conn = some (conn.remember f) ∧
        ∀ b, b ∈ (c.handle ord f).1.ledger.liveWorkers ↔
          b ∈ c.ledger.liveWorkers ∨ b.valid ∧ f.registration = some b := by
  unfold Connection.remember
  rcases handle_cases ord c f with ⟨boot, hboot, hrun⟩ | ⟨hnone, ⟨e, he⟩ | ⟨-, hrun⟩ | hrun⟩
  · right
    rw [hrun, hboot]
    refine ⟨rfl, fun b => ?_⟩
    rw [Option.some.injEq]
    exact mem_registerWorker
  · right
    obtain ⟨books, hbooks⟩ := appendLocked_withBooks ord c.ledger e
    rw [handle_of_appends he, append_conn, append_ledger he.2, hbooks, hconn, hnone]
    exact ⟨rfl, fun b => by simp [EfficiencyLedger.withBooks]⟩
  · left
    rw [hrun]
    refine ⟨⟨rfl, rfl⟩, ?_⟩
    show c.save.save.ledger = c.ledger
    rw [save_ledger, save_ledger]
  · right
    rw [hrun, hconn, hnone]
    exact ⟨rfl, fun b => by simp⟩

theorem run_frames (ord : IterationOrder) (fs : List Frame) :
    ∀ {c : Coordinator} {conn : Connection}, c.conn = some conn →
      (c.run ord (fs.map .frame)).Stopped ∨
        (c.run ord (fs.map .frame)).conn = some (fs.foldl Connection.remember conn) ∧
          ∀ b, b ∈ (c.run ord (fs.map .frame)).ledger.liveWorkers ↔
            b ∈ c.ledger.liveWorkers ∨ b.valid ∧ b ∈ registrations fs := by
  induction fs with
  | nil =>
    intro c conn hconn
    exact .inr ⟨hconn, fun b => by simp [registrations]; rfl⟩
  | cons f fs ih =>
    intro c conn hconn
    have hrun : c.run ord ((f :: fs).map .frame) = (c.handle ord f).1.run ord (fs.map .frame) := by
      rw [List.map_cons, run_cons, step_frame hconn]
    rw [hrun]
    rcases handle_workers ord hconn f with ⟨hstop, -⟩ | ⟨hnext, hlive⟩
    · left
      rw [run_of_stopped hstop]
      exact hstop
    · rcases ih hnext with hstop | ⟨hlast, hlive'⟩
      · exact .inl hstop
      · refine .inr ⟨hlast, fun b => ?_⟩
        rw [hlive', hlive]
        unfold registrations
        rw [List.filterMap_cons]
        cases f.registration with
        | none => simp
        | some boot =>
          simp only [Option.some.injEq, List.mem_cons]
          rw [or_assoc, ← and_or_left, @eq_comm _ boot b]

/-! ### Before and after the connection -/

theorem replaying_run (ord : IterationOrder) (args : Arguments) (file : Option Bytes)
    (evs : List Event) : ((start ord args file).run ord evs).ledger.replaying = false :=
  (run_header (fun _ _ _ => rfl) ord evs (start ord args file)).trans (replaying_start ord args file)

theorem not_live_step {ev : Event} (hev : ∀ f, ev = .frame f → f.registration ≠ some b)
    (h : b ∉ c.ledger.liveWorkers) : b ∉ (c.step ord ev).1.ledger.liveWorkers := by
  rcases step_cases ord c ev with hrun | ⟨-, -, hrun⟩ | ⟨-, -, hrun⟩ | ⟨conn, f, hconn, hf, hrun⟩ |
    ⟨conn, hconn, -, hrun⟩
  · rw [hrun]
    exact h
  · rw [hrun]
    exact h
  · rw [hrun]
    show b ∉ c.save.ledger.liveWorkers
    rw [save_ledger]
    exact h
  · rw [hrun]
    rcases handle_workers ord hconn f with ⟨-, hledger⟩ | ⟨-, hlive⟩
    · rw [hledger]
      exact h
    · rw [hlive]
      rintro (hold | ⟨-, hnew⟩)
      · exact h hold
      · exact hev f hf hnew
  · rw [hrun]
    unfold disconnect
    simp only
    split
    · exact fun hmem => h (Finset.mem_of_mem_erase hmem)
    · exact h

/-- The worker is live, and the open connection does not remember it. -/
def Leaked (b : WorkerBootId) (c : Coordinator) : Prop :=
  b ∈ c.ledger.liveWorkers ∧ ∀ conn, c.conn = some conn → conn.connBoot ≠ b

theorem leaked_step {ev : Event} (hvalid : b.valid)
    (hev : ∀ f, ev = .frame f → f.registration ≠ some b) (h : Leaked b c) :
    Leaked b (c.step ord ev).1 := by
  obtain ⟨hlive, hother⟩ := h
  rcases step_cases ord c ev with hrun | ⟨-, -, hrun⟩ | ⟨-, -, hrun⟩ | ⟨conn, f, hconn, hf, hrun⟩ |
    ⟨conn, hconn, -, hrun⟩
  · rw [hrun]
    exact ⟨hlive, hother⟩
  · rw [hrun]
    refine ⟨hlive, fun conn hconn => ?_⟩
    cases hconn
    exact fun hzero => hvalid (hzero ▸ rfl)
  · rw [hrun]
    refine ⟨?_, fun conn hconn => (by cases hconn)⟩
    show b ∈ c.save.ledger.liveWorkers
    rw [save_ledger]
    exact hlive
  · rw [hrun]
    rcases handle_workers ord hconn f with ⟨hstop, hledger⟩ | ⟨hnext, hworkers⟩
    · refine ⟨by rw [hledger]; exact hlive, fun conn hconn => ?_⟩
      rw [hstop.2] at hconn
      cases hconn
    · refine ⟨(hworkers b).mpr (.inl hlive), fun conn' hconn' => ?_⟩
      rw [hnext] at hconn'
      cases hconn'
      unfold Connection.remember
      cases hboot : f.registration with
      | none => exact hother conn hconn
      | some boot => exact fun hsame => hev f hf (hsame ▸ hboot)
  · rw [hrun]
    refine ⟨?_, fun conn' hconn' => (by cases hconn')⟩
    unfold disconnect
    simp only
    split
    · exact Finset.mem_erase.mpr ⟨(hother conn hconn).symm, hlive⟩
    · exact hlive

theorem run_of_not_registered {P : Coordinator → Prop}
    (hstep : ∀ c ev, (∀ f, ev = .frame f → f.registration ≠ some b) → P c → P (c.step ord ev).1)
    {evs : List Event} : ∀ {c : Coordinator}, (∀ f, Event.frame f ∈ evs → f.registration ≠ some b) →
      P c → P (c.run ord evs) := by
  induction evs with
  | nil => exact fun _ h => h
  | cons ev evs ih =>
    intro c hevs h
    rw [run_cons]
    refine ih (fun f hf => hevs f (List.mem_cons_of_mem ev hf)) (hstep c ev (fun f hf => ?_) h)
    exact hevs f (hf ▸ List.mem_cons_self)

end

/-- A process that waits for a connection, the frames of the next connection, its end, and what
follows. -/
def afterConnection (ord : IterationOrder) (c : Coordinator) (during : List Frame)
    (later : List Event) : Coordinator :=
  c.run ord (.accept :: (during.map .frame ++ .closed :: later))

theorem afterConnection_later (ord : IterationOrder) (c : Coordinator) (during : List Frame)
    (later : List Event) :
    afterConnection ord c during later = (afterConnection ord c during []).run ord later := by
  unfold afterConnection
  rw [run_cons, run_cons, run_append, run_append, run_cons, run_cons]
  rfl

theorem live_after_closed (ord : IterationOrder) {c : Coordinator} (hidle : c.Idle)
    (during : List Frame) {b : WorkerBootId} (hvalid : b.valid) (hreg : b ∈ registrations during) :
    (afterConnection ord c during []).Stopped ∨
      ((registrations during).getLast? = some b → b ∉ (afterConnection ord c during []).ledger.liveWorkers) ∧
      ((registrations during).getLast? ≠ some b → Leaked b (afterConnection ord c during [])) := by
  unfold afterConnection
  rw [run_cons, run_append, step_accept hidle]
  rcases run_frames ord during (c := { c with conn := some {} }) rfl with hstop | ⟨hconn, hlive⟩
  · left
    rw [run_of_stopped hstop]
    exact hstop
  · right
    rw [run_cons, step_closed hconn]
    obtain ⟨last, hlast⟩ : ∃ last, (registrations during).getLast? = some last := by
      rw [List.getLast?_eq_some_getLast (List.ne_nil_of_mem hreg)]
      exact ⟨_, rfl⟩
    rw [foldl_remember, hlast, Option.some.injEq]
    constructor
    · rintro rfl
      show last ∉ (if _ then _ else _ : EfficiencyLedger).liveWorkers
      rw [if_pos ⟨rfl, hvalid⟩]
      exact Finset.notMem_erase _ _
    · intro hne
      refine ⟨?_, fun conn hconn => (by cases hconn)⟩
      have hmem := (hlive b).mpr (.inr ⟨hvalid, hreg⟩)
      unfold disconnect
      simp only
      split
      · exact Finset.mem_erase.mpr ⟨fun h => hne (congrArg some h.symm), hmem⟩
      · exact hmem

/-- **Worker-death fencing**, where the boot id was the last one registered on its connection; any
other one stays live. -/
theorem worker_fenced (ord : IterationOrder) (args : Arguments) (file : Option Bytes)
    (before : List Event) (during : List Frame) (later : List Event) (b : WorkerBootId)
    (hidle : ((start ord args file).run ord before).Idle) (hvalid : b.valid)
    (hreg : b ∈ registrations during)
    (hlater : ∀ f, Event.frame f ∈ later → f.registration ≠ some b) :
    let c := afterConnection ord ((start ord args file).run ord before) during later
    ((registrations during).getLast? = some b →
      ∀ f e, f.Appends e → e.fences.workerBoot = b → TurnsAway ord c f e) ∧
    ((registrations during).getLast? ≠ some b → c.Stopped ∨ b ∈ c.ledger.liveWorkers) := by
  intro c
  have hsplit : c = (afterConnection ord ((start ord args file).run ord before) during []).run ord
      later := afterConnection_later ord _ during later
  have hreplaying : c.ledger.replaying = false := by
    show (afterConnection ord _ during later).ledger.replaying = false
    unfold afterConnection
    rw [← run_append]
    exact replaying_run ord args file _
  rcases live_after_closed ord hidle during hvalid hreg with hstop | ⟨hfenced, hleaked⟩
  · have hc : c.Stopped := by
      rw [hsplit, run_of_stopped hstop]
      exact hstop
    exact ⟨fun _ f e _ _ => turnsAway_of_stopped hc f e, fun _ => .inl hc⟩
  · refine ⟨fun hlast f e hf he => ?_, fun hlast => .inr ?_⟩
    · have hlive : b ∉ c.ledger.liveWorkers := by
        rw [hsplit]
        exact run_of_not_registered (P := fun c => b ∉ c.ledger.liveWorkers)
          (fun c ev hev h => not_live_step hev h) hlater (hfenced hlast)
      exact turnsAway_of_not_live hreplaying hlive hvalid hf he
    · rw [hsplit]
      exact (run_of_not_registered (P := Leaked b) (fun c ev hev h => leaked_step hvalid hev h)
        hlater (hleaked hlast)).1

/-- The frame that registers a boot id. -/
def registerFrame (boot : UInt64) : Frame :=
  { kind := MessageKind.kRegister.toBits
    request := 0
    body := Wire.putU64 boot
    fits := by
      rw [Wire.length_putU64]
      decide }

theorem worker_fenced_single :
    let c := afterConnection default ((start default {} none).run default []) [registerFrame 5] []
    ((registrations [registerFrame 5]).getLast? = some ⟨5⟩ →
      ∀ f e, f.Appends e → e.fences.workerBoot = ⟨5⟩ → TurnsAway default c f e) ∧
    ((registrations [registerFrame 5]).getLast? ≠ some ⟨5⟩ →
      c.Stopped ∨ (⟨5⟩ : WorkerBootId) ∈ c.ledger.liveWorkers) :=
  worker_fenced default {} none [] [registerFrame 5] [] ⟨5⟩ ⟨rfl, rfl⟩ (by decide)
    (by decide +kernel) (fun f hf => (by cases hf))

/-- An entry of the worker with the boot id 5. -/
def workerEntry : LedgerEntry :=
  { id := ⟨1⟩
    event := EventType.kExecutionProgress
    account := ⟨7⟩
    fences := { workerBoot := ⟨5⟩ } }

/-- The frame that appends it. -/
def workerFrame : Frame :=
  { kind := MessageKind.kAppend.toBits
    request := 0
    body := encodeEntry workerEntry
    fits := by decide +kernel }

/-- A worker that registers 5 and then 6 leaves 5 live when its connection ends. -/
theorem worker_not_fenced :
    ¬ ∀ (ord : IterationOrder) (args : Arguments) (file : Option Bytes) (before : List Event)
      (during : List Frame) (later : List Event) (b : WorkerBootId),
      ((start ord args file).run ord before).Idle → b.valid → b ∈ registrations during →
      (∀ f, Event.frame f ∈ later → f.registration ≠ some b) →
      ∀ f e, f.Appends e → e.fences.workerBoot = b →
        TurnsAway ord (afterConnection ord ((start ord args file).run ord before) during later) f
          e := by
  intro h
  have happends : workerFrame.Appends workerEntry := by
    refine ⟨.inl rfl, Frame.entry_eq_some.mpr ⟨⟨fun sh hsh => (by cases hsh), by decide⟩, rfl⟩⟩
  let c := afterConnection default (start default {} none) [registerFrame 5, registerFrame 6]
    [.accept]
  have hturns : TurnsAway default c workerFrame workerEntry :=
    h default {} none [] [registerFrame 5, registerFrame 6] [.accept] ⟨5⟩ ⟨rfl, rfl⟩ (by decide)
      (by decide +kernel) (fun f hf => (by simp at hf)) workerFrame workerEntry happends rfl
  have hconn : c.conn = some {} := by decide +kernel
  have hledger : (c.step default (.frame workerFrame)).1.ledger =
      (appendLocked default workerEntry c.ledger).state := ledger_of_appends hconn happends
  rw [hturns.1] at hledger
  have hafter : (appendLocked default workerEntry c.ledger).state.history.length = 1 := by
    decide +kernel
  rw [← hledger] at hafter
  have hbefore : c.ledger.history.length = 0 := by decide +kernel
  rw [hbefore] at hafter
  cases hafter

end El
