import EfficiencyLedger.Lib.Machine
import EfficiencyLedger.Law.Framing

/-!
# Framed delivery

Two ends of a connection that make progress are a queue of messages. What `write_frame` accepted is
what `read_frame` has returned followed by the messages whose frames are still under way, wherever
the sends and receives cut the stream (`Exchange.Queued`, kept by every call); so everything is
returned, in order (`delivery`).
-/

namespace El

open Stream

/-- A connection seen from both ends: the stream, what `write_frame` accepted and what `read_frame`
returned, in the order of the calls. -/
structure Exchange where
  channel : Channel UInt8 := {}
  accepted : List Message := []
  returned : List (Option Message) := []

inductive FrameCall where
  | write (m : Message)
  | read

def FrameCall.written : FrameCall → Option Message
  | write m => some m
  | read => none

namespace Exchange

variable (sends recvs : Transfer)

/-- A read waits until there is something under way. -/
def step (x : Exchange) : FrameCall → Exchange
  | .write m =>
    let r := writeFrame sends m x.channel
    { x with channel := r.2, accepted := if r.1 then x.accepted ++ [m] else x.accepted }
  | .read =>
    if x.channel.inFlight.length = 0 then x
    else
      let r := readFrame recvs x.channel
      { x with channel := r.2, returned := x.returned ++ [r.1] }

def run (x : Exchange) (calls : List FrameCall) : Exchange := Machine.run (step sends recvs) x calls

/-! ### The queue -/

/-- The frame of a message that has one. -/
def frameBytes (m : Message) : Bytes := (encodeFrame m).getD []

/-- The messages of the queue have been accepted and not returned, and their frames are what is
under way. -/
structure Queued (x : Exchange) (pending : List Message) : Prop where
  returned : ∃ delivered, x.accepted = delivered ++ pending ∧ x.returned = delivered.map some
  inFlight : x.channel.inFlight = pending.flatMap frameBytes
  encoded : ∀ m ∈ pending, encodeFrame m = some (frameBytes m)

theorem frameBytes_of_encodeFrame {m : Message} {frame : Bytes} (h : encodeFrame m = some frame) :
    frameBytes m = frame := by
  unfold frameBytes
  rw [h, Option.getD_some]

theorem length_frame_pos {m : Message} {frame : Bytes} (h : encodeFrame m = some frame) :
    0 < frame.length := by
  obtain ⟨-, rfl⟩ := encodeFrame_eq_some.mp h
  rw [length_words]
  omega

theorem Queued.write (hs : Progress sends) {x : Exchange} {pending : List Message}
    (h : x.Queued pending) {m : Message} {frame : Bytes} (hm : encodeFrame m = some frame) :
    (x.step sends recvs (.write m)).Queued (pending ++ [m]) ∧
      (x.step sends recvs (.write m)).accepted = x.accepted ++ [m] := by
  obtain ⟨sends', hwrite⟩ : ∃ sends', writeFrame sends m x.channel =
      (true, ⟨x.channel.inFlight ++ frame, sends', x.channel.recvs⟩) := writeFrame_eq hs hm _ _ _
  obtain ⟨delivered, haccepted, hreturned⟩ := h.returned
  have hbytes := frameBytes_of_encodeFrame hm
  have hstep : x.step sends recvs (.write m) =
      ⟨⟨x.channel.inFlight ++ frame, sends', x.channel.recvs⟩, x.accepted ++ [m], x.returned⟩ := by
    simp only [step, hwrite, if_true]
  rw [hstep]
  refine ⟨⟨⟨delivered, ?_, hreturned⟩, ?_, ?_⟩, rfl⟩
  · show x.accepted ++ [m] = _
    rw [haccepted, List.append_assoc]
  · show x.channel.inFlight ++ frame = _
    rw [h.inFlight, List.flatMap_append, List.flatMap_singleton, hbytes]
  · intro m' hm'
    rcases List.mem_append.mp hm' with hold | hnew
    · exact h.encoded m' hold
    · rw [List.mem_singleton.mp hnew, hm, hbytes]

theorem step_write_of_none {m : Message} (hm : encodeFrame m = none) (x : Exchange) :
    x.step sends recvs (.write m) = x := by
  simp only [step, writeFrame_none m hm, Bool.false_eq_true, if_false]

theorem Queued.read (hr : Progress recvs) {x : Exchange} {pending : List Message}
    (h : x.Queued pending) :
    (x.step sends recvs .read).Queued pending.tail ∧
      (x.step sends recvs .read).accepted = x.accepted := by
  obtain ⟨delivered, haccepted, hreturned⟩ := h.returned
  by_cases hempty : x.channel.inFlight.length = 0
  · have hstep : x.step sends recvs .read = x := if_pos hempty
    have hnil : pending.tail = pending := by
      cases pending with
      | nil => rfl
      | cons m pending =>
        have hpos := length_frame_pos (h.encoded m List.mem_cons_self)
        rw [h.inFlight, List.flatMap_cons, List.length_append] at hempty
        omega
    rw [hstep, hnil]
    exact ⟨h, rfl⟩
  · cases pending with
    | nil =>
      rw [h.inFlight] at hempty
      exact absurd rfl hempty
    | cons m pending =>
      have hm := h.encoded m List.mem_cons_self
      obtain ⟨recvs', hread⟩ : ∃ recvs', readFrame recvs x.channel =
          (some m, ⟨pending.flatMap frameBytes, x.channel.sends, recvs'⟩) := by
        have hfirst := readFrame_eq hr hm (pending.flatMap frameBytes) x.channel.sends
          x.channel.recvs
        rwa [← List.flatMap_cons, ← h.inFlight] at hfirst
      have hstep : x.step sends recvs .read =
          ⟨⟨pending.flatMap frameBytes, x.channel.sends, recvs'⟩, x.accepted,
            x.returned ++ [some m]⟩ := by
        simp only [step, if_neg hempty, hread]
      rw [hstep]
      refine ⟨⟨⟨delivered ++ [m], ?_, ?_⟩, rfl, ?_⟩, rfl⟩
      · show x.accepted = _
        rw [haccepted, List.append_assoc]
        rfl
      · show x.returned ++ [some m] = _
        rw [hreturned, List.map_append]
        rfl
      · exact fun m' hm' => h.encoded m' (List.mem_cons_of_mem _ hm')

/-! ### Runs -/

theorem accepted_step (hs : Progress sends) (hr : Progress recvs) {x : Exchange}
    {pending : List Message} (h : x.Queued pending) (call : FrameCall) :
    (∃ pending', (x.step sends recvs call).Queued pending') ∧
      (x.step sends recvs call).accepted =
        x.accepted ++ ([call].filterMap FrameCall.written).filter (encodeFrame · |>.isSome) := by
  cases call with
  | write m =>
    cases hm : encodeFrame m with
    | none =>
      rw [step_write_of_none sends recvs hm]
      refine ⟨⟨pending, h⟩, ?_⟩
      simp [FrameCall.written, hm]
    | some frame =>
      obtain ⟨hqueued, haccepted⟩ := h.write sends recvs hs hm
      refine ⟨⟨_, hqueued⟩, ?_⟩
      simp [haccepted, FrameCall.written, hm]
  | read =>
    obtain ⟨hqueued, haccepted⟩ := h.read sends recvs hr
    refine ⟨⟨_, hqueued⟩, ?_⟩
    simp [haccepted, FrameCall.written]

theorem run_queued (hs : Progress sends) (hr : Progress recvs) (calls : List FrameCall) :
    ∀ {x : Exchange} {pending : List Message}, x.Queued pending →
      (∃ pending', (x.run sends recvs calls).Queued pending') ∧
        (x.run sends recvs calls).accepted =
          x.accepted ++ (calls.filterMap FrameCall.written).filter (encodeFrame · |>.isSome) := by
  induction calls with
  | nil =>
    intro x pending h
    refine ⟨⟨pending, h⟩, ?_⟩
    rw [List.filterMap_nil, List.filter_nil, List.append_nil]
    rfl
  | cons call calls ih =>
    intro x pending h
    obtain ⟨⟨pending₁, h₁⟩, haccepted₁⟩ := accepted_step sends recvs hs hr h call
    obtain ⟨hqueued, haccepted⟩ := ih h₁
    refine ⟨hqueued, ?_⟩
    have hsplit : (call :: calls).filterMap FrameCall.written =
        [call].filterMap FrameCall.written ++ calls.filterMap FrameCall.written := by
      rw [← List.filterMap_append]
      rfl
    rw [hsplit, List.filter_append, ← List.append_assoc, ← haccepted₁]
    exact haccepted

theorem run_reads (hr : Progress recvs) (n : Nat) :
    ∀ {x : Exchange} {pending : List Message}, x.Queued pending →
      (x.run sends recvs (List.replicate n .read)).Queued (pending.drop n) ∧
        (x.run sends recvs (List.replicate n .read)).accepted = x.accepted := by
  induction n with
  | zero => exact fun h => ⟨h, rfl⟩
  | succ n ih =>
    intro x pending h
    obtain ⟨hqueued, haccepted⟩ := h.read sends recvs hr
    obtain ⟨hrest, haccepted'⟩ := ih hqueued
    rw [← List.drop_one, List.drop_drop, Nat.add_comm] at hrest
    exact ⟨hrest, haccepted'.trans haccepted⟩

end Exchange

/-- **Framed delivery**: whatever the calls on both ends and wherever the stream is cut, the messages
that fit a frame are accepted, the reads return them in order, and as many further reads as there are
left return the rest and leave nothing behind. -/
theorem delivery (sends recvs : Transfer) (hs : Progress sends) (hr : Progress recvs)
    (calls : List FrameCall) :
    let x := Exchange.run sends recvs {} calls
    x.accepted = (calls.filterMap FrameCall.written).filter (encodeFrame · |>.isSome) ∧
      x.returned <+: x.accepted.map some ∧
      ∀ n, x.accepted.length ≤ n →
        let y := x.run sends recvs (List.replicate n .read)
        y.returned = x.accepted.map some ∧ y.channel.inFlight = [] := by
  intro x
  have hempty : ({} : Exchange).Queued [] := ⟨⟨[], rfl, rfl⟩, rfl, fun m hm => nomatch hm⟩
  obtain ⟨⟨pending, h⟩, haccepted⟩ := Exchange.run_queued sends recvs hs hr calls hempty
  obtain ⟨delivered, hsplit, hreturned⟩ := h.returned
  refine ⟨haccepted, ?_, ?_⟩
  · refine ⟨pending.map some, ?_⟩
    rw [hreturned, hsplit, List.map_append]
  · intro n hn y
    obtain ⟨hrest, hkept⟩ := Exchange.run_reads sends recvs hr n h
    have hdone : pending.drop n = [] := by
      apply List.drop_of_length_le
      have hlen := congrArg List.length hsplit
      rw [List.length_append] at hlen
      have hn' : (Exchange.run sends recvs {} calls).accepted.length ≤ n := hn
      omega
    rw [hdone] at hrest
    obtain ⟨all, hall, hall'⟩ := hrest.returned
    rw [List.append_nil] at hall
    refine ⟨?_, hrest.inFlight⟩
    show (Exchange.run sends recvs (Exchange.run sends recvs {} calls) _).returned = _
    rw [hall', ← hall, hkept]

theorem delivery_threeTwo :
    let x := Exchange.run (fun _ n => min n 3) (fun _ n => min n 2) {}
      [.write ⟨2, 1, [7]⟩, .read, .write ⟨6, 2, []⟩]
    x.accepted = ([.write ⟨2, 1, [7]⟩, .read, .write ⟨6, 2, []⟩].filterMap FrameCall.written).filter
        (encodeFrame · |>.isSome) ∧
      x.returned <+: x.accepted.map some ∧
      ∀ n, x.accepted.length ≤ n →
        let y := x.run (fun _ n => min n 3) (fun _ n => min n 2) (List.replicate n .read)
        y.returned = x.accepted.map some ∧ y.channel.inFlight = [] :=
  delivery _ _ (fun _ _ => by omega) (fun _ _ => by omega) _

/-! ### Replies -/

/-- **A reply that fits a frame** reaches the other end. -/
theorem reply_received (sends recvs : Transfer) (hs : Progress sends) (hr : Progress recvs)
    {st : StatusRecord} {payload : Bytes}
    (hfits : 24 + st.message.length + payload.length ≤ kMaxFramePayload) :
    (writeStatus sends st payload {}).1 = true ∧
      (readStatus recvs (writeStatus sends st payload {}).2).1 = some (st, payload) := by
  have hmax : kMaxFramePayload < 2 ^ 32 := by decide
  obtain ⟨frame, hframe⟩ : ∃ frame,
      encodeFrame ⟨0, 0, encodeStatusPayload st payload⟩ = some frame := by
    refine ⟨_, if_neg ?_⟩
    rw [length_framePayload, length_encodeStatusPayload]
    omega
  obtain ⟨sends', hwrite⟩ := writeFrame_eq hs hframe [] 0 0
  obtain ⟨recvs', hread⟩ := readFrame_eq hr hframe [] sends' 0
  rw [List.append_nil] at hread
  rw [List.nil_append] at hwrite
  have hreply : writeStatus sends st payload {} = (true, ⟨frame, sends', 0⟩) := hwrite
  rw [hreply]
  unfold readStatus
  rw [hread]
  exact ⟨rfl, decodeStatus_encodeStatusPayload (by omega) payload⟩

end El
