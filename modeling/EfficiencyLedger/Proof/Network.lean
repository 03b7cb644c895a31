import EfficiencyLedger.Model.Worker
import EfficiencyLedger.Law.Framing
import EfficiencyLedger.Proof.Coordinator

/-!
# The coordinator as a server

`scanFrame` finds the frames that `read_frame` reads (`readFrame_eq_some_iff`), however they are cut
(`frames`). Every message that a ledger returns is short, so every reply of the coordinator fits in a
frame (`fits_answer`), and sessions conducted with it are runs of its loop (`run_of_conducted`).
-/

namespace El

open Wire Session Stream

/-! ### Frames that arrive in parts -/

theorem header_take {n : UInt32} {crc : UInt32} {rest received : Bytes} (h : 4 ≤ received.length)
    (hpart : received <+: putU32 n ++ (putU32 crc ++ rest)) :
    UInt32.ofNat (getLE (received.take 4)) = n := by
  have htake : received.take 4 = putU32 n := by
    rw [List.prefix_iff_eq_take.mp hpart, List.take_take, Nat.min_eq_left h,
      List.take_left' (length_putU32 n)]
  rw [htake, putU32, getLE_putLE (UInt32.toNat_lt _), UInt32.ofNat_toNat]

theorem length_of_encodeFrame {m : Message} {frame : Bytes} (h : encodeFrame m = some frame) :
    frame.length = 8 + (framePayload m).length := by
  obtain ⟨-, rfl⟩ := encodeFrame_eq_some.mp h
  exact length_words _ _ _

theorem scanFrame_of_part {m : Message} {received missing : Bytes}
    (h : encodeFrame m = some (received ++ missing)) (hmissing : missing ≠ []) :
    ∃ n, scanFrame received = .more n ∧ n ≤ missing.length := by
  have hlen := length_of_encodeFrame h
  have hpos : 0 < missing.length := List.length_pos_iff.mpr hmissing
  rw [List.length_append] at hlen
  obtain ⟨hmax, hframe⟩ := encodeFrame_eq_some.mp h
  unfold scanFrame
  by_cases hshort : received.length < 8
  · rw [if_pos hshort]
    exact ⟨_, rfl, by omega⟩
  · have hheader := header_take (by omega) ⟨missing, hframe⟩
    have hmore : received.length < 8 + (framePayload m).length := by omega
    rw [if_neg hshort]
    simp only [hheader, toNat_ofNat_length hmax, if_neg hmax, if_pos hmore]
    exact ⟨_, rfl, by omega⟩

theorem scanFrame_of_encodeFrame {m : Message} {frame : Bytes} (h : encodeFrame m = some frame) :
    scanFrame frame = .got m := by
  have hlen := length_of_encodeFrame h
  obtain ⟨hmax, hframe⟩ := encodeFrame_eq_some.mp h
  have hheader := header_take (by omega) ⟨[], (List.append_nil frame).trans hframe⟩
  have hshort : ¬frame.length < 8 := by omega
  have hmore : ¬frame.length < 8 + (framePayload m).length := by omega
  unfold scanFrame
  rw [if_neg hshort]
  simp only [hheader, toNat_ofNat_length hmax, if_neg hmax, if_neg hmore, decodeFrame_eq_some.mpr h]

theorem encodeFrame_of_scanFrame {m : Message} {received : Bytes} (h : scanFrame received = .got m) :
    encodeFrame m = some received := by
  unfold scanFrame at h
  simp only at h
  split at h
  · cases h
  · split at h
    · cases h
    · split at h
      · cases h
      · split at h
        · rename_i hdecode
          cases h
          exact decodeFrame_eq_some.mp hdecode
        · cases h

/-- **`read_frame`** returns a message exactly where the stream starts with its frame. -/
theorem readFrame_eq_some_iff {t : Transfer} (ht : Progress t) {m : Message}
    (c : Channel UInt8) :
    (readFrame t c).1 = some m ↔
      ∃ received rest, c.inFlight = received ++ rest ∧ scanFrame received = .got m := by
  obtain ⟨inFlight, sends, recvs⟩ := c
  constructor
  · intro h
    unfold readFrame at h
    cases hheader : recvAll t 8 ⟨inFlight, sends, recvs⟩ with
    | mk header c₁ =>
      rw [hheader] at h
      cases header with
      | none => cases h
      | some header =>
        obtain ⟨hflight, -⟩ := recvAll_eq_some ht hheader
        simp only at h hflight
        split at h
        · cases h
        · cases hpayload : recvAll t (UInt32.ofNat (getLE (header.take 4))).toNat c₁ with
          | mk payload c₂ =>
            rw [hpayload] at h
            cases payload with
            | none => cases h
            | some payload =>
              obtain ⟨hrest, -⟩ := recvAll_eq_some ht hpayload
              refine ⟨header ++ payload, c₂.inFlight, ?_, ?_⟩
              · rw [hflight, hrest, List.append_assoc]
              · exact scanFrame_of_encodeFrame (decodeFrame_eq_some.mp h)
  · rintro ⟨received, rest, hflight, hscan⟩
    obtain ⟨recvs', hread⟩ := readFrame_eq ht (encodeFrame_of_scanFrame hscan) rest sends recvs
    simp only at hflight
    rw [hflight, hread]

/-- The frames of messages. -/
def frames : Framing UInt8 Message where
  encode m := (encodeFrame m).getD []
  scan := scanFrame
  Fits m := (encodeFrame m).isSome
  scan_nil := ⟨8, rfl⟩
  more_pos := by
    intro received n h
    unfold scanFrame at h
    simp only at h
    split at h
    · cases h
      omega
    · split at h
      · cases h
      · split at h
        · cases h
          omega
        · split at h <;> cases h
  scan_encode := by
    intro m hm
    obtain ⟨frame, hframe⟩ := Option.isSome_iff_exists.mp hm
    rw [hframe]
    exact scanFrame_of_encodeFrame hframe
  scan_part := by
    intro m received missing hm hsplit hmissing
    obtain ⟨frame, hframe⟩ := Option.isSome_iff_exists.mp hm
    rw [hframe, Option.getD_some] at hsplit
    exact scanFrame_of_part (hsplit ▸ hframe) hmissing

theorem encodeFrame_isSome_iff (m : Message) :
    (encodeFrame m).isSome ↔ 16 + m.body.length ≤ kMaxFramePayload := by
  rw [Option.isSome_iff_exists, ← length_framePayload]
  constructor
  · rintro ⟨frame, hframe⟩
    exact Nat.le_of_not_lt (encodeFrame_eq_some.mp hframe).1
  · intro h
    exact ⟨_, encodeFrame_eq_some.mpr ⟨Nat.not_lt.mpr h, rfl⟩⟩

/-- The frames that a worker sends and the coordinator reads. -/
def requests : Framing UInt8 Frame :=
  frames.through Frame.message Frame.ofMessage (fun _ => True)
    (fun {f} _ => (encodeFrame_isSome_iff _).mpr f.fits) fun {f} _ => dif_pos f.fits

/-- The message of the answer is short enough for a frame. -/
def Answer.Fits (a : Answer) : Prop := 24 + a.1.message.length + a.2.length ≤ kMaxFramePayload

/-- The status records that the coordinator sends and a worker reads. -/
def answers : Framing UInt8 Answer :=
  frames.through Answer.message Answer.ofMessage Answer.Fits
    (fun {a} ha => by
      refine (encodeFrame_isSome_iff _).mpr ?_
      unfold Answer.Fits at ha
      simp only [Answer.message, length_encodeStatusPayload]
      omega)
    (fun {a} ha => by
      have hmax : kMaxFramePayload < 2 ^ 32 := by decide
      unfold Answer.Fits at ha
      exact decodeStatus_encodeStatusPayload (by omega) a.2)

/-! ### Replies fit in a frame -/

/-- The message is short; the bound is that of no message in particular. -/
def Status.Short (st : Status) : Prop := st.record.message.length ≤ 128

instance (st : Status) : Decidable st.Short := inferInstanceAs (Decidable (_ ≤ _))

theorem short_checkAuthority (s : EfficiencyLedger) (e : LedgerEntry) :
    (checkAuthority s e).Short := by
  have hattempt (st : AttemptState) : (checkAttempt st e).Short := by
    unfold checkAttempt
    split_ifs <;> decide
  unfold checkAuthority
  split_ifs
  · decide
  · decide
  · decide
  · decide
  · split
    · decide
    · exact hattempt _
  · decide

theorem short_checkClassificationConsistency (e : LedgerEntry) :
    (checkClassificationConsistency e).Short := by
  unfold checkClassificationConsistency
  simp only
  split_ifs <;> decide

theorem short_checkLifecycle (b : Books) (e : LedgerEntry) : (checkLifecycle b e).Short := by
  unfold checkLifecycle
  split_ifs <;> decide

theorem short_refusal (s : EfficiencyLedger) (e : LedgerEntry) : (refusal s e).Short := by
  unfold refusal
  split_ifs <;> first
    | decide
    | exact short_checkAuthority s e
    | exact short_checkClassificationConsistency e
    | exact short_checkLifecycle s.toBooks e

theorem short_postings {ord : IterationOrder} {b : Books} {e : LedgerEntry}
    {p : Counters.Posting (AccountId × Cell) Status} (hp : p ∈ postings ord b e) :
    p.onFail.Short := by
  unfold postings at hp
  split at hp
  · cases ht : b.target e with
    | none => simp [ht] at hp
    | some t =>
      simp only [ht, revisionPostings] at hp
      split at hp
      · obtain ⟨sh, -, hp⟩ := List.mem_flatMap.mp hp
        obtain ⟨q, hq, rfl⟩ := List.mem_map.mp hp
        rcases List.mem_append.mp hq with hq | hq
        · obtain ⟨d, -, rfl⟩ := List.mem_map.mp hq
          show Status.Short ⟨ErrorCode.kReconciliationFailure, "reclassify underflow"⟩
          decide
        · obtain ⟨d, -, rfl⟩ := List.mem_map.mp hq
          show Status.Short ⟨ErrorCode.kReconciliationFailure, "reclassify overflow"⟩
          decide
      · simp at hp
  · obtain ⟨a, -, b, d, rfl⟩ := (mem_appendPostings ord e).mp hp
    show Status.Short ⟨ErrorCode.kOverflow, b.name ++ " overflow"⟩
    cases b <;> decide

/-- **Every message that an append returns is short.** -/
theorem short_of_appendLocked {ord : IterationOrder} {s s' : EfficiencyLedger} {e : LedgerEntry}
    {st : Status} (h : appendLocked ord e s = .error st s') : st.Short := by
  rcases appendLocked_cases ord s e with ⟨-, hrun⟩ | ⟨-, accounts, -, hrun⟩ |
    ⟨-, pre, p, accounts, hstop, -, hrun⟩
  · rw [hrun] at h
    cases h
    exact short_refusal s e
  · rw [hrun] at h
    cases h
  · obtain ⟨suf, hsplit⟩ := hstop.split
    have hmem : p ∈ postings ord s.toBooks e := by
      rw [hsplit]
      exact List.mem_append_right pre List.mem_cons_self
    rw [hrun] at h
    cases h
    exact short_postings hmem

theorem fits_of_short {st : Status} {payload : Bytes} (h : st.Short) (hlen : payload.length ≤ 16) :
    (Reply.answer ⟨st, payload⟩).Fits := by
  have hmax : 24 + 128 + 16 ≤ kMaxFramePayload := by decide
  unfold Status.Short at h
  show 24 + st.record.message.length + payload.length ≤ kMaxFramePayload
  omega

/-- **The coordinator can always send its reply.** -/
theorem fits_answer (ord : IterationOrder) (c : Coordinator) (f : Frame) :
    (c.handle ord f).2.answer.Fits := by
  have hsuccess : Status.success.Short := by decide
  have hbad (m : String) (hm : (⟨ErrorCode.kProtocolError, m⟩ : Status).Short) :
      (Coordinator.badRequest m).answer.Fits := fits_of_short hm (by decide)
  unfold Coordinator.handle
  split_ifs
  · unfold Coordinator.register
    split
    · exact fits_of_short hsuccess (by decide)
    · exact hbad _ (by decide)
  · unfold Coordinator.append
    split
    · split
      · exact fits_of_short hsuccess (by decide)
      · rename_i happend
        exact fits_of_short (short_of_appendLocked happend) (by decide)
    · exact hbad _ (by decide)
  · refine fits_of_short hsuccess ?_
    rw [List.length_append, length_putU64, length_putU64]
  · exact fits_of_short hsuccess (by decide)
  · exact hbad _ (by decide)

/-! ### Sessions are runs of the main loop -/

namespace Coordinator

/-- The answers to a list of events. -/
def answersTo (ord : IterationOrder) (c : Coordinator) : List Event → List Answer
  | [] => []
  | ev :: evs =>
    ((c.step ord ev).2.map Reply.answer).toList ++ (c.step ord ev).1.answersTo ord evs

theorem answersTo_append (ord : IterationOrder) (evs evs' : List Event) : ∀ c : Coordinator,
    c.answersTo ord (evs ++ evs') = c.answersTo ord evs ++ (c.run ord evs).answersTo ord evs' := by
  induction evs with
  | nil => exact fun _ => rfl
  | cons ev evs ih =>
    intro c
    rw [List.cons_append, answersTo, answersTo, ih, List.append_assoc, run_cons]

theorem stopped_of_handle {ord : IterationOrder} {c : Coordinator} {conn : Connection}
    (hconn : c.conn = some conn) {f : Frame} (hnone : (c.handle ord f).1.conn = none) :
    (c.handle ord f).1.Stopped := by
  rcases handle_cases ord c f with ⟨boot, -, hhandle⟩ | ⟨-, ⟨e, he⟩ | ⟨-, hhandle⟩ | hhandle⟩
  · rw [hhandle] at hnone
    cases hnone
  · rw [handle_of_appends he, append_conn, hconn] at hnone
    cases hnone
  · rw [hhandle]
    exact ⟨rfl, rfl⟩
  · rw [hhandle, hconn] at hnone
    cases hnone

end Coordinator

section Sessions

variable {ι : Type}

/-- The events of a session that is over. -/
def sessionEvents (ses : Session.Record ι Frame Answer) : List Event :=
  .accept :: ses.requests.map .frame ++ [.closed]

/-- The events are those of the sessions; the last session may still be open, and after the last one
the process may have failed to accept another. -/
def Serves (past : List (Session.Record ι Frame Answer)) (evs : List Event) : Prop :=
  evs = past.flatMap sessionEvents ∨ evs ++ [.closed] = past.flatMap sessionEvents ∨
    evs = past.flatMap sessionEvents ++ [.acceptFailed]

/-- The main loop, as far as the sessions have got. -/
structure Conducts (ord : IterationOrder) (c₀ : Coordinator) (past : List (Session.Record ι Frame Answer))
    (isOpen : Bool) (c : Coordinator) (evs : List Event) : Prop where
  run : c = c₀.run ord evs
  answers : past.flatMap (·.replies) = c₀.answersTo ord evs
  conn : c.conn.isSome = isOpen
  events : if isOpen then evs ++ [.closed] = past.flatMap sessionEvents
    else evs = past.flatMap sessionEvents ∨
      c.Stopped ∧ evs = past.flatMap sessionEvents ++ [.acceptFailed]

theorem Conducts.serves {ord : IterationOrder} {c₀ c : Coordinator}
    {past : List (Session.Record ι Frame Answer)} {isOpen : Bool} {evs : List Event}
    (h : Conducts ord c₀ past isOpen c evs) : Serves past evs := by
  have hevents := h.events
  cases isOpen with
  | true => exact .inr (.inl hevents)
  | false =>
    rcases hevents with hdone | ⟨-, hfailed⟩
    · exact .inl hdone
    · exact .inr (.inr hfailed)

/-- **Sessions conducted with the coordinator are a run of its main loop.** -/
theorem run_of_conducted {ord : IterationOrder} {c₀ c : Coordinator}
    {past : List (Session.Record ι Frame Answer)} {isOpen : Bool} (hconn : c₀.conn = none)
    (h : Conducted (Coordinator.server ord) c₀ past isOpen c) :
    ∃ evs, Conducts ord c₀ past isOpen c evs := by
  induction h with
  | start => exact ⟨[], rfl, rfl, by rw [hconn]; rfl, .inl rfl⟩
  | @accept past c i h hlistens ih =>
    obtain ⟨evs, hrun, hanswers, hclosed, hevents⟩ := ih
    have hidle : c.Idle := by
      simp only [Coordinator.server, Bool.and_eq_true, Option.isNone_iff_eq_none] at hlistens
      exact hlistens
    have hdone : evs = past.flatMap sessionEvents := by
      rcases hevents with hdone | ⟨hstopped, -⟩
      · exact hdone
      · have hrunning := hidle.1
        rw [hstopped.1] at hrunning
        cases hrunning
    refine ⟨evs ++ [.accept], ?_, ?_, ?_, ?_⟩
    · show (c.step ord .accept).1 = _
      rw [Coordinator.run_append, ← hrun]
      rfl
    · have hnone : (c.step ord .accept).2 = none := by
        unfold Coordinator.step
        rw [hidle.2, hidle.1]
        rfl
      rw [Coordinator.answersTo_append, ← hrun, ← hanswers, List.flatMap_append]
      simp [Coordinator.answersTo, hnone]
    · show (c.step ord .accept).1.conn.isSome = true
      rw [Coordinator.step_accept hidle]
      rfl
    · rw [if_pos rfl, List.flatMap_append, ← hdone]
      simp [sessionEvents]
  | @handle past ses c f h ih =>
    obtain ⟨evs, hrun, hanswers, hopen, hevents⟩ := ih
    obtain ⟨conn, hsome⟩ := Option.isSome_iff_exists.mp hopen
    have hstep : c.step ord (.frame f) = ((c.handle ord f).1, some (c.handle ord f).2) :=
      Coordinator.step_frame hsome f
    have hafter : (c.handle ord f).1 = c₀.run ord (evs ++ [.frame f]) := by
      rw [Coordinator.run_append, ← hrun, Coordinator.run_cons, hstep]
      rfl
    have hanswered : c.answersTo ord [.frame f] = [(c.handle ord f).2.answer] := by
      simp only [Coordinator.answersTo, hstep]
      rfl
    let ses' : Session.Record ι Frame Answer :=
      { ses with
        requests := ses.requests ++ [f]
        replies := ses.replies ++ [(c.handle ord f).2.answer] }
    have hreplies : (past ++ [ses']).flatMap (·.replies) =
        c₀.answersTo ord (evs ++ [.frame f]) := by
      rw [Coordinator.answersTo_append, ← hrun, ← hanswers, hanswered]
      simp only [List.flatMap_append, List.flatMap_singleton, List.append_assoc, ses']
    have hsession : evs = past.flatMap sessionEvents ++ .accept :: ses.requests.map .frame := by
      rw [if_pos rfl, List.flatMap_append, List.flatMap_singleton, sessionEvents,
        ← List.append_assoc] at hevents
      exact List.append_cancel_right hevents
    have hevents' : evs ++ [.frame f] ++ [.closed] = (past ++ [ses']).flatMap sessionEvents := by
      rw [hsession, List.flatMap_append, List.flatMap_singleton]
      simp [sessionEvents, ses']
    cases hstays : (c.handle ord f).1.conn with
    | some conn' =>
      refine ⟨evs ++ [Event.frame f], hafter, hreplies, rfl, ?_⟩
      simp only [Coordinator.server, hstays]
      exact hevents'
    | none =>
      have hstopped := Coordinator.stopped_of_handle hsome hstays
      refine ⟨evs ++ [Event.frame f] ++ [Event.closed], ?_, ?_, rfl, ?_⟩
      · rw [Coordinator.run_append, ← hafter]
        exact (Coordinator.run_of_stopped hstopped _).symm
      · have hsilent : (c.handle ord f).1.answersTo ord [.closed] = [] := by
          simp only [Coordinator.answersTo, Coordinator.step_of_stopped hstopped]
          rfl
        rw [Coordinator.answersTo_append, ← hafter, hsilent, List.append_nil]
        exact hreplies
      · simp only [Coordinator.server, hstays]
        exact .inl hevents'
  | @hangUp past c h ih =>
    obtain ⟨evs, hrun, hanswers, hopen, hevents⟩ := ih
    obtain ⟨conn, hsome⟩ := Option.isSome_iff_exists.mp hopen
    have hstep : c.step ord .closed = (c.disconnect conn, none) := by
      unfold Coordinator.step
      rw [hsome]
    have hsilent : c.answersTo ord [.closed] = [] := by
      simp only [Coordinator.answersTo, hstep]
      rfl
    rw [if_pos rfl] at hevents
    refine ⟨evs ++ [Event.closed], ?_, ?_, ?_, .inl hevents⟩
    · rw [Coordinator.run_append, ← hrun]
      rfl
    · rw [Coordinator.answersTo_append, ← hrun, ← hanswers, hsilent, List.append_nil]
    · show (c.step ord .closed).1.conn.isSome = false
      rw [hstep]
      rfl
  | @giveUp past c h hlistens ih =>
    obtain ⟨evs, hrun, hanswers, hclosed, hevents⟩ := ih
    have hidle : c.Idle := by
      simp only [Coordinator.server, Bool.and_eq_true, Option.isNone_iff_eq_none] at hlistens
      exact hlistens
    have hdone : evs = past.flatMap sessionEvents := by
      rcases hevents with hdone | ⟨hstopped, -⟩
      · exact hdone
      · have hrunning := hidle.1
        rw [hstopped.1] at hrunning
        cases hrunning
    have hstep : c.step ord .acceptFailed = (c.stop, none) := by
      unfold Coordinator.step
      rw [hidle.2, hidle.1]
      rfl
    have hsilent : c.answersTo ord [.acceptFailed] = [] := by
      simp only [Coordinator.answersTo, hstep]
      rfl
    refine ⟨evs ++ [.acceptFailed], ?_, ?_, ?_, .inr ⟨?_, ?_⟩⟩
    · rw [Coordinator.run_append, ← hrun]
      rfl
    · rw [Coordinator.answersTo_append, ← hrun, ← hanswers, hsilent, List.append_nil]
    · show (c.step ord .acceptFailed).1.conn.isSome = false
      rw [hstep]
      rfl
    · show (c.step ord .acceptFailed).1.Stopped
      rw [hstep]
      exact ⟨rfl, rfl⟩
    · rw [hdone]

end Sessions

end El
