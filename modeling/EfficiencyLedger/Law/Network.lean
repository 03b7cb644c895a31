import EfficiencyLedger.Law.Disk
import EfficiencyLedger.Proof.Network

/-!
# A coordinator and its workers

Any number of clients talk to the coordinator over sockets, in parts that interleave as they please;
some of them send whatever they like (`foreign`), and any of them may die at any moment. What happens
to the ledger is nevertheless sequential: whole sessions one after the other, at most one for each
client (`sessions_serialize`). Nothing that a client had acknowledged is lost or entered twice, and of
each client at most one entry is in the history that it does not know of (`history_of_sessions`).
-/

namespace El

open Session

variable {ι : Type}

/-- The coordinator and its clients. -/
def network (ord : IterationOrder) (foreign : ι → Prop) :
    Network UInt8 ι Coordinator Frame Answer :=
  { server := Coordinator.server ord, requests, replies := answers, foreign }

/-- A process that was just started, and clients with their requests. -/
def deployment (ord : IterationOrder) (foreign : ι → Prop) (args : Arguments) (file : Option Bytes)
    (script : ι → List Frame) : System UInt8 ι Coordinator Frame Answer :=
  (network ord foreign).start (Coordinator.start ord args file) script

theorem writable_network (ord : IterationOrder) (foreign : ι → Prop) (script : ι → List Frame) :
    Session.Writable (network ord foreign) script :=
  ⟨fun _ _ _ _ => trivial, fun c f => fits_answer ord c f⟩

/-- The entry that a request appends, where the answer acknowledges it. -/
def confirms (f : Frame) (a : Answer) : List LedgerEntry :=
  if (f.kind = MessageKind.kAppend.toBits ∨ f.kind = MessageKind.kReclassify.toBits) ∧
      a.1.code = ErrorCode.kOk then
    f.entry.toList
  else []

/-- The entries that the answers to the requests acknowledge. -/
def confirmed (fs : List Frame) (as : List Answer) : List LedgerEntry :=
  (fs.zip as).flatMap fun x => confirms x.1 x.2

theorem confirmed_append {fs : List Frame} {as : List Answer} (h : fs.length = as.length)
    (fs' : List Frame) (as' : List Answer) :
    confirmed (fs ++ fs') (as ++ as') = confirmed fs as ++ confirmed fs' as' := by
  unfold confirmed
  rw [List.zip_append h, List.flatMap_append]

theorem confirmed_singleton (f : Frame) (a : Answer) : confirmed [f] [a] = confirms f a := by
  unfold confirmed
  rw [List.zip_cons_cons, List.zip_nil_left, List.flatMap_singleton]

theorem confirms_of_not_appends {f : Frame} (h : ∀ e, ¬f.Appends e) (a : Answer) :
    confirms f a = [] := by
  unfold confirms
  split
  · rename_i hkind
    cases hentry : f.entry with
    | none => rfl
    | some e => exact absurd ⟨hkind.1, hentry⟩ (h e)
  · rfl

theorem history_handle (ord : IterationOrder) (c : Coordinator) (f : Frame) :
    (c.handle ord f).1.ledger.history =
      c.ledger.history ++ confirms f (c.handle ord f).2.answer := by
  by_cases happends : ∃ e, f.Appends e
  · obtain ⟨e, he⟩ := happends
    rw [Coordinator.handle_of_appends he, Coordinator.append_of_entry he.2]
    cases hcall : appendLocked ord e c.ledger with
    | ok u led =>
      obtain ⟨-, accounts, -, rfl⟩ := appendLocked_eq_ok ord hcall
      have hconfirms : confirms f (Reply.answer ⟨.success, []⟩) = [e] := by
        unfold confirms
        rw [if_pos ⟨he.1, rfl⟩, he.2]
        rfl
      simp only [hconfirms, Coordinator.save_ledger]
      rw [withBooks_toBooks, Books.record_history, withAccounts_history]
    | error st led =>
      obtain ⟨hfail, accounts, rfl⟩ := appendLocked_eq_error ord hcall
      have hcode : st.code ≠ ErrorCode.kOk := by
        simpa [Status.ok] using hfail
      have hconfirms : confirms f (Reply.answer ⟨st, []⟩) = [] := if_neg fun hok => hcode hok.2
      simp only [hconfirms, List.append_nil]
      rfl
  · rw [confirms_of_not_appends (not_exists.mp happends), List.append_nil]
    rcases Coordinator.handle_cases ord c f with ⟨boot, -, hhandle⟩ | ⟨-, hyes | ⟨-, hhandle⟩ | hhandle⟩
    · rw [hhandle]
      show (c.ledger.registerWorker boot).history = c.ledger.history
      rw [registerWorker_books]
    · exact absurd hyes happends
    · rw [hhandle]
      show c.save.save.ledger.history = c.ledger.history
      rw [Coordinator.save_ledger, Coordinator.save_ledger]
    · rw [hhandle]

theorem history_of_conducted {ord : IterationOrder} {c₀ c : Coordinator}
    {past : List (Session.Record ι Frame Answer)} {isOpen : Bool}
    (h : Conducted (Coordinator.server ord) c₀ past isOpen c) :
    (∀ ses ∈ past, ses.requests.length = ses.replies.length) ∧
      c.ledger.history = c₀.ledger.history ++
        past.flatMap fun ses => confirmed ses.requests ses.replies := by
  have hsame {c : Coordinator} {ev : Event} (hev : ∀ f, ev ≠ .frame f) :
      (c.step ord ev).1.ledger.history = c.ledger.history := by
    rcases Coordinator.step_cases ord c ev with hrun | ⟨-, -, hrun⟩ | ⟨-, -, hrun⟩ |
      ⟨conn, f, -, heq, -⟩ | ⟨conn, -, -, hrun⟩
    · rw [hrun]
    · rw [hrun]
    · rw [hrun]
      show c.save.ledger.history = c.ledger.history
      rw [Coordinator.save_ledger]
    · exact absurd heq (hev f)
    · rw [hrun]
      unfold Coordinator.disconnect
      split <;> rfl
  induction h with
  | start => exact ⟨fun _ h => (by cases h), (List.append_nil _).symm⟩
  | @accept past c i h hlistens ih =>
    refine ⟨fun ses hses => ?_, ?_⟩
    · rcases List.mem_append.mp hses with hold | hnew
      · exact ih.1 ses hold
      · rw [List.mem_singleton.mp hnew]
        rfl
    · show (c.step ord .accept).1.ledger.history = _
      rw [hsame (fun f hf => by cases hf), ih.2, List.flatMap_append]
      exact congrArg _ (List.append_nil _).symm
  | @handle past ses c f h ih =>
    have hlen := ih.1 ses (by simp)
    refine ⟨fun x hx => ?_, ?_⟩
    · rcases List.mem_append.mp hx with hold | hnew
      · exact ih.1 x (List.mem_append_left _ hold)
      · rw [List.mem_singleton.mp hnew]
        simp only [List.length_append, List.length_singleton, hlen]
    · show (c.handle ord f).1.ledger.history = _
      rw [history_handle, ih.2]
      simp only [List.flatMap_append, List.flatMap_singleton, List.append_assoc,
        confirmed_append hlen, confirmed_singleton]
      rfl
  | @hangUp past c h ih =>
    refine ⟨ih.1, ?_⟩
    show (c.step ord .closed).1.ledger.history = _
    rw [hsame (fun f hf => by cases hf), ih.2]
  | @giveUp past c h hlistens ih =>
    refine ⟨ih.1, ?_⟩
    show (c.step ord .acceptFailed).1.ledger.history = _
    rw [hsame (fun f hf => by cases hf), ih.2]

theorem confirms_cases (f : Frame) (a : Answer) :
    confirms f a = [] ∨ ∃ e, f.Appends e ∧ confirms f a = [e] := by
  unfold confirms
  split
  · rename_i hkind
    cases hentry : f.entry with
    | none => exact .inl rfl
    | some e => exact .inr ⟨e, ⟨hkind.1, hentry⟩, rfl⟩
  · exact .inl rfl

theorem confirmed_of_prefix {fs script : List Frame} {got as : List Answer}
    (hlen : fs.length = as.length) (hfs : fs <+: script) (hgot : got <+: as)
    (hlate : as.length ≤ got.length + 1) :
    confirmed fs as = confirmed script got ∨ ∃ f e, script[got.length]? = some f ∧ f.Appends e ∧
      confirmed fs as = confirmed script got ++ [e] := by
  obtain ⟨late, rfl⟩ := hgot
  obtain ⟨rest, rfl⟩ := hfs
  rw [List.length_append] at hlen hlate
  obtain ⟨fs₁, fs₂, rfl, hfs₁⟩ : ∃ fs₁ fs₂, fs = fs₁ ++ fs₂ ∧ fs₁.length = got.length :=
    ⟨fs.take got.length, fs.drop got.length, (List.take_append_drop _ _).symm, by
      rw [List.length_take]
      omega⟩
  rw [List.length_append] at hlen
  have hseen : confirmed (fs₁ ++ fs₂ ++ rest) got = confirmed fs₁ got := by
    have hboth := confirmed_append hfs₁ (fs₂ ++ rest) []
    unfold confirmed at hboth ⊢
    rw [List.append_nil, List.zip_nil_right, List.flatMap_nil, List.append_nil] at hboth
    rw [List.append_assoc]
    exact hboth
  rw [confirmed_append hfs₁, hseen]
  match late, fs₂ with
  | [], [] => exact .inl (List.append_nil _)
  | [], _ :: _ =>
    simp only [List.length_cons, List.length_nil] at hlen
    omega
  | [a], [f] =>
    rw [confirmed_singleton]
    rcases confirms_cases f a with hnone | ⟨e, he, hsome⟩
    · left
      rw [hnone, List.append_nil]
    · right
      refine ⟨f, e, ?_, he, by rw [hsome]⟩
      rw [← hfs₁, List.append_assoc, List.getElem?_append_right (Nat.le_refl _), Nat.sub_self]
      rfl
  | [_], [] =>
    simp only [List.length_cons, List.length_nil] at hlen
    omega
  | [_], _ :: _ :: _ =>
    simp only [List.length_cons, List.length_nil] at hlen
    omega
  | _ :: _ :: _, _ =>
    simp only [List.length_cons] at hlate
    omega

theorem nodup_ids_of_wf {b : Books} (h : b.Wf) : (b.history.map (·.id)).Nodup :=
  List.Nodup.map_on (fun _ hx _ hy hid => h.id_injective hx hy hid) h.nodup

/-- The client `false` is a worker, the client `true` is foreign. -/
def workerAndForeign : Bool → List Frame := fun i => if i then [] else workerScript ⟨100⟩ .append

theorem exists_steps : ∃ s : System UInt8 Bool Coordinator Frame Answer,
    Steps (network default (· = true)) (deployment default (· = true) {} none workerAndForeign) s ∧
      s.serving = some (true, .reading []) ∧ (s.link false).up.length = 3 ∧
      (s.link true).up = [1, 2] ∧ s.server.running = true ∧ s.accepted = [true] ∧
      ∀ i, (s.client i).phase ≠ .gone := by
  let frame := requests.encode (registration ⟨100⟩)
  have hpart : frame.take 3 ≠ [] := by decide +kernel
  have hlen : (frame.take 3).length = 3 := by decide +kernel
  have hsplit : Phase.sending frame = Phase.sending (frame.take 3 ++ frame.drop 3) := by
    rw [List.take_append_drop]
  have hcall : Steps (network default (· = true))
      (deployment default (· = true) {} none workerAndForeign) _ :=
    .single (.call (i := false) rfl rfl)
  have hsend := hcall.tail (.send (i := false) hsplit hpart)
  have hinject := hsend.tail (.inject (i := true) [1, 2] rfl fun hgone => by cases hgone)
  have haccept := hinject.tail (.accept (i := true) rfl rfl List.not_mem_nil)
  refine ⟨_, haccept, rfl, hlen, rfl, rfl, rfl, fun i hgone => ?_⟩
  cases i with
  | false => cases hgone
  | true => cases hgone

end El
