import EfficiencyLedger.Law.Atomicity
import EfficiencyLedger.Proof.Coordinator
import EfficiencyLedger.Proof.Reload

/-!
# Durability across restarts

The process saves after every acknowledged append, and the next process starts from that file. What
was acknowledged is lost where a load fails, since the process goes on from what the load left and
overwrites the file at its next save. A load fails where an entry of the file is fenced with an
epoch that is not the one in its header; where no start meets such a file, everything acknowledged
stays (`acknowledged_durable`).
-/

namespace El

open EStateM Machine

/-- The file at the path is a record that holds the entry. -/
def Path.Holds (p : Path) (e : LedgerEntry) : Prop :=
  ∃ bytes r, p.file = some bytes ∧ parseRecord bytes = .ok r ∧ e ∈ r.entries

/-- A first process without `--load`, and later ones with `--load` and increasing epochs. -/
structure Restarts (is : List Incarnation) : Prop where
  first : ∀ i ∈ is.head?, i.load = false
  later : ∀ i ∈ is.tail, i.load = true
  epochs : (is.map (·.epoch)).Pairwise (· < ·)

/-! ### The condition -/

/-- The epoch fences in the file are the epoch of its header. -/
def Path.FencesMatch (p : Path) : Prop :=
  ∀ bytes r, p.file = some bytes → parseRecord bytes = .ok r →
    ∀ e ∈ r.entries, e.fences.epoch.valid → e.fences.epoch = r.epoch

/-- The entries the process appends leave no residue and fit into the binary form. -/
def AppendsWithin (ord : IterationOrder) (c : Coordinator) (ev : Event) : Prop :=
  ∀ f e, ev = .frame f → f.Appends e → c.conn ≠ none →
    NoResidue ord c.ledger e ∧ (c.ledger.Admits e → c.ledger.history.length < kMaxEntryCount)

/-- The incarnation can load what it starts from, and only appends what can be loaded again. -/
def KeepsReloadable (ord : IterationOrder) (p : Path) (i : Incarnation) : Prop :=
  p.FencesMatch ∧
    RunMeets (fun c ev => (Coordinator.step ord c ev).1) (AppendsWithin ord) (p.start ord i) i.events

/-! ### The ledger of a process -/

/-- A ledger that a save brings back, but for the epoch fences. -/
structure Kept (ord : IterationOrder) (s : EfficiencyLedger) : Prop where
  wf : s.toBooks.Wf
  restorable : s.toBooks.Restorable ord
  encodable : s.Encodable
  ledgerGeneration : ∀ e ∈ s.history, e.fences.ledgerGeneration.valid →
    e.fences.ledgerGeneration = s.ledgerGeneration
  accountGeneration : ∀ e ∈ s.history, e.fences.accountGeneration.valid →
    e.fences.accountGeneration = s.accountGeneration

section Kept

variable {ord : IterationOrder} {s t : EfficiencyLedger}

theorem kept_fresh (id : LedgerId) : Kept ord (.fresh id) :=
  ⟨Books.wf_empty, restorable_empty ord, ⟨Nat.zero_le _, fun _ he => (by cases he)⟩,
    fun _ he => (by cases he), fun _ he => (by cases he)⟩

theorem Kept.of_history (h : Kept ord s) (hwf : t.toBooks.Wf)
    (hrestorable : t.toBooks.Restorable ord) (hhistory : t.history = s.history)
    (hledger : t.ledgerGeneration = s.ledgerGeneration)
    (haccount : t.accountGeneration = s.accountGeneration) : Kept ord t := by
  obtain ⟨-, -, ⟨hcount, henc⟩, hl, ha⟩ := h
  refine ⟨hwf, hrestorable, ⟨?_, ?_⟩, ?_, ?_⟩
  · rwa [hhistory]
  · rwa [hhistory]
  · rwa [hhistory, hledger]
  · rwa [hhistory, haccount]

theorem Kept.of_books (h : Kept ord s) (hbooks : t.toBooks = s.toBooks)
    (hledger : t.ledgerGeneration = s.ledgerGeneration)
    (haccount : t.accountGeneration = s.accountGeneration) : Kept ord t := by
  refine h.of_history ?_ ?_ ?_ hledger haccount
  · rw [hbooks]
    exact h.wf
  · rw [hbooks]
    exact h.restorable
  · rw [hbooks]

theorem Kept.appendLocked (h : Kept ord s) {e : LedgerEntry} (hresidue : NoResidue ord s e)
    (hcount : s.Admits e → s.history.length < kMaxEntryCount) (henc : El.Encodable e) :
    Kept ord (appendLocked ord e s).state := by
  have hwf := wf_appendLocked ord s e h.wf
  have hrestorable := restorable_appendLocked h.wf h.restorable hresidue
  cases hcall : El.appendLocked ord e s with
  | ok u t =>
    obtain ⟨hadm, accounts, -, rfl⟩ := appendLocked_eq_ok ord hcall
    rw [hcall] at hwf hrestorable
    have hhistory : (s.withBooks ((s.toBooks.withAccounts accounts).record e)).history =
        s.history ++ [e] := by
      rw [withBooks_toBooks, Books.record_history, withAccounts_history]
    have hmem {P : LedgerEntry → Prop} (hold : ∀ x ∈ s.history, P x) (hnew : P e) :
        ∀ x ∈ (s.withBooks ((s.toBooks.withAccounts accounts).record e)).history, P x := by
      rw [hhistory, List.forall_mem_append]
      exact ⟨hold, List.forall_mem_singleton.mpr hnew⟩
    refine ⟨hwf, hrestorable, ⟨?_, hmem h.encodable.entries henc⟩,
      hmem h.ledgerGeneration hadm.fences.ledgerGeneration,
      hmem h.accountGeneration hadm.fences.accountGeneration⟩
    have hlt := hcount hadm
    rw [Result.state, hhistory, List.length_append, List.length_singleton]
    omega
  | error st t =>
    obtain ⟨-, accounts, rfl⟩ := appendLocked_eq_error ord hcall
    rw [hcall] at hwf hrestorable
    exact h.of_history hwf hrestorable rfl rfl rfl

end Kept

/-! ### The process -/

/-- The file is the save of a ledger that holds all that was acknowledged, or nothing was. -/
def Path.Saved (ord : IterationOrder) (p : Path) : Prop :=
  p = {} ∨ ∃ s, p.file = some s.saveToString ∧ Kept ord s ∧ ∀ e ∈ p.acknowledged, e ∈ s.history

/-- The process can be saved at any time, and has saved what it acknowledged. -/
structure Serving (ord : IterationOrder) (c : Coordinator) (acked : List LedgerEntry) : Prop where
  path : c.hasPath = true
  kept : Kept ord c.ledger
  recorded : ∀ e ∈ acked, e ∈ c.ledger.history
  saved : Path.Saved ord ⟨c.file, acked⟩

section Serving

variable {ord : IterationOrder} {c d : Coordinator} {acked : List LedgerEntry}

theorem Serving.of_ledger (h : Serving ord c acked) (hpath : d.hasPath = c.hasPath)
    (hfile : d.file = c.file) (hbooks : d.ledger.toBooks = c.ledger.toBooks)
    (hledger : d.ledger.ledgerGeneration = c.ledger.ledgerGeneration)
    (haccount : d.ledger.accountGeneration = c.ledger.accountGeneration) : Serving ord d acked := by
  refine ⟨by rw [hpath, h.path], h.kept.of_books hbooks hledger haccount, ?_, ?_⟩
  · rw [hbooks]
    exact h.recorded
  · rw [hfile]
    exact h.saved

theorem Serving.save_of_ledger (h : Serving ord c acked) {led : EfficiencyLedger}
    (hkept : Kept ord led) {acked' : List LedgerEntry} (hall : ∀ e ∈ acked', e ∈ led.history) :
    Serving ord ({ c with ledger := led } : Coordinator).save acked' := by
  have hsave : ({ c with ledger := led } : Coordinator).save =
      { c with ledger := led, file := some led.saveToString } := if_pos h.path
  rw [hsave]
  exact ⟨h.path, hkept, hall, .inr ⟨led, rfl, hkept, hall⟩⟩

theorem Serving.save (h : Serving ord c acked) : Serving ord c.save acked :=
  h.save_of_ledger h.kept h.recorded

theorem Serving.stop (h : Serving ord c acked) : Serving ord c.stop acked :=
  h.save.of_ledger rfl rfl rfl rfl rfl

theorem acknowledged_frame (ord : IterationOrder) (c : Coordinator) (f : Frame) :
    c.acknowledged ord (.frame f) = match (c.step ord (.frame f)).2 with
      | none => []
      | some reply =>
        if (f.kind = MessageKind.kAppend.toBits ∨ f.kind = MessageKind.kReclassify.toBits) ∧
            reply.status.ok then f.entry.toList
        else [] := rfl

theorem acknowledged_of_not_appends {f : Frame} (h : ∀ e, ¬ f.Appends e) :
    c.acknowledged ord (.frame f) = [] := by
  rw [acknowledged_frame]
  split
  · rfl
  · split
    · rename_i hkind
      cases hentry : f.entry with
      | none => rfl
      | some e => exact absurd ⟨hkind.1, hentry⟩ (h e)
    · rfl

theorem acknowledged_of_appends {conn : Connection} (hconn : c.conn = some conn) {f : Frame}
    {e : LedgerEntry} (hf : f.Appends e) :
    c.acknowledged ord (.frame f) = if (c.append ord f).2.status.ok then [e] else [] := by
  rw [acknowledged_frame, Coordinator.step_frame hconn, Coordinator.handle_of_appends hf]
  simp only [hf.1, true_and, hf.2, Option.toList_some]

theorem Serving.append (h : Serving ord c acked) {conn : Connection} (hconn : c.conn = some conn)
    {f : Frame} {e : LedgerEntry} (hf : f.Appends e) (hresidue : NoResidue ord c.ledger e)
    (hcount : c.ledger.Admits e → c.ledger.history.length < kMaxEntryCount) :
    Serving ord (c.handle ord f).1 (acked ++ c.acknowledged ord (.frame f)) := by
  have henc := (Frame.entry_eq_some.mp hf.2).1
  have hkept := h.kept.appendLocked hresidue hcount henc
  have hgrows := history_appendLocked ord c.ledger e
  rw [acknowledged_of_appends hconn hf, Coordinator.handle_of_appends hf,
    Coordinator.append_of_entry hf.2]
  cases hcall : appendLocked ord e c.ledger with
  | ok u led =>
    obtain ⟨-, accounts, -, rfl⟩ := appendLocked_eq_ok ord hcall
    have hok : Status.success.ok = true := rfl
    rw [hcall] at hkept hgrows
    simp only [hok, if_true]
    apply h.save_of_ledger hkept
    intro x hx
    rcases List.mem_append.mp hx with hold | hnew
    · exact hgrows.subset (h.recorded x hold)
    · rw [List.mem_singleton.mp hnew, Result.state, withBooks_toBooks, Books.record_history]
      exact List.mem_append_right _ (List.mem_singleton_self e)
  | error st led =>
    have hfail := (appendLocked_eq_error ord hcall).1
    rw [hcall] at hkept hgrows
    simp only [hfail, Bool.false_eq_true, if_false, List.append_nil]
    exact ⟨h.path, hkept, fun x hx => hgrows.subset (h.recorded x hx), h.saved⟩

/-- **What one event does.** -/
theorem Serving.step (h : Serving ord c acked) {ev : Event} (hwithin : AppendsWithin ord c ev) :
    Serving ord (c.step ord ev).1 (acked ++ c.acknowledged ord ev) := by
  have hquiet : ∀ {d : Coordinator}, c.acknowledged ord ev = [] → Serving ord d acked →
      Serving ord d (acked ++ c.acknowledged ord ev) := by
    intro d hnone hd
    rwa [hnone, List.append_nil]
  cases ev with
  | frame f =>
    cases hconn : c.conn with
    | none =>
      rw [Coordinator.step_frame_of_none hconn]
      refine hquiet ?_ h
      rw [acknowledged_frame, Coordinator.step_frame_of_none hconn]
    | some conn =>
      rw [Coordinator.step_frame hconn]
      by_cases happends : ∃ e, f.Appends e
      · obtain ⟨e, hf⟩ := happends
        obtain ⟨hresidue, hcount⟩ := hwithin f e rfl hf (by simp [hconn])
        exact h.append hconn hf hresidue hcount
      · apply hquiet (acknowledged_of_not_appends (not_exists.mp happends))
        rcases Coordinator.handle_cases ord c f with ⟨boot, -, hrun⟩ | ⟨-, hyes | ⟨-, hrun⟩ | hrun⟩
        · rw [hrun]
          have hworkers : ∀ s : EfficiencyLedger,
              (s.registerWorker boot).ledgerGeneration = s.ledgerGeneration ∧
                (s.registerWorker boot).accountGeneration = s.accountGeneration := by
            intro s
            unfold EfficiencyLedger.registerWorker
            split <;> exact ⟨rfl, rfl⟩
          exact h.of_ledger rfl rfl (registerWorker_books _ boot) (hworkers _).1 (hworkers _).2
        · exact absurd hyes happends
        · rw [hrun]
          exact h.save.stop
        · rw [hrun]
          exact h
  | accept | acceptFailed | closed =>
    apply hquiet rfl
    rcases Coordinator.step_cases ord c _ with hrun | ⟨-, -, hrun⟩ | ⟨-, -, hrun⟩ |
      ⟨conn, f, -, hev, -⟩ | ⟨conn, -, -, hrun⟩
    · rw [hrun]
      exact h
    · rw [hrun]
      exact h.of_ledger rfl rfl rfl rfl rfl
    · rw [hrun]
      exact h.stop
    · cases hev
    · rw [hrun]
      unfold Coordinator.disconnect
      split
      · exact h.of_ledger rfl rfl rfl rfl rfl
      · exact h.of_ledger rfl rfl rfl rfl rfl

theorem Serving.run (evs : List Event) : ∀ {c : Coordinator} {acked : List LedgerEntry},
    Serving ord c acked →
    RunMeets (fun c ev => (Coordinator.step ord c ev).1) (AppendsWithin ord) c evs →
    Serving ord (c.run ord evs) (acked ++ c.acknowledgedAll ord evs) := by
  induction evs with
  | nil =>
    intro c acked h _
    show Serving ord c (acked ++ [])
    rwa [List.append_nil]
  | cons ev evs ih =>
    intro c acked h hmeets
    have hrest := ih (h.step hmeets.1) hmeets.2
    rw [List.append_assoc] at hrest
    exact hrest

end Serving

/-! ### The incarnations -/

section Path

variable {ord : IterationOrder} {p : Path}

theorem Path.ledger_start (ord : IterationOrder) (p : Path) (i : Incarnation) :
    ∃ epoch, (p.start ord i).ledger =
      (if i.load = true then (load ord p.file (.fresh kDefaultLedgerId)).state
        else .fresh kDefaultLedgerId).setEpoch epoch := by
  unfold Path.start Coordinator.start
  simp only [and_true]
  split
  · exact ⟨i.epoch, rfl⟩
  · exact ⟨_, rfl⟩

theorem Path.Saved.start (h : p.Saved ord) (hfences : p.FencesMatch) {i : Incarnation}
    (hload : p = {} ∨ i.load = true) : Serving ord (p.start ord i) p.acknowledged := by
  obtain ⟨epoch, hledger⟩ := p.ledger_start ord i
  have hsaved : Path.Saved ord ⟨(p.start ord i).file, p.acknowledged⟩ := h
  suffices hstart : Kept ord (p.start ord i).ledger ∧
      ∀ e ∈ p.acknowledged, e ∈ (p.start ord i).ledger.history from
    ⟨rfl, hstart.1, hstart.2, hsaved⟩
  have hfresh : p = {} → Kept ord (p.start ord i).ledger ∧
      ∀ e ∈ p.acknowledged, e ∈ (p.start ord i).ledger.history := by
    intro hp
    have hledger' : (p.start ord i).ledger =
        (EfficiencyLedger.fresh kDefaultLedgerId).setEpoch epoch := by
      rw [hledger, hp]
      split <;> rfl
    rw [hledger', hp]
    exact ⟨(kept_fresh kDefaultLedgerId).of_books rfl rfl rfl, fun e he => (by cases he)⟩
  rcases h with hp | ⟨s, hs, hkept, hacked⟩
  · exact hfresh hp
  · rcases hload with hp | hload
    · exact hfresh hp
    · have hparse := parseRecord_saveToString hkept.encodable
      have hmatch : ∀ e ∈ s.history, s.FencesMatch e := fun e he =>
        ⟨hfences _ _ hs hparse e he, hkept.ledgerGeneration e he, hkept.accountGeneration e he⟩
      obtain ⟨c, hc, -, hrun⟩ := load_saved ord hkept.encodable hkept.restorable hmatch
        (.fresh kDefaultLedgerId)
      rw [hledger, if_pos hload, hs, load_state, hrun]
      have hhistory : c.history = s.history := hc.history
      have hrestorable : c.Restorable ord := by
        refine ⟨c, ?_, .refl c⟩
        rwa [hhistory]
      refine ⟨hkept.of_history hc.wf hrestorable hhistory rfl rfl, fun e he => ?_⟩
      have hmem := hacked e he
      rw [← hhistory] at hmem
      exact hmem

/-- **What an incarnation leaves.** -/
theorem Path.Saved.live (h : p.Saved ord) {i : Incarnation} (hkeeps : KeepsReloadable ord p i)
    (hload : p = {} ∨ i.load = true) : (p.live ord i).Saved ord :=
  ((h.start hkeeps.1 hload).run i.events hkeeps.2).saved

theorem Path.Saved.lives (is : List Incarnation) : ∀ {p : Path}, p.Saved ord →
    (∀ i ∈ is, i.load = true) → RunMeets (Path.live ord) (KeepsReloadable ord) p is →
    (Machine.run (Path.live ord) p is).Saved ord := by
  induction is with
  | nil => exact fun h _ _ => h
  | cons i is ih =>
    intro p h hload hkeeps
    exact ih (h.live hkeeps.1 (.inr (hload i (by simp)))) (fun j hj => hload j (by simp [hj]))
      hkeeps.2

theorem saved_lives {is : List Incarnation} (hload : ∀ i ∈ is.tail, i.load = true)
    (hkeeps : RunMeets (Path.live ord) (KeepsReloadable ord) {} is) : (El.lives ord is).Saved ord := by
  cases is with
  | nil => exact .inl rfl
  | cons first later =>
    have hfirst : (Path.live ord {} first).Saved ord :=
      Path.Saved.live (.inl rfl) hkeeps.1 (.inl rfl)
    exact hfirst.lives later hload hkeeps.2

theorem Path.Saved.holds (h : p.Saved ord) {e : LedgerEntry} (he : e ∈ p.acknowledged) :
    p.Holds e := by
  rcases h with rfl | ⟨s, hs, hkept, hacked⟩
  · cases he
  · exact ⟨_, _, hs, parseRecord_saveToString hkept.encodable, hacked e he⟩

end Path

theorem acknowledged_grows (ord : IterationOrder) (is : List Incarnation) (i : Incarnation) :
    (lives ord is).acknowledged <+: (lives ord (is ++ [i])).acknowledged := by
  have hlast : lives ord (is ++ [i]) = (lives ord is).live ord i := Machine.run_append _ _ _ _
  rw [hlast]
  exact List.prefix_append _ _

/-- **Durability across restarts**: what some incarnation acknowledged is in the file that a later
one leaves. -/
theorem acknowledged_durable (ord : IterationOrder) (is : List Incarnation) (i : Incarnation)
    (hrestarts : Restarts (is ++ [i]))
    (h : RunMeets (Path.live ord) (KeepsReloadable ord) {} (is ++ [i])) :
    ∀ e ∈ (lives ord is).acknowledged, (lives ord (is ++ [i])).Holds e :=
  fun _ he => (saved_lives hrestarts.later h).holds ((acknowledged_grows ord is i).subset he)

/-! ### Three incarnations -/

section

variable {ord : IterationOrder}

theorem step_of_append_ok {c : Coordinator} {conn : Connection} (hconn : c.conn = some conn)
    (hpath : c.hasPath = true) {f : Frame} {e : LedgerEntry} (hf : f.Appends e)
    {led : EfficiencyLedger} (hok : appendLocked ord e c.ledger = .ok ⟨⟩ led) :
    (c.step ord (.frame f)).1 = { c with ledger := led, file := some led.saveToString } ∧
      c.acknowledged ord (.frame f) = [e] := by
  rw [acknowledged_of_appends hconn hf, Coordinator.step_frame hconn,
    Coordinator.handle_of_appends hf, Coordinator.append_of_entry hf.2, hok]
  exact ⟨if_pos hpath, rfl⟩

theorem live_of_acceptFailed (p : Path) (load : Bool) (epoch : CoordinatorEpoch) :
    p.live ord ⟨load, epoch, [.acceptFailed]⟩ =
      ⟨some (p.start ord ⟨load, epoch, [.acceptFailed]⟩).ledger.saveToString, p.acknowledged⟩ := by
  unfold Path.live
  congr 1
  exact List.append_nil _

theorem live_of_accept {p : Path} {load : Bool} {epoch : CoordinatorEpoch} {f : Frame}
    {c : Coordinator}
    (hc : ((p.start ord ⟨load, epoch, [.accept, .frame f]⟩).step ord .accept).1 = c) :
    p.live ord ⟨load, epoch, [.accept, .frame f]⟩ =
      ⟨(c.step ord (.frame f)).1.file, p.acknowledged ++ c.acknowledged ord (.frame f)⟩ := by
  subst hc
  unfold Path.live
  congr 1
  show p.acknowledged ++ ([] ++ (Coordinator.acknowledged ord _ (.frame f) ++ [])) = _
  rw [List.nil_append, List.append_nil]

theorem load_saved_state {s : EfficiencyLedger} (h : s.Encodable) (u : EfficiencyLedger) :
    (load ord (some s.saveToString) u).state =
      (loadHistory ord s.history (installRecord s.record u)).state := by
  rw [load_state, loadFromString_state, parseRecord_saveToString h]
  rfl

end

section

variable {p : Path} {s : EfficiencyLedger}

theorem Path.fencesMatch_of_save (hfile : p.file = some s.saveToString) (henc : s.Encodable)
    (h : ∀ e ∈ s.history, e.fences.epoch.valid → e.fences.epoch = s.epoch) : p.FencesMatch := by
  intro bytes r hbytes hparse
  rw [hfile, Option.some.injEq] at hbytes
  rw [← hbytes, parseRecord_saveToString henc] at hparse
  rw [← Except.ok.inj hparse]
  exact h

theorem Path.Holds.mem_history {e : LedgerEntry} (h : p.Holds e)
    (hfile : p.file = some s.saveToString) (henc : s.Encodable) : e ∈ s.history := by
  obtain ⟨bytes, r, hbytes, hparse, hmem⟩ := h
  rw [hfile, Option.some.injEq] at hbytes
  rw [← hbytes, parseRecord_saveToString henc] at hparse
  rw [← Except.ok.inj hparse] at hmem
  exact hmem

end

/-- The frame that appends an entry fenced with the epoch 1. -/
def fencedFrame : Frame :=
  { kind := MessageKind.kAppend.toBits
    request := 0
    body := encodeEntry (fencedEntry 1 ⟨1⟩)
    fits := by decide +kernel }

/-- A first process appends it. -/
def firstIncarnation : Incarnation :=
  { load := false, epoch := ⟨1⟩, events := [.accept, .frame fencedFrame] }

/-- A later process stops right away. -/
def idleIncarnation (epoch : CoordinatorEpoch) : Incarnation := ⟨true, epoch, [.acceptFailed]⟩

/-- The ledger of the first process at its end. -/
def firstLedger : EfficiencyLedger :=
  (appendLocked default (fencedEntry 1 ⟨1⟩) ((EfficiencyLedger.fresh kDefaultLedgerId).setEpoch ⟨1⟩)).state

/-- The ledger of the second process. -/
def secondLedger : EfficiencyLedger :=
  (loadHistory default firstLedger.history
    (installRecord firstLedger.record (.fresh kDefaultLedgerId))).state.setEpoch ⟨2⟩

/-- The ledger of the third process. -/
def thirdLedger : EfficiencyLedger :=
  (loadHistory default secondLedger.history
    (installRecord secondLedger.record (.fresh kDefaultLedgerId))).state.setEpoch ⟨3⟩

theorem appends_fencedFrame : fencedFrame.Appends (fencedEntry 1 ⟨1⟩) :=
  ⟨.inl rfl, Frame.entry_eq_some.mpr ⟨⟨fun sh hsh => (by cases hsh), by decide⟩, rfl⟩⟩

theorem encodable_of_history {s : EfficiencyLedger} (h : s.history = [fencedEntry 1 ⟨1⟩]) :
    s.Encodable := by
  refine ⟨by rw [h]; decide, fun e he => ?_⟩
  rw [h, List.mem_singleton] at he
  rw [he]
  exact ⟨fun sh hsh => (by cases hsh), by decide⟩

theorem encodable_firstLedger : firstLedger.Encodable :=
  encodable_of_history (by decide +kernel)

theorem encodable_secondLedger : secondLedger.Encodable :=
  encodable_of_history (by decide +kernel)

theorem append_firstLedger :
    appendLocked default (fencedEntry 1 ⟨1⟩)
      ((EfficiencyLedger.fresh kDefaultLedgerId).setEpoch ⟨1⟩) = .ok ⟨⟩ firstLedger :=
  Result.eq_ok_of_isOk (by decide +kernel)

/-- The first process when the frame arrives. -/
def firstProcess : Coordinator :=
  { ledger := (EfficiencyLedger.fresh kDefaultLedgerId).setEpoch ⟨1⟩, hasPath := true, conn := some {} }

theorem lives_firstIncarnation :
    lives default [firstIncarnation] = ⟨some firstLedger.saveToString, [fencedEntry 1 ⟨1⟩]⟩ := by
  obtain ⟨hstep, hack⟩ :=
    step_of_append_ok (c := firstProcess) rfl rfl appends_fencedFrame append_firstLedger
  have hopen : ((({} : Path).start default firstIncarnation).step default .accept).1 =
      firstProcess := rfl
  have hlives := live_of_accept hopen
  rw [hstep, hack] at hlives
  exact hlives

theorem keepsReloadable_first : KeepsReloadable default {} firstIncarnation := by
  refine ⟨fun bytes r h => (by cases h), fun f e h => (by cases h), fun f e hev hf _ => ?_, trivial⟩
  cases hev
  have he : e = fencedEntry 1 ⟨1⟩ := by
    have hentry := appends_fencedFrame.2
    rw [hf.2, Option.some.injEq] at hentry
    exact hentry
  rw [he]
  exact ⟨noResidue_of_isOk (by decide +kernel), fun _ => by decide⟩

theorem keepsReloadable_second :
    KeepsReloadable default (lives default [firstIncarnation]) (idleIncarnation ⟨2⟩) := by
  refine ⟨?_, fun f e h => (by cases h), trivial⟩
  rw [lives_firstIncarnation]
  exact Path.fencesMatch_of_save rfl encodable_firstLedger (by decide +kernel)

theorem acknowledged_durable_second :
    (lives default ([firstIncarnation] ++ [idleIncarnation ⟨2⟩])).Holds (fencedEntry 1 ⟨1⟩) := by
  have hacked : fencedEntry 1 ⟨1⟩ ∈ (lives default [firstIncarnation]).acknowledged := by
    rw [lives_firstIncarnation]
    exact List.mem_singleton_self _
  refine acknowledged_durable default [firstIncarnation] (idleIncarnation ⟨2⟩) ⟨?_, ?_, ?_⟩
    ⟨keepsReloadable_first, keepsReloadable_second, trivial⟩ _ hacked
  · simp [firstIncarnation]
  · simp [idleIncarnation]
  · simp only [firstIncarnation, idleIncarnation, List.cons_append, List.nil_append, List.map_cons,
      List.map_nil]
    decide

theorem lives_second :
    lives default [firstIncarnation, idleIncarnation ⟨2⟩] =
      ⟨some secondLedger.saveToString, [fencedEntry 1 ⟨1⟩]⟩ := by
  have hlives : lives default [firstIncarnation, idleIncarnation ⟨2⟩] =
      (lives default [firstIncarnation]).live default (idleIncarnation ⟨2⟩) := rfl
  rw [hlives, lives_firstIncarnation, idleIncarnation, live_of_acceptFailed]
  have hledger : (Path.start default ⟨some firstLedger.saveToString, [fencedEntry 1 ⟨1⟩]⟩
      ⟨true, ⟨2⟩, [.acceptFailed]⟩).ledger =
        (load default (some firstLedger.saveToString) (.fresh kDefaultLedgerId)).state.setEpoch ⟨2⟩ :=
    rfl
  rw [hledger, load_saved_state encodable_firstLedger]
  rfl

theorem lives_third :
    (lives default ([firstIncarnation, idleIncarnation ⟨2⟩] ++ [idleIncarnation ⟨3⟩])).file =
      some thirdLedger.saveToString := by
  have hlives : lives default ([firstIncarnation, idleIncarnation ⟨2⟩] ++ [idleIncarnation ⟨3⟩]) =
      (lives default [firstIncarnation, idleIncarnation ⟨2⟩]).live default (idleIncarnation ⟨3⟩) := rfl
  rw [hlives, lives_second, idleIncarnation, live_of_acceptFailed]
  have hledger : (Path.start default ⟨some secondLedger.saveToString, [fencedEntry 1 ⟨1⟩]⟩
      ⟨true, ⟨3⟩, [.acceptFailed]⟩).ledger =
        (load default (some secondLedger.saveToString) (.fresh kDefaultLedgerId)).state.setEpoch ⟨3⟩ :=
    rfl
  rw [hledger, load_saved_state encodable_secondLedger]
  rfl

theorem history_thirdLedger : thirdLedger.history = [] := by decide +kernel

theorem encodable_thirdLedger : thirdLedger.Encodable := by
  refine ⟨?_, ?_⟩
  · rw [history_thirdLedger]
    exact Nat.zero_le _
  · rw [history_thirdLedger]
    exact fun e he => (by cases he)

theorem restarts_idle :
    Restarts ([firstIncarnation, idleIncarnation ⟨2⟩] ++ [idleIncarnation ⟨3⟩]) := by
  refine ⟨by simp [firstIncarnation], by simp [idleIncarnation], ?_⟩
  simp only [firstIncarnation, idleIncarnation, List.cons_append, List.nil_append, List.map_cons,
    List.map_nil]
  decide

/-- An entry fenced with the epoch of the first process is lost to the third. -/
theorem third_incarnation_loses :
    ¬ ∀ (ord : IterationOrder) (is : List Incarnation) (i : Incarnation), Restarts (is ++ [i]) →
      ∀ e ∈ (lives ord is).acknowledged, (lives ord (is ++ [i])).Holds e := by
  intro h
  have hacked : fencedEntry 1 ⟨1⟩ ∈
      (lives default [firstIncarnation, idleIncarnation ⟨2⟩]).acknowledged := by
    rw [lives_second]
    exact List.mem_singleton_self _
  have hmem := (h default _ _ restarts_idle _ hacked).mem_history lives_third encodable_thirdLedger
  rw [history_thirdLedger] at hmem
  exact absurd hmem List.not_mem_nil

end El
