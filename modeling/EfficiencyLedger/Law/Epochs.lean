import EfficiencyLedger.Law.WorkerFencing
import EfficiencyLedger.Proof.Persistence

/-!
# Epochs across restarts

A process sets its epoch once, before its first `accept`: to its argument, or where it has none to
the epoch in the header of the file that it loads (`epoch_start`); nothing changes it afterwards
(`epoch_run`). So a restart fences the epoch of an earlier process exactly where it starts with
another one and the earlier one is not zero (`restart_fences_iff`). A restart without an argument
keeps the epoch it finds.
-/

namespace El

open EStateM

/-! ### The epoch of a process -/

/-- The epoch that a load leaves: the one in the header, where the file is a record. -/
def loadedEpoch (file : Option Bytes) : CoordinatorEpoch :=
  match file with
  | none => ⟨1⟩
  | some bytes =>
    match parseRecord bytes with
    | .error _ => ⟨1⟩
    | .ok r => r.epoch

/-- The epoch that a process starts with. -/
def Path.startEpoch (p : Path) (i : Incarnation) : CoordinatorEpoch :=
  if i.epoch.valid then i.epoch else if i.load then loadedEpoch p.file else ⟨1⟩

theorem load_fresh_cases (ord : IterationOrder) (file : Option Bytes) :
    (load ord file (.fresh kDefaultLedgerId)).state = .fresh kDefaultLedgerId ∧
        loadedEpoch file = ⟨1⟩ ∨
      ∃ (r : Record) (b : Books) (accounts : Accounts), (load ord file (.fresh kDefaultLedgerId)).state =
          ((installRecord r (.fresh kDefaultLedgerId)).withBooks
            (b.withAccounts accounts)).setReplaying false ∧
        loadedEpoch file = r.epoch ∧ b.Wf ∧ b.history.length ≤ kMaxEntryCount := by
  cases file with
  | none => exact .inl ⟨rfl, rfl⟩
  | some bytes =>
    rw [load_state, loadFromString_state]
    unfold loadedEpoch
    cases hparse : parseRecord bytes with
    | error f => exact .inl ⟨rfl, by simp only [hparse]⟩
    | ok r =>
      have hcount := (parseRecord_ok hparse).2.1
      simp only [hparse]
      right
      rcases loadHistory_cases ord (s := installRecord r (.fresh kDefaultLedgerId)) rfl r.entries with
        ⟨b, hb, hload⟩ | ⟨pre, e, suf, b, accounts, st, hsplit, hb, -, hload⟩
      · refine ⟨r, b, b.accounts, by rw [hload]; rfl, rfl, hb.wf, ?_⟩
        rwa [hb.history]
      · refine ⟨r, b, accounts, by rw [hload]; rfl, rfl, hb.wf, ?_⟩
        rw [hb.history]
        rw [hsplit, List.length_append] at hcount
        omega

theorem epoch_start (ord : IterationOrder) (p : Path) (i : Incarnation) :
    (p.start ord i).ledger.epoch = p.startEpoch i := by
  have hload : (load ord p.file (.fresh kDefaultLedgerId)).state.epoch = loadedEpoch p.file := by
    rcases load_fresh_cases ord p.file with ⟨hrun, hepoch⟩ | ⟨r, b, accounts, hrun, hepoch, -, -⟩
    · rw [hrun, hepoch]
      rfl
    · rw [hrun, hepoch]
      rfl
  unfold Path.start Coordinator.start Path.startEpoch
  simp only [and_true]
  split
  · rfl
  · split
    · exact hload
    · rfl

theorem Coordinator.epoch_run (ord : IterationOrder) (c : Coordinator) (evs : List Event) :
    (c.run ord evs).ledger.epoch = c.ledger.epoch := run_header (fun _ _ _ => rfl) ord evs c

/-! ### A new process takes entries -/

theorem Books.Wf.exists_spare {b : Books} (h : b.Wf) (hlen : b.history.length < 2 ^ 64 - 1) :
    ∃ id : AccountingEntryId, id.valid ∧ id ∉ b.index := by
  let used : Finset Nat := (b.history.map fun e => e.id.value.toNat).toFinset
  have hcard : used.card < (Finset.Ico 1 (2 ^ 64)).card := by
    have hle := List.toFinset_card_le (b.history.map fun e => e.id.value.toNat)
    rw [List.length_map] at hle
    rw [Nat.card_Ico]
    exact lt_of_le_of_lt hle hlen
  obtain ⟨n, hn, hfree⟩ := Finset.exists_mem_notMem_of_card_lt_card hcard
  rw [Finset.mem_Ico] at hn
  have hvalue : (UInt64.ofNat n).toNat = n := UInt64.toNat_ofNat_of_lt' hn.2
  refine ⟨⟨UInt64.ofNat n⟩, fun hzero => ?_, fun hmem => hfree ?_⟩
  · have hpos : (UInt64.ofNat n).toNat = 0 := congrArg UInt64.toNat hzero
    omega
  · obtain ⟨e, he, hid⟩ := h.mem_index.mp hmem
    refine List.mem_toFinset.mpr (List.mem_map.mpr ⟨e, he, ?_⟩)
    rw [hid, hvalue]

theorem open_start (ord : IterationOrder) (p : Path) (i : Incarnation) :
    (p.start ord i).ledger.Open := by
  have hfresh : (EfficiencyLedger.fresh kDefaultLedgerId).Open :=
    ⟨rfl, ⟨1⟩, by decide, Finmap.notMem_empty⟩
  have hload : (load ord p.file (.fresh kDefaultLedgerId)).state.Open := by
    rcases load_fresh_cases ord p.file with ⟨hrun, -⟩ | ⟨r, b, accounts, hrun, -, hwf, hcount⟩
    · rw [hrun]
      exact hfresh
    · obtain ⟨id, hid, hspare⟩ := hwf.exists_spare (lt_of_le_of_lt hcount (by decide))
      rw [hrun]
      exact ⟨rfl, id, hid, hspare⟩
  have hset {s : EfficiencyLedger} (hs : s.Open) (epoch : CoordinatorEpoch) :
      (s.setEpoch epoch).Open := ⟨hs.running, hs.spare⟩
  unfold Path.start Coordinator.start
  simp only [and_true]
  split_ifs
  · exact hset hload _
  · exact hset hfresh _
  · exact hload
  · exact hfresh

/-! ### Old epochs -/

/-- The probe with an epoch fence. -/
def epochProbe (id : AccountingEntryId) (epoch : CoordinatorEpoch) : LedgerEntry :=
  probe id {} { epoch }

theorem encodable_epochProbe (id : AccountingEntryId) (epoch : CoordinatorEpoch) :
    Encodable (epochProbe id epoch) := ⟨fun _ hsh => (by cases hsh), Nat.zero_le _⟩

theorem length_encodeEntry_epochProbe (id : AccountingEntryId) (epoch : CoordinatorEpoch) :
    16 + (encodeEntry (epochProbe id epoch)).length ≤ kMaxFramePayload := by
  have hbody := length_encodeBody_le_note (encodable_epochProbe id epoch)
  have hnote : (epochProbe id epoch).note.length = 0 := rfl
  have hmax : kMaxFramePayload = 2 ^ 20 := by decide
  rw [hnote] at hbody
  rw [hmax, encodeEntry, List.length_append, Wire.length_putU32]
  omega

/-- The frame that appends it. -/
def epochFrame (id : AccountingEntryId) (epoch : CoordinatorEpoch) : Frame :=
  { kind := MessageKind.kAppend.toBits
    request := 0
    body := encodeEntry (epochProbe id epoch)
    fits := length_encodeEntry_epochProbe id epoch }

theorem appends_epochFrame (id : AccountingEntryId) (epoch : CoordinatorEpoch) :
    (epochFrame id epoch).Appends (epochProbe id epoch) :=
  ⟨.inl rfl, Frame.entry_eq_some.mpr ⟨encodable_epochProbe id epoch, rfl⟩⟩

theorem checkAuthority_epochProbe {s : EfficiencyLedger} {id : AccountingEntryId}
    {epoch : CoordinatorEpoch} (h : epoch.valid → epoch = s.epoch) :
    (checkAuthority s (epochProbe id epoch)).ok = true :=
  checkAuthority_ok_iff.mpr ⟨⟨h, fun hl => absurd rfl hl, fun ha => absurd rfl ha⟩,
    fun _ hw => absurd rfl hw, rfl⟩

/-- Whatever its clients do, the process turns every entry with this epoch fence away. -/
def FencesEpoch (ord : IterationOrder) (c : Coordinator) (epoch : CoordinatorEpoch) : Prop :=
  ∀ evs f e, f.Appends e → e.fences.epoch = epoch → TurnsAway ord (c.run ord evs) f e

theorem fencesEpoch_iff (ord : IterationOrder) (p : Path) (i : Incarnation)
    (epoch : CoordinatorEpoch) :
    FencesEpoch ord (p.start ord i) epoch ↔ epoch.valid ∧ epoch ≠ p.startEpoch i := by
  constructor
  · intro hfences
    by_contra hno
    -- the first entry of the first connection gets through
    let c := (p.start ord i).run ord [.accept]
    have haccept : c = { p.start ord i with conn := some {} } :=
      Coordinator.step_accept (c := p.start ord i) ⟨rfl, rfl⟩
    obtain ⟨id, hprobe⟩ := exists_probe ord (open_start ord p i) {} { epoch }
    have hauth : (checkAuthority (p.start ord i).ledger (epochProbe id epoch)).ok = true := by
      apply checkAuthority_epochProbe
      intro hvalid
      rw [epoch_start]
      by_contra hne
      exact hno ⟨hvalid, hne⟩
    have hturns : TurnsAway ord c (epochFrame id epoch) (epochProbe id epoch) :=
      hfences [.accept] _ _ (appends_epochFrame id epoch) rfl
    have hconn : c.conn = some {} := by rw [haccept]
    have hok : (appendLocked ord (epochProbe id epoch) c.ledger).isOk = true := by
      rw [haccept]
      exact hprobe hauth
    exact not_turnsAway_of_isOk hconn (appends_epochFrame id epoch) hok hturns
  · rintro ⟨hvalid, hne⟩ evs f e hf he
    refine turnsAway_of_authority hf (Bool.eq_false_iff.mpr fun hok => hne ?_)
    have hmatch := (checkAuthority_ok_iff.mp hok).1.epoch (he ▸ hvalid)
    rw [Coordinator.epoch_run, epoch_start, he] at hmatch
    exact hmatch

/-- The path after some incarnations over a file. -/
def livesOver (ord : IterationOrder) (file : Option Bytes) (is : List Incarnation) : Path :=
  Machine.run (Path.live ord) { file } is

/-- **When a restart fences an old epoch**: exactly where the later process starts with another epoch
than the earlier one had, and that is not zero. -/
theorem restart_fences_iff (ord : IterationOrder) (file : Option Bytes) (before : List Incarnation)
    (i : Incarnation) (between : List Incarnation) (j : Incarnation) :
    let p := livesOver ord file before
    let q := livesOver ord file (before ++ i :: between)
    FencesEpoch ord (q.start ord j) ((p.start ord i).run ord i.events).ledger.epoch ↔
      (p.startEpoch i).valid ∧ p.startEpoch i ≠ q.startEpoch j := by
  intro p q
  rw [Coordinator.epoch_run, epoch_start]
  exact fencesEpoch_iff ord q j (p.startEpoch i)

/-- Two processes one after the other without an argument have the epoch 1 both. -/
theorem restart_not_fenced :
    ¬ ∀ (ord : IterationOrder) (file : Option Bytes) (before : List Incarnation) (i : Incarnation)
      (between : List Incarnation) (j : Incarnation),
      (∀ k ∈ before ++ i :: (between ++ [j]), k.load = true) →
      FencesEpoch ord ((livesOver ord file (before ++ i :: between)).start ord j)
        (((livesOver ord file before).start ord i).run ord i.events).ledger.epoch := by
  intro h
  let i : Incarnation := { epoch := {}, events := [] }
  have hfences := h default none [] i [] i (by decide)
  rw [Coordinator.epoch_run, epoch_start, fencesEpoch_iff] at hfences
  exact hfences.2 rfl

end El
