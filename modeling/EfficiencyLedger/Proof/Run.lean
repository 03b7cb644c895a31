import EfficiencyLedger.Model.Run
import EfficiencyLedger.Proof.Append

/-!
# Every operation is a loop of appends

`Op.step_spec`: an operation first sets the header, or clears the books for a replay (`Op.start`),
and then appends a list of entries, stopping at the first that is refused (`Op.entries`). So what
`appendLocked` keeps, and the empty books satisfy, holds in every reachable state
(`books_invariant`), also where only the calls that meet a condition keep it.
-/

namespace El

open EStateM Machine

namespace Op

/-- The entries the operation hands to `appendLocked`. -/
def entries (s : EfficiencyLedger) : Op → List LedgerEntry
  | .append e => [e]
  | .appendAll entries => entries
  | .reclassify req => [revisionOf s.toBooks req]
  | .loadHistory entries => entries
  | .load (some bytes) =>
    match parseRecord bytes with
    | .error _ => []
    | .ok r => r.entries
  | _ => []

/-- The ledger the operation hands the first entry to. -/
def start (s : EfficiencyLedger) : Op → EfficiencyLedger
  | .registerWorker boot => s.registerWorker boot
  | .unregisterWorker boot => s.unregisterWorker boot
  | .advanceEpoch => s.advanceEpoch
  | .setEpoch epoch => s.setEpoch epoch
  | .setLedgerGeneration gen => s.setLedgerGeneration gen
  | .setAccountGeneration gen => s.setAccountGeneration gen
  | .setSystemGeneration ledgerGen accountGen => s.setSystemGeneration ledgerGen accountGen
  | .setShuttingDown => s.setShuttingDown
  | .loadHistory _ => { s with toBooks := {}, replaying := true }
  | .load (some bytes) =>
    match parseRecord bytes with
    | .error _ => s
    | .ok r => { installRecord r s with toBooks := {}, replaying := true }
  | _ => s

/-- Every append the operation makes meets the condition. -/
def CallsMeet (ord : IterationOrder) (C : EfficiencyLedger → LedgerEntry → Prop)
    (s : EfficiencyLedger) (op : Op) : Prop :=
  EStateM.CallsMeet (appendLocked ord) C (op.entries s) (op.start s)

end Op

/-- Every append of the run meets the condition. -/
def AppendsMeet (ord : IterationOrder) (C : EfficiencyLedger → LedgerEntry → Prop) :
    EfficiencyLedger → List Op → Prop :=
  RunMeets (Op.step ord) (Op.CallsMeet ord C)

theorem appendLocked_withBooks (ord : IterationOrder) (s : EfficiencyLedger) (e : LedgerEntry) :
    ∃ b, (appendLocked ord e s).state = s.withBooks b := by
  rcases appendLocked_cases ord s e with ⟨-, hrun⟩ | ⟨-, accounts, -, hrun⟩ |
    ⟨-, pre, p, accounts, -, -, hrun⟩
  · exact ⟨s.toBooks, by rw [hrun]; rfl⟩
  · exact ⟨_, by rw [hrun]; rfl⟩
  · exact ⟨_, by rw [hrun]; rfl⟩

theorem appendAll_withBooks (ord : IterationOrder) (es : List LedgerEntry) (s : EfficiencyLedger) :
    ∃ b, (appendAll ord es s).state = s.withBooks b := by
  refine forM_invariant (P := fun t => ∃ b, t = s.withBooks b) (C := fun _ _ => True)
    (fun t e ht _ => ?_) ⟨s.toBooks, rfl⟩ (callsMeet_of_all (fun _ _ => trivial) es s)
  obtain ⟨b, rfl⟩ := ht
  exact appendLocked_withBooks ord (s.withBooks b) e

theorem appendAll_singleton (ord : IterationOrder) (e : LedgerEntry) :
    appendAll ord [e] = appendLocked ord e := by
  show (appendLocked ord e >>= fun _ => pure ⟨⟩) = appendLocked ord e
  rw [bind_pure_unit]

theorem reclassify_apply (ord : IterationOrder) (req : ReclassifyRequest) (s : EfficiencyLedger) :
    reclassify ord req s = appendLocked ord (revisionOf s.toBooks req) s := by
  unfold reclassify
  rw [EStateM.bind_of_ok (EStateM.get_apply s)]

theorem loadHistory_state (ord : IterationOrder) (entries : List LedgerEntry)
    (s : EfficiencyLedger) :
    (loadHistory ord entries s).state =
      { (appendAll ord entries { s with toBooks := {}, replaying := true }).state with
        replaying := false } := by
  unfold loadHistory
  simp only
  cases appendAll ord entries { s with toBooks := {}, replaying := true } <;> rfl

theorem load_state (ord : IterationOrder) (bytes : Bytes) (s : EfficiencyLedger) :
    (load ord (some bytes) s).state = (loadFromString ord bytes s).state := by
  unfold load
  simp only
  cases loadFromString ord bytes s <;> rfl

theorem loadFromString_of_parseRecord (ord : IterationOrder) (s : EfficiencyLedger) {bytes : Bytes}
    {r : Record} (h : parseRecord bytes = .ok r) :
    loadFromString ord bytes s = match loadHistory ord r.entries (installRecord r s) with
      | .ok _ s' => .ok ⟨⟩ s'
      | .error st s' =>
        .error (corrupt (some ("replay: " ++ st.message))
          ("replay rejected loaded history: " ++ st.message)) s' := by
  unfold loadFromString
  cases hload : loadHistory ord r.entries (installRecord r s) <;> simp only [h, hload]

theorem loadFromString_of_error (ord : IterationOrder) (s : EfficiencyLedger) {bytes : Bytes}
    {f : LoadFailure} (h : parseRecord bytes = .error f) :
    loadFromString ord bytes s = .error f s := by
  unfold loadFromString
  simp only [h]

theorem loadFromString_state (ord : IterationOrder) (bytes : Bytes) (s : EfficiencyLedger) :
    (loadFromString ord bytes s).state = match parseRecord bytes with
      | .error _ => s
      | .ok r => (loadHistory ord r.entries (installRecord r s)).state := by
  cases h : parseRecord bytes with
  | error f => rw [loadFromString_of_error ord s h, Result.state]
  | ok r =>
    rw [loadFromString_of_parseRecord ord s h]
    simp only
    generalize loadHistory ord r.entries (installRecord r s) = result
    cases result <;> rfl

/-- **An operation is a loop of appends** from the ledger it starts them on; a load ends the replay
afterwards. -/
theorem Op.step_spec (ord : IterationOrder) (s : EfficiencyLedger) (op : Op) :
    op.step ord s = (El.appendAll ord (op.entries s) (op.start s)).state ∨
      op.step ord s = { (El.appendAll ord (op.entries s) (op.start s)).state with
        replaying := false } := by
  unfold Op.step
  cases op with
  | append e =>
    left
    show _ = (El.appendAll ord [e] s).state
    rw [appendAll_singleton]
    rfl
  | reclassify req =>
    left
    show (El.reclassify ord req s).state = (El.appendAll ord [revisionOf s.toBooks req] s).state
    rw [appendAll_singleton, reclassify_apply]
  | loadHistory entries => exact .inr (loadHistory_state ord entries s)
  | load file =>
    cases file with
    | none => exact .inl rfl
    | some bytes =>
      have hload : (Op.exec ord (.load (some bytes)) s).state = _ :=
        (load_state ord bytes s).trans (loadFromString_state ord bytes s)
      cases hparse : parseRecord bytes with
      | error f =>
        left
        have hentries : Op.entries s (.load (some bytes)) = [] := by simp only [Op.entries, hparse]
        have hstart : Op.start s (.load (some bytes)) = s := by simp only [Op.start, hparse]
        rw [hload, hentries, hstart, hparse]
        rfl
      | ok r =>
        right
        have hentries : Op.entries s (.load (some bytes)) = r.entries := by
          simp only [Op.entries, hparse]
        have hstart : Op.start s (.load (some bytes)) =
            { installRecord r s with toBooks := {}, replaying := true } := by
          simp only [Op.start, hparse]
        rw [hload, hentries, hstart, hparse]
        exact loadHistory_state ord r.entries (installRecord r s)
  | appendAll _ | registerWorker _ | unregisterWorker _ | advanceEpoch | setEpoch _
  | setLedgerGeneration _ | setAccountGeneration _ | setSystemGeneration _ _ | setShuttingDown =>
    exact .inl rfl

theorem registerWorker_books (s : EfficiencyLedger) (boot : WorkerBootId) :
    (s.registerWorker boot).toBooks = s.toBooks := by
  unfold EfficiencyLedger.registerWorker
  split <;> rfl

theorem mem_registerWorker {s : EfficiencyLedger} {boot b : WorkerBootId} :
    b ∈ (s.registerWorker boot).liveWorkers ↔ b ∈ s.liveWorkers ∨ b.valid ∧ boot = b := by
  unfold EfficiencyLedger.registerWorker
  by_cases hvalid : boot.valid
  · rw [if_pos hvalid]
    show b ∈ insert boot s.liveWorkers ↔ _
    rw [Finset.mem_insert]
    constructor
    · rintro (rfl | hmem)
      · exact .inr ⟨hvalid, rfl⟩
      · exact .inl hmem
    · rintro (hmem | ⟨-, rfl⟩)
      · exact .inr hmem
      · exact .inl rfl
  · rw [if_neg hvalid]
    refine (or_iff_left_of_imp ?_).symm
    rintro ⟨hb, rfl⟩
    exact absurd hb hvalid

theorem Op.start_books (s : EfficiencyLedger) (op : Op) :
    (op.start s).toBooks = s.toBooks ∨ (op.start s).toBooks = {} := by
  cases op with
  | registerWorker boot => exact .inl (registerWorker_books s boot)
  | loadHistory entries => exact .inr rfl
  | load file =>
    cases file with
    | none => exact .inl rfl
    | some bytes =>
      unfold Op.start
      cases hparse : parseRecord bytes with
      | error f =>
        simp only [hparse, true_or]
      | ok r =>
        simp only [hparse, or_true]
  | append _ | appendAll _ | reclassify _ | unregisterWorker _ | advanceEpoch | setEpoch _
  | setLedgerGeneration _ | setAccountGeneration _ | setSystemGeneration _ _ | setShuttingDown =>
    exact .inl rfl

section Invariant

variable {ord : IterationOrder} {P : Books → Prop} {C : EfficiencyLedger → LedgerEntry → Prop}

theorem step_books (hempty : P {})
    (happend : ∀ s e, P s.toBooks → C s e → P (appendLocked ord e s).state.toBooks)
    (s : EfficiencyLedger) (op : Op) (hs : P s.toBooks) (hC : op.CallsMeet ord C s) :
    P (op.step ord s).toBooks := by
  have hstart : P (op.start s).toBooks := by
    rcases op.start_books s with h | h
    · rw [h]
      exact hs
    · rw [h]
      exact hempty
  have hend : P (El.appendAll ord (op.entries s) (op.start s)).state.toBooks :=
    forM_invariant (P := fun t => P t.toBooks) happend hstart hC
  rcases op.step_spec ord s with h | h
  · rw [h]
    exact hend
  · rw [h]
    exact hend

/-- **Invariants of the books over runs**, under a condition on every append. -/
theorem books_invariant_of_appendsMeet (hempty : P {})
    (happend : ∀ s e, P s.toBooks → C s e → P (appendLocked ord e s).state.toBooks)
    {s : EfficiencyLedger} {ops : List Op} (hs : P s.toBooks) (hC : AppendsMeet ord C s ops) :
    P (run ord s ops).toBooks :=
  run_invariant (P := fun t => P t.toBooks) (step_books hempty happend) hs hC

/-- **Invariants of the books over runs.** -/
theorem books_invariant (hempty : P {})
    (happend : ∀ s e, P s.toBooks → P (appendLocked ord e s).state.toBooks)
    {s : EfficiencyLedger} (hs : P s.toBooks) (ops : List Op) : P (run ord s ops).toBooks := by
  refine books_invariant_of_appendsMeet (C := fun _ _ => True) hempty
    (fun s e h _ => happend s e h) hs ?_
  exact runMeets_of_all (fun s op => callsMeet_of_all (fun _ _ => trivial) _ _) ops s

end Invariant

/-! ### The history grows -/

theorem history_appendLocked (ord : IterationOrder) (s : EfficiencyLedger) (e : LedgerEntry) :
    s.history <+: (appendLocked ord e s).state.history := by
  refine books_appendLocked ord (P := fun b => s.history <+: b.history) (List.prefix_refl _)
    (fun _ accounts _ => ?_) fun _ accounts _ => ?_
  · exact List.prefix_refl _
  · rw [Books.record_history]
    exact List.prefix_append _ _

/-- The operation replaces the history. -/
def Op.isLoad : Op → Bool
  | .loadHistory _ | .load _ => true
  | _ => false

theorem Op.start_books_of_not_load (s : EfficiencyLedger) {op : Op} (h : op.isLoad = false) :
    (op.start s).toBooks = s.toBooks := by
  cases op with
  | registerWorker boot => exact registerWorker_books s boot
  | loadHistory entries => cases h
  | load file => cases h
  | append _ | appendAll _ | reclassify _ | unregisterWorker _ | advanceEpoch | setEpoch _
  | setLedgerGeneration _ | setAccountGeneration _ | setSystemGeneration _ _ | setShuttingDown => rfl

theorem step_books_of_not_load {ord : IterationOrder} {P : Books → Prop}
    (happend : ∀ s e, P s.toBooks → P (appendLocked ord e s).state.toBooks) (s : EfficiencyLedger)
    {op : Op} (h : op.isLoad = false) (hs : P s.toBooks) : P (op.step ord s).toBooks := by
  have hend : P (El.appendAll ord (op.entries s) (op.start s)).state.toBooks := by
    refine forM_invariant (P := fun t => P t.toBooks) (C := fun _ _ => True)
      (fun t e ht _ => happend t e ht) ?_ (callsMeet_of_all (fun _ _ => trivial) _ _)
    rw [Op.start_books_of_not_load s h]
    exact hs
  rcases op.step_spec ord s with hstep | hstep
  · rw [hstep]
    exact hend
  · rw [hstep]
    exact hend

theorem run_books_of_not_load {ord : IterationOrder} {P : Books → Prop}
    (happend : ∀ s e, P s.toBooks → P (appendLocked ord e s).state.toBooks) {ops : List Op} :
    ∀ {s : EfficiencyLedger}, (∀ op ∈ ops, op.isLoad = false) → P s.toBooks →
      P (run ord s ops).toBooks := by
  induction ops with
  | nil => exact fun _ hs => hs
  | cons op ops ih =>
    intro s h hs
    exact ih (fun x hx => h x (by simp [hx]))
      (step_books_of_not_load happend s (h op (by simp)) hs)

theorem history_run_of_not_load {ord : IterationOrder} {s : EfficiencyLedger} {ops : List Op}
    (h : ∀ op ∈ ops, op.isLoad = false) : s.history <+: (run ord s ops).history :=
  run_books_of_not_load (P := fun b => s.history <+: b.history)
    (fun t e ht => ht.trans (history_appendLocked ord t e)) h (List.prefix_refl _)

/-! ### Calls one after the other -/

section ExecAll

variable {ι κ : Type} {f : ι → LedgerM PUnit} {is js : List ι} {s : EfficiencyLedger}

theorem execAll_append :
    execAll f (is ++ js) s =
      ((execAll f is s).1 ++ (execAll f js (execAll f is s).2).1,
        (execAll f js (execAll f is s).2).2) := by
  induction is generalizing s with
  | nil => rfl
  | cons i is ih =>
    simp only [List.cons_append, execAll, ih]

theorem execAll_map (g : κ → ι) (ks : List κ) :
    execAll f (ks.map g) s =
      ((execAll (fun k => f (g k)) ks s).1.map fun x => (g x.1, x.2),
        (execAll (fun k => f (g k)) ks s).2) := by
  induction ks generalizing s with
  | nil => rfl
  | cons k ks ih => simp only [List.map_cons, execAll, ih]

theorem execAll_refused {st : ι → Status} (h : ∀ i ∈ is, f i s = .error (st i) s) :
    execAll f is s = (is.map fun i => (i, st i), s) := by
  induction is with
  | nil => rfl
  | cons i is ih =>
    have hi := h i (by simp)
    have hrest := ih fun j hj => h j (by simp [hj])
    simp only [execAll, hi, EStateM.Result.state, hrest, List.map_cons]
    rfl

end ExecAll

end El
