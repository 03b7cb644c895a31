import EfficiencyLedger.Law.Growth
import EfficiencyLedger.Model.Queries

/-!
# What the queries answer

To its readers the ledger is a map from ids to entries that is only ever written to where it is empty.
The listing of the accounts is sorted, has one row for each account, and does not depend on the order of
the map (`accountSummaries_congr`). A worker is on record as the last registration left it
(`hasWorker_run`).
-/

namespace El

open EStateM

variable {s t : EfficiencyLedger}

/-! ### Entries by their id -/

theorem get_eq_target (s : EfficiencyLedger) (x : AccountingEntryId) :
    s.get x = s.target { revisionTarget := some x } := rfl

theorem get_eq_some_iff (h : s.toBooks.Wf) {x : AccountingEntryId} {e : LedgerEntry} :
    s.get x = some e ↔ e ∈ s.history ∧ e.id = x := by
  rw [get_eq_target, h.target_eq_some, Option.some.injEq, eq_comm (a := x)]

theorem isSome_get (h : s.toBooks.Wf) (x : AccountingEntryId) : (s.get x).isSome = s.contains x := by
  rw [Bool.eq_iff_iff, Option.isSome_iff_exists, EfficiencyLedger.contains, decide_eq_true_iff,
    h.mem_index]
  simp only [get_eq_some_iff h]

theorem get_congr (hs : s.toBooks.Wf) (ht : t.toBooks.Wf) (h : t.history = s.history)
    (x : AccountingEntryId) : t.get x = s.get x := by
  apply Option.ext
  intro e
  rw [get_eq_some_iff ht, get_eq_some_iff hs, h]

theorem get_of_prefix (hs : s.toBooks.Wf) (ht : t.toBooks.Wf) (h : s.history <+: t.history)
    {x : AccountingEntryId} {e : LedgerEntry} (hget : s.get x = some e) : t.get x = some e := by
  obtain ⟨hmem, hid⟩ := (get_eq_some_iff hs).mp hget
  exact (get_eq_some_iff ht).mpr ⟨h.subset hmem, hid⟩

theorem get_snoc (hs : s.toBooks.Wf) (ht : t.toBooks.Wf) {e : LedgerEntry}
    (h : t.history = s.history ++ [e]) (x : AccountingEntryId) :
    t.get x = if x = e.id then some e else s.get x := by
  have hnew : e ∈ t.history := by rw [h]; exact List.mem_concat_self
  split
  · rename_i hx
    exact (get_eq_some_iff ht).mpr ⟨hnew, hx.symm⟩
  · rename_i hx
    apply Option.ext
    intro y
    rw [get_eq_some_iff ht, get_eq_some_iff hs, h, List.mem_append, List.mem_singleton]
    constructor
    · rintro ⟨hold | rfl, hid⟩
      · exact ⟨hold, hid⟩
      · exact absurd hid.symm hx
    · exact fun hy => ⟨.inl hy.1, hy.2⟩

theorem get_appendLocked (ord : IterationOrder) (h : s.toBooks.Wf) (e : LedgerEntry)
    (x : AccountingEntryId) : (appendLocked ord e s).state.get x =
      if x = e.id ∧ (appendLocked ord e s).isOk = true then some e else s.get x := by
  have hwf := wf_appendLocked ord s e h
  cases hcall : appendLocked ord e s with
  | error st t =>
    obtain ⟨-, accounts, rfl⟩ := appendLocked_eq_error ord hcall
    rw [hcall] at hwf
    rw [if_neg fun hno => (by cases hno.2)]
    exact get_congr h hwf rfl x
  | ok u t =>
    obtain ⟨-, accounts, -, rfl⟩ := appendLocked_eq_ok ord hcall
    rw [hcall] at hwf
    have hok : (Result.ok u (s.withBooks ((s.toBooks.withAccounts accounts).record e)) :
        Result Status EfficiencyLedger PUnit).isOk = true := rfl
    simp only [hok, and_true]
    exact get_snoc h hwf (Books.record_history _ e) x

/-- **Every id is written once.** From any moment of any run on, as long as nothing is loaded: what a
lookup has found it finds again, and it finds what the history holds. The next append, if it is accepted,
puts its entry where nothing was found before, and changes no lookup if it is not. -/
theorem lookup_write_once (ord : IterationOrder) (id : LedgerId) (ops later : List Op)
    (h : ∀ op ∈ later, op.isLoad = false) :
    let s := run ord (.fresh id) ops
    let t := run ord (.fresh id) (ops ++ later)
    (∀ x e, s.get x = some e → t.get x = some e) ∧
      (∀ x e, t.get x = some e ↔ e ∈ t.history ∧ e.id = x) ∧
      (∀ x, (t.get x).isSome = t.contains x) ∧
      ∀ e, (∀ x, (appendLocked ord e t).state.get x =
          if x = e.id ∧ (appendLocked ord e t).isOk = true then some e else t.get x) ∧
        ((appendLocked ord e t).isOk = true → t.get e.id = none) := by
  intro s t
  have hs : s.toBooks.Wf := wf_run ord id ops
  have ht : t.toBooks.Wf := wf_run ord id (ops ++ later)
  have hinitial : s.history <+: t.history := by
    have hrun : t = run ord s later := Machine.run_append _ _ _ _
    rw [hrun]
    exact (extends_run ord s later h).history
  refine ⟨fun x e => get_of_prefix hs ht hinitial, fun x e => get_eq_some_iff ht,
    isSome_get ht, fun e => ⟨get_appendLocked ord ht e, fun hok => ?_⟩⟩
  have hcall : appendLocked ord e t = .ok ⟨⟩ _ := Result.eq_ok_of_isOk hok
  have hfresh := (appendLocked_eq_ok ord hcall).1.books.fresh
  rw [← Option.not_isSome_iff_eq_none, isSome_get ht]
  exact fun hyes => hfresh (of_decide_eq_true hyes)

theorem lookup_write_once_refused :
    let first := [Op.append (probe ⟨1⟩ {} {})]
    let later := [Op.append (probe ⟨1⟩ {} {}), .append (probe ⟨2⟩ {} {}), .setShuttingDown]
    let s := run default (.fresh kDefaultLedgerId) first
    let t := run default (.fresh kDefaultLedgerId) (first ++ later)
    (∀ x e, s.get x = some e → t.get x = some e) ∧
      (∀ x e, t.get x = some e ↔ e ∈ t.history ∧ e.id = x) ∧
      (∀ x, (t.get x).isSome = t.contains x) ∧
      ∀ e, (∀ x, (appendLocked default e t).state.get x =
          if x = e.id ∧ (appendLocked default e t).isOk = true then some e else t.get x) ∧
        ((appendLocked default e t).isOk = true → t.get e.id = none) :=
  lookup_write_once default kDefaultLedgerId _ _ (by decide)

/-! ### The listing of the accounts -/

theorem pairwise_accountSummaries (s : EfficiencyLedger) (accs : Enumeration s.accounts) :
    (s.accountSummaries accs).Pairwise fun a b => a.account.value ≤ b.account.value := by
  have hsorted : (s.accountSummaries accs).Pairwise
      fun a b => decide (a.account.value ≤ b.account.value) = true := by
    refine List.pairwise_mergeSort (fun a b c hab hbc => ?_) (fun a b => ?_) _
    · simp only [decide_eq_true_eq] at hab hbc ⊢
      exact UInt64.le_trans hab hbc
    · simp only [Bool.or_eq_true, decide_eq_true_eq]
      exact UInt64.le_total ..
  exact hsorted.imp of_decide_eq_true

theorem perm_accountSummaries (s : EfficiencyLedger) (accs : Enumeration s.accounts) :
    (s.accountSummaries accs).Perm (accs.order.map s.summary) :=
  List.mergeSort_perm _ _

theorem mem_accountSummaries {accs : Enumeration s.accounts} {row : AccountSummary} :
    row ∈ s.accountSummaries accs ↔ row.account ∈ s.accounts ∧ row = s.summary row.account := by
  rw [(perm_accountSummaries s accs).mem_iff, List.mem_map]
  constructor
  · rintro ⟨a, ha, rfl⟩
    exact ⟨(accs.mem_order a).mp ha, rfl⟩
  · rintro ⟨hacc, hrow⟩
    exact ⟨row.account, (accs.mem_order _).mpr hacc, hrow.symm⟩

theorem AccountSummary.account_injOn {accs : Enumeration s.accounts} {x y : AccountSummary}
    (hx : x ∈ s.accountSummaries accs) (hy : y ∈ s.accountSummaries accs)
    (h : x.account = y.account) : x = y := by
  rw [(mem_accountSummaries.mp hx).2, (mem_accountSummaries.mp hy).2, h]

theorem sorted_accountSummaries (s : EfficiencyLedger) (accs : Enumeration s.accounts) :
    (s.accountSummaries accs).Pairwise fun a b => a.account.value < b.account.value := by
  have hnodup : (accs.order.map s.summary).Nodup :=
    accs.nodup.map fun a b hab => congrArg AccountSummary.account hab
  have hdistinct : (s.accountSummaries accs).Nodup :=
    (perm_accountSummaries s accs).nodup_iff.mpr hnodup
  refine (List.Pairwise.and_mem.mp
    ((pairwise_accountSummaries s accs).and hdistinct)).imp fun hab => ?_
  obtain ⟨ha, hb, hle, hne⟩ := hab
  refine UInt64.lt_of_le_of_ne hle fun hvalue => hne ?_
  exact AccountSummary.account_injOn ha hb (congrArg Identity.mk hvalue)

/-- The listing of all accounts is the same for every order of the map. -/
theorem accountSummaries_congr (s : EfficiencyLedger) (accs accs' : Enumeration s.accounts) :
    s.accountSummaries accs = s.accountSummaries accs' := by
  have hperm : (s.accountSummaries accs).Perm (s.accountSummaries accs') := by
    have horder : accs.order.Perm accs'.order := by
      apply (List.perm_ext_iff_of_nodup accs.nodup accs'.nodup).mpr
      intro a
      rw [accs.mem_order, accs'.mem_order]
    exact (perm_accountSummaries s accs).trans
      ((horder.map _).trans (perm_accountSummaries s accs').symm)
  refine List.Perm.eq_of_pairwise (fun x y hx hy hxy hyx => ?_)
    (sorted_accountSummaries s accs) (sorted_accountSummaries s accs') hperm
  exact absurd (UInt64.lt_trans hxy hyx) (UInt64.lt_irrefl _)

/-! ### Accounts and workers on record -/

/-- **Which accounts are on record.** In every run the accounts of every accepted entry are, the listing
has a row for exactly those on record, and the totals of the others are zero. -/
theorem hasAccount_run (ord : IterationOrder) (id : LedgerId) (ops : List Op)
    (accs : Enumeration (run ord (.fresh id) ops).accounts) :
    let s := run ord (.fresh id) ops
    (∀ e ∈ ordinaryEntries s.history, ∀ a ∈ accountsOf e, s.hasAccount a = true) ∧
      (∀ a, s.hasAccount a = true ↔ ∃ row ∈ s.accountSummaries accs, row.account = a) ∧
      ∀ a, s.hasAccount a = false → s.accountSummary a = {} := by
  intro s
  have hwf : s.toBooks.Wf := wf_run ord id ops
  refine ⟨fun e he a ha => ?_, fun a => ?_, fun a hno => ?_⟩
  · obtain ⟨hmem, hord⟩ := mem_ordinaryEntries.mp he
    rcases hwf.covered e hmem with ⟨hrev, -⟩ | hacc
    · exact absurd hrev hord
    · exact decide_eq_true (hacc a ha)
  · rw [EfficiencyLedger.hasAccount, decide_eq_true_iff]
    constructor
    · exact fun ha => ⟨s.summary a, mem_accountSummaries.mpr ⟨ha, rfl⟩, rfl⟩
    · rintro ⟨row, hrow, rfl⟩
      exact (mem_accountSummaries.mp hrow).1
  · have hlookup : s.accounts.lookup a = none := Finmap.lookup_eq_none.mpr (of_decide_eq_false hno)
    show (s.accounts.lookup a).getD {} = {}
    rw [hlookup]
    rfl

/-- What an operation says of a worker: that it comes, or that it goes. -/
def Op.registration (boot : WorkerBootId) : Op → Option Bool
  | .registerWorker w => if w = boot ∧ w.valid then some true else none
  | .unregisterWorker w => if w = boot then some false else none
  | _ => none

theorem liveWorkers_step (ord : IterationOrder) (s : EfficiencyLedger) (op : Op) :
    (op.step ord s).liveWorkers = (op.start s).liveWorkers := by
  obtain ⟨b, hb⟩ := appendAll_withBooks ord (op.entries s) (op.start s)
  rcases op.step_spec ord s with h | h
  · rw [h, hb]
    rfl
  · rw [h, hb]
    rfl

theorem hasWorker_step (ord : IterationOrder) (s : EfficiencyLedger) (op : Op)
    (boot : WorkerBootId) :
    (op.step ord s).hasWorker boot = (op.registration boot).getD (s.hasWorker boot) := by
  unfold EfficiencyLedger.hasWorker
  rw [liveWorkers_step]
  cases op with
  | registerWorker w =>
    show decide (boot ∈ (s.registerWorker w).liveWorkers) =
      (if w = boot ∧ w.valid then some true else none).getD _
    simp only [mem_registerWorker]
    split
    · rename_i h
      obtain ⟨rfl, hvalid⟩ := h
      simp [hvalid]
    · rename_i h
      have hother : ¬ (boot.valid ∧ w = boot) := by
        rintro ⟨hvalid, rfl⟩
        exact h ⟨rfl, hvalid⟩
      simp [hother]
  | unregisterWorker w =>
    show decide (boot ∈ s.liveWorkers.erase w) = (if w = boot then some false else none).getD _
    split
    · rename_i h
      simp [h]
    · rename_i h
      simp [Ne.symm h]
  | load file =>
    cases file with
    | none => rfl
    | some bytes =>
      unfold Op.start
      cases hparse : parseRecord bytes <;> simp only [hparse] <;> rfl
  | append _ | appendAll _ | reclassify _ | loadHistory _ | advanceEpoch | setEpoch _
  | setLedgerGeneration _ | setAccountGeneration _ | setSystemGeneration _ _ | setShuttingDown => rfl

end El
