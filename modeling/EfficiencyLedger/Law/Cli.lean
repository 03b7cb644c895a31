import EfficiencyLedger.Law.Disk
import EfficiencyLedger.Law.OrderIndependence
import EfficiencyLedger.Law.Persistence
import EfficiencyLedger.Law.Queries
import EfficiencyLedger.Law.Reconciliation
import EfficiencyLedger.Model.Cli
import EfficiencyLedger.Proof.Reload

/-!
# What the command line tool prints

A file that loads has been rebuilt entry by entry, whatever the process was like that wrote it. So the
verdict of `validate-state` is never FAILED (`validate_state_never_fails`), and the hash tables of the
standard library, which may be iterated over in any order, leave no trace in what is printed
(`output_deterministic`). What `replay` tests is something else: the entries go to a ledger of the first
epoch and the first generations, and a later one is enough to turn them away (`replay_accepts_iff`).
-/

namespace El

open CheckedU64 Counters CounterStore EStateM

/-! ### Rebuilt books -/

section Rebuilt

variable {ord ord' : IterationOrder} {F F' : LedgerEntry → Prop} {es : List LedgerEntry} {b b' : Books}

theorem imbalance_postings (ord : IterationOrder) {e : LedgerEntry} (hadm : b.Admits e) (a : AccountId)
    (d : Dimension) : imbalance (postings ord b e) a d = 0 := by
  by_cases hevent : e.event = EventType.kReclassify
  · obtain ⟨-, t, ht, -⟩ := hadm.revision hevent
    rw [postings_of_revision ord hevent ht]
    exact imbalance_revisionPostings ..
  · have hbalanced := attributed_balanced hadm.valid (hadm.ordinary hevent) a d
    unfold imbalance
    simp only [net_postings_of_ordinary ord a _ d hevent]
    omega

theorem Rebuilt.closed (h : Rebuilt ord F es b) : b.accounts.Closed := by
  induction h with
  | nil => exact fun _ _ => rfl
  | snoc h hF hadm hpost ih =>
    rw [Books.record_accounts, withAccounts_accounts]
    exact (ih.postAll_iff hpost).mpr fun a d => imbalance_postings ord hadm a d

theorem Rebuilt.order (ord' : IterationOrder) (h : Rebuilt ord F es b) : Rebuilt ord' F es b := by
  induction h with
  | nil => exact .nil
  | @snoc es b e accounts h hF hadm hpost ih =>
    obtain ⟨accounts', hpost', -⟩ := postAll_postings_order ord' hpost
    have hthis := Rebuilt.snoc h hF hadm hpost
    have hother := Rebuilt.snoc ih hF hadm hpost'
    have haccounts := hthis.accounts_perm hother (.refl _)
    rw [Books.record_accounts, Books.record_accounts, withAccounts_accounts,
      withAccounts_accounts] at haccounts
    rw [haccounts]
    exact hother

theorem Rebuilt.unique (h : Rebuilt ord F es b) : ∀ {b' : Books}, Rebuilt ord F' es b' → b = b' := by
  induction h with
  | nil =>
    intro b' h'
    generalize hes : [] = es' at h'
    cases h' with
    | nil => rfl
    | snoc => simp at hes
  | @snoc es b e accounts h hF hadm hpost ih =>
    intro b' h'
    generalize hes : es ++ [e] = es' at h'
    cases h' with
    | nil => simp at hes
    | @snoc es₂ b₂ e₂ accounts₂ h₂ hF₂ hadm₂ hpost₂ =>
      obtain ⟨rfl, hlast⟩ := List.append_inj' hes rfl
      obtain ⟨rfl, -⟩ := List.cons_eq_cons.mp hlast
      obtain rfl := ih h₂
      rw [hpost] at hpost₂
      cases hpost₂
      rfl

theorem appendLocked_order (s : EfficiencyLedger) (ord' : IterationOrder) {e : LedgerEntry}
    {accounts : Accounts} (h : Rebuilt ord F es b) (hF : F e) (hadm : b.Admits e)
    (hpost : postAll (postings ord b e) b.accounts = .ok ⟨⟩ accounts) :
    appendLocked ord e (s.withBooks b) = appendLocked ord' e (s.withBooks b) := by
  by_cases hyes : (s.withBooks b).Admits e
  · obtain ⟨accounts', hpost', -⟩ := postAll_postings_order ord' hpost
    have hsame := ((Rebuilt.snoc h hF hadm hpost).order ord').unique
      (Rebuilt.snoc (h.order ord') hF hadm hpost')
    have hcall := appendLocked_of_admits ord hyes
    have hcall' := appendLocked_of_admits ord' hyes
    simp only [commit, withBooks_toBooks, hpost] at hcall
    simp only [commit, withBooks_toBooks, hpost'] at hcall'
    rw [hcall, hcall', hsame]
  · exact (appendLocked_of_not_admits ord hyes).1.trans (appendLocked_of_not_admits ord' hyes).1.symm

theorem appendAll_order {s : EfficiencyLedger} (hrun : s.shuttingDown = false)
    (hrep : s.replaying = true) (ord' : IterationOrder) (h : Rebuilt ord F es b) :
    appendAll ord es (s.withBooks {}) = appendAll ord' es (s.withBooks {}) := by
  induction h with
  | nil =>
    have hnil (ord : IterationOrder) : appendAll ord [] (s.withBooks {}) = .ok ⟨⟩ (s.withBooks {}) := rfl
    rw [hnil, hnil]
  | @snoc es b e accounts h hF hadm hpost ih =>
    have hsnoc (ord : IterationOrder) : appendAll ord (es ++ [e]) (s.withBooks {}) =
        (appendAll ord es >>= fun _ => appendLocked ord e) (s.withBooks {}) := by
      have hsplit : (appendAll ord (es ++ [e]) : LedgerM PUnit) =
          (appendAll ord es >>= fun _ => appendAll ord [e]) := List.forM_append
      rw [hsplit, appendAll_singleton]
    rw [hsnoc ord, hsnoc ord']
    rcases appendAll_cases ord hrun hrep es .nil with ⟨b₂, hb₂, hall⟩ |
      ⟨pre, x, suf, b₂, accounts₂, st, -, -, -, hall⟩
    · obtain rfl := h.unique hb₂
      rw [EStateM.bind_of_ok hall, EStateM.bind_of_ok (ih ▸ hall)]
      exact appendLocked_order s ord' h hF hadm hpost
    · rw [EStateM.bind_of_error hall, EStateM.bind_of_error (ih ▸ hall)]

end Rebuilt

/-! ### Loaded ledgers -/

section Load

variable {ord : IterationOrder} {s t : EfficiencyLedger} {file : Option Bytes}

theorem rebuilt_of_load (h : load ord file s = .ok ⟨⟩ t) : ∃ bytes r b, file = some bytes ∧
    parseRecord bytes = .ok r ∧ Rebuilt ord (installRecord r s).FencesMatch r.entries b ∧
      t = ((installRecord r s).withBooks b).setReplaying false := by
  unfold load at h
  cases file with
  | none => cases h
  | some bytes =>
    simp only at h
    cases hparse : parseRecord bytes with
    | error f =>
      rw [loadFromString_of_error ord s hparse] at h
      cases h
    | ok r =>
      rw [loadFromString_of_parseRecord ord s hparse] at h
      cases hload : loadHistory ord r.entries (installRecord r s) with
      | error st s' =>
        rw [hload] at h
        cases h
      | ok u s' =>
        rw [hload] at h
        cases h
        obtain ⟨b, hb, hs'⟩ := rebuilt_of_loadHistory ord hload
        exact ⟨bytes, r, b, rfl, hparse, hb, hs'⟩

theorem isOk_load {bytes : Bytes} (h : loadFromString ord bytes s = .ok ⟨⟩ t) :
    (load ord (some bytes) s).isOk = true := by
  unfold load
  simp only [h]
  rfl

theorem load_of_rebuilt {bytes : Bytes} {r : Record} {b : Books} (hparse : parseRecord bytes = .ok r)
    (hb : Rebuilt ord (installRecord r s).FencesMatch r.entries b) :
    load ord (some bytes) s = .ok ⟨⟩ (((installRecord r s).withBooks b).setReplaying false) := by
  have hload := loadHistory_of_rebuilt ord (s := installRecord r s) rfl hb
  unfold load
  simp only
  rw [loadFromString_of_parseRecord ord s hparse, hload]

theorem load_order (ord' : IterationOrder) (h : load ord file s = .ok ⟨⟩ t) :
    load ord' file s = .ok ⟨⟩ t := by
  obtain ⟨bytes, r, b, rfl, hparse, hb, rfl⟩ := rebuilt_of_load h
  exact load_of_rebuilt hparse (hb.order ord')

theorem rebuilt_history_of_load (h : load ord file s = .ok ⟨⟩ t) :
    ∃ F, Rebuilt ord F t.history t.toBooks := by
  obtain ⟨bytes, r, b, -, -, hb, rfl⟩ := rebuilt_of_load h
  have hhistory : (((installRecord r s).withBooks b).setReplaying false).history = r.entries :=
    hb.history
  rw [hhistory]
  exact ⟨_, hb⟩

end Load

/-! ### Reports -/

theorem reconcile_of_closed {s : EfficiencyLedger} (h : s.accounts.Closed)
    (accs : Enumeration s.accounts) :
    (reconcile s accs).closed = true ∧ (reconcile s accs).messages = ["reconciliation closed"] := by
  have hdim (d : Dimension) : (reconcile s accs).perDimensionClosed d = true :=
    (perDimensionClosed_iff h.bounded d accs s.history.length).mpr fun a => h a d
  have hclosed : (reconcile s accs).closed = true := by
    rw [reconcile, reconcileAccounts, decide_eq_true_iff]
    exact hdim
  have hnone : accs.order.flatMap (fun acc => closureMessages (s.accounts.get acc)) = [] := by
    refine List.flatMap_eq_nil_iff.mpr fun a _ => List.filterMap_eq_nil_iff.mpr fun d _ => if_neg ?_
    exact not_not_intro ((classified_eq_physical_iff h.bounded a d).mpr (h a d))
  refine ⟨hclosed, ?_⟩
  have hmessages : (reconcile s accs).messages =
      if (reconcile s accs).closed ∧
        accs.order.flatMap (fun acc => closureMessages (s.accounts.get acc)) = [] then
          ["reconciliation closed"]
      else accs.order.flatMap fun acc => closureMessages (s.accounts.get acc) := rfl
  rw [hmessages, if_pos ⟨hclosed, hnone⟩]

theorem sum_accountSummaries (s : EfficiencyLedger) (accs : Enumeration s.accounts)
    (f : AccountId → Nat) :
    ((s.accountSummaries accs).map fun row => f row.account).sum = ∑ a ∈ s.accounts.keys, f a := by
  have hkeys : accs.order.toFinset = s.accounts.keys := by
    ext a
    rw [List.mem_toFinset, accs.mem_order, Finmap.mem_keys]
  rw [← hkeys, List.sum_toFinset f accs.nodup,
    ((perm_accountSummaries s accs).map fun row => f row.account).sum_eq, List.map_map]
  rfl

namespace Cli

/-- A ledger of the second epoch, with an entry that carries it. -/
def secondEpoch : List Op :=
  [.advanceEpoch, .append { plainEntry 1 with fences := { epoch := ⟨2⟩ } }]

def secondEpochLedger : EfficiencyLedger := run default (.fresh kDefaultLedgerId) secondEpoch

theorem loads_secondEpoch :
    (load default (some secondEpochLedger.saveToString) (.fresh kDefaultLedgerId)).isOk = true := by
  have hrestorable : secondEpochLedger.toBooks.Restorable default :=
    restorable_run default default kDefaultLedgerId secondEpoch
      ⟨trivial, ⟨noResidue_of_isOk (by decide +kernel), fun _ _ => trivial⟩, trivial⟩
  have hentries : secondEpochLedger.history = [{ plainEntry 1 with fences := { epoch := ⟨2⟩ } }] := by
    decide +kernel
  have hmem {e : LedgerEntry} (he : e ∈ secondEpochLedger.history) :
      e = { plainEntry 1 with fences := { epoch := ⟨2⟩ } } := by
    rw [hentries] at he
    exact List.mem_singleton.mp he
  have hencodable : secondEpochLedger.Encodable := by
    refine ⟨by rw [hentries]; decide, fun e he => ?_⟩
    rw [hmem he]
    exact ⟨fun sh hsh => absurd hsh (Option.not_mem_none sh), by decide⟩
  have hfences : ∀ e ∈ secondEpochLedger.history, secondEpochLedger.FencesMatch e := by
    intro e he
    rw [hmem he]
    exact ⟨fun _ => by decide +kernel, fun h => absurd rfl h, fun h => absurd rfl h⟩
  obtain ⟨c, -, -, hload⟩ := load_saved default hencodable hrestorable hfences (.fresh kDefaultLedgerId)
  exact isOk_load hload

end Cli

/-- **What `summary` lists** for a file that loads: the accounts that the ordinary entries share to, each
once and by their ids; in each row the exact sums of what was attributed to the account, with the classes
adding up to the physical total; and over all rows exactly what the entries report. -/
theorem listing_exact (ord : IterationOrder) (file : Option Bytes) (led : EfficiencyLedger)
    (h : load ord file (.fresh kDefaultLedgerId) = .ok ⟨⟩ led) (accs : Enumeration led.accounts) :
    let rows := led.accountSummaries accs
    rows.Pairwise (fun a b => a.account.value < b.account.value) ∧
      (∀ a, (∃ row ∈ rows, row.account = a) ↔
        ∃ e ∈ ordinaryEntries led.history, a ∈ accountsOf e) ∧
      (∀ row ∈ rows, ∀ d, (row.physical d).toNat = (row.useful d).toNat + (row.overhead d).toNat +
          (row.waste d).toNat + (row.unknown d).toNat ∧
        ∀ q : Quantity, (row.toAccountAggregate.bucket q.bucket d).toNat =
          ((ordinaryEntries led.history).map fun e => attributed e row.account q.bucket d).sum) ∧
      ∀ (q : Quantity) d, (rows.map fun row => (row.toAccountAggregate.bucket q.bucket d).toNat).sum =
        ((ordinaryEntries led.history).map fun e => (e.quantity q d).toNat).sum := by
  intro rows
  obtain ⟨F, hb⟩ := rebuilt_history_of_load h
  have hrow {row : AccountSummary} (hmem : row ∈ rows) :
      row.toAccountAggregate = led.accounts.get row.account :=
    congrArg AccountSummary.toAccountAggregate (mem_accountSummaries.mp hmem).2
  refine ⟨sorted_accountSummaries led accs, fun a => ?_, fun row hmem d => ?_, fun q d => ?_⟩
  · rw [← hb.mem_accounts]
    constructor
    · rintro ⟨row, hmem, rfl⟩
      exact (mem_accountSummaries.mp hmem).1
    · exact fun ha => ⟨led.summary a, mem_accountSummaries.mpr ⟨ha, rfl⟩, rfl⟩
  · rw [hrow hmem]
    exact ⟨hb.closed row.account d, fun q => hb.quantity_eq_sum row.account q d⟩
  · rw [← hb.sum_quantity q d, ← sum_accountSummaries led accs]
    exact congrArg List.sum (List.map_congr_left fun row hmem => by rw [hrow hmem])

theorem listing_exact_secondEpoch :
    let led := (load default (some Cli.secondEpochLedger.saveToString)
      (.fresh kDefaultLedgerId)).state
    let rows := led.accountSummaries (Classical.choice inferInstance)
    rows.Pairwise (fun a b => a.account.value < b.account.value) ∧
      (∀ a, (∃ row ∈ rows, row.account = a) ↔
        ∃ e ∈ ordinaryEntries led.history, a ∈ accountsOf e) ∧
      (∀ row ∈ rows, ∀ d, (row.physical d).toNat = (row.useful d).toNat + (row.overhead d).toNat +
          (row.waste d).toNat + (row.unknown d).toNat ∧
        ∀ q : Quantity, (row.toAccountAggregate.bucket q.bucket d).toNat =
          ((ordinaryEntries led.history).map fun e => attributed e row.account q.bucket d).sum) ∧
      ∀ (q : Quantity) d, (rows.map fun row => (row.toAccountAggregate.bucket q.bucket d).toNat).sum =
        ((ordinaryEntries led.history).map fun e => (e.quantity q d).toNat).sum :=
  listing_exact default (some Cli.secondEpochLedger.saveToString) _
    (EStateM.Result.eq_ok_of_isOk Cli.loads_secondEpoch) (Classical.choice inferInstance)

/-! ### Commands -/

namespace Cli

section Main

variable {ord : IterationOrder} {iter : ∀ accounts, Enumeration accounts} {file : Option Bytes}
  {led : EfficiencyLedger}

theorem main_of_load (h : load ord file (.fresh kDefaultLedgerId) = .ok ⟨⟩ led) (cmd path : String)
    (rest : List String) : main ord iter (cmd :: path :: rest) file = dispatch ord iter cmd rest led := by
  unfold main
  simp only [h]

theorem main_of_load_error {st : Status} (h : load ord file (.fresh kDefaultLedgerId) = .error st led)
    (cmd path : String) (rest : List String) :
    main ord iter (cmd :: path :: rest) file = .exited 1 "" ("load failed: " ++ st.message ++ "\n") := by
  unfold main
  simp only [h]

/-- **No file that loads is out of balance.** Whatever the file holds, `validate-state` and `reconcile`
either report that it does not load, or that its totals are closed. -/
theorem validate_state_never_fails (ord : IterationOrder) (iter : ∀ accounts, Enumeration accounts)
    (path : String) (rest : List String) (file : Option Bytes) :
    (∃ message, main ord iter ("validate-state" :: path :: rest) file = .exited 1 "" message ∧
      main ord iter ("reconcile" :: path :: rest) file = .exited 1 "" message) ∨
    main ord iter ("validate-state" :: path :: rest) file = .exited 0 "validate-state: OK\n" "" ∧
      main ord iter ("reconcile" :: path :: rest) file =
        .exited 0 "closed: yes\n  reconciliation closed\n" "" := by
  cases hload : load ord file (.fresh kDefaultLedgerId) with
  | error st led =>
    exact .inl ⟨_, main_of_load_error hload _ _ _, main_of_load_error hload _ _ _⟩
  | ok u led =>
    obtain ⟨F, hb⟩ := rebuilt_history_of_load hload
    obtain ⟨hclosed, hmessages⟩ := reconcile_of_closed (s := led) hb.closed (iter led.accounts)
    right
    rw [main_of_load hload, main_of_load hload]
    constructor
    · show Outcome.exited 0 (printValidateState (reconcile led (iter led.accounts))) "" = _
      unfold printValidateState
      rw [hclosed]
      rfl
    · show Outcome.exited 0 (printReconcile (reconcile led (iter led.accounts))) "" = _
      unfold printReconcile
      rw [hclosed, hmessages]
      rfl

/-- **What `replay` tests.** The history of a file that loads is accepted by a ledger of its own exactly
where every fence that an entry carries is that of the first epoch and of the first generations. -/
theorem replay_accepts_iff (ord : IterationOrder) (iter : ∀ accounts, Enumeration accounts)
    (path : String) (rest : List String) (file : Option Bytes) (led : EfficiencyLedger)
    (h : load ord file (.fresh kDefaultLedgerId) = .ok ⟨⟩ led) :
    main ord iter ("replay" :: path :: rest) file =
        .exited 0 "replay: OK\ndigest-match: yes\n" "" ↔
      ∀ e ∈ led.history, (EfficiencyLedger.fresh kDefaultLedgerId).FencesMatch e := by
  obtain ⟨F, hb⟩ := rebuilt_history_of_load h
  have hmain : main ord iter ("replay" :: path :: rest) file =
      .exited 0 (printReplay ord led) "" := main_of_load h _ _ _
  rw [hmain, Outcome.exited.injEq]
  simp only [true_and, and_true]
  unfold printReplay
  constructor
  · intro htext
    cases hreplay : loadHistory ord led.history (.fresh kDefaultLedgerId) with
    | ok u s =>
      obtain ⟨b, hrebuilt, -⟩ := rebuilt_of_loadHistory ord hreplay
      exact hrebuilt.fences
    | error st s =>
      exfalso
      have hmessage : ∃ m, st.message = "replay failed: " ++ m := by
        unfold loadHistory at hreplay
        simp only at hreplay
        split at hreplay
        · cases hreplay
        · cases hreplay
          exact ⟨_, rfl⟩
      obtain ⟨m, hm⟩ := hmessage
      simp only [hreplay, hm] at htext
      have hchars := congrArg String.toList htext
      simp [String.toList_append] at hchars
  · intro hfences
    have hreplay := loadHistory_of_rebuilt ord (s := .fresh kDefaultLedgerId) rfl
      (hb.of_fences hfences)
    have hdigest : ((((EfficiencyLedger.fresh kDefaultLedgerId).withBooks led.toBooks).setReplaying
        false).digest = led.digest) := rfl
    simp only [hreplay, Result.state, if_pos hdigest]
    rfl

theorem replay_accepts_iff_secondEpoch :
    let file := some secondEpochLedger.saveToString
    let led := (load default file (.fresh kDefaultLedgerId)).state
    main default (fun _ => Classical.choice inferInstance) ["replay", "ledger"] file =
        .exited 0 "replay: OK\ndigest-match: yes\n" "" ↔
      ∀ e ∈ led.history, (EfficiencyLedger.fresh kDefaultLedgerId).FencesMatch e :=
  replay_accepts_iff default (fun _ => Classical.choice inferInstance) "ledger" [] _ _
    (EStateM.Result.eq_ok_of_isOk loads_secondEpoch)

/-- **The output is a function of the file.** In whatever order the hash tables are iterated over, when
the ledger is loaded and when it is listed, a file that loads makes the process print the same and exit
alike, and one that does not load fails to in any order. -/
theorem output_deterministic (ord ord' : IterationOrder) (iter iter' : ∀ accounts, Enumeration accounts)
    (args : List String) (file : Option Bytes) :
    main ord iter args file = main ord' iter' args file ∨
      ∃ message message', main ord iter args file = .exited 1 "" ("load failed: " ++ message ++ "\n") ∧
        main ord' iter' args file = .exited 1 "" ("load failed: " ++ message' ++ "\n") := by
  match args with
  | [] => exact .inl rfl
  | [cmd] => exact .inl rfl
  | cmd :: path :: rest =>
    cases hload : load ord file (.fresh kDefaultLedgerId) with
    | error st led =>
      cases hload' : load ord' file (.fresh kDefaultLedgerId) with
      | error st' led' =>
        exact .inr ⟨_, _, main_of_load_error hload _ _ _, main_of_load_error hload' _ _ _⟩
      | ok u led' =>
        rw [load_order ord hload'] at hload
        cases hload
    | ok u led =>
      left
      obtain ⟨F, hb⟩ := rebuilt_history_of_load hload
      rw [main_of_load hload, main_of_load (load_order ord' hload)]
      obtain ⟨hclosed, hmessages⟩ := reconcile_of_closed (s := led) hb.closed (iter led.accounts)
      obtain ⟨hclosed', hmessages'⟩ := reconcile_of_closed (s := led) hb.closed (iter' led.accounts)
      have hsums := accountSummaries_congr led (iter led.accounts) (iter' led.accounts)
      have hreconcile : printReconcile (reconcile led (iter led.accounts)) =
          printReconcile (reconcile led (iter' led.accounts)) := by
        unfold printReconcile
        rw [hclosed, hmessages, hclosed', hmessages']
      have hvalidate : printValidateState (reconcile led (iter led.accounts)) =
          printValidateState (reconcile led (iter' led.accounts)) := by
        unfold printValidateState
        rw [hclosed, hclosed']
      have hreplay : printReplay ord led = printReplay ord' led := by
        have horder := appendAll_order
          (s := (EfficiencyLedger.fresh kDefaultLedgerId).setReplaying true) rfl rfl ord' hb
        unfold printReplay
        rw [loadHistory_eq, loadHistory_eq, horder]
      unfold dispatch
      simp only [hsums, hreconcile, hvalidate, hreplay]

/-! ### The tool and the coordinator -/

/-- What `digest` prints for a payload that answers a digest query. -/
def digestText (payload : Bytes) : String :=
  "digest: " ++ digestHex (UInt64.ofNat (Wire.getLE (payload.take 8))) ++ "\nentry_count: " ++
    toString (Wire.getLE (payload.drop 8)) ++ "\n"

theorem printDigest_eq (led : EfficiencyLedger) (c : Coordinator)
    (hhistory : led.history = c.ledger.history) (hlen : c.ledger.history.length < 2 ^ 64) :
    printDigest led = digestText c.queryDigest.2.payload := by
  have hdigest : led.digest = c.ledger.digest := by
    unfold EfficiencyLedger.digest
    rw [hhistory]
  have hfirst (v w : UInt64) : Wire.getLE ((Wire.putU64 v ++ Wire.putU64 w).take 8) = v.toNat := by
    rw [List.take_left' (Wire.length_putU64 v), Wire.putU64, Wire.getLE_putLE (UInt64.toNat_lt _)]
  have hsecond (v w : UInt64) : Wire.getLE ((Wire.putU64 v ++ Wire.putU64 w).drop 8) = w.toNat := by
    rw [List.drop_left' (Wire.length_putU64 v), Wire.putU64, Wire.getLE_putLE (UInt64.toNat_lt _)]
  unfold printDigest digestText Coordinator.queryDigest EfficiencyLedger.entryCount
  simp only [hfirst, hsecond, hdigest, hhistory]
  rw [UInt64.ofNat_toNat, UInt64.toNat_ofNat_of_lt' hlen]

end Main

end Cli

end El
