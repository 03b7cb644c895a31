import EfficiencyLedger.Proof.Persistence
import EfficiencyLedger.Proof.Replay

/-!
# What a saved ledger reloads to

Books are `Restorable` where their history rebuilds them, up to accounts with zero totals. Appends
keep them so where a call that gives up leaves no residue in the totals (`NoResidue`). The save of
such a ledger loads where the fences of all its entries match its header (`load_saved`), whatever
headers the entries were admitted under.
-/

namespace El

open CheckedU64 Counters CounterStore EStateM

/-! ### Calls without residue -/

/-- Where the totals loops give up, the postings made before cancel out in every counter. -/
def NoResidue (ord : IterationOrder) (s : EfficiencyLedger) (e : LedgerEntry) : Prop :=
  s.Admits e → ∀ pre p, StopsAt s.accounts (postings ord s.toBooks e) pre p → ∀ k, net pre k = 0

theorem noResidue_of_isOk {ord : IterationOrder} {s : EfficiencyLedger} {e : LedgerEntry}
    (h : (appendLocked ord e s).isOk = true) : NoResidue ord s e :=
  fun hadm _ _ hstop => absurd hstop (not_stopsAt_of_isOk ord h hadm)

/-! ### Restorable books -/

theorem postAll_postings_order {ord : IterationOrder} (ord' : IterationOrder) {b : Books}
    {e : LedgerEntry} {accounts : Accounts}
    (h : postAll (postings ord b e) b.accounts = .ok ⟨⟩ accounts) :
    ∃ accounts', postAll (postings ord' b e) b.accounts = .ok ⟨⟩ accounts' ∧
      ∀ k, read accounts k = read accounts' k := by
  by_cases hevent : e.event = EventType.kReclassify
  · refine ⟨accounts, ?_, fun k => rfl⟩
    rw [postings, if_pos hevent] at h ⊢
    exact h
  · rw [postings_of_ordinary _ b hevent] at h ⊢
    have hnet (k : AccountId × Cell) :
        net (appendPostings ord' e) k = net (appendPostings ord e) k := by
      obtain ⟨a, bk, d⟩ := k
      rw [net_appendPostings, net_appendPostings]
    have hroom := (postAll_credits_ok_iff (credits_appendPostings ord e) b.accounts).mp ⟨accounts, h⟩
    obtain ⟨accounts', h'⟩ := (postAll_credits_ok_iff (credits_appendPostings ord' e) b.accounts).mpr
      fun k => by
        rw [hnet]
        exact hroom k
    refine ⟨accounts', h', fun k => ?_⟩
    have hread := read_of_postAll_ok h k
    have hread' := read_of_postAll_ok h' k
    rw [hnet, ← hread] at hread'
    rw [← UInt64.toNat_inj]
    omega

/-- The history rebuilds the books, whatever fences its entries were admitted under. -/
def Books.Restorable (ord : IterationOrder) (b : Books) : Prop :=
  ∃ c, Rebuilt ord (fun _ => True) b.history c ∧ b.Same c

theorem restorable_empty (ord : IterationOrder) : Books.Restorable ord {} :=
  ⟨{}, .nil, .refl _⟩

/-- **Appends without residue keep the books restorable.** -/
theorem restorable_appendLocked {ord ord' : IterationOrder} {s : EfficiencyLedger} {e : LedgerEntry}
    (hwf : s.toBooks.Wf) (h : s.toBooks.Restorable ord') (hresidue : NoResidue ord s e) :
    (appendLocked ord e s).state.toBooks.Restorable ord' := by
  obtain ⟨c, hc, hsame⟩ := h
  rcases appendLocked_cases ord s e with ⟨-, hrun⟩ | ⟨hadm, accounts, hpost, hrun⟩ |
    ⟨hadm, pre, p, accounts, hstop, hpre, hrun⟩
  · rw [hrun]
    exact ⟨c, hc, hsame⟩
  · rw [hrun, Result.state, withBooks_toBooks]
    have hagree := hsame.postAll_agree hwf hc.wf ord e
    rw [hpost] at hagree
    cases hlive : postAll (postings ord c e) c.accounts with
    | error st accounts₁ =>
      rw [hlive] at hagree
      cases hagree
    | ok u accounts₁ =>
      rw [hlive] at hagree
      cases hagree with
      | ok htotals =>
        obtain ⟨accounts₂, hpost₂, hread⟩ := postAll_postings_order ord' hlive
        refine ⟨(c.withAccounts accounts₂).record e, ?_, ?_⟩
        · rw [Books.record_history, withAccounts_history]
          exact hc.snoc trivial (hsame.admits hadm.books) hpost₂
        · exact (hsame.of_accounts fun k => (htotals k).trans (hread k)).record e
  · rw [hrun, Result.state, withBooks_toBooks]
    refine ⟨c, hc, hsame.symm.trans ?_ |>.symm⟩
    have htotals (k : AccountId × Cell) : read s.accounts k = read accounts k := by
      have hread := read_of_postAll_ok hpre k
      rw [hresidue hadm pre p hstop k, Int.add_zero] at hread
      rw [← UInt64.toNat_inj]
      omega
    show (s.toBooks.withAccounts s.accounts).Same (s.toBooks.withAccounts accounts)
    exact (Books.Same.refl s.toBooks).of_accounts htotals

theorem restorable_run (ord ord' : IterationOrder) (id : LedgerId) (ops : List Op)
    (h : AppendsMeet ord (NoResidue ord) (.fresh id) ops) :
    (run ord (.fresh id) ops).toBooks.Restorable ord' := by
  have hboth := books_invariant_of_appendsMeet (P := fun b => b.Wf ∧ b.Restorable ord')
    ⟨Books.wf_empty, restorable_empty ord'⟩
    (fun s e hs he => ⟨wf_appendLocked ord s e hs.1, restorable_appendLocked hs.1 hs.2 he⟩)
    (s := .fresh id) ⟨Books.wf_empty, restorable_empty ord'⟩ h
  exact hboth.2

/-! ### Loading a save -/

/-- **A save loads**, where the fences of all entries match the header it was made under. -/
theorem load_saved (ord : IterationOrder) {s : EfficiencyLedger} (henc : s.Encodable)
    (hrestorable : s.toBooks.Restorable ord) (hfences : ∀ e ∈ s.history, s.FencesMatch e)
    (u : EfficiencyLedger) :
    ∃ c, Rebuilt ord (fun _ => True) s.history c ∧ s.toBooks.Same c ∧
      loadFromString ord s.saveToString u =
        .ok ⟨⟩ (((installRecord s.record u).withBooks c).setReplaying false) := by
  obtain ⟨c, hc, hsame⟩ := hrestorable
  have hmatch : ∀ e ∈ s.history, (installRecord s.record u).FencesMatch e := fun e he =>
    ⟨(hfences e he).epoch, (hfences e he).ledgerGeneration, (hfences e he).accountGeneration⟩
  have hload := loadHistory_of_rebuilt ord (s := installRecord s.record u) rfl (hc.of_fences hmatch)
  refine ⟨c, hc, hsame, ?_⟩
  have hrecord : loadHistory ord s.record.entries (installRecord s.record u) = _ := hload
  rw [loadFromString_of_parseRecord ord u (parseRecord_saveToString henc), hrecord]

theorem fences_of_load {ord : IterationOrder} {bytes : Bytes} {u t : EfficiencyLedger}
    (h : loadFromString ord bytes u = .ok ⟨⟩ t) :
    t.Encodable ∧ ∀ e ∈ t.history, t.FencesMatch e := by
  cases hparse : parseRecord bytes with
  | error f =>
    rw [loadFromString_of_error ord u hparse] at h
    cases h
  | ok r =>
    rw [loadFromString_of_parseRecord ord u hparse] at h
    cases hload : loadHistory ord r.entries (installRecord r u) with
    | error st s' =>
      rw [hload] at h
      cases h
    | ok v s' =>
      rw [hload] at h
      cases h
      obtain ⟨b, hb, rfl⟩ := rebuilt_of_loadHistory ord hload
      obtain ⟨henc, hcount, -⟩ := parseRecord_ok hparse
      have hhistory : (((installRecord r u).withBooks b).setReplaying false).history = r.entries :=
        hb.history
      refine ⟨⟨by rwa [hhistory], by rwa [hhistory]⟩, ?_⟩
      rw [hhistory]
      exact fun e he => ⟨(hb.fences e he).epoch, (hb.fences e he).ledgerGeneration,
        (hb.fences e he).accountGeneration⟩

end El
