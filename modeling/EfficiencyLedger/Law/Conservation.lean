import EfficiencyLedger.Proof.Totals

/-!
# Exact conservation

After a load that succeeds, the physical, avoided and stranded totals of every account are the exact
sums of what the ordinary entries attribute to it, and over all accounts they are the exact sums of
the entries' own quantities (`conservation`). Revisions only move usage between classes.
-/

namespace El

open CheckedU64 Counters CounterStore

theorem sum_attributed_entries (q : Quantity) (d : Dimension) {es : List LedgerEntry}
    {accs : Finset AccountId}
    (h : ∀ e ∈ es, ∀ sh ∈ (computeAttribution e).shares, sh.account ∈ accs) :
    ∑ a ∈ accs, (es.map fun e => attributed e a q.bucket d).sum =
      (es.map fun e => (e.quantity q d).toNat).sum := by
  induction es with
  | nil => simp
  | cons e es ih =>
    simp only [List.map_cons, List.sum_cons, Finset.sum_add_distrib]
    rw [ih fun x hx => h x (List.mem_cons_of_mem e hx), sum_attributed e d q (h e (by simp))]

section Rebuilt

variable {ord : IterationOrder} {F : LedgerEntry → Prop} {es : List LedgerEntry} {b : Books}

theorem Rebuilt.quantity_eq_sum (h : Rebuilt ord F es b) (a : AccountId) (q : Quantity)
    (d : Dimension) :
    ((b.accounts.get a).bucket q.bucket d).toNat =
      ((ordinaryEntries es).map fun e => attributed e a q.bucket d).sum := by
  induction h with
  | nil => cases q <;> rfl
  | @snoc es b e accounts h hF hadm hpost ih =>
    have hread := toNat_read_of_postAll hpost a q.bucket d
    rw [net_postings_quantity ord a d h.wf hadm q, ih] at hread
    rw [Books.record_accounts, withAccounts_accounts, sum_ordinaryEntries_append]
    split_ifs at hread ⊢ <;> omega

theorem Rebuilt.mem_keys (h : Rebuilt ord F es b) {e : LedgerEntry} (he : e ∈ ordinaryEntries es)
    {sh : AttributionShare} (hsh : sh ∈ (computeAttribution e).shares) :
    sh.account ∈ b.accounts.keys := by
  obtain ⟨hmem, hevent⟩ := mem_ordinaryEntries.mp he
  rw [← h.history] at hmem
  rcases h.wf.covered e hmem with ⟨hrev, -⟩ | hacc
  · exact absurd hrev hevent
  · exact Finmap.mem_keys.mpr (hacc sh.account (List.mem_map_of_mem hsh))

theorem Rebuilt.sum_quantity (h : Rebuilt ord F es b) (q : Quantity) (d : Dimension) :
    ∑ a ∈ b.accounts.keys, ((b.accounts.get a).bucket q.bucket d).toNat =
      ((ordinaryEntries es).map fun e => (e.quantity q d).toNat).sum := by
  simp only [h.quantity_eq_sum]
  exact sum_attributed_entries q d fun e he sh hsh => h.mem_keys he hsh

end Rebuilt

/-- **Exact conservation.** Account by account, and over all accounts with the residual one, the
totals are the exact sums over the ordinary entries of the list. -/
theorem conservation (ord : IterationOrder) (s s' : EfficiencyLedger) (es : List LedgerEntry)
    (h : loadHistory ord es s = .ok ⟨⟩ s') (q : Quantity) (d : Dimension) :
    (∀ a, ((s'.accountSummary a).bucket q.bucket d).toNat =
      ((ordinaryEntries es).map fun e => attributed e a q.bucket d).sum) ∧
    ∑ a ∈ s'.accounts.keys, ((s'.accountSummary a).bucket q.bucket d).toNat =
      ((ordinaryEntries es).map fun e => (e.quantity q d).toNat).sum := by
  obtain ⟨b, hb, rfl⟩ := rebuilt_of_loadHistory ord h
  exact ⟨fun a => hb.quantity_eq_sum a q d, hb.sum_quantity q d⟩

/-- Two accounts share an entry, and a revision moves it to waste. -/
def sharedAndRevised : List LedgerEntry :=
  [{ id := ⟨1⟩
     event := EventType.kExecutionProgress
     usage := ⟨fun _ => 6⟩
     shared := some { participants := [⟨⟨7⟩, 1⟩, ⟨⟨8⟩, 2⟩] } },
   { id := ⟨2⟩
     event := EventType.kReclassify
     classification := EfficiencyClass.kAvoidableWaste
     account := ⟨7⟩
     revisionTarget := some ⟨1⟩ }]

theorem conservation_sharedAndRevised :
    let s' := (loadHistory default sharedAndRevised (.fresh kDefaultLedgerId)).state
    (∀ a, ((s'.accountSummary a).bucket .physical 0).toNat =
      ((ordinaryEntries sharedAndRevised).map fun e => attributed e a .physical 0).sum) ∧
    ∑ a ∈ s'.accounts.keys, ((s'.accountSummary a).bucket .physical 0).toNat =
      ((ordinaryEntries sharedAndRevised).map fun e => (e.quantity .physical 0).toNat).sum :=
  conservation default (.fresh kDefaultLedgerId) _ sharedAndRevised
    (EStateM.Result.eq_ok_of_isOk (by decide +kernel)) .physical 0

end El
