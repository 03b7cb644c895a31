import EfficiencyLedger.Law.Apportionment
import EfficiencyLedger.Proof.Reload
import EfficiencyLedger.Proof.Totals

/-!
# The residual account

The residual account takes the quantities of the entries that have no beneficiaries. It is one of
the account ids that entries can name, and nothing keeps an entry from naming it. Its totals are
what the law asks for exactly where the parts that accepted entries give it by name are all zero, in
the runs where no append that gives up leaves a residue in them (`residual_isolated_iff`).
-/

namespace El

open CheckedU64 Counters CounterStore Apportion

def residualAccount : AccountId := ⟨kResidualAccountValue⟩

/-! ### What an entry brings to the residual account -/

/-- The entry has neither a valid account nor participants. -/
def LedgerEntry.Ownerless (e : LedgerEntry) : Prop :=
  ¬ e.account.valid ∧ ∀ sh ∈ e.shared, sh.participants = []

instance (e : LedgerEntry) : Decidable e.Ownerless :=
  inferInstanceAs (Decidable (¬ e.account.valid ∧ ∀ sh ∈ e.shared, sh.participants = []))

theorem participantsOf_eq_nil_iff (e : LedgerEntry) : participantsOf e = [] ↔ e.Ownerless := by
  unfold participantsOf LedgerEntry.Ownerless
  cases hshared : e.shared with
  | none => simp
  | some sh =>
    by_cases hnil : sh.participants = []
    · simp [hnil]
    · simp [hnil]

/-- The parts of a quantity that beneficiaries with the id of the residual account have. -/
def namedResidual (e : LedgerEntry) (q : Quantity) (d : Dimension) : Nat :=
  ((participantsOf e).zipIdx.map fun p =>
    if p.1.1 = residualAccount then
      share (e.quantity q d).toNat (((participantsOf e).map (·.2)).map UInt64.toNat) p.2
    else 0).sum

theorem attributed_residual {e : LedgerEntry} (hvalid : e.validate = true) (q : Quantity)
    (d : Dimension) :
    attributed e residualAccount q.bucket d =
      (if e.Ownerless then (e.quantity q d).toNat else 0) + namedResidual e q d := by
  obtain ⟨rest, hshares, hrest⟩ := shares_eq e
  have hlast : postedBy e.classification rest residualAccount q.bucket d =
      (e.portion q d).2.toNat := by
    rcases hrest with rfl | ⟨rfl, hzero⟩
    · rw [postedBy_cons, amount_quantity, field_residualShare, postedBy_nil, Nat.add_zero]
      exact if_pos rfl
    · rw [hzero, UInt64.toNat_zero]
      rfl
  have hparts : postedBy e.classification ((participantsOf e).zipIdx.map e.participantShare)
      residualAccount q.bucket d = ((participantsOf e).zipIdx.map fun p =>
        if p.1.1 = residualAccount then ((e.portion q d).1.getD p.2 0).toNat else 0).sum := by
    unfold postedBy
    rw [List.map_map]
    congr 1
    apply List.map_congr_left
    intro p _
    simp only [Function.comp_apply, amount_quantity, field_participantShare]
    rfl
  unfold attributed
  rw [hshares, postedBy_append, hparts, hlast]
  by_cases hnil : participantsOf e = []
  · have hwhole := portion_sum e q d
    have hnone : (e.portion q d).1 = [] := by
      apply List.length_eq_zero_iff.mp
      rw [length_portion, hnil]
      rfl
    rw [hnone, total_nil, Nat.zero_add] at hwhole
    rw [if_pos ((participantsOf_eq_nil_iff e).mp hnil), hwhole]
    unfold namedResidual
    rw [hnil]
    simp
  · obtain ⟨hshare, hzero⟩ := portion_of_valid hvalid hnil q d
    rw [if_neg fun h => hnil ((participantsOf_eq_nil_iff e).mpr h), hzero, UInt64.toNat_zero,
      Nat.add_zero, Nat.zero_add]
    unfold namedResidual
    congr 1
    apply List.map_congr_left
    intro p hp
    have hlt : p.2 < (participantsOf e).length := by
      have hmem := List.snd_lt_of_mem_zipIdx hp
      omega
    rw [hshare p.2 hlt]

/-! ### The totals of an account over a run -/

/-- Where the totals loops give up, the postings made before cancel out in the physical, avoided and
stranded totals of the account. -/
def LeavesNoQuantity (ord : IterationOrder) (a : AccountId) (s : EfficiencyLedger)
    (e : LedgerEntry) : Prop :=
  s.Admits e → ∀ pre p, StopsAt s.accounts (postings ord s.toBooks e) pre p →
    ∀ (q : Quantity) d, net pre (a, q.bucket, d) = 0

theorem leavesNoQuantity_of_isOk {ord : IterationOrder} {s : EfficiencyLedger} {e : LedgerEntry}
    (h : (appendLocked ord e s).isOk = true) (a : AccountId) : LeavesNoQuantity ord a s e :=
  fun hadm _ _ hstop => absurd hstop (not_stopsAt_of_isOk ord h hadm)

/-- The totals of the account are what the ordinary entries attribute to it. -/
structure Books.Attributed (b : Books) (a : AccountId) : Prop where
  wf : b.Wf
  totals : ∀ (q : Quantity) d, ((b.accounts.get a).bucket q.bucket d).toNat =
    ((ordinaryEntries b.history).map fun e => attributed e a q.bucket d).sum

theorem attributed_empty (a : AccountId) : Books.Attributed {} a :=
  ⟨Books.wf_empty, fun q _ => by cases q <;> rfl⟩

theorem attributed_appendLocked {ord : IterationOrder} {a : AccountId} (s : EfficiencyLedger)
    (e : LedgerEntry) (h : s.toBooks.Attributed a) (hleaves : LeavesNoQuantity ord a s e) :
    (appendLocked ord e s).state.toBooks.Attributed a := by
  have hwf := wf_appendLocked ord s e h.wf
  refine ⟨hwf, fun q d => ?_⟩
  have htotal := h.totals q d
  rcases appendLocked_cases ord s e with ⟨-, hrun⟩ | ⟨hadm, accounts, hpost, hrun⟩ |
    ⟨hadm, pre, p, accounts, hstop, hpre, hrun⟩
  · rw [hrun]
    exact htotal
  · have hread := toNat_read_of_postAll hpost a q.bucket d
    rw [net_postings_quantity ord a d h.wf hadm.books q] at hread
    rw [hrun, EStateM.Result.state, withBooks_toBooks, Books.record_accounts,
      withAccounts_accounts, Books.record_history, withAccounts_history, sum_ordinaryEntries_append]
    split_ifs at hread ⊢ <;> omega
  · have hread := toNat_read_of_postAll hpre a q.bucket d
    rw [hleaves hadm pre p hstop q d] at hread
    rw [hrun, EStateM.Result.state, withBooks_toBooks, withAccounts_accounts, withAccounts_history]
    omega

/-- **The totals of an account are what the accepted entries attribute to it**, where no append that
gives up leaves a residue in them. -/
theorem attributed_run (ord : IterationOrder) (id : LedgerId) (ops : List Op) (a : AccountId)
    (h : AppendsMeet ord (LeavesNoQuantity ord a) (.fresh id) ops) :
    (run ord (.fresh id) ops).toBooks.Attributed a :=
  books_invariant_of_appendsMeet (P := fun b => b.Attributed a) (attributed_empty a)
    attributed_appendLocked (s := .fresh id) (attributed_empty a) h

/-! ### Isolation -/

/-- The residual account holds exactly the quantities of the ownerless entries, and no entry with
beneficiaries brings anything to it. -/
structure Books.ResidualIsolated (b : Books) : Prop where
  totals : ∀ (q : Quantity) d, ((b.accounts.get residualAccount).bucket q.bucket d).toNat =
    (((ordinaryEntries b.history).filter (·.Ownerless)).map fun e => (e.quantity q d).toNat).sum
  unnamed : ∀ e ∈ ordinaryEntries b.history, ¬ e.Ownerless →
    ∀ (q : Quantity) d, attributed e residualAccount q.bucket d = 0

theorem namedResidual_of_ownerless {e : LedgerEntry} (h : e.Ownerless) (q : Quantity)
    (d : Dimension) : namedResidual e q d = 0 := by
  unfold namedResidual
  rw [(participantsOf_eq_nil_iff e).mpr h]
  rfl

/-- **When the residual account is isolated**: exactly where the parts that the accepted entries give
it by name are all zero. -/
theorem residual_isolated_iff (ord : IterationOrder) (id : LedgerId) (ops : List Op)
    (h : AppendsMeet ord (LeavesNoQuantity ord residualAccount) (.fresh id) ops) :
    (run ord (.fresh id) ops).ResidualIsolated ↔
      ∀ e ∈ ordinaryEntries (run ord (.fresh id) ops).history, ∀ q d, namedResidual e q d = 0 := by
  have hvalid : ∀ e ∈ ordinaryEntries (run ord (.fresh id) ops).history, e.validate = true :=
    fun e he => validate_run ord id ops e (mem_ordinaryEntries.mp he).1
  constructor
  · intro hisolated e he q d
    by_cases howner : e.Ownerless
    · exact namedResidual_of_ownerless howner q d
    · have hzero := hisolated.unnamed e he howner q d
      rw [attributed_residual (hvalid e he), if_neg howner, Nat.zero_add] at hzero
      exact hzero
  · intro hnamed
    refine ⟨fun q d => ?_, fun e he howner q d => ?_⟩
    · rw [(attributed_run ord id ops residualAccount h).totals]
      have hparts : (ordinaryEntries (run ord (.fresh id) ops).history).map
          (fun e => attributed e residualAccount q.bucket d) =
            (ordinaryEntries (run ord (.fresh id) ops).history).map
              fun e => if e.Ownerless then (e.quantity q d).toNat else 0 := by
        apply List.map_congr_left
        intro e he
        rw [attributed_residual (hvalid e he), hnamed e he, Nat.add_zero]
      rw [hparts, List.sum_map_ite]
      simp
    · rw [attributed_residual (hvalid e he), if_neg howner, hnamed e he]

/-- An entry without an owner. -/
def ownerlessEntry : LedgerEntry :=
  { id := ⟨1⟩
    event := EventType.kExecutionProgress
    usage := ⟨fun _ => 5⟩
    shared := some {} }

theorem residual_isolated_ownerless :
    (run default (.fresh kDefaultLedgerId) [.append ownerlessEntry]).ResidualIsolated ↔
      ∀ e ∈ ordinaryEntries (run default (.fresh kDefaultLedgerId) [.append ownerlessEntry]).history,
        ∀ q d, namedResidual e q d = 0 :=
  residual_isolated_iff default kDefaultLedgerId [.append ownerlessEntry]
    ⟨⟨leavesNoQuantity_of_isOk (by decide +kernel) _, fun _ _ => trivial⟩, trivial⟩

/-- An entry whose owner has the id of the residual account. -/
def namingEntry : LedgerEntry :=
  { id := ⟨1⟩
    event := EventType.kExecutionProgress
    usage := ⟨fun _ => 5⟩
    account := ⟨0xFFFFFFFFFFFFFFFF⟩ }

theorem residual_not_isolated :
    ¬ ∀ (ord : IterationOrder) (id : LedgerId) (ops : List Op),
      (run ord (.fresh id) ops).ResidualIsolated := by
  intro h
  have htotal := (h default kDefaultLedgerId [.append namingEntry]).totals .physical 0
  revert htotal
  decide +kernel

end El
