import EfficiencyLedger.Law.AttemptFences
import EfficiencyLedger.Law.Lifecycle
import EfficiencyLedger.Proof.Totals

/-!
# The books only grow

`Books.Extends` is the order of time on the books: entries stay where they are in the history, what is
on record of an attempt that has ended stays as it is, what was completed or published stays so, and no
physical, avoided or stranded total ever goes down. Every call keeps it, also one that fails half way,
so it holds between any two states of a run without loads (`books_grow`).
-/

namespace El

open Counters CounterStore

/-! ### The order -/

/-- What is on record of an attempt, earlier and later. -/
structure AttemptState.Precedes (st st' : AttemptState) : Prop where
  outcome : st.outcome ≠ AttemptOutcome.kPending → st'.outcome = st.outcome
  generation : st.outcome ≠ AttemptOutcome.kPending → st'.generation = st.generation
  publication : st.lastPublication.value ≤ st'.lastPublication.value

/-- The books `b`, earlier, and the books `c`, later. -/
structure Books.Extends (b c : Books) : Prop where
  history : b.history <+: c.history
  index : ∀ id ∈ b.index, c.index.lookup id = b.index.lookup id
  attempts : ∀ A st, b.attempts.lookup A = some st →
    ∃ st', c.attempts.lookup A = some st' ∧ st.Precedes st'
  completed : ∀ k : LifecycleKind, k.completed b ⊆ k.completed c
  accounts : ∀ a ∈ b.accounts, a ∈ c.accounts
  totals : ∀ a (q : Quantity) d,
    ((b.accounts.get a).bucket q.bucket d).toNat ≤ ((c.accounts.get a).bucket q.bucket d).toNat

theorem AttemptState.Precedes.refl (st : AttemptState) : st.Precedes st :=
  ⟨fun _ => rfl, fun _ => rfl, UInt64.le_refl _⟩

theorem AttemptState.Precedes.trans {st st' st'' : AttemptState} (h : st.Precedes st')
    (h' : st'.Precedes st'') : st.Precedes st'' := by
  refine ⟨fun hst => ?_, fun hst => ?_, UInt64.le_trans h.publication h'.publication⟩
  · have hmid := h.outcome hst
    rw [h'.outcome (by rwa [hmid]), hmid]
  · have hmid := h.outcome hst
    rw [h'.generation (by rwa [hmid]), h.generation hst]

namespace Books.Extends

variable {b c d : Books}

theorem refl (b : Books) : b.Extends b :=
  ⟨List.prefix_refl _, fun _ _ => rfl, fun _ st hst => ⟨st, hst, .refl st⟩,
    fun _ => Finset.Subset.refl _, fun _ ha => ha, fun _ _ _ => Nat.le_refl _⟩

theorem trans (h : b.Extends c) (h' : c.Extends d) : b.Extends d := by
  refine ⟨h.history.trans h'.history, fun id hid => ?_, fun A st hst => ?_,
    fun k => (h.completed k).trans (h'.completed k), fun a ha => h'.accounts a (h.accounts a ha),
    fun a q d => (h.totals a q d).trans (h'.totals a q d)⟩
  · have hmid : id ∈ c.index := by
      rw [Finmap.mem_iff] at hid ⊢
      rwa [h.index id (Finmap.mem_iff.mpr hid)]
    rw [h'.index id hmid, h.index id hid]
  · obtain ⟨st', hst', hle⟩ := h.attempts A st hst
    obtain ⟨st'', hst'', hle'⟩ := h'.attempts A st' hst'
    exact ⟨st'', hst'', hle.trans hle'⟩

end Books.Extends

/-! ### One call -/

theorem precedes_record {st : AttemptState} {e : LedgerEntry} (h : st.Allows e) :
    st.Precedes (st.record e) := by
  refine ⟨fun hst => ?_, fun hst => ?_, ?_⟩
  · rw [AttemptState.record_outcome, if_neg (h.outcome hst)]
  · rw [AttemptState.record_generation, if_neg (h.outcome hst)]
  · rw [AttemptState.record_lastPublication]
    split
    · rename_i hpub
      rcases hpub.2 with hunset | hlater
      · have hzero : st.lastPublication.value = 0 := not_not.mp hunset
        rw [hzero]
        exact UInt64.zero_le
      · exact UInt64.le_of_lt hlater
    · exact UInt64.le_refl _

theorem side_of_quantity {ord : IterationOrder} {b : Books} {e : LedgerEntry}
    {p : Posting (AccountId × Cell) Status} (hp : p ∈ postings ord b e) {a : AccountId} {q : Quantity}
    {d : Dimension} (hkey : p.key = (a, q.bucket, d)) : p.side = .credit := by
  unfold postings at hp
  split at hp
  · cases ht : b.target e with
    | none => simp [ht] at hp
    | some t =>
      simp only [ht, revisionPostings] at hp
      split at hp
      · rename_i src dst hsrc hdst
        obtain ⟨sh, -, hp⟩ := List.mem_flatMap.mp hp
        obtain ⟨r, hr, rfl⟩ := List.mem_map.mp hp
        rcases List.mem_append.mp hr with hr | hr
        · obtain ⟨d', -, rfl⟩ := List.mem_map.mp hr
          have hbucket : src = q.bucket := congrArg (·.2.1) hkey
          rw [hbucket] at hsrc
          exact absurd hsrc (consumptionBucket_ne_quantity _ q)
        · obtain ⟨d', -, rfl⟩ := List.mem_map.mp hr
          rfl
      · simp at hp
  · exact credits_appendPostings ord e p hp

theorem extends_record {b : Books} {e : LedgerEntry} {accounts : Accounts} (hadm : b.Admits e)
    (haccounts : b.Extends (b.withAccounts accounts)) :
    b.Extends ((b.withAccounts accounts).record e) := by
  refine ⟨?_, fun id hid => ?_, fun A st hst => ?_, fun k => ?_, fun a ha => ?_, fun a q d => ?_⟩
  · rw [Books.record_history]
    exact List.prefix_append _ _
  · have hne : id ≠ e.id := fun heq => hadm.fresh (heq ▸ hid)
    rw [Books.record_index, Finmap.lookup_insert_of_ne _ hne]
    rfl
  · have hlookup : (b.withAccounts accounts).attempts.lookup A = some st := hst
    rw [record_attempts, hlookup]
    split
    · rename_i hmine
      obtain ⟨-, hattempt, rfl⟩ := hmine
      exact ⟨_, rfl, precedes_record (hadm.allows hattempt hst)⟩
    · exact ⟨st, rfl, .refl st⟩
  · have hsame : k.completed (b.withAccounts accounts) = k.completed b := by cases k <;> rfl
    rw [k.completed_record, hsame]
    split
    · exact Finset.subset_insert _ _
    · exact Finset.Subset.refl _
  · rw [Books.record_accounts]
    exact haccounts.accounts a ha
  · rw [Books.record_accounts]
    exact haccounts.totals a q d

theorem extends_withAccounts {ord : IterationOrder} {b : Books} {e : LedgerEntry}
    {pre : List (Posting (AccountId × Cell) Status)} (hpre : pre <+: postings ord b e)
    {accounts : Accounts} (hpost : postAll pre b.accounts = .ok ⟨⟩ accounts) :
    b.Extends (b.withAccounts accounts) := by
  refine ⟨List.prefix_refl _, fun _ _ => rfl, fun _ st hst => ⟨st, hst, .refl st⟩, fun k => ?_,
    fun a ha => (mem_of_postAll_ok hpost a).mpr (.inl ha), fun a q d => ?_⟩
  · cases k <;> exact Finset.Subset.refl _
  · have hread := read_of_postAll_ok hpost (a, q.bucket, d)
    have hnet : 0 ≤ net pre (a, q.bucket, d) :=
      net_nonneg fun p hp hkey => side_of_quantity (hpre.subset hp) hkey
    change (((accounts.get a).bucket q.bucket d).toNat : Int) =
      ((b.accounts.get a).bucket q.bucket d).toNat + net pre (a, q.bucket, d) at hread
    rw [withAccounts_accounts]
    omega

theorem extends_appendLocked (ord : IterationOrder) (s : EfficiencyLedger) (e : LedgerEntry) :
    s.toBooks.Extends (appendLocked ord e s).state.toBooks := by
  rcases appendLocked_cases ord s e with ⟨-, hrun⟩ | ⟨hadm, accounts, hpost, hrun⟩ |
    ⟨-, pre, p, accounts, hstop, hpre, hrun⟩
  · rw [hrun]
    exact .refl _
  · rw [hrun]
    exact extends_record hadm.books (extends_withAccounts (List.prefix_refl _) hpost)
  · obtain ⟨suf, hsplit⟩ := hstop.split
    rw [hrun]
    exact extends_withAccounts ⟨p :: suf, hsplit.symm⟩ hpre

/-! ### Runs -/

theorem extends_run (ord : IterationOrder) (s : EfficiencyLedger) (ops : List Op)
    (h : ∀ op ∈ ops, op.isLoad = false) : s.toBooks.Extends (run ord s ops).toBooks :=
  run_books_of_not_load (P := s.toBooks.Extends)
    (fun t e ht => ht.trans (extends_appendLocked ord t e)) h (.refl _)

/-- **The books only grow.** From any moment of any run on, as long as nothing is loaded and whatever
fails on the way: entries keep their place and their id, the outcome and the generation of an attempt
that has ended stay, its last publication only moves forward, completed owners stay completed, and no
physical, avoided or stranded total goes down. -/
theorem books_grow (ord : IterationOrder) (id : LedgerId) (ops later : List Op)
    (h : ∀ op ∈ later, op.isLoad = false) :
    (run ord (.fresh id) ops).toBooks.Extends (run ord (.fresh id) (ops ++ later)).toBooks := by
  unfold run
  rw [Machine.run_append]
  exact extends_run ord _ later h

theorem books_grow_refused :
    let first := [Op.append (probe ⟨1⟩ {} {})]
    let later := [Op.append (probe ⟨1⟩ {} {}), .append (probe ⟨2⟩ {} { workerBoot := ⟨7⟩ }),
      .setShuttingDown]
    (run default (.fresh kDefaultLedgerId) first).toBooks.Extends
      (run default (.fresh kDefaultLedgerId) (first ++ later)).toBooks :=
  books_grow default kDefaultLedgerId _ _ (by decide)

end El
