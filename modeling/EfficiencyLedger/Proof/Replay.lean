import EfficiencyLedger.Proof.Books

/-!
# Replay

`Rebuilt ord F es b` says that the entries `es`, admitted one after the other from empty books under
the fences `F`, lead to the books `b`. A replay either rebuilds all its entries or stops at the first
that is refused or finds no room (`appendAll_cases`), so loads are characterised by `Rebuilt` alone.

`Books.Same` relates books that agree on all that is observable of them; which accounts with zero
totals the map holds is not. Admission, postings and records respect it (`Same.admits`,
`Same.postAll_agree`, `Same.record`), so live books and rebuilt books can be run side by side.
-/

namespace El

open CheckedU64 Counters CounterStore

section Rebuilt

variable (ord : IterationOrder)

/-- The entries are admitted one after the other from empty books, and lead to these books. -/
inductive Rebuilt (F : LedgerEntry → Prop) : List LedgerEntry → Books → Prop
  | nil : Rebuilt F [] {}
  | snoc {es : List LedgerEntry} {b : Books} {e : LedgerEntry} {accounts : Accounts}
      (h : Rebuilt F es b) (hF : F e) (hadm : b.Admits e)
      (hpost : postAll (postings ord b e) b.accounts = .ok ⟨⟩ accounts) :
      Rebuilt F (es ++ [e]) ((b.withAccounts accounts).record e)

/-- What an entry that stops a replay leaves of the totals. -/
def LeftAt (F : LedgerEntry → Prop) (b : Books) (e : LedgerEntry) (accounts : Accounts) : Prop :=
  (¬ (F e ∧ b.Admits e) ∧ accounts = b.accounts) ∨
    (F e ∧ b.Admits e ∧ ∃ pre p, StopsAt b.accounts (postings ord b e) pre p ∧
      postAll pre b.accounts = .ok ⟨⟩ accounts)

variable {ord} {F : LedgerEntry → Prop} {es : List LedgerEntry} {b : Books}

theorem Rebuilt.history (h : Rebuilt ord F es b) : b.history = es := by
  induction h with
  | nil => rfl
  | snoc h hF hadm hpost ih =>
    rw [Books.record_history, ← ih]
    rfl

theorem Rebuilt.wf (h : Rebuilt ord F es b) : b.Wf := by
  induction h with
  | nil => exact Books.wf_empty
  | snoc h hF hadm hpost ih => exact ih.commit hadm hpost

theorem Rebuilt.invariant {P : Books → Prop} (hempty : P {})
    (hcommit : ∀ (b : Books) (e : LedgerEntry) (accounts : Accounts), P b → b.Admits e →
      P ((b.withAccounts accounts).record e))
    (h : Rebuilt ord F es b) : P b := by
  induction h with
  | nil => exact hempty
  | snoc h hF hadm hpost ih => exact hcommit _ _ _ ih hadm

theorem Rebuilt.fences (h : Rebuilt ord F es b) : ∀ e ∈ es, F e := by
  induction h with
  | nil => simp
  | snoc h hF hadm hpost ih =>
    intro x hx
    rcases List.mem_append.mp hx with hmem | hnew
    · exact ih x hmem
    · rw [List.mem_singleton.mp hnew]
      exact hF

theorem Rebuilt.of_fences {F' : LedgerEntry → Prop} (h : Rebuilt ord F es b) (hF' : ∀ e ∈ es, F' e) :
    Rebuilt ord F' es b := by
  induction h with
  | nil => exact .nil
  | snoc h hF hadm hpost ih =>
    exact .snoc (ih fun x hx => hF' x (by simp [hx])) (hF' _ (by simp)) hadm hpost

end Rebuilt

/-! ### Replays rebuild -/

section Replay

variable (ord : IterationOrder) {s : EfficiencyLedger}

theorem admits_replaying_iff (hrun : s.shuttingDown = false) (hrep : s.replaying = true) (b : Books)
    {e : LedgerEntry} :
    (s.withBooks b).Admits e ↔ s.FencesMatch e ∧ b.Admits e :=
  ⟨fun h => ⟨⟨h.fences.1, h.fences.2, h.fences.3⟩, h.books⟩,
    fun h => ⟨hrun, ⟨h.1.1, h.1.2, h.1.3⟩, fun hlive => absurd (hrep.symm.trans hlive) (by simp),
      h.2⟩⟩

theorem appendAll_cases (hrun : s.shuttingDown = false) (hrep : s.replaying = true)
    (es : List LedgerEntry) : ∀ {done : List LedgerEntry} {b : Books},
      Rebuilt ord s.FencesMatch done b →
      (∃ b', Rebuilt ord s.FencesMatch (done ++ es) b' ∧
        appendAll ord es (s.withBooks b) = .ok ⟨⟩ (s.withBooks b')) ∨
      ∃ pre e suf b' accounts st, es = pre ++ e :: suf ∧
        Rebuilt ord s.FencesMatch (done ++ pre) b' ∧ LeftAt ord s.FencesMatch b' e accounts ∧
        appendAll ord es (s.withBooks b) =
          .error st (s.withBooks (b'.withAccounts accounts)) := by
  induction es with
  | nil =>
    intro done b h
    exact .inl ⟨b, by rwa [List.append_nil], rfl⟩
  | cons e es ih =>
    intro done b h
    have hadm := @admits_replaying_iff s hrun hrep b e
    have hcons : appendAll ord (e :: es) (s.withBooks b) =
        (appendLocked ord e >>= fun _ => appendAll ord es) (s.withBooks b) := rfl
    rcases appendLocked_cases ord (s.withBooks b) e with ⟨hno, hcall⟩ |
      ⟨hyes, accounts, hpost, hcall⟩ | ⟨hyes, pre, p, accounts, hstop, hpre, hcall⟩
    · right
      refine ⟨[], e, es, b, b.accounts, refusal (s.withBooks b) e, rfl, by rwa [List.append_nil],
        .inl ⟨fun hb => hno (hadm.mpr hb), rfl⟩, ?_⟩
      rw [hcons, EStateM.bind_of_error hcall]
      rfl
    · obtain ⟨hF, hb⟩ := hadm.mp hyes
      have hnext := Rebuilt.snoc h hF hb hpost
      rw [hcons, EStateM.bind_of_ok hcall]
      rcases ih hnext with ⟨b', hb', hall⟩ | ⟨pre, e', suf, b', accounts', st, rfl, hb', hleft, hall⟩
      · left
        refine ⟨b', ?_, hall⟩
        rwa [List.append_assoc] at hb'
      · right
        refine ⟨e :: pre, e', suf, b', accounts', st, rfl, ?_, hleft, hall⟩
        rwa [List.append_assoc] at hb'
    · obtain ⟨hF, hb⟩ := hadm.mp hyes
      right
      refine ⟨[], e, es, b, accounts, p.onFail, rfl, by rwa [List.append_nil],
        .inr ⟨hF, hb, pre, p, hstop, hpre⟩, ?_⟩
      rw [hcons, EStateM.bind_of_error hcall]
      rfl

theorem appendAll_of_rebuilt (hrun : s.shuttingDown = false) (hrep : s.replaying = true)
    {es : List LedgerEntry} {b : Books} (h : Rebuilt ord s.FencesMatch es b) :
    appendAll ord es (s.withBooks {}) = .ok ⟨⟩ (s.withBooks b) := by
  induction h with
  | nil => rfl
  | @snoc es b e accounts h hF hadm hpost ih =>
    refine EStateM.forM_ok_append.mpr ⟨_, ih, ?_⟩
    have hyes := (admits_replaying_iff hrun hrep b).mpr ⟨hF, hadm⟩
    have hcall := appendLocked_of_admits ord hyes
    simp only [commit, withBooks_toBooks, hpost] at hcall
    exact EStateM.forM_ok_cons.mpr ⟨_, hcall, rfl⟩

theorem appendAll_of_leftAt (hrun : s.shuttingDown = false) (hrep : s.replaying = true)
    {pre : List LedgerEntry} {e : LedgerEntry} {b : Books} {accounts : Accounts}
    (h : Rebuilt ord s.FencesMatch pre b) (hleft : LeftAt ord s.FencesMatch b e accounts)
    (suf : List LedgerEntry) : ∃ st, appendAll ord (pre ++ e :: suf) (s.withBooks {}) =
      .error st (s.withBooks (b.withAccounts accounts)) := by
  have hpre := appendAll_of_rebuilt ord hrun hrep h
  have hadm := @admits_replaying_iff s hrun hrep b e
  have hsplit : appendAll ord (pre ++ e :: suf) (s.withBooks {}) =
      (appendLocked ord e >>= fun _ => appendAll ord suf) (s.withBooks b) := by
    have happend : (appendAll ord (pre ++ e :: suf) : LedgerM PUnit) =
        (appendAll ord pre >>= fun _ => appendAll ord (e :: suf)) := by
      show (pre ++ e :: suf).forM (appendLocked ord) = _
      simp only [appendAll]
      exact List.forM_append
    rw [happend, EStateM.bind_of_ok hpre]
    rfl
  rw [hsplit]
  rcases hleft with ⟨hno, rfl⟩ | ⟨hF, hb, pre', p, hstop, hpost⟩
  · exact ⟨_, EStateM.bind_of_error (appendLocked_of_not_admits ord fun h => hno (hadm.mp h)).1⟩
  · have hcall := appendLocked_of_admits ord (hadm.mpr ⟨hF, hb⟩)
    obtain ⟨accounts', hpost', herr⟩ := hstop.postAll_error
    rw [hpost] at hpost'
    cases hpost'
    simp only [commit, withBooks_toBooks, herr] at hcall
    exact ⟨_, EStateM.bind_of_error hcall⟩

/-- The ledger as it is during a replay, or after one. -/
def EfficiencyLedger.setReplaying (s : EfficiencyLedger) (r : Bool) : EfficiencyLedger :=
  { s with replaying := r }

theorem fencesMatch_setReplaying (r : Bool) : (s.setReplaying r).FencesMatch = s.FencesMatch :=
  funext fun _ => propext
    ⟨fun h => ⟨h.epoch, h.ledgerGeneration, h.accountGeneration⟩,
      fun h => ⟨h.epoch, h.ledgerGeneration, h.accountGeneration⟩⟩

theorem loadHistory_eq (es : List LedgerEntry) :
    loadHistory ord es s = match appendAll ord es ((s.setReplaying true).withBooks {}) with
      | .ok _ s' => .ok ⟨⟩ (s'.setReplaying false)
      | .error st s' => .error ⟨st.code, "replay failed: " ++ st.message⟩ (s'.setReplaying false) :=
  rfl

theorem loadHistory_of_rebuilt (hrun : s.shuttingDown = false) {es : List LedgerEntry} {b : Books}
    (h : Rebuilt ord s.FencesMatch es b) :
    loadHistory ord es s = .ok ⟨⟩ ((s.withBooks b).setReplaying false) := by
  rw [← fencesMatch_setReplaying true] at h
  rw [loadHistory_eq, appendAll_of_rebuilt ord (s := s.setReplaying true) hrun rfl h]
  rfl

theorem loadHistory_of_leftAt (hrun : s.shuttingDown = false) {pre : List LedgerEntry}
    {e : LedgerEntry} {b : Books} {accounts : Accounts} (h : Rebuilt ord s.FencesMatch pre b)
    (hleft : LeftAt ord s.FencesMatch b e accounts) (suf : List LedgerEntry) :
    ∃ st, loadHistory ord (pre ++ e :: suf) s =
      .error st ((s.withBooks (b.withAccounts accounts)).setReplaying false) := by
  rw [← fencesMatch_setReplaying true] at h hleft
  obtain ⟨st, hall⟩ :=
    appendAll_of_leftAt ord (s := s.setReplaying true) hrun rfl h hleft suf
  rw [loadHistory_eq, hall]
  exact ⟨_, rfl⟩

/-- **The two outcomes of a load**: it has rebuilt all entries, or an entry stopped it. -/
theorem loadHistory_cases (hrun : s.shuttingDown = false) (es : List LedgerEntry) :
    (∃ b, Rebuilt ord s.FencesMatch es b ∧
      loadHistory ord es s = .ok ⟨⟩ ((s.withBooks b).setReplaying false)) ∨
    ∃ pre e suf b accounts st, es = pre ++ e :: suf ∧ Rebuilt ord s.FencesMatch pre b ∧
      LeftAt ord s.FencesMatch b e accounts ∧
      loadHistory ord es s =
        .error st ((s.withBooks (b.withAccounts accounts)).setReplaying false) := by
  have hcases := appendAll_cases ord (s := s.setReplaying true) hrun rfl es .nil
  rw [fencesMatch_setReplaying] at hcases
  rcases hcases with ⟨b, hb, -⟩ | ⟨pre, e, suf, b, accounts, st, rfl, hb, hleft, -⟩
  · exact .inl ⟨b, hb, loadHistory_of_rebuilt ord hrun hb⟩
  · obtain ⟨st, hload⟩ := loadHistory_of_leftAt ord hrun hb hleft suf
    exact .inr ⟨pre, e, suf, b, accounts, st, rfl, hb, hleft, hload⟩

theorem rebuilt_of_loadHistory {es : List LedgerEntry} {s' : EfficiencyLedger}
    (h : loadHistory ord es s = .ok ⟨⟩ s') :
    ∃ b, Rebuilt ord s.FencesMatch es b ∧ s' = (s.withBooks b).setReplaying false := by
  by_cases hrun : s.shuttingDown = true
  · cases es with
    | nil =>
      cases h
      exact ⟨{}, .nil, rfl⟩
    | cons e es =>
      have hno : ¬ ((s.setReplaying true).withBooks {}).Admits e :=
        fun hadm => absurd (hrun.symm.trans hadm.running) (by simp)
      have hcall : appendAll ord (e :: es) ((s.setReplaying true).withBooks {}) = _ :=
        EStateM.bind_of_error (appendLocked_of_not_admits ord hno).1
      rw [loadHistory_eq, hcall] at h
      cases h
  · rcases loadHistory_cases ord (Bool.eq_false_iff.mpr hrun) es with ⟨b, hb, hload⟩ |
      ⟨pre, e, suf, b, accounts, st, -, -, -, hload⟩
    · rw [hload] at h
      cases h
      exact ⟨b, hb, rfl⟩
    · rw [hload] at h
      cases h

end Replay

/-! ### Books that are the same but for accounts with zero totals -/

namespace Books

structure Same (b c : Books) : Prop where
  history : b.history = c.history
  index : b.index = c.index
  attempts : b.attempts = c.attempts
  transferCompleted : b.transferCompleted = c.transferCompleted
  reservationReleased : b.reservationReleased = c.reservationReleased
  allocationReleased : b.allocationReleased = c.allocationReleased
  recoveryCompleted : b.recoveryCompleted = c.recoveryCompleted
  totals : ∀ k, read b.accounts k = read c.accounts k

theorem Same.refl (b : Books) : b.Same b := ⟨rfl, rfl, rfl, rfl, rfl, rfl, rfl, fun _ => rfl⟩

theorem Same.symm {b c : Books} (h : b.Same c) : c.Same b :=
  ⟨h.history.symm, h.index.symm, h.attempts.symm, h.transferCompleted.symm,
    h.reservationReleased.symm, h.allocationReleased.symm, h.recoveryCompleted.symm,
    fun k => (h.totals k).symm⟩

theorem Same.trans {b c d : Books} (h : b.Same c) (h' : c.Same d) : b.Same d :=
  ⟨h.history.trans h'.history, h.index.trans h'.index, h.attempts.trans h'.attempts,
    h.transferCompleted.trans h'.transferCompleted,
    h.reservationReleased.trans h'.reservationReleased,
    h.allocationReleased.trans h'.allocationReleased,
    h.recoveryCompleted.trans h'.recoveryCompleted, fun k => (h.totals k).trans (h'.totals k)⟩

variable {b c : Books}

theorem Same.of_accounts (h : b.Same c) {accounts accounts' : Accounts}
    (htotals : ∀ k, read accounts k = read accounts' k) :
    (b.withAccounts accounts).Same (c.withAccounts accounts') :=
  ⟨h.history, h.index, h.attempts, h.transferCompleted, h.reservationReleased,
    h.allocationReleased, h.recoveryCompleted, htotals⟩

theorem Same.target (h : b.Same c) (e : LedgerEntry) : b.target e = c.target e := by
  unfold Books.target
  rw [h.index, h.history]

theorem Same.attemptStatus (h : b.Same c) (e : LedgerEntry) :
    b.attemptStatus e = c.attemptStatus e := by
  unfold Books.attemptStatus
  rw [h.attempts]

theorem Same.checkLifecycle (h : b.Same c) (e : LedgerEntry) :
    checkLifecycle b e = checkLifecycle c e := by
  unfold El.checkLifecycle
  rw [h.transferCompleted, h.reservationReleased, h.allocationReleased, h.recoveryCompleted]

theorem Same.admits (h : b.Same c) {e : LedgerEntry} (hadm : b.Admits e) : c.Admits e := by
  refine ⟨hadm.valid, h.index ▸ hadm.fresh, ?_, fun hev => ?_, fun hev => ?_⟩
  · rw [← h.attemptStatus]
    exact hadm.attempt
  · obtain ⟨husage, t, ht, hcls⟩ := hadm.revision hev
    exact ⟨husage, t, (h.target e) ▸ ht, hcls⟩
  · obtain ⟨hconsistent, hlife⟩ := hadm.ordinary hev
    exact ⟨hconsistent, (h.checkLifecycle e) ▸ hlife⟩

theorem Same.postAll_agree (h : b.Same c) (hb : b.Wf) (hc : c.Wf) (ord : IterationOrder)
    (e : LedgerEntry) :
    Agree (postAll (postings ord b e) b.accounts) (postAll (postings ord c e) c.accounts) := by
  unfold postings
  by_cases hevent : e.event = EventType.kReclassify
  · rw [if_pos hevent, if_pos hevent, ← h.target]
    cases ht : b.target e with
    | none => exact Counters.postAll_agree h.totals
    | some t =>
      simp only
      refine postAll_agree_of_filter ?_ h.totals
      have hbt := hb.movable_target ht
      have hct := hc.movable_target ((h.target e) ▸ ht)
      cases hsrc : consumptionBucket t.classification with
      | none => simp only [revisionPostings, hsrc]
      | some src =>
        cases hdst : consumptionBucket e.classification with
        | none => simp only [revisionPostings, hsrc, hdst]
        | some dst =>
          rw [filter_revisionPostings _ _ hbt hsrc hdst, filter_revisionPostings _ _ hct hsrc hdst]
  · rw [if_neg hevent, if_neg hevent]
    exact Counters.postAll_agree h.totals

theorem Same.pushEntry (h : b.Same c) (e : LedgerEntry) : (b.pushEntry e).Same (c.pushEntry e) := by
  unfold Books.pushEntry
  rw [h.history, h.index]
  exact ⟨rfl, rfl, h.attempts, h.transferCompleted, h.reservationReleased, h.allocationReleased,
    h.recoveryCompleted, h.totals⟩

theorem Same.recordAttempt (h : b.Same c) (e : LedgerEntry) :
    (b.recordAttempt e).Same (c.recordAttempt e) := by
  unfold Books.recordAttempt
  rw [h.attempts]
  split
  · exact ⟨h.history, h.index, rfl, h.transferCompleted, h.reservationReleased,
      h.allocationReleased, h.recoveryCompleted, h.totals⟩
  · exact h

theorem Same.recordLifecycle (h : b.Same c) (e : LedgerEntry) :
    (b.recordLifecycle e).Same (c.recordLifecycle e) := by
  unfold Books.recordLifecycle
  rw [h.transferCompleted, h.reservationReleased, h.allocationReleased, h.recoveryCompleted]
  split
  · exact ⟨h.history, h.index, h.attempts, rfl, rfl, rfl, rfl, h.totals⟩
  · exact h

theorem Same.record (h : b.Same c) (e : LedgerEntry) : (b.record e).Same (c.record e) := by
  unfold Books.record
  split
  · exact h.pushEntry e
  · exact ((h.recordLifecycle e).recordAttempt e).pushEntry e

end Books

end El
