import EfficiencyLedger.Proof.Persistence
import EfficiencyLedger.Proof.Replay

/-!
# Error atomicity

A call that fails keeps what it had written. For `append` that is what the commit loop added before
the first counter without room (`append_unchanged_iff`); for a load it is the cleared state with
the part of the record that was replayed (`load_unchanged_iff`).
-/

namespace El

open CheckedU64 Counters CounterStore

/-! ### Postings that leave the map of accounts as it is -/

theorem write_read_self (agg : AccountAggregate) (c : Cell) : write agg c (read agg c) = agg := by
  apply AccountAggregate.ext_bucket
  intro b
  show (agg.setBucket c.1 (Function.update (agg.bucket c.1) c.2 (agg.bucket c.1 c.2))).bucket b = _
  rw [Function.update_eq_self]
  by_cases hb : b = c.1
  · rw [hb, AccountAggregate.bucket_setBucket_self]
  · rw [AccountAggregate.bucket_setBucket_of_ne _ _ hb]

theorem post_zero_of_mem {p : Posting (AccountId × Cell) Status} {accounts : Accounts}
    (hp : p.amount = 0) (hmem : p.key.1 ∈ accounts) : post p accounts = .ok ⟨⟩ accounts := by
  obtain ⟨accounts', hpost, hread⟩ := post_zero hp accounts
  obtain ⟨v, -, hwrite⟩ := post_of_fits (fits_of_post_ok hpost)
  rw [hwrite] at hpost
  have hsame : write accounts p.key v = accounts := by
    have hv : v = read (accounts.get p.key.1) p.key.2 := by
      have hk := hread p.key
      cases hpost
      rwa [read_write_self] at hk
    show accounts.insert p.key.1 (write (accounts.get p.key.1) p.key.2 v) = accounts
    rw [hv, write_read_self, insert_get_self hmem]
  rw [hwrite, hsame]

theorem postAll_zero_of_mem {ps : List (Posting (AccountId × Cell) Status)} {accounts : Accounts}
    (h : ∀ p ∈ ps, p.amount = 0 ∧ p.key.1 ∈ accounts) :
    postAll ps accounts = .ok ⟨⟩ accounts := by
  induction ps with
  | nil => rfl
  | cons p ps ih =>
    obtain ⟨hzero, hmem⟩ := h p (by simp)
    rw [postAll_cons, EStateM.bind_of_ok (post_zero_of_mem hzero hmem)]
    exact ih fun q hq => h q (by simp [hq])

theorem zero_of_postAll_unchanged {ps : List (Posting (AccountId × Cell) Status)}
    {accounts : Accounts} (hps : Credits ps) (hkeys : (ps.map Posting.key).Nodup)
    (h : postAll ps accounts = .ok ⟨⟩ accounts) :
    ∀ p ∈ ps, p.amount = 0 ∧ p.key.1 ∈ accounts := by
  intro p hp
  refine ⟨?_, (mem_of_postAll_ok h p.key.1).mpr (.inr ⟨p, hp, rfl⟩)⟩
  have hread := read_of_postAll_ok h p.key
  rw [net_of_mem hkeys hp, hps.signed hp] at hread
  rw [← UInt64.toNat_inj, UInt64.toNat_zero]
  omega

/-! ### Append -/

/-- Where the entry passes the checks and the commit loop stops at a counter without room, the
additions before it were all of zero, to accounts the ledger already had. -/
def StopsUntouched (ord : IterationOrder) (s : EfficiencyLedger) (e : LedgerEntry) : Prop :=
  s.Admits e → ∀ pre p, StopsAt s.accounts (appendPostings ord e) pre p →
    ∀ q ∈ pre, q.amount = 0 ∧ q.key.1 ∈ s.accounts

/-- **When a failed append leaves the ledger alone**: exactly where no counter was touched before
the one without room. -/
theorem append_unchanged_iff (ord : IterationOrder) (s : EfficiencyLedger) (e : LedgerEntry)
    (hevent : e.event ≠ EventType.kReclassify) :
    (∀ st s', appendLocked ord e s = .error st s' → s' = s) ↔ StopsUntouched ord s e := by
  have hpostings := postings_of_ordinary ord s.toBooks hevent
  constructor
  · intro hsame hadm pre p hstop
    obtain ⟨accounts, hpre, hcall⟩ := appendLocked_of_stopsAt ord hadm (by rwa [hpostings])
    have hacc : accounts = s.accounts := congrArg (·.accounts) (hsame _ _ hcall)
    rw [hacc] at hpre
    obtain ⟨suf, hsplit⟩ := hstop.split
    have hcredits := credits_appendPostings ord e
    have hnodup := nodup_keys_appendPostings ord e
    rw [hsplit] at hcredits hnodup
    rw [List.map_append] at hnodup
    exact zero_of_postAll_unchanged (Credits.append.mp hcredits).1 (List.Nodup.of_append_left hnodup)
      hpre
  · intro huntouched st s' hcall
    rcases appendLocked_cases ord s e with ⟨-, hrun⟩ | ⟨-, accounts, -, hrun⟩ |
      ⟨hadm, pre, p, accounts, hstop, hpre, hrun⟩
    · rw [hrun] at hcall
      cases hcall
      rfl
    · rw [hrun] at hcall
      cases hcall
    · rw [hpostings] at hstop
      rw [postAll_zero_of_mem (huntouched hadm pre p hstop)] at hpre
      rw [hrun] at hcall
      cases hpre
      cases hcall
      rfl

/-- An entry of the account 7 that consumes `u` and `v` in the first two dimensions. -/
def twoDimensions (id : UInt64) (u v : UInt64) : LedgerEntry :=
  { id := ⟨id⟩
    event := EventType.kExecutionProgress
    usage := ⟨fun d => if d = 0 then u else if d = 1 then v else 0⟩
    account := ⟨7⟩ }

theorem append_unchanged_twoDimensions :
    (∀ st s', appendLocked default (twoDimensions 1 2 3) (.fresh kDefaultLedgerId) = .error st s' →
      s' = .fresh kDefaultLedgerId) ↔
      StopsUntouched default (.fresh kDefaultLedgerId) (twoDimensions 1 2 3) :=
  append_unchanged_iff default _ _ (by decide)

/-- With the second dimension full, an append that also uses the first returns an overflow and
leaves its usage of the first behind. -/
theorem append_overflow_changes :
    ¬ ∀ (ord : IterationOrder) (ops : List Op) (e : LedgerEntry),
      e.event ≠ EventType.kReclassify → ∀ st s',
        appendLocked ord e (run ord (.fresh kDefaultLedgerId) ops) = .error st s' →
          s' = run ord (.fresh kDefaultLedgerId) ops := by
  intro h
  let ops : List Op := [.append (twoDimensions 1 0 0xFFFFFFFFFFFFFFFF)]
  have hcall := h default ops (twoDimensions 2 1 1) (by decide)
  let r := appendLocked default (twoDimensions 2 1 1) (run default (.fresh kDefaultLedgerId) ops)
  have hbefore :
      ((run default (.fresh kDefaultLedgerId) ops).accountSummary ⟨7⟩).physical 0 = 0 := by
    decide +kernel
  have hafter : (r.state.accountSummary ⟨7⟩).physical 0 = 1 := by decide +kernel
  have hfail : r.isOk = false := by decide +kernel
  cases hr : r with
  | ok u s' =>
    rw [hr] at hfail
    cases hfail
  | error st s' =>
    rw [hr] at hafter
    have hsame := hcall st s' hr
    rw [EStateM.Result.state, hsame, hbefore] at hafter
    cases hafter

/-! ### Load -/

/-- The ledgers agree on all that a load replaces. -/
structure EfficiencyLedger.Same (s t : EfficiencyLedger) : Prop where
  ledgerId : s.ledgerId = t.ledgerId
  epoch : s.epoch = t.epoch
  ledgerGeneration : s.ledgerGeneration = t.ledgerGeneration
  accountGeneration : s.accountGeneration = t.accountGeneration
  shuttingDown : s.shuttingDown = t.shuttingDown
  books : s.toBooks.Same t.toBooks

theorem EfficiencyLedger.Same.refl (s : EfficiencyLedger) : s.Same s :=
  ⟨rfl, rfl, rfl, rfl, rfl, Books.Same.refl _⟩

section Load

variable (ord : IterationOrder) (s : EfficiencyLedger)

/-- Entry after entry, the record replays to books under its own header. -/
def Replays (r : Record) : Prop :=
  ∃ b, Rebuilt ord (installRecord r s).FencesMatch r.entries b

/-- The ledger already is what the replay of the record leaves when an entry stops it. -/
def AlreadyLeft (r : Record) : Prop :=
  ∃ pre e suf b accounts, r.entries = pre ++ e :: suf ∧
    Rebuilt ord (installRecord r s).FencesMatch pre b ∧
    LeftAt ord (installRecord r s).FencesMatch b e accounts ∧
    ((installRecord r s).withBooks (b.withAccounts accounts)).Same s

/-- **When a failed load leaves the ledger alone**: exactly where the record does not parse, where
it replays, so that the load does not fail, or where the ledger was in the state the failed replay
ends in. -/
theorem load_unchanged_iff (bytes : Bytes) :
    (∀ f s', loadFromString ord bytes s = .error f s' → s'.Same s) ↔
      ∀ r, parseRecord bytes = .ok r → Replays ord s r ∨ AlreadyLeft ord s r := by
  constructor
  · intro hsame r hparse
    rcases loadHistory_cases ord (s := installRecord r s) rfl r.entries with ⟨b, hb, -⟩ |
      ⟨pre, e, suf, b, accounts, st, hsplit, hpre, hleft, hload⟩
    · exact .inl ⟨b, hb⟩
    · right
      have hcall : loadFromString ord bytes s = .error (corrupt (some ("replay: " ++ st.message))
          ("replay rejected loaded history: " ++ st.message))
          (((installRecord r s).withBooks (b.withAccounts accounts)).setReplaying false) := by
        rw [loadFromString_of_parseRecord ord s hparse, hload]
      obtain ⟨hid, hepoch, hledger, haccount, hdown, hbooks⟩ := hsame _ _ hcall
      exact ⟨pre, e, suf, b, accounts, hsplit, hpre, hleft, hid, hepoch, hledger, haccount, hdown,
        hbooks⟩
  · intro hcond f s' hcall
    cases hparse : parseRecord bytes with
    | error f' =>
      unfold loadFromString at hcall
      rw [hparse] at hcall
      cases hcall
      exact .refl s
    | ok r =>
      rw [loadFromString_of_parseRecord ord s hparse] at hcall
      rcases hcond r hparse with ⟨b, hb⟩ | ⟨pre, e, suf, b, accounts, hsplit, hpre, hleft, hsame⟩
      · rw [loadHistory_of_rebuilt ord rfl hb] at hcall
        cases hcall
      · obtain ⟨st, hload⟩ := loadHistory_of_leftAt ord (s := installRecord r s) rfl hpre hleft suf
        rw [hsplit, hload] at hcall
        cases hcall
        exact ⟨hsame.ledgerId, hsame.epoch, hsame.ledgerGeneration, hsame.accountGeneration,
          hsame.shuttingDown, hsame.books⟩

end Load

/-- An entry that names the epoch it was accepted in. -/
def fencedEntry (id : UInt64) (epoch : CoordinatorEpoch) : LedgerEntry :=
  { id := ⟨id⟩, event := EventType.kExecutionProgress, account := ⟨7⟩, fences := { epoch } }

/-- A record saved after the epoch advanced over an entry that names it: loading it over another
history fails and clears that history. -/
theorem load_stale_changes :
    ¬ ∀ (ord : IterationOrder) (s : EfficiencyLedger) (bytes : Bytes) (f : LoadFailure)
      (s' : EfficiencyLedger), loadFromString ord bytes s = .error f s' → s'.Same s := by
  intro h
  let saved := run default (.fresh kDefaultLedgerId) [.append (fencedEntry 1 ⟨1⟩), .advanceEpoch]
  let s := run default (.fresh kDefaultLedgerId) [.append (fencedEntry 2 {})]
  have hparse : parseRecord saved.saveToString = .ok saved.record := by
    have hhistory : saved.history = [fencedEntry 1 ⟨1⟩] := by decide +kernel
    refine parseRecord_saveToString ⟨?_, ?_⟩
    · rw [hhistory]
      decide
    · rw [hhistory]
      intro e he
      rw [List.mem_singleton.mp he]
      exact ⟨fun sh hsh => (by cases hsh), by decide⟩
  have hcall := loadFromString_of_parseRecord default s hparse
  let r := loadHistory default saved.record.entries (installRecord saved.record s)
  have hbefore : s.history.length = 1 := by decide +kernel
  have hafter : r.state.history.length = 0 := by decide +kernel
  have hfail : r.isOk = false := by decide +kernel
  cases hr : r with
  | ok u s' =>
    rw [hr] at hfail
    cases hfail
  | error st s' =>
    rw [show loadHistory default saved.record.entries (installRecord saved.record s) = _ from hr]
      at hcall
    rw [hr, EStateM.Result.state, (h default s _ _ s' hcall).books.history, hbefore] at hafter
    cases hafter

end El
