import EfficiencyLedger.Law.Conservation
import EfficiencyLedger.Proof.Reload
import EfficiencyLedger.Law.Refusals
import EfficiencyLedger.Law.Revision

/-!
# The journal

What a ledger is for, without its books: a list of accepted entries, and a rule that says from that list
alone whether the next entry is acceptable (`Acceptable`). The ledger never looks at the list. It keeps
an index, a record of every attempt, four sets of completed owners and the totals, and decides by them.
`Books.FromHistory` says of all these that they are what the list makes of them; then the ledger commits
an entry exactly where the rule accepts it (`commits_iff`), and appends keep it so
(`fromHistory_appendLocked`).
-/

namespace El

open CheckedU64 Counters CounterStore EStateM

/-! ### The rule -/

/-- What the entries of an attempt leave open to a new one: an attempt ends once, keeps the generation
it has ended with, and publishes in increasing order. -/
structure AttemptOpen (es : List LedgerEntry) (e : LedgerEntry) : Prop where
  ended : (∃ x ∈ es, x.hasOutcome) → ¬e.hasOutcome ∧ isCompletionSignal e.event = false
  generation : ∀ x ∈ es, x.hasOutcome → x.attempt.generation.valid → e.attempt.generation.valid →
    x.attempt.generation = e.attempt.generation
  publication : e.fences.publication.valid → ∀ x ∈ es, x.fences.publication.valid →
    x.fences.publication < e.fences.publication

/-- What the entries count in a bucket of an account: what the ordinary ones attribute to it, with what
their revisions move in and out. -/
def counted (es : List LedgerEntry) (a : AccountId) (bk : Bucket) (d : Dimension) : Int :=
  ((ordinaryEntries es).map fun t => attributed t a bk d + attributed t a .physical d *
    ((revisionsOf es t).map fun r =>
      classWeight r.classification bk - classWeight t.classification bk).sum).sum

/-- The usage of the target is still counted in its class. A revision within a class takes the shares
out one after the other, and puts each back before the next. -/
def Revisable (es : List LedgerEntry) (t : LedgerEntry) (c : ByteEnum EfficiencyClass) : Prop :=
  ∀ bk, consumptionBucket t.classification = some bk →
    if c = t.classification then
      ∀ sh ∈ (computeAttribution t).shares, ∀ d,
        ((sh.physical d).toNat : Int) ≤ counted es sh.account bk d
    else ∀ a d, (attributed t a .physical d : Int) ≤ counted es a bk d

/-- The next entry of the journal. -/
structure Acceptable (es : List LedgerEntry) (e : LedgerEntry) : Prop where
  valid : e.validate = true
  fresh : ∀ x ∈ es, x.id ≠ e.id
  attempt : e.hasAttempt → AttemptOpen (attemptEntries es e.attempt.id) e
  revision : e.event = EventType.kReclassify → e.usage.isZero ∧ ∃ t ∈ es,
    e.revisionTarget = some t.id ∧
      isConsumptionClass t.classification = isConsumptionClass e.classification ∧
      Revisable es t e.classification
  ordinary : e.event ≠ EventType.kReclassify → (checkClassificationConsistency e).ok = true ∧
    (∀ k : LifecycleKind, k.Completion e → k.owner e ∉ k.completions es) ∧
    ∀ a (q : Quantity) d,
      counted es a q.bucket d + attributed e a q.bucket d < u64Limit

/-! ### Attempts -/

/-- The record of an attempt is what its entries make of it. -/
structure AttemptKnown (es : List LedgerEntry) (st : AttemptState) : Prop where
  ended : st.outcome ≠ AttemptOutcome.kPending ↔ ∃ x ∈ es, x.hasOutcome
  generation : ∀ x ∈ es, x.hasOutcome → x.attempt.generation = st.generation
  unset : (∀ x ∈ es, ¬x.hasOutcome) → ¬st.generation.valid
  published : ∀ x ∈ es, x.fences.publication.valid →
    st.lastPublication.valid ∧ x.fences.publication ≤ st.lastPublication
  last : st.lastPublication.valid → ∃ x ∈ es, x.fences.publication = st.lastPublication

theorem AttemptKnown.nil : AttemptKnown [] {} := by
  refine ⟨⟨fun h => absurd rfl h, fun h => ?_⟩, fun x hx => ?_, fun _ h => h rfl, fun x hx => ?_,
    fun h => absurd rfl h⟩
  · obtain ⟨x, hx, -⟩ := h
    cases hx
  · cases hx
  · cases hx

section Attempt

variable {es : List LedgerEntry} {st : AttemptState} {e : LedgerEntry}

theorem AttemptKnown.snoc (h : AttemptKnown es st) (hallows : st.Allows e) :
    AttemptKnown (es ++ [e]) (st.record e) := by
  have hmem {x : LedgerEntry} (hx : x ∈ es ++ [e]) : x ∈ es ∨ x = e := by simpa using hx
  refine ⟨?_, fun x hx hout => ?_, fun hnone => ?_, fun x hx hpub => ?_, fun hlast => ?_⟩
  · rw [AttemptState.record_outcome]
    by_cases hout : e.hasOutcome
    · rw [if_pos hout]
      exact ⟨fun _ => ⟨e, by simp, hout⟩, fun _ => hout⟩
    · rw [if_neg hout, h.ended]
      constructor
      · rintro ⟨x, hx, hxout⟩
        exact ⟨x, by simp [hx], hxout⟩
      · rintro ⟨x, hx, hxout⟩
        rcases hmem hx with hold | rfl
        · exact ⟨x, hold, hxout⟩
        · exact absurd hxout hout
  · rw [AttemptState.record_generation]
    rcases hmem hx with hold | rfl
    · have hended := h.ended.mpr ⟨x, hold, hout⟩
      rw [if_neg (hallows.outcome hended)]
      exact h.generation x hold hout
    · rw [if_pos hout]
  · have hout : ¬e.hasOutcome := hnone e (by simp)
    rw [AttemptState.record_generation, if_neg hout]
    exact h.unset fun x hx => hnone x (by simp [hx])
  · rw [AttemptState.record_lastPublication]
    rcases hmem hx with hold | rfl
    · obtain ⟨hvalid, hle⟩ := h.published x hold hpub
      split
      · rename_i hnew
        have hlt := hallows.publication hnew.1 hvalid
        exact ⟨hnew.1, UInt64.le_of_lt (UInt64.lt_of_le_of_lt hle hlt)⟩
      · exact ⟨hvalid, hle⟩
    · have hnew : ¬st.lastPublication.valid ∨ st.lastPublication < x.fences.publication := by
        by_cases hvalid : st.lastPublication.valid
        · exact .inr (hallows.publication hpub hvalid)
        · exact .inl hvalid
      rw [if_pos ⟨hpub, hnew⟩]
      exact ⟨hpub, UInt64.le_refl _⟩
  · rw [AttemptState.record_lastPublication] at hlast ⊢
    split
    · exact ⟨e, by simp, rfl⟩
    · rename_i hold
      rw [if_neg hold] at hlast
      obtain ⟨x, hx, hxlast⟩ := h.last hlast
      exact ⟨x, by simp [hx], hxlast⟩

theorem AttemptKnown.allows_iff (h : AttemptKnown es st) : st.Allows e ↔ AttemptOpen es e := by
  constructor
  · intro hallows
    refine ⟨fun hended => ?_, fun x hx hout hxgen hgen => ?_, fun hpub x hx hxpub => ?_⟩
    · have hout := h.ended.mpr hended
      exact ⟨hallows.outcome hout, hallows.completion hout⟩
    · have hsame := h.generation x hx hout
      rw [hsame] at hxgen ⊢
      exact hallows.generation hxgen hgen
    · obtain ⟨hvalid, hle⟩ := h.published x hx hxpub
      exact UInt64.lt_of_le_of_lt hle (hallows.publication hpub hvalid)
  · intro hopen
    refine ⟨fun hst hgen => ?_, fun hout => (hopen.ended (h.ended.mp hout)).1,
      fun hout => (hopen.ended (h.ended.mp hout)).2, fun hpub hst => ?_⟩
    · obtain ⟨x, hx, hout⟩ : ∃ x ∈ es, x.hasOutcome := by
        by_contra hnone
        exact h.unset (fun x hx hout => hnone ⟨x, hx, hout⟩) hst
      have hsame := h.generation x hx hout
      rw [← hsame] at hst ⊢
      exact hopen.generation x hx hout hst hgen
    · obtain ⟨x, hx, hxlast⟩ := h.last hst
      rw [← hxlast] at hst ⊢
      exact hopen.publication hpub x hx hst

end Attempt

/-- Every attempt of the books is known from the history. -/
def Books.AttemptsKnown (b : Books) : Prop :=
  ∀ A, AttemptKnown (attemptEntries b.history A) (b.attempt A)

theorem attemptsKnown_appendLocked (ord : IterationOrder) (s : EfficiencyLedger) (e : LedgerEntry)
    (h : s.AttemptsKnown) : (appendLocked ord e s).state.AttemptsKnown := by
  refine books_appendLocked ord h (fun _ accounts _ => h) fun hadm accounts _ A => ?_
  rw [Books.record_history, attemptEntries_append, attempt_record]
  split
  · rename_i hmine
    obtain ⟨-, hattempt, rfl⟩ := hmine
    exact (h e.attempt.id).snoc (allows_of_attemptStatus hadm.books.attempt hattempt)
  · exact h A

theorem attemptStatus_ok_iff {b : Books} {e : LedgerEntry} :
    (b.attemptStatus e).ok = true ↔ (e.hasAttempt → (b.attempt e.attempt.id).Allows e) := by
  refine ⟨allows_of_attemptStatus, fun hallows => ?_⟩
  unfold Books.attemptStatus
  by_cases hattempt : e.hasAttempt
  · have h := hallows hattempt
    unfold Books.attempt at h
    rw [if_pos hattempt]
    cases hst : b.attempts.lookup e.attempt.id with
    | none => rfl
    | some st =>
      rw [hst] at h
      exact checkAttempt_of_allows h
  · rw [if_neg hattempt]
    rfl

/-! ### Owners -/

theorem checkLifecycle_ok_iff {b : Books} {e : LedgerEntry} (h : ∀ k : LifecycleKind, k.Exact b) :
    (checkLifecycle b e).ok = true ↔
      ∀ k : LifecycleKind, k.Completion e → k.owner e ∉ k.completions b.history := by
  have hset (k : LifecycleKind) : k.owner e ∈ k.completed b ↔ k.owner e ∈ k.completions b.history := by
    rw [(h k).completed, List.mem_toFinset]
  constructor
  · intro hok k hcomp hmem
    exact k.owner_notMem_of_checkLifecycle hok hcomp ((hset k).mpr hmem)
  · intro hfree
    have hgate (k : LifecycleKind) (hcompletes : k.completes e) (hvalid : (k.owner e).valid) :
        k.owner e ∉ k.completed b := fun hmem => hfree k ⟨hcompletes, hvalid⟩ ((hset k).mp hmem)
    exact checkLifecycle_of_free hgate

/-! ### Totals -/

section Counted

variable {ord : IterationOrder} {F : LedgerEntry → Prop} {es : List LedgerEntry} {b : Books}

theorem Rebuilt.eq_counted (h : Rebuilt ord F es b) (a : AccountId) (bk : Bucket) (d : Dimension) :
    (((b.accounts.get a).bucket bk d).toNat : Int) = counted es a bk d := by
  unfold counted
  rcases bucket_cases bk with ⟨q, rfl⟩ | ⟨c, hc⟩
  · rw [h.quantity_eq_sum]
    simp [classWeight_quantity, Nat.cast_list_sum]
    rfl
  · rw [h.bucket_eq_sum hc]
    congr 1
    refine List.map_congr_left fun t _ => ?_
    rw [attributed_of_consumption hc, revisedWeight, mul_add]

end Counted

/-! ### Revisions -/

section Revision

variable {accounts : Accounts} {c c' : ByteEnum EfficiencyClass} {src dst : Bucket}
  {shares : List AttributionShare}

theorem moveWeight_eq (hsrc : consumptionBucket c = some src) (hdst : consumptionBucket c' = some dst) :
    moveWeight src dst src = if c' = c then 0 else -1 := by
  unfold moveWeight
  by_cases hsame : c' = c
  · subst hsame
    rw [hsrc, Option.some.injEq] at hdst
    rw [if_pos hdst.symm, if_pos rfl, if_pos rfl]
    rfl
  · have hne : dst ≠ src := fun heq => hsame (consumptionBucket_inj (heq ▸ hdst) hsrc)
    rw [if_neg hne, if_pos rfl, if_neg hsame]
    rfl

theorem net_takenOut {taken : List Dimension} (htaken : taken.Nodup) {d : Dimension}
    (hd : d ∉ taken) (a : AccountId) (sh : AttributionShare) :
    net (takenOut a src sh taken) (a, src, d) = 0 := by
  rw [net_columnAt htaken, if_neg fun h => hd h.2]

theorem postedBy_filter_le (cls : ByteEnum EfficiencyClass) (P : AttributionShare → Bool)
    (shares : List AttributionShare) (a : AccountId) (bk : Bucket) (d : Dimension) :
    postedBy cls (shares.filter P) a bk d ≤ postedBy cls shares a bk d := by
  induction shares with
  | nil => exact Nat.le_refl _
  | cons sh shares ih =>
    rw [List.filter_cons]
    split
    · rw [postedBy_cons, postedBy_cons]
      omega
    · rw [postedBy_cons]
      omega

theorem split_revisionPostings (hsrc : consumptionBucket c = some src)
    (hdst : consumptionBucket c' = some dst) {moved rest : List AttributionShare}
    {sh : AttributionShare} (hheld : shares.filter (·.account ∈ accounts) = moved ++ sh :: rest)
    (d : Dimension) :
    ∃ taken suf, taken.Nodup ∧ d ∉ taken ∧ revisionPostings accounts c c' shares =
      (revisionPostings accounts c c' moved ++ takenOut sh.account src sh taken) ++
        ⟨(sh.account, src, d), .debit, sh.physical d,
          ⟨ErrorCode.kReconciliationFailure, "reclassify underflow"⟩⟩ :: suf := by
  have hmoved : moved.filter (·.account ∈ accounts) = moved := by
    apply List.filter_eq_self.mpr
    intro x hx
    have hmem : x ∈ shares.filter (·.account ∈ accounts) := by simp [hheld, hx]
    exact (List.mem_filter.mp hmem).2
  obtain ⟨taken, later, hds⟩ := List.append_of_mem (List.mem_finRange d)
  have hnodup := List.nodup_finRange kDimensionCount
  rw [hds, List.nodup_append] at hnodup
  have hout : takenOut sh.account src sh (List.finRange kDimensionCount) =
      takenOut sh.account src sh taken ++ ⟨(sh.account, src, d), .debit, sh.physical d,
        ⟨ErrorCode.kReconciliationFailure, "reclassify underflow"⟩⟩ ::
          takenOut sh.account src sh later := by
    rw [hds]
    exact List.map_append
  have hmove : (movePostings src dst sh).map (postingAt sh.account) =
      takenOut sh.account src sh (List.finRange kDimensionCount) ++
        columnAt sh.account dst .credit sh.physical
          ⟨ErrorCode.kReconciliationFailure, "reclassify overflow"⟩ (List.finRange kDimensionCount) := by
    rw [movePostings, List.map_append, List.map_map, List.map_map]
    rfl
  have hall : ∃ suf, revisionPostings accounts c c' shares =
      (revisionPostings accounts c c' moved ++ takenOut sh.account src sh taken) ++
        ⟨(sh.account, src, d), .debit, sh.physical d,
          ⟨ErrorCode.kReconciliationFailure, "reclassify underflow"⟩⟩ :: suf := by
    simp only [revisionPostings, hsrc, hdst, hheld, hmoved, List.flatMap_append, List.flatMap_cons,
      hmove, hout, List.append_assoc, List.cons_append]
    exact ⟨_, rfl⟩
  obtain ⟨suf, hsuf⟩ := hall
  exact ⟨taken, suf, hnodup.1, fun hmem => hnodup.2.2 d hmem d List.mem_cons_self rfl, hsuf⟩

theorem not_blocked_iff {pre : List (Posting (AccountId × Cell) Status)} {a : AccountId}
    {d : Dimension} {v : UInt64} {st : Status} :
    ¬Posting.Blocked accounts pre ⟨(a, src, d), .debit, v, st⟩ ↔
      (v.toNat : Int) ≤ ((accounts.get a).bucket src d).toNat + net pre (a, src, d) := by
  exact Int.not_lt

/-- **When the usage of the target can be moved**: where its class still holds it. -/
theorem postAll_revision_ok_iff (hbounded : accounts.Bounded) (hmovable : Movable accounts shares)
    (hsrc : consumptionBucket c = some src) (hdst : consumptionBucket c' = some dst) :
    (∃ accounts', postAll (revisionPostings accounts c c' shares) accounts = .ok ⟨⟩ accounts') ↔
      if c' = c then
        ∀ sh ∈ shares, ∀ d, (sh.physical d).toNat ≤ ((accounts.get sh.account).bucket src d).toNat
      else ∀ a d, postedBy c shares a .physical d ≤ ((accounts.get a).bucket src d).toNat := by
  have hweight := moveWeight_eq hsrc hdst
  -- what the class has lost when the move comes to a share
  have hlost {moved rest : List AttributionShare} {sh : AttributionShare}
      (hheld : shares.filter (·.account ∈ accounts) = moved ++ sh :: rest) {taken : List Dimension}
      (htaken : taken.Nodup) {d : Dimension} (hd : d ∉ taken) :
      net (revisionPostings accounts c c' moved ++ takenOut sh.account src sh taken)
        (sh.account, src, d) =
        postedBy c moved sh.account .physical d * (if c' = c then 0 else -1 : Int) := by
    have hmoved : Movable accounts moved := by
      intro x hx
      have hmem : x ∈ shares.filter (·.account ∈ accounts) := by simp [hheld, hx]
      exact hmovable x (List.mem_filter.mp hmem).1
    rw [net_append, net_takenOut htaken hd, Int.add_zero,
      net_revisionPostings hsrc hdst hmoved c, hweight]
  constructor
  · rintro ⟨accounts', hpost⟩
    split
    · rename_i hsame
      intro sh hsh d
      rcases hmovable sh hsh with hmem | hzero
      · have hin : sh ∈ shares.filter (·.account ∈ accounts) :=
          List.mem_filter.mpr ⟨hsh, decide_eq_true hmem⟩
        obtain ⟨moved, rest, hheld⟩ := List.append_of_mem hin
        obtain ⟨taken, suf, htaken, hd, hsplit⟩ := split_revisionPostings hsrc hdst hheld d
        have hfits := not_blocked_iff.mp (postAll_ok_iff.mp ⟨accounts', hpost⟩ _ _ _ hsplit)
        rw [hlost hheld htaken hd, if_pos hsame] at hfits
        omega
      · rw [hzero d]
        exact Nat.zero_le _
    · rename_i hdiff
      intro a d
      have hread := read_of_postAll_ok hpost (a, src, d)
      rw [net_revisionPostings hsrc hdst hmovable c, hweight, if_neg hdiff] at hread
      change _ = (((accounts.get a).bucket src d).toNat : Int) + _ at hread
      omega
  · intro hholds
    cases hpost : postAll (revisionPostings accounts c c' shares) accounts with
    | ok u accounts' => exact ⟨accounts', rfl⟩
    | error st accounts' =>
      exfalso
      obtain ⟨pre, p, hstop, -, -⟩ := stopsAt_of_postAll_error hpost
      obtain ⟨moved, sh, rest, taken, d, hheld, htaken, hd, rfl, rfl⟩ :=
        split_of_stopsAt hbounded hsrc hdst hstop
      have hblocked := hstop.blocked
      rw [← not_not (a := Posting.Blocked _ _ _), not_blocked_iff, hlost hheld htaken hd] at hblocked
      have hin : sh ∈ shares.filter (·.account ∈ accounts) := by simp [hheld]
      split at hholds
      · rename_i hsame
        have hhas := hholds sh (List.mem_filter.mp hin).1 d
        rw [if_pos hsame] at hblocked
        omega
      · rename_i hdiff
        have hhas := hholds sh.account d
        have hsum := postedBy_filter_le c (·.account ∈ accounts) shares sh.account .physical d
        rw [hheld, postedBy_append, postedBy_cons, if_pos rfl] at hsum
        change _ + ((sh.physical d).toNat + _) ≤ _ at hsum
        rw [if_neg hdiff] at hblocked
        omega

end Revision

/-! ### The books of a journal -/

/-- The books are what the history makes of them. -/
structure Books.FromHistory (b : Books) : Prop where
  wf : b.Wf
  restorable : b.Restorable default
  attempts : b.AttemptsKnown
  owners : ∀ k : LifecycleKind, k.Exact b
  bounded : b.accounts.Bounded

theorem fromHistory_empty : Books.FromHistory {} :=
  ⟨Books.wf_empty, restorable_empty default, fun _ => .nil, fun k => k.exact_empty,
    fun _ _ => Nat.le_refl 0⟩

theorem fromHistory_appendLocked {ord : IterationOrder} {s : EfficiencyLedger} {e : LedgerEntry}
    (h : s.toBooks.FromHistory) (hresidue : NoResidue ord s e) :
    (appendLocked ord e s).state.toBooks.FromHistory :=
  ⟨wf_appendLocked ord s e h.wf, restorable_appendLocked h.wf h.restorable hresidue,
    attemptsKnown_appendLocked ord s e h.attempts,
    fun k => lifecycle_appendLocked k ord s e (h.owners k), bounded_appendLocked ord s e h.bounded⟩

section FromHistory

variable {b : Books} (h : b.FromHistory)
include h

theorem Books.FromHistory.eq_counted (a : AccountId) (bk : Bucket) (d : Dimension) :
    (((b.accounts.get a).bucket bk d).toNat : Int) = counted b.history a bk d := by
  obtain ⟨c, hc, hsame⟩ := h.restorable
  rw [← hc.eq_counted]
  have htotals : (b.accounts.get a).bucket bk d = (c.accounts.get a).bucket bk d :=
    hsame.totals (a, bk, d)
  rw [htotals]

theorem Books.FromHistory.revisable_iff (ord : IterationOrder) {e t : LedgerEntry}
    (hevent : e.event = EventType.kReclassify) (ht : b.target e = some t)
    (hclass : isConsumptionClass t.classification = isConsumptionClass e.classification) :
    (∃ accounts, postAll (postings ord b e) b.accounts = .ok ⟨⟩ accounts) ↔
      Revisable b.history t e.classification := by
  rw [postings_of_revision ord hevent ht]
  rw [← consumptionBucket_isSome, ← consumptionBucket_isSome] at hclass
  unfold Revisable
  cases hsrc : consumptionBucket t.classification with
  | none =>
    have hnone : revisionPostings b.accounts t.classification e.classification
        (computeAttribution t).shares = [] := by simp only [revisionPostings, hsrc]
    rw [hnone]
    exact ⟨fun _ bk hbk => (by cases hbk), fun _ => ⟨b.accounts, rfl⟩⟩
  | some src =>
    obtain ⟨dst, hdst⟩ : ∃ dst, consumptionBucket e.classification = some dst := by
      rw [← Option.isSome_iff_exists, ← hclass, hsrc]
      rfl
    rw [postAll_revision_ok_iff h.bounded (h.wf.movable_target ht) hsrc hdst]
    have hcounted (a : AccountId) (d : Dimension) (n : Nat) :
        n ≤ ((b.accounts.get a).bucket src d).toNat ↔ (n : Int) ≤ counted b.history a src d := by
      rw [← h.eq_counted]
      exact Int.ofNat_le.symm
    simp only [hcounted, Option.some.injEq, forall_eq']
    rfl

/-- **The ledger commits what the journal accepts.** -/
theorem Books.FromHistory.commits_iff (ord : IterationOrder) (e : LedgerEntry) :
    (b.Admits e ∧ ∃ accounts, postAll (postings ord b e) b.accounts = .ok ⟨⟩ accounts) ↔
      Acceptable b.history e := by
  have hfresh : e.id ∉ b.index ↔ ∀ x ∈ b.history, x.id ≠ e.id := by
    rw [h.wf.mem_index]
    exact ⟨fun hno x hx hid => hno ⟨x, hx, hid⟩, fun hall ⟨x, hx, hid⟩ => hall x hx hid⟩
  have hattempt : (b.attemptStatus e).ok = true ↔
      (e.hasAttempt → AttemptOpen (attemptEntries b.history e.attempt.id) e) := by
    rw [attemptStatus_ok_iff]
    exact forall_congr' fun _ => (h.attempts e.attempt.id).allows_iff
  have hroom (hevent : e.event ≠ EventType.kReclassify) :
      (∃ accounts, postAll (postings ord b e) b.accounts = .ok ⟨⟩ accounts) ↔
        ∀ a (q : Quantity) d,
          counted b.history a q.bucket d + attributed e a q.bucket d < u64Limit := by
    rw [postings_of_ordinary ord b hevent, postAll_appendPostings_ok_iff ord e h.bounded]
    have hcell (a : AccountId) (q : Quantity) (d : Dimension) :
        ((b.accounts.get a).bucket q.bucket d).toNat + attributed e a q.bucket d < u64Limit ↔
          counted b.history a q.bucket d + attributed e a q.bucket d < u64Limit := by
      rw [← h.eq_counted]
      omega
    simp only [hcell]
  constructor
  · rintro ⟨hadm, hpost⟩
    refine ⟨hadm.valid, hfresh.mp hadm.fresh, hattempt.mp hadm.attempt, fun hevent => ?_,
      fun hevent => ?_⟩
    · obtain ⟨husage, t, ht, hclass⟩ := hadm.revision hevent
      obtain ⟨hmem, hid⟩ := h.wf.target_eq_some.mp ht
      exact ⟨husage, t, hmem, hid, hclass, (h.revisable_iff ord hevent ht hclass).mp hpost⟩
    · obtain ⟨hconsistent, hlife⟩ := hadm.ordinary hevent
      exact ⟨hconsistent, (checkLifecycle_ok_iff h.owners).mp hlife, (hroom hevent).mp hpost⟩
  · intro hacc
    by_cases hevent : e.event = EventType.kReclassify
    · obtain ⟨husage, t, hmem, hid, hclass, hrevisable⟩ := hacc.revision hevent
      have ht := h.wf.target_eq_some.mpr ⟨hmem, hid⟩
      exact ⟨⟨hacc.valid, hfresh.mpr hacc.fresh, hattempt.mpr hacc.attempt,
        fun _ => ⟨husage, t, ht, hclass⟩, fun hne => absurd hevent hne⟩,
        (h.revisable_iff ord hevent ht hclass).mpr hrevisable⟩
    · obtain ⟨hconsistent, howners, hfits⟩ := hacc.ordinary hevent
      exact ⟨⟨hacc.valid, hfresh.mpr hacc.fresh, hattempt.mpr hacc.attempt,
        fun hrev => absurd hrev hevent,
        fun _ => ⟨hconsistent, (checkLifecycle_ok_iff h.owners).mpr howners⟩⟩,
        (hroom hevent).mpr hfits⟩

end FromHistory

end El
