import EfficiencyLedger.Law.Attempts
import EfficiencyLedger.Law.Conservation
import EfficiencyLedger.Law.Lifecycle
import EfficiencyLedger.Law.Revision
import EfficiencyLedger.Model.Reconcile

/-!
# Order independence

Two loads that succeed on the same entries in different orders end in the same accounts, attempts
and lifecycle sets. What a load rebuilds is a function of the entries that no permutation changes:
sums over the ordinary entries and their revisions for the totals, the one terminal entry and the
increasing publications for an attempt (`AttemptHistory.determined`), and the completed owners for
the lifecycle sets.
-/

namespace El

open CheckedU64 Counters CounterStore

variable {ord ord₁ ord₂ : IterationOrder} {F F₁ F₂ : LedgerEntry → Prop}
  {es es₁ es₂ : List LedgerEntry} {b b₁ b₂ : Books}

/-! ### Totals -/

theorem mem_revisionPostings {accounts : Accounts} {oldCls newCls : ByteEnum EfficiencyClass}
    {shares : List AttributionShare} {p : Posting (AccountId × Cell) Status}
    (hp : p ∈ revisionPostings accounts oldCls newCls shares) : p.key.1 ∈ accounts := by
  unfold revisionPostings at hp
  split at hp
  · obtain ⟨sh, hsh, hp⟩ := List.mem_flatMap.mp hp
    obtain ⟨q, -, rfl⟩ := List.mem_map.mp hp
    have hmem : sh.account ∈ accounts := by simpa using (List.mem_filter.mp hsh).2
    exact hmem
  · cases hp

theorem Rebuilt.mem_accounts (h : Rebuilt ord F es b) (a : AccountId) :
    a ∈ b.accounts ↔ ∃ e ∈ ordinaryEntries es, a ∈ accountsOf e := by
  induction h with
  | nil =>
    constructor
    · exact fun ha => absurd ha Finmap.notMem_empty
    · rintro ⟨e, he, -⟩
      cases he
  | @snoc es b e accounts h hF hadm hpost ih =>
    rw [Books.record_accounts, withAccounts_accounts, mem_of_postAll_ok hpost, ih]
    by_cases hevent : e.event = EventType.kReclassify
    · rw [ordinaryEntries_append_revision hevent]
      apply or_iff_left_of_imp
      rintro ⟨p, hp, rfl⟩
      rw [postings, if_pos hevent] at hp
      split at hp
      · cases hp
      · exact ih.mp (mem_revisionPostings hp)
    · rw [ordinaryEntries_append hevent, postings_of_ordinary ord b hevent]
      have hnew : (∃ p ∈ appendPostings ord e, p.key.1 = a) ↔ a ∈ accountsOf e := by
        constructor
        · rintro ⟨p, hp, rfl⟩
          obtain ⟨a', ha', bk, d, rfl⟩ := (mem_appendPostings ord e).mp hp
          exact ha'
        · exact fun ha => ⟨_, (mem_appendPostings ord e).mpr ⟨a, ha, .physical, 0, rfl⟩, rfl⟩
      simp only [hnew, List.mem_append, List.mem_singleton, or_and_right, exists_or, exists_eq_left]

theorem Rebuilt.bucket_perm (h₁ : Rebuilt ord₁ F₁ es₁ b₁) (h₂ : Rebuilt ord₂ F₂ es₂ b₂)
    (hperm : es₁.Perm es₂) (a : AccountId) (bk : Bucket) (d : Dimension) :
    (b₁.accounts.get a).bucket bk d = (b₂.accounts.get a).bucket bk d := by
  rw [← UInt64.toNat_inj]
  have hord : (ordinaryEntries es₁).Perm (ordinaryEntries es₂) := hperm.filter _
  have hquantity (q : Quantity) : ((b₁.accounts.get a).bucket q.bucket d).toNat =
      ((b₂.accounts.get a).bucket q.bucket d).toNat := by
    rw [h₁.quantity_eq_sum, h₂.quantity_eq_sum]
    exact (hord.map _).sum_eq
  have hclass {c : ByteEnum EfficiencyClass} {bk : Bucket} (hbk : consumptionBucket c = some bk) :
      ((b₁.accounts.get a).bucket bk d).toNat = ((b₂.accounts.get a).bucket bk d).toNat := by
    have hweight (t : LedgerEntry) : revisedWeight es₁ bk t = revisedWeight es₂ bk t := by
      have hrevs : (revisionsOf es₁ t).Perm (revisionsOf es₂ t) := hperm.filter _
      unfold revisedWeight
      rw [(hrevs.map _).sum_eq]
    have hsum₁ := h₁.bucket_eq_sum hbk a d
    have hsum₂ := h₂.bucket_eq_sum hbk a d
    simp only [hweight] at hsum₁
    rw [(hord.map _).sum_eq, ← hsum₂] at hsum₁
    exact Int.natCast_inj.mp hsum₁
  cases bk with
  | physical => exact hquantity .physical
  | avoided => exact hquantity .avoided
  | stranded => exact hquantity .stranded
  | useful => exact hclass (c := EfficiencyClass.kUseful) rfl
  | overhead => exact hclass (c := EfficiencyClass.kNecessaryOverhead) rfl
  | waste => exact hclass (c := EfficiencyClass.kAvoidableWaste) rfl
  | unknown => exact hclass (c := EfficiencyClass.kUnknown) rfl

theorem Rebuilt.accounts_perm (h₁ : Rebuilt ord₁ F₁ es₁ b₁) (h₂ : Rebuilt ord₂ F₂ es₂ b₂)
    (hperm : es₁.Perm es₂) : b₁.accounts = b₂.accounts := by
  have hmem (a : AccountId) : a ∈ b₁.accounts ↔ a ∈ b₂.accounts := by
    have hord : (ordinaryEntries es₁).Perm (ordinaryEntries es₂) := hperm.filter _
    rw [h₁.mem_accounts, h₂.mem_accounts]
    simp only [hord.mem_iff]
  have hget (a : AccountId) : b₁.accounts.get a = b₂.accounts.get a :=
    AccountAggregate.ext_bucket fun bk => funext fun d => h₁.bucket_perm h₂ hperm a bk d
  apply Finmap.ext_lookup
  intro a
  by_cases ha : a ∈ b₁.accounts
  · obtain ⟨agg₁, h₁⟩ := Finmap.mem_iff.mp ha
    obtain ⟨agg₂, h₂⟩ := Finmap.mem_iff.mp ((hmem a).mp ha)
    have hagg := hget a
    unfold Accounts.get at hagg
    rw [h₁, h₂, Option.getD_some, Option.getD_some] at hagg
    rw [h₁, h₂, hagg]
  · rw [Finmap.lookup_eq_none.mpr ha, Finmap.lookup_eq_none.mpr fun h => ha ((hmem a).mpr h)]

/-! ### Attempts -/

/-- What is on record of an attempt after its entries. -/
def recordAll (es : List LedgerEntry) : Option AttemptState :=
  es.foldl (fun st e => some ((st.getD {}).record e)) none

theorem recordAll_append (es : List LedgerEntry) (e : LedgerEntry) :
    recordAll (es ++ [e]) = some (((recordAll es).getD {}).record e) := by
  unfold recordAll
  rw [List.foldl_append]
  rfl

theorem isSome_recordAll (es : List LedgerEntry) : (recordAll es).isSome = !es.isEmpty := by
  rcases List.eq_nil_or_concat es with rfl | ⟨es, e, rfl⟩
  · rfl
  · rw [List.concat_eq_append, recordAll_append]
    simp

theorem Rebuilt.lookup_attempts (h : Rebuilt ord F es b) (A : AttemptId) :
    b.attempts.lookup A = recordAll (attemptEntries es A) := by
  induction h with
  | nil => rfl
  | @snoc es b e accounts h hF hadm hpost ih =>
    rw [record_attempts, attemptEntries_append]
    split
    · rw [recordAll_append, ← ih]
      rfl
    · exact ih

/-- The entries that carry an outcome. -/
def terminalEntries (es : List LedgerEntry) : List LedgerEntry := es.filter fun e => e.hasOutcome

theorem AttemptState.record_authoritative (st : AttemptState) (e : LedgerEntry) :
    (st.record e).authoritative = if e.hasOutcome then true else st.authoritative := by
  unfold AttemptState.record
  simp only
  split_ifs <;> rfl

theorem recordAll_terminal (es : List LedgerEntry) :
    ((recordAll es).getD {}).outcome =
        ((terminalEntries es).getLast?.map (·.attemptOutcome)).getD
          (AttemptOutcome.kPending : ByteEnum AttemptOutcome) ∧
      ((recordAll es).getD {}).generation =
        ((terminalEntries es).getLast?.map (·.attempt.generation)).getD {} ∧
      ((recordAll es).getD {}).authoritative = (terminalEntries es).getLast?.isSome := by
  -- Outcome, generation and authority are those of the last entry with an outcome.
  induction es using List.reverseRecOn with
  | nil => exact ⟨rfl, rfl, rfl⟩
  | append_singleton es e ih =>
    obtain ⟨houtcome, hgen, hauth⟩ := ih
    rw [recordAll_append, Option.getD_some, AttemptState.record_outcome,
      AttemptState.record_generation, AttemptState.record_authoritative]
    unfold terminalEntries at *
    rw [List.filter_append]
    by_cases hout : e.hasOutcome
    · rw [List.filter_cons_of_pos (by simpa using hout), List.filter_nil, List.getLast?_append,
        if_pos hout, if_pos hout, if_pos hout]
      exact ⟨rfl, rfl, rfl⟩
    · rw [List.filter_cons_of_neg (by simpa using hout), List.filter_nil, List.append_nil,
        if_neg hout, if_neg hout, if_neg hout]
      exact ⟨houtcome, hgen, hauth⟩

theorem AttemptHistory.terminalEntries_eq {st : Option AttemptState} (h : AttemptHistory es st) :
    terminalEntries es = [] ∨ ∃ t, terminalEntries es = [t] := by
  by_cases hnone : ∀ x ∈ es, ¬ x.hasOutcome
  · left
    exact List.filter_eq_nil_iff.mpr fun x hx => by simpa using hnone x hx
  · right
    push Not at hnone
    obtain ⟨t, ht, hout⟩ := hnone
    obtain ⟨pre, suf, rfl⟩ := List.append_of_mem ht
    obtain ⟨hothers, -, -⟩ := h.terminal pre t suf rfl hout
    refine ⟨t, ?_⟩
    have hpre : pre.filter (fun e => e.hasOutcome) = [] :=
      List.filter_eq_nil_iff.mpr fun x hx => by simpa using hothers x (by simp [hx])
    have hsuf : suf.filter (fun e => e.hasOutcome) = [] :=
      List.filter_eq_nil_iff.mpr fun x hx => by simpa using hothers x (by simp [hx])
    rw [terminalEntries, List.filter_append, List.filter_cons_of_pos (by simpa using hout), hpre,
      hsuf]
    rfl

/-- **What is on record of an attempt does not depend on the order of its entries.** -/
theorem AttemptHistory.determined (h₁ : AttemptHistory es₁ (recordAll es₁))
    (h₂ : AttemptHistory es₂ (recordAll es₂)) (hperm : es₁.Perm es₂) :
    recordAll es₁ = recordAll es₂ := by
  have hterminal : terminalEntries es₁ = terminalEntries es₂ := by
    have hfilter : (terminalEntries es₁).Perm (terminalEntries es₂) := hperm.filter _
    rcases h₂.terminalEntries_eq with hnil | ⟨t, ht⟩
    · rw [hnil] at hfilter ⊢
      exact hfilter.eq_nil
    · rw [ht] at hfilter ⊢
      exact List.perm_singleton.mp hfilter
  have hpublications : publications es₁ = publications es₂ := by
    refine List.Perm.eq_of_pairwise (fun p q _ _ hpq hqp => ?_) h₁.increasing h₂.increasing
      ((hperm.map _).filter _)
    exact absurd (Identity.lt_trans hpq hqp) (UInt64.lt_irrefl _)
  obtain ⟨houtcome₁, hgen₁, hauth₁⟩ := recordAll_terminal es₁
  obtain ⟨houtcome₂, hgen₂, hauth₂⟩ := recordAll_terminal es₂
  have hstate : (recordAll es₁).getD {} = (recordAll es₂).getD {} := by
    have hlast : ((recordAll es₁).getD {}).lastPublication =
        ((recordAll es₂).getD {}).lastPublication := by
      rw [h₁.last, h₂.last, hpublications]
    rw [hterminal, ← houtcome₂] at houtcome₁
    rw [hterminal, ← hgen₂] at hgen₁
    rw [hterminal, ← hauth₂] at hauth₁
    generalize (recordAll es₁).getD {} = st₁ at *
    generalize (recordAll es₂).getD {} = st₂ at *
    cases st₁
    cases st₂
    simp only at houtcome₁ hgen₁ hauth₁ hlast
    rw [houtcome₁, hgen₁, hauth₁, hlast]
  have hsome : (recordAll es₁).isSome = (recordAll es₂).isSome := by
    rw [isSome_recordAll, isSome_recordAll, hperm.isEmpty_eq]
  cases hr₁ : recordAll es₁ <;> cases hr₂ : recordAll es₂
  · rfl
  · rw [hr₁, hr₂] at hsome
    cases hsome
  · rw [hr₁, hr₂] at hsome
    cases hsome
  · rw [hr₁, hr₂] at hstate
    exact congrArg some hstate

theorem Rebuilt.attempts_perm (h₁ : Rebuilt ord₁ F₁ es₁ b₁) (h₂ : Rebuilt ord₂ F₂ es₂ b₂)
    (hperm : es₁.Perm es₂) : b₁.attempts = b₂.attempts := by
  have hlawful {ord : IterationOrder} {F : LedgerEntry → Prop} {es : List LedgerEntry} {b : Books}
      (h : Rebuilt ord F es b) (A : AttemptId) :
      AttemptHistory (attemptEntries es A) (recordAll (attemptEntries es A)) := by
    have hb := h.invariant (P := Books.AttemptsLawful) (fun _ => .nil) attemptsLawful_commit A
    rwa [h.history, h.lookup_attempts] at hb
  apply Finmap.ext_lookup
  intro A
  rw [h₁.lookup_attempts, h₂.lookup_attempts]
  exact (hlawful h₁ A).determined (hlawful h₂ A) (hperm.filter _)

/-! ### Lifecycle sets -/

theorem Rebuilt.completed_perm (h₁ : Rebuilt ord₁ F₁ es₁ b₁) (h₂ : Rebuilt ord₂ F₂ es₂ b₂)
    (hperm : es₁.Perm es₂) (k : LifecycleKind) : k.completed b₁ = k.completed b₂ := by
  have hexact₁ := h₁.invariant k.exact_empty k.exact_commit
  have hexact₂ := h₂.invariant k.exact_empty k.exact_commit
  rw [hexact₁.completed, hexact₂.completed, h₁.history, h₂.history]
  exact List.toFinset_eq_of_perm _ _ ((hperm.filter _).map _)

/-! ### Reconciliation -/

/-- The reports agree on everything but the order of the messages. -/
structure Reconciliation.Same (r r' : Reconciliation) : Prop where
  closed : r.closed = r'.closed
  perDimensionClosed : r.perDimensionClosed = r'.perDimensionClosed
  physical : r.physical = r'.physical
  classified : r.classified = r'.classified
  unclassified : r.unclassified = r'.unclassified
  avoided : r.avoided = r'.avoided
  stranded : r.stranded = r'.stranded
  entryCount : r.entryCount = r'.entryCount
  messages : r.messages.Perm r'.messages

theorem addUp_perm (accounts : Accounts) (counter : AccountAggregate → DimTotals)
    {order order' : List AccountId} (h : order.Perm order') :
    addUp accounts counter order = addUp accounts counter order' := by
  funext d
  refine h.foldl_eq' (fun a _ a' _ sum => ?_) 0
  rw [UInt64.add_assoc, UInt64.add_assoc, UInt64.add_comm (counter (accounts.get a) d)]

theorem reconcileAccounts_same (accounts : Accounts) {order order' : List AccountId}
    (h : order.Perm order') (n : Nat) :
    (reconcileAccounts accounts order n).Same (reconcileAccounts accounts order' n) := by
  have hsum (counter : AccountAggregate → DimTotals) := addUp_perm accounts counter h
  have hdim : (reconcileAccounts accounts order n).perDimensionClosed =
      (reconcileAccounts accounts order' n).perDimensionClosed := by
    funext d
    simp only [reconcileAccounts, hsum, h.mem_iff]
  have hclosed : (reconcileAccounts accounts order n).closed =
      (reconcileAccounts accounts order' n).closed := by
    show decide (∀ d, (reconcileAccounts accounts order n).perDimensionClosed d = true) =
      decide (∀ d, (reconcileAccounts accounts order' n).perDimensionClosed d = true)
    rw [hdim]
  have hmessages : (order.flatMap fun a => closureMessages (accounts.get a)).Perm
      (order'.flatMap fun a => closureMessages (accounts.get a)) := h.flatMap_right _
  refine ⟨hclosed, hdim, hsum _, hsum _, ?_, hsum _, hsum _, rfl, ?_⟩
  · funext d
    simp only [reconcileAccounts, hsum]
  · have hlist (order : List AccountId) : (reconcileAccounts accounts order n).messages =
        if (reconcileAccounts accounts order n).closed = true ∧
            (order.flatMap fun a => closureMessages (accounts.get a)) = [] then
          ["reconciliation closed"]
        else order.flatMap fun a => closureMessages (accounts.get a) := rfl
    rw [hlist, hlist, hclosed]
    by_cases hnil : (order'.flatMap fun a => closureMessages (accounts.get a)) = []
    · rw [hnil] at hmessages ⊢
      rw [hmessages.eq_nil]
    · have hnil' : (order.flatMap fun a => closureMessages (accounts.get a)) ≠ [] := by
        intro heq
        rw [heq] at hmessages
        exact hnil hmessages.symm.eq_nil
      rw [if_neg fun hc => hnil' hc.2, if_neg fun hc => hnil hc.2]
      exact hmessages

theorem reconcile_same {s t : EfficiencyLedger} (hacc : s.accounts = t.accounts)
    (hlen : s.history.length = t.history.length) (accs : Enumeration s.accounts)
    (accs' : Enumeration t.accounts) : (reconcile s accs).Same (reconcile t accs') := by
  have hperm : accs.order.Perm accs'.order := by
    apply (List.perm_ext_iff_of_nodup accs.nodup accs'.nodup).mpr
    intro a
    rw [accs.mem_order, accs'.mem_order, hacc]
  have hsame := reconcileAccounts_same t.accounts hperm t.history.length
  rw [← hlen] at hsame
  unfold reconcile
  rw [← hlen]
  generalize accs.order = order at *
  rw [hacc]
  exact hsame

/-- **Order independence.** Loads that succeed on permutations of one list of entries end in the same
accounts, attempts and lifecycle sets, and reconcile alike. -/
theorem order_independence (ord₁ ord₂ : IterationOrder) (s₁ s₂ t₁ t₂ : EfficiencyLedger)
    (es₁ es₂ : List LedgerEntry) (hperm : es₁.Perm es₂) (h₁ : loadHistory ord₁ es₁ s₁ = .ok ⟨⟩ t₁)
    (h₂ : loadHistory ord₂ es₂ s₂ = .ok ⟨⟩ t₂) :
    t₁.accounts = t₂.accounts ∧ t₁.attempts = t₂.attempts ∧
      (∀ k : LifecycleKind, k.completed t₁.toBooks = k.completed t₂.toBooks) ∧
      ∀ (accs₁ : Enumeration t₁.accounts) (accs₂ : Enumeration t₂.accounts),
        (reconcile t₁ accs₁).Same (reconcile t₂ accs₂) := by
  obtain ⟨b₁, hb₁, rfl⟩ := rebuilt_of_loadHistory ord₁ h₁
  obtain ⟨b₂, hb₂, rfl⟩ := rebuilt_of_loadHistory ord₂ h₂
  have hacc := hb₁.accounts_perm hb₂ hperm
  refine ⟨hacc, hb₁.attempts_perm hb₂ hperm, hb₁.completed_perm hb₂ hperm,
    fun accs₁ accs₂ => reconcile_same hacc ?_ accs₁ accs₂⟩
  show b₁.history.length = b₂.history.length
  rw [hb₁.history, hb₂.history, hperm.length_eq]

/-- Two entries of one attempt, and a revision of the first. -/
def attemptAndRevision : List LedgerEntry :=
  let entry (id : UInt64) (publication : PublicationId) (outcome : AttemptOutcome) : LedgerEntry :=
    { id := ⟨id⟩
      event := EventType.kExecutionProgress
      usage := ⟨fun _ => 5⟩
      account := ⟨7⟩
      fences := { publication }
      attempt := { id := ⟨5⟩ }
      attemptOutcome := outcome }
  [entry 1 ⟨1⟩ .kPending,
    entry 2 {} .kSucceeded,
    { id := ⟨3⟩
      event := EventType.kReclassify
      classification := EfficiencyClass.kAvoidableWaste
      account := ⟨7⟩
      revisionTarget := some ⟨1⟩ }]

theorem order_independence_attemptAndRevision :
    let entries := attemptAndRevision
    let moved := [entries.getD 0 {}, entries.getD 2 {}, entries.getD 1 {}]
    let t₁ := (loadHistory default entries (.fresh kDefaultLedgerId)).state
    let t₂ := (loadHistory default moved (.fresh kDefaultLedgerId)).state
    t₁.accounts = t₂.accounts ∧ t₁.attempts = t₂.attempts ∧
      (∀ k : LifecycleKind, k.completed t₁.toBooks = k.completed t₂.toBooks) ∧
      ∀ (accs₁ : Enumeration t₁.accounts) (accs₂ : Enumeration t₂.accounts),
        (reconcile t₁ accs₁).Same (reconcile t₂ accs₂) := by
  intro entries moved t₁ t₂
  refine order_independence default default (.fresh kDefaultLedgerId) (.fresh kDefaultLedgerId) t₁ t₂
    entries moved ((List.Perm.swap _ _ []).cons _) (EStateM.Result.eq_ok_of_isOk ?_)
    (EStateM.Result.eq_ok_of_isOk ?_)
  · decide +kernel
  · decide +kernel

end El
