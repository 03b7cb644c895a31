import EfficiencyLedger.Law.Revision

/-!
# Authority for useful work

An ordinary entry of the class USEFUL has to carry a publication or to be a reuse event; a revision
to USEFUL has to carry nothing. So usage without any authority comes to a useful bucket where such a
revision is accepted. It also stays there where a call gives up half way, a revision with a
publication included. There is no other way: a call keeps the useful buckets authority-bound exactly
where it does neither (`authorityBound_appendLocked_iff`), and so does a run (`useful_authorized`).
-/

namespace El

open CheckedU64 Counters CounterStore EStateM Machine

/-! ### The law -/

/-- What of an entry is counted in the useful bucket of an account. -/
def usefulAmount (es : List LedgerEntry) (t : LedgerEntry) (a : AccountId) (d : Dimension) : Int :=
  attributed t a .physical d * revisedWeight es .useful t

/-- The entry itself has authority, or there are revisions of it to USEFUL and all of them have. -/
def UsefulByAuthority (es : List LedgerEntry) (t : LedgerEntry) : Prop :=
  isAuthoritativeUse t = true ∨
    (∃ r ∈ revisionsOf es t, r.classification = EfficiencyClass.kUseful) ∧
      ∀ r ∈ revisionsOf es t, r.classification = EfficiencyClass.kUseful →
        isAuthoritativeUse r = true

/-- The useful buckets hold what is counted there of the ordinary entries of the history and nothing
else, and what is counted of an entry has authority. -/
structure AuthorityBound (b : Books) : Prop where
  totals : ∀ a d, (((b.accounts.get a).useful d).toNat : Int) =
    ((ordinaryEntries b.history).map fun t => usefulAmount b.history t a d).sum
  authority : ∀ t ∈ ordinaryEntries b.history, ∀ a d, 0 < usefulAmount b.history t a d →
    UsefulByAuthority b.history t

/-! ### The condition on a call -/

/-- A revision to USEFUL of an ordinary entry with usage carries authority, or its target does. -/
def RevisesWithAuthority (b : Books) (e : LedgerEntry) : Prop :=
  e.event = EventType.kReclassify → e.classification = EfficiencyClass.kUseful →
    ∀ t, b.target e = some t → t.event ≠ EventType.kReclassify → ¬ t.usage.isZero →
      isAuthoritativeUse t = true ∨ isAuthoritativeUse e = true

/-- Where the totals loops go through, a revision to USEFUL has authority; where they give up, the
postings made before cancel out in the useful buckets. -/
def KeepsAuthority (ord : IterationOrder) (s : EfficiencyLedger) (e : LedgerEntry) : Prop :=
  s.Admits e →
    ((∀ pre p, ¬ StopsAt s.accounts (postings ord s.toBooks e) pre p) →
      RevisesWithAuthority s.toBooks e) ∧
    ∀ pre p, StopsAt s.accounts (postings ord s.toBooks e) pre p →
      ∀ a d, net pre (a, .useful, d) = 0

theorem keepsAuthority_of_isOk {ord : IterationOrder} {s : EfficiencyLedger} {e : LedgerEntry}
    (h : (appendLocked ord e s).isOk = true) (hrevises : RevisesWithAuthority s.toBooks e) :
    KeepsAuthority ord s e :=
  fun hadm => ⟨fun _ => hrevises, fun _ _ hstop => absurd hstop (not_stopsAt_of_isOk ord h hadm)⟩

/-! ### Classes and authority -/

theorem isAuthoritativeUse_of_consistent {e : LedgerEntry}
    (h : (checkClassificationConsistency e).ok = true)
    (hclass : e.classification = EfficiencyClass.kUseful) : isAuthoritativeUse e = true := by
  by_contra hno
  have hcons : isConsumptionClass (EfficiencyClass.kUseful : ByteEnum EfficiencyClass) = true := rfl
  unfold checkClassificationConsistency at h
  simp only [hclass] at h
  rw [if_neg (by decide), if_neg (by decide), if_pos hcons] at h
  split at h
  · exact Status.not_ok (by decide) h
  · rw [if_pos ⟨trivial, hno⟩] at h
    exact Status.not_ok (by decide) h

section Amounts

variable {es : List LedgerEntry} {t : LedgerEntry}

theorem revisedWeight_useful (h : t.classification ≠ EfficiencyClass.kUseful) :
    revisedWeight es .useful t =
      (revisionsOf es t).countP
        (·.classification = (EfficiencyClass.kUseful : ByteEnum EfficiencyClass)) := by
  unfold revisedWeight
  rw [sum_classWeight consumptionBucket_useful, classWeight_eq consumptionBucket_useful, if_neg h]
  simp [h]

theorem revisedWeight_useful_pos (h : t.classification ≠ EfficiencyClass.kUseful) :
    0 < revisedWeight es .useful t ↔
      ∃ r ∈ revisionsOf es t, r.classification = EfficiencyClass.kUseful := by
  rw [revisedWeight_useful h, Int.natCast_pos, List.countP_pos_iff]
  simp only [decide_eq_true_eq]

theorem authority_of_amount_iff
    (huseful : t.classification = EfficiencyClass.kUseful → isAuthoritativeUse t = true) :
    (∀ a d, 0 < usefulAmount es t a d → UsefulByAuthority es t) ↔
      (¬ t.usage.isZero → isAuthoritativeUse t = true ∨
        ∀ r ∈ revisionsOf es t, r.classification = EfficiencyClass.kUseful →
          isAuthoritativeUse r = true) := by
  by_cases hauth : isAuthoritativeUse t = true
  · exact ⟨fun _ _ => .inl hauth, fun _ _ _ _ => .inl hauth⟩
  have hclass : t.classification ≠ EfficiencyClass.kUseful := fun hc => hauth (huseful hc)
  constructor
  · intro h husage
    by_cases hrev : ∃ r ∈ revisionsOf es t, r.classification = EfficiencyClass.kUseful
    · obtain ⟨a, d, hpos⟩ := exists_attributed husage
      have hweight := (revisedWeight_useful_pos hclass).mpr hrev
      exact (h a d (Int.mul_pos (Int.natCast_pos.mpr hpos) hweight)).imp_right And.right
    · exact .inr fun r hr hc => absurd ⟨r, hr, hc⟩ hrev
  · intro h a d hpos
    have husage : ¬ t.usage.isZero := by
      intro hzero
      rw [usefulAmount, attributed_physical_eq_zero hzero] at hpos
      simp at hpos
    have hweight : 0 < revisedWeight es .useful t := by
      by_contra hle
      have hamount : usefulAmount es t a d ≤ 0 :=
        Int.mul_nonpos_of_nonneg_of_nonpos (Int.natCast_nonneg _) (Int.not_lt.mp hle)
      omega
    exact .inr ⟨(revisedWeight_useful_pos hclass).mp hweight, (h husage).resolve_left hauth⟩

end Amounts

/-! ### One call -/

/-- What the admission of entries establishes about the authority of the history. -/
structure Books.UsefulAdmitted (b : Books) : Prop where
  known : b.RevisionsKnown
  useful : ∀ t ∈ ordinaryEntries b.history, t.classification = EfficiencyClass.kUseful →
    isAuthoritativeUse t = true

theorem usefulAdmitted_empty : Books.UsefulAdmitted {} :=
  ⟨revisionsKnown_empty, fun t ht => (by cases ht)⟩

theorem usefulAdmitted_appendLocked (ord : IterationOrder) (s : EfficiencyLedger) (e : LedgerEntry)
    (h : s.toBooks.UsefulAdmitted) : (appendLocked ord e s).state.toBooks.UsefulAdmitted := by
  refine ⟨revisionsKnown_appendLocked ord s e h.known, ?_⟩
  refine books_appendLocked ord
    (P := fun b => ∀ t ∈ ordinaryEntries b.history, t.classification = EfficiencyClass.kUseful →
      isAuthoritativeUse t = true)
    h.useful (fun _ _ _ => h.useful) fun hadm accounts _ t ht hclass => ?_
  obtain ⟨hmem, hord⟩ := mem_ordinaryEntries.mp ht
  rw [Books.record_history, withAccounts_history, List.mem_append, List.mem_singleton] at hmem
  rcases hmem with hold | rfl
  · exact h.useful t (mem_ordinaryEntries.mpr ⟨hold, hord⟩) hclass
  · exact isAuthoritativeUse_of_consistent (hadm.books.ordinary hord).classification hclass

section Commit

variable {ord : IterationOrder} {b : Books} {e : LedgerEntry}

theorem Books.UsefulAdmitted.authority_append_iff (h : b.UsefulAdmitted) (hadm : b.Admits e)
    (hauth : ∀ t ∈ ordinaryEntries b.history, ∀ a d, 0 < usefulAmount b.history t a d →
      UsefulByAuthority b.history t) :
    (∀ t ∈ ordinaryEntries (b.history ++ [e]), ∀ a d, 0 < usefulAmount (b.history ++ [e]) t a d →
      UsefulByAuthority (b.history ++ [e]) t) ↔ RevisesWithAuthority b e := by
  have hold : ∀ t ∈ ordinaryEntries b.history, ¬ t.usage.isZero → isAuthoritativeUse t = true ∨
      ∀ r ∈ revisionsOf b.history t, r.classification = EfficiencyClass.kUseful →
        isAuthoritativeUse r = true :=
    fun t ht => (authority_of_amount_iff (h.useful t ht)).mp (hauth t ht)
  by_cases hevent : e.event = EventType.kReclassify
  · rw [ordinaryEntries_append_revision hevent]
    constructor
    · intro hnew _ hclass t ht hord husage
      obtain ⟨hmem, hid⟩ := h.known.wf.target_eq_some.mp ht
      have htord : t ∈ ordinaryEntries b.history := mem_ordinaryEntries.mpr ⟨hmem, hord⟩
      have hafter := (authority_of_amount_iff (h.useful t htord)).mp (hnew t htord) husage
      refine hafter.imp_right fun hall => hall e ?_ hclass
      exact mem_revisionsOf.mpr ⟨by simp, hevent, hid⟩
    · intro hrev t ht
      refine (authority_of_amount_iff (h.useful t ht)).mpr fun husage => ?_
      by_cases hself : isAuthoritativeUse t = true
      · exact .inl hself
      · right
        intro r hr hclass
        obtain ⟨hr, hrevent, hid⟩ := mem_revisionsOf.mp hr
        obtain ⟨hmem, hord⟩ := mem_ordinaryEntries.mp ht
        rcases List.mem_append.mp hr with hr | hr
        · exact (hold t ht husage).resolve_left hself r (mem_revisionsOf.mpr ⟨hr, hrevent, hid⟩) hclass
        · obtain rfl := List.mem_singleton.mp hr
          have ht : b.target r = some t := h.known.wf.target_eq_some.mpr ⟨hmem, hid⟩
          exact (hrev hevent hclass t ht hord husage).resolve_left hself
  · refine ⟨fun _ hrev => absurd hrev hevent, fun _ t ht => ?_⟩
    rw [ordinaryEntries_append hevent, List.mem_append, List.mem_singleton] at ht
    rcases ht with ht | rfl
    · rw [authority_of_amount_iff (h.useful t ht), revisionsOf_append_ordinary hevent]
      exact hold t ht
    · have huseful := isAuthoritativeUse_of_consistent (hadm.ordinary hevent).classification
      rw [authority_of_amount_iff huseful, revisionsOf_append_ordinary hevent,
        h.known.revisionsOf_fresh hadm.fresh]
      exact fun _ => .inr fun r hr => absurd hr List.not_mem_nil

theorem AuthorityBound.commit_iff (hb : AuthorityBound b) (h : b.UsefulAdmitted)
    (hadm : b.Admits e) {accounts : Accounts}
    (hpost : postAll (postings ord b e) b.accounts = .ok ⟨⟩ accounts) :
    AuthorityBound ((b.withAccounts accounts).record e) ↔ RevisesWithAuthority b e := by
  have hhistory : ((b.withAccounts accounts).record e).history = b.history ++ [e] :=
    Books.record_history _ e
  have htotals (a : AccountId) (d : Dimension) : (((accounts.get a).useful d).toNat : Int) =
      ((ordinaryEntries (b.history ++ [e])).map
        fun t => usefulAmount (b.history ++ [e]) t a d).sum := by
    have hread := toNat_read_of_postAll hpost a .useful d
    have hsum := h.known.sum_weighted_append ord hadm consumptionBucket_useful a d
    have hbefore := hb.totals a d
    unfold usefulAmount at hbefore ⊢
    rw [hsum, ← hbefore]
    exact hread
  rw [← h.authority_append_iff hadm hb.authority, ← hhistory]
  constructor
  · exact fun hbound => hbound.authority
  · intro hauth
    refine ⟨fun a d => ?_, hauth⟩
    rw [hhistory, Books.record_accounts, withAccounts_accounts]
    exact htotals a d

theorem AuthorityBound.withAccounts_iff (hb : AuthorityBound b)
    {ps : List (Posting (AccountId × Cell) Status)} {accounts : Accounts}
    (hpost : postAll ps b.accounts = .ok ⟨⟩ accounts) :
    AuthorityBound (b.withAccounts accounts) ↔ ∀ a d, net ps (a, .useful, d) = 0 := by
  have hread (a : AccountId) (d : Dimension) : (((accounts.get a).useful d).toNat : Int) =
      ((b.accounts.get a).useful d).toNat + net ps (a, .useful, d) :=
    toNat_read_of_postAll hpost a .useful d
  constructor
  · intro hbound a d
    have hafter : (((accounts.get a).useful d).toNat : Int) = _ := hbound.totals a d
    have hbefore := hb.totals a d
    rw [withAccounts_history] at hafter
    have := hread a d
    omega
  · intro hnet
    refine ⟨fun a d => ?_, hb.authority⟩
    rw [withAccounts_accounts, withAccounts_history, hread, hnet, Int.add_zero]
    exact hb.totals a d

end Commit

/-- **Which calls keep useful work authority-bound.** -/
theorem authorityBound_appendLocked_iff (ord : IterationOrder) (s : EfficiencyLedger)
    (e : LedgerEntry) (h : s.toBooks.UsefulAdmitted) (hb : AuthorityBound s.toBooks) :
    AuthorityBound (appendLocked ord e s).state.toBooks ↔ KeepsAuthority ord s e := by
  constructor
  · intro hafter hadm
    refine ⟨fun hgoes => ?_, fun pre p hstop => ?_⟩
    · rcases appendLocked_cases ord s e with ⟨hno, -⟩ | ⟨-, accounts, hpost, hrun⟩ |
        ⟨-, pre, p, -, hstop, -, -⟩
      · exact absurd hadm hno
      · rw [hrun, Result.state, withBooks_toBooks] at hafter
        exact (hb.commit_iff h hadm.books hpost).mp hafter
      · exact absurd hstop (hgoes pre p)
    · obtain ⟨accounts, hpre, hrun⟩ := appendLocked_of_stopsAt ord hadm hstop
      rw [hrun, Result.state, withBooks_toBooks] at hafter
      exact (hb.withAccounts_iff hpre).mp hafter
  · intro hkeeps
    rcases appendLocked_cases ord s e with ⟨-, hrun⟩ | ⟨hadm, accounts, hpost, hrun⟩ |
      ⟨hadm, pre, p, accounts, hstop, hpre, hrun⟩
    · rw [hrun]
      exact hb
    · rw [hrun, Result.state, withBooks_toBooks]
      refine (hb.commit_iff h hadm.books hpost).mpr ((hkeeps hadm).1 fun _ _ => ?_)
      exact not_stopsAt_of_isOk ord (by rw [hrun]; rfl) hadm
    · rw [hrun, Result.state, withBooks_toBooks]
      exact (hb.withAccounts_iff hpre).mpr ((hkeeps hadm).2 pre p hstop)

/-! ### Runs -/

theorem authorityBound_empty : AuthorityBound {} :=
  ⟨fun _ _ => rfl, fun t ht => (by cases ht)⟩

/-- **Useful work is authority-bound** in every run whose calls keep it so. -/
theorem useful_authorized (ord : IterationOrder) (id : LedgerId) (ops : List Op)
    (h : AppendsMeet ord (KeepsAuthority ord) (.fresh id) ops) :
    AuthorityBound (run ord (.fresh id) ops).toBooks := by
  have hrun : (run ord (.fresh id) ops).toBooks.UsefulAdmitted ∧
      AuthorityBound (run ord (.fresh id) ops).toBooks :=
    books_invariant_of_appendsMeet (P := fun b => b.UsefulAdmitted ∧ AuthorityBound b)
      ⟨usefulAdmitted_empty, authorityBound_empty⟩
      (fun s e hs hkeeps => ⟨usefulAdmitted_appendLocked ord s e hs.1,
        (authorityBound_appendLocked_iff ord s e hs.1 hs.2).mpr hkeeps⟩)
      (s := .fresh id) ⟨usefulAdmitted_empty, authorityBound_empty⟩ h
  exact hrun.2

/-- An entry of the class UNKNOWN and a revision of it to USEFUL. -/
def revisedToUseful (publication : PublicationId) : List Op :=
  [.append
    { id := ⟨1⟩
      event := EventType.kExecutionProgress
      usage := ⟨fun _ => 5⟩
      account := ⟨7⟩ },
   .reclassify
    { revisionId := ⟨2⟩
      target := ⟨1⟩
      newClassification := EfficiencyClass.kUseful
      fences := { publication } }]

theorem useful_authorized_published :
    AuthorityBound (run default (.fresh kDefaultLedgerId) (revisedToUseful ⟨1⟩)).toBooks := by
  refine useful_authorized default kDefaultLedgerId (revisedToUseful ⟨1⟩)
    ⟨⟨?_, fun _ _ => trivial⟩, ⟨?_, fun _ _ => trivial⟩, trivial⟩
  · exact keepsAuthority_of_isOk (by decide +kernel) fun hrev => by cases hrev
  · exact keepsAuthority_of_isOk (by decide +kernel) fun _ _ _ _ _ _ => .inr (by decide +kernel)

/-- A revision without a publication brings usage without authority to the useful totals. -/
theorem useful_without_authority :
    ¬ ∀ (ord : IterationOrder) (id : LedgerId) (ops : List Op),
      AuthorityBound (run ord (.fresh id) ops).toBooks := by
  intro h
  have hbound := h default kDefaultLedgerId (revisedToUseful {})
  let es := (run default (.fresh kDefaultLedgerId) (revisedToUseful {})).history
  have ht : es.getD 0 {} ∈ ordinaryEntries es := by decide +kernel
  have hamount : 0 < usefulAmount es (es.getD 0 {}) ⟨7⟩ 0 := by decide +kernel
  have hr : es.getD 1 {} ∈ revisionsOf es (es.getD 0 {}) := by decide +kernel
  have hclass : (es.getD 1 {}).classification = EfficiencyClass.kUseful := by decide +kernel
  have hentry : isAuthoritativeUse (es.getD 0 {}) = false := by decide +kernel
  have hrevision : isAuthoritativeUse (es.getD 1 {}) = false := by decide +kernel
  rcases hbound.authority _ ht ⟨7⟩ 0 hamount with hauth | ⟨-, hall⟩
  · rw [hentry] at hauth
    cases hauth
  · rw [hall _ hr hclass] at hrevision
    cases hrevision

/-- Two accounts share the first entry, one of them alone has the second. A revision of the first to
waste takes away all the second account has, so a further one, with a publication, is refused after
it has moved what the first account has left. -/
def revisedHalfWay : List Op :=
  [.append
    { id := ⟨1⟩
      event := EventType.kExecutionProgress
      usage := ⟨fun _ => 10⟩
      shared := some { participants := [⟨⟨7⟩, 1⟩, ⟨⟨8⟩, 1⟩] } },
   .append
    { id := ⟨2⟩
      event := EventType.kExecutionProgress
      usage := ⟨fun _ => 5⟩
      account := ⟨7⟩ },
   .reclassify
    { revisionId := ⟨3⟩
      target := ⟨1⟩
      newClassification := EfficiencyClass.kAvoidableWaste },
   .reclassify
    { revisionId := ⟨4⟩
      target := ⟨1⟩
      newClassification := EfficiencyClass.kUseful
      fences := { publication := ⟨1⟩ } }]

example : ¬ AuthorityBound (run default (.fresh kDefaultLedgerId) revisedHalfWay).toBooks := by
  intro h
  have htotal := h.totals ⟨7⟩ 0
  revert htotal
  decide +kernel

end El
