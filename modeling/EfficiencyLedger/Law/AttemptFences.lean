import EfficiencyLedger.Law.Attempts
import EfficiencyLedger.Proof.Refusal

/-!
# The fences of an attempt

An attempt is fenced by what is on record of it, and not everything that an accepted entry carries
goes on record. Publications are recorded from ordinary entries only, so the publication of a
revision is fenced exactly where an ordinary entry with the same or a later one has been accepted
(`revision_fenced_iff`). The generation is recorded with the outcome only, so generations are
fenced in the runs where every one is on record as soon as it is used (`generations_fenced`).
-/

namespace El

/-! ### The fences on record -/

theorem Identity.valid_of_le {tag : IdTag} {a b : Identity tag} (ha : a.valid) (h : a ≤ b) :
    b.valid := by
  intro hzero
  apply ha
  have hle : a.value.toNat ≤ b.value.toNat := UInt64.le_iff_toNat_le.mp h
  rw [hzero, UInt64.toNat_zero] at hle
  exact UInt64.toNat_inj.mp (Nat.le_zero.mp hle)

theorem Identity.le_of_le_one {tag : IdTag} {a b : Identity tag} (ha : a.value ≤ 1) (hb : b.valid) :
    a ≤ b := by
  have hpos : b.value.toNat ≠ 0 := fun hzero => hb (UInt64.toNat_inj.mp hzero)
  have hone : a.value.toNat ≤ 1 := UInt64.le_iff_toNat_le.mp ha
  apply UInt64.le_iff_toNat_le.mpr
  omega

/-- What the ledger has on record of an attempt. -/
def Books.attempt (b : Books) (A : AttemptId) : AttemptState := (b.attempts.lookup A).getD {}

theorem AttemptState.allows_default (e : LedgerEntry) : ({} : AttemptState).Allows e :=
  ⟨fun hvalid => absurd rfl hvalid, fun hout => absurd rfl hout, fun hout => absurd rfl hout,
    fun _ hvalid => absurd rfl hvalid⟩

theorem allows_of_attemptStatus {b : Books} {e : LedgerEntry} (h : (b.attemptStatus e).ok = true)
    (hattempt : e.hasAttempt) : (b.attempt e.attempt.id).Allows e := by
  unfold Books.attemptStatus at h
  rw [if_pos hattempt] at h
  unfold Books.attempt
  cases hst : b.attempts.lookup e.attempt.id with
  | none => exact AttemptState.allows_default e
  | some st =>
    rw [hst] at h
    exact allows_of_checkAttempt h

theorem checkAuthority_probe {s : EfficiencyLedger} {id : AccountingEntryId}
    {attempt : AttemptOptions} {p : PublicationId}
    (hgen : (s.attempt attempt.id).generation.valid → attempt.generation.valid →
      (s.attempt attempt.id).generation = attempt.generation)
    (hpub : p.valid → (s.attempt attempt.id).lastPublication.valid →
      (s.attempt attempt.id).lastPublication < p) :
    (checkAuthority s (probe id attempt { publication := p })).ok = true := by
  refine checkAuthority_ok_iff.mpr ⟨⟨fun h => absurd rfl h, fun h => absurd rfl h,
    fun h => absurd rfl h⟩, fun _ h => absurd rfl h, ?_⟩
  unfold Books.attemptStatus
  split
  · cases hst : s.attempts.lookup (probe id attempt { publication := p }).attempt.id with
    | none => rfl
    | some st =>
      have hrecord : s.attempt attempt.id = st := by
        unfold Books.attempt
        rw [show s.attempts.lookup attempt.id = some st from hst]
        rfl
      rw [hrecord] at hgen hpub
      have hevent : isCompletionSignal EventType.kExecutionProgress ≠ true := by decide
      show (checkAttempt st _).ok = true
      unfold checkAttempt
      rw [if_neg fun h => h.2.2 (hgen h.1 h.2.1), if_neg fun h => h.2 rfl,
        if_neg fun h => hevent h.2,
        if_neg fun h => Identity.not_le.mpr (hpub h.1 h.2.1) h.2.2]
      rfl
  · rfl

/-! ### Publications of revisions -/

theorem AttemptHistory.le_last_iff {es : List LedgerEntry} {st : Option AttemptState}
    (h : AttemptHistory es st) {p : PublicationId} (hp : p.valid) :
    p ≤ (st.getD {}).lastPublication ↔ ∃ x ∈ es, p ≤ x.fences.publication := by
  rw [h.last]
  constructor
  · intro hle
    have hne : publications es ≠ [] := by
      intro hnil
      rw [hnil] at hle
      exact Identity.valid_of_le hp hle rfl
    have hmem := List.getLast_mem hne
    rw [List.getLastD_eq_getLast?, List.getLast?_eq_some_getLast hne, Option.getD_some] at hle
    obtain ⟨x, hx, hpub⟩ := List.mem_map.mp (List.mem_filter.mp hmem).1
    exact ⟨x, hx, hpub ▸ hle⟩
  · rintro ⟨x, hx, hle⟩
    by_contra hlast
    have hmem : x.fences.publication ∈ publications es :=
      List.mem_filter.mpr ⟨List.mem_map_of_mem hx, by simpa using Identity.valid_of_le hp hle⟩
    have hlt := le_last_of_pairwise h.increasing hmem (Identity.not_le.mp hlast)
    exact Identity.not_le.mpr hlt hle

/-- Every entry of the attempt with this publication or an earlier one is refused as stale. -/
def PublicationFenced (ord : IterationOrder) (s : EfficiencyLedger) (A : AttemptId)
    (p : PublicationId) : Prop :=
  ∀ e : LedgerEntry, e.hasAttempt → e.attempt.id = A → e.fences.publication.valid →
    e.fences.publication ≤ p → RefusedAsStale ord s e

theorem publicationFenced_iff (ord : IterationOrder) (s : EfficiencyLedger) {A : AttemptId}
    {p : PublicationId} (hA : A.valid) (hp : p.valid) :
    PublicationFenced ord s A p ↔ ¬ s.Open ∨ p ≤ (s.attempt A).lastPublication := by
  constructor
  · intro hfenced
    by_contra hno
    rw [not_or, not_not] at hno
    obtain ⟨hopen, hlate⟩ := hno
    obtain ⟨id, hprobe⟩ := exists_probe ord hopen ⟨A, {}⟩ { publication := p }
    have hauth : (checkAuthority s (probe id ⟨A, {}⟩ { publication := p })).ok = true :=
      checkAuthority_probe (fun _ hgen => absurd rfl hgen) fun _ _ => Identity.not_le.mp hlate
    exact not_refusedAsStale_of_isOk (hprobe hauth) (hfenced _ hA rfl hp (UInt64.le_refl _))
  · intro hwhen e he heA hepub hle
    rcases hwhen with hclosed | hlast
    · exact refusedAsStale_of_not_open hclosed
    · apply refusedAsStale_of_authority
      by_contra hok
      have hallows := allows_of_attemptStatus (checkAuthority_ok_iff.mp (by simpa using hok)).2.2 he
      rw [heA] at hallows
      have hlt := hallows.publication hepub (Identity.valid_of_le hp hlast)
      exact Identity.not_le.mpr hlt (UInt64.le_trans hle hlast)

/-- **When the publication of a revision is fenced**: exactly where an ordinary entry of its attempt
with the same publication or a later one is in the history, or the ledger takes no entries at all. -/
theorem revision_fenced_iff (ord : IterationOrder) (id : LedgerId) (ops : List Op) :
    let s := run ord (.fresh id) ops
    ∀ r ∈ s.history, r.event = EventType.kReclassify → r.hasAttempt → r.fences.publication.valid →
      (PublicationFenced ord s r.attempt.id r.fences.publication ↔
        ¬ s.Open ∨ ∃ x ∈ attemptEntries s.history r.attempt.id,
          r.fences.publication ≤ x.fences.publication) := by
  intro s r _ _ hattempt hp
  rw [publicationFenced_iff ord s hattempt hp]
  exact or_congr Iff.rfl ((attempt_history ord id ops r.attempt.id).le_last_iff hp)

/-- An entry of attempt 5, and its revision with publication 9. -/
def publishedByRevision : List Op :=
  [.append (probe ⟨1⟩ ⟨⟨5⟩, {}⟩ {}),
    .reclassify
      { revisionId := ⟨2⟩
        target := ⟨1⟩
        newClassification := EfficiencyClass.kAvoidableWaste
        fences := { publication := ⟨9⟩ } }]

/-- The revision as it is recorded. -/
def publishingRevision : LedgerEntry :=
  (run default (.fresh kDefaultLedgerId) publishedByRevision).history.getD 1 {}

theorem publishingRevision_mem :
    publishingRevision ∈ (run default (.fresh kDefaultLedgerId) publishedByRevision).history := by
  decide +kernel

theorem revision_fenced_published :
    PublicationFenced default (run default (.fresh kDefaultLedgerId) publishedByRevision)
        publishingRevision.attempt.id publishingRevision.fences.publication ↔
      ¬ (run default (.fresh kDefaultLedgerId) publishedByRevision).Open ∨
        ∃ x ∈ attemptEntries (run default (.fresh kDefaultLedgerId) publishedByRevision).history
          publishingRevision.attempt.id,
          publishingRevision.fences.publication ≤ x.fences.publication :=
  revision_fenced_iff default kDefaultLedgerId publishedByRevision publishingRevision
    publishingRevision_mem (by decide +kernel) (by decide +kernel) (by decide +kernel)

/-- The same publication again is accepted after the revision. -/
theorem revision_not_fenced :
    ¬ ∀ (ord : IterationOrder) (id : LedgerId) (ops : List Op),
      ∀ r ∈ (run ord (.fresh id) ops).history, r.event = EventType.kReclassify → r.hasAttempt →
        r.fences.publication.valid →
        PublicationFenced ord (run ord (.fresh id) ops) r.attempt.id r.fences.publication := by
  intro h
  have hfenced := h default kDefaultLedgerId publishedByRevision publishingRevision
    publishingRevision_mem (by decide +kernel) (by decide +kernel) (by decide +kernel)
  refine not_refusedAsStale_of_isOk ?_ (hfenced
    (probe ⟨3⟩ ⟨⟨5⟩, {}⟩ { publication := ⟨9⟩ }) (by decide) (by decide +kernel) (by decide)
    (by decide +kernel))
  decide +kernel

/-! ### Generations -/

/-- Every ordinary entry of the attempt with a valid generation below this one is refused as
stale. -/
def GenerationFenced (ord : IterationOrder) (s : EfficiencyLedger) (A : AttemptId)
    (g : AttemptGeneration) : Prop :=
  ∀ e : LedgerEntry, e.event ≠ EventType.kReclassify → e.hasAttempt → e.attempt.id = A →
    e.attempt.generation.valid → e.attempt.generation < g → RefusedAsStale ord s e

theorem generationFenced_iff (ord : IterationOrder) (s : EfficiencyLedger) {A : AttemptId}
    (hA : A.valid) (g : AttemptGeneration) :
    GenerationFenced ord s A g ↔ ¬ s.Open ∨ g.value ≤ 1 ∨
      (s.attempt A).generation.valid ∧ g ≤ (s.attempt A).generation := by
  constructor
  · intro hfenced
    by_contra hno
    rw [not_or, not_or, not_not] at hno
    obtain ⟨hopen, hlow, hunrecorded⟩ := hno
    -- an entry of the generation on record gets through, or of the first where none is
    obtain ⟨g', hvalid, hlt, hsame⟩ : ∃ g' : AttemptGeneration, g'.valid ∧ g' < g ∧
        ((s.attempt A).generation.valid → (s.attempt A).generation = g') := by
      by_cases hrec : (s.attempt A).generation.valid
      · exact ⟨_, hrec, Identity.not_le.mp fun hle => hunrecorded ⟨hrec, hle⟩, fun _ => rfl⟩
      · exact ⟨⟨1⟩, by decide, UInt64.not_le.mp hlow, fun h => absurd h hrec⟩
    obtain ⟨id, hprobe⟩ := exists_probe ord hopen ⟨A, g'⟩ {}
    have hauth : (checkAuthority s (probe id ⟨A, g'⟩ {})).ok = true :=
      checkAuthority_probe (fun hrec _ => hsame hrec) fun hp => absurd rfl hp
    refine not_refusedAsStale_of_isOk (hprobe hauth) (hfenced _ ?_ hA rfl hvalid hlt)
    show (EventType.kExecutionProgress : ByteEnum EventType) ≠ EventType.kReclassify
    decide
  · intro hwhen e hevent he heA hvalid hlt
    rcases hwhen with hclosed | hlow | ⟨hrec, hle⟩
    · exact refusedAsStale_of_not_open hclosed
    · exact absurd (Identity.le_of_le_one hlow hvalid) (Identity.not_le.mpr hlt)
    · apply refusedAsStale_of_authority
      by_contra hok
      have hallows := allows_of_attemptStatus (checkAuthority_ok_iff.mp (by simpa using hok)).2.2 he
      rw [heA] at hallows
      rw [hallows.generation hrec hvalid] at hle
      exact Identity.not_le.mpr hlt hle

/-- The law between the entries of an attempt and its generation on record. -/
structure GenerationHistory (es : List LedgerEntry) (st : AttemptState) : Prop where
  pending : st.outcome = AttemptOutcome.kPending → ¬ st.generation.valid
  recorded : ∀ x ∈ es, x.attempt.generation.valid → x.attempt.generation.value ≤ 1 ∨
    st.generation.valid ∧ x.attempt.generation ≤ st.generation
  increasing : es.Pairwise fun x y => x.attempt.generation.valid → y.attempt.generation.valid →
    x.attempt.generation ≤ y.attempt.generation

theorem GenerationHistory.nil : GenerationHistory [] {} :=
  ⟨fun _ hvalid => hvalid rfl, fun _ hx => (by cases hx), List.Pairwise.nil⟩

theorem GenerationHistory.snoc {es : List LedgerEntry} {st : AttemptState} {e : LedgerEntry}
    (h : GenerationHistory es st) (hallows : st.Allows e)
    (hrecords : 1 < e.attempt.generation.value → e.hasOutcome ∨ st.generation.valid) :
    GenerationHistory (es ++ [e]) (st.record e) := by
  have hbelow : ∀ x ∈ es, x.attempt.generation.valid → e.attempt.generation.valid →
      x.attempt.generation ≤ e.attempt.generation := by
    intro x hx hxvalid hvalid
    rcases h.recorded x hx hxvalid with hone | ⟨hrec, hle⟩
    · exact Identity.le_of_le_one hone hvalid
    · rw [hallows.generation hrec hvalid] at hle
      exact hle
  have hincreasing : (es ++ [e]).Pairwise fun x y => x.attempt.generation.valid →
      y.attempt.generation.valid → x.attempt.generation ≤ y.attempt.generation := by
    refine List.pairwise_append.mpr ⟨h.increasing, List.pairwise_singleton _ _, ?_⟩
    intro x hx y hy
    rw [List.mem_singleton.mp hy]
    exact hbelow x hx
  by_cases hout : e.hasOutcome
  · -- the attempt was pending, so its entries are of the first generation
    have hpending : ¬ st.generation.valid := h.pending (by_contra fun hne => hallows.outcome hne hout)
    refine ⟨fun hnone => ?_, fun x hx hxvalid => ?_, hincreasing⟩
    · rw [AttemptState.record_outcome, if_pos hout] at hnone
      exact absurd hnone hout
    · rw [AttemptState.record_generation, if_pos hout]
      rcases List.mem_append.mp hx with hold | hnew
      · exact .inl ((h.recorded x hold hxvalid).resolve_right fun hrec => hpending hrec.1)
      · rw [List.mem_singleton.mp hnew] at hxvalid ⊢
        exact .inr ⟨hxvalid, UInt64.le_refl _⟩
  · refine ⟨fun hnone => ?_, fun x hx hxvalid => ?_, hincreasing⟩
    · rw [AttemptState.record_outcome, if_neg hout] at hnone
      rw [AttemptState.record_generation, if_neg hout]
      exact h.pending hnone
    · rw [AttemptState.record_generation, if_neg hout]
      rcases List.mem_append.mp hx with hold | hnew
      · exact h.recorded x hold hxvalid
      · rw [List.mem_singleton.mp hnew] at hxvalid ⊢
        by_cases hone : e.attempt.generation.value ≤ 1
        · exact .inl hone
        · have hrec := (hrecords (UInt64.not_le.mp hone)).resolve_left hout
          refine .inr ⟨hrec, ?_⟩
          rw [hallows.generation hrec hxvalid]
          exact UInt64.le_refl _

/-- An ordinary entry that goes through with a generation above the first carries an outcome, or the
generation of its attempt is on record. -/
def KeepsGenerationOnRecord (s : EfficiencyLedger) (e : LedgerEntry) : Prop :=
  s.Admits e → s.HasRoom e → e.event ≠ EventType.kReclassify → e.hasAttempt →
    1 < e.attempt.generation.value → e.hasOutcome ∨ (s.attempt e.attempt.id).generation.valid

theorem attempt_record (b : Books) (e : LedgerEntry) (A : AttemptId) :
    (b.record e).attempt A =
      if e.event ≠ EventType.kReclassify ∧ e.hasAttempt ∧ e.attempt.id = A then
        (b.attempt A).record e
      else b.attempt A := by
  unfold Books.attempt
  rw [record_attempts]
  split <;> rfl

/-- The law for every attempt of the books. -/
def Books.GenerationsLawful (b : Books) : Prop :=
  ∀ A, GenerationHistory (attemptEntries b.history A) (b.attempt A)

theorem generationsLawful_appendLocked (ord : IterationOrder) (s : EfficiencyLedger)
    (e : LedgerEntry) (h : s.GenerationsLawful) (hkeeps : KeepsGenerationOnRecord s e) :
    (appendLocked ord e s).state.GenerationsLawful := by
  refine books_appendLocked ord h (fun _ accounts _ => h) fun hadm accounts hpost A => ?_
  rw [Books.record_history, attemptEntries_append, attempt_record]
  split
  · rename_i hmine
    obtain ⟨hevent, hattempt, rfl⟩ := hmine
    refine (h e.attempt.id).snoc (allows_of_attemptStatus hadm.books.attempt hattempt) fun hlater => ?_
    exact hkeeps hadm ((hasRoom_iff ord hevent).mpr ⟨accounts, hpost⟩) hevent hattempt hlater
  · exact h A

/-- **Generation fencing**, in the runs where every generation above the first goes on record with
the entry that brings it: the generations below an accepted one are refused, and the accepted ones
never decrease. -/
theorem generations_fenced (ord : IterationOrder) (id : LedgerId) (ops : List Op)
    (hkeeps : AppendsMeet ord KeepsGenerationOnRecord (.fresh id) ops) (A : AttemptId) :
    let s := run ord (.fresh id) ops
    (∀ x ∈ attemptEntries s.history A, x.attempt.generation.valid →
      GenerationFenced ord s A x.attempt.generation) ∧
    (attemptEntries s.history A).Pairwise fun x y => x.attempt.generation.valid →
      y.attempt.generation.valid → x.attempt.generation ≤ y.attempt.generation := by
  intro s
  have hlaw : s.GenerationsLawful :=
    books_invariant_of_appendsMeet (P := Books.GenerationsLawful) (fun _ => .nil)
      (generationsLawful_appendLocked ord) (s := .fresh id) (fun _ => .nil) hkeeps
  refine ⟨fun x hx hvalid => ?_, (hlaw A).increasing⟩
  obtain ⟨-, hattempt, hid⟩ : x.event ≠ EventType.kReclassify ∧ x.hasAttempt ∧ x.attempt.id = A := by
    simpa using (List.mem_filter.mp hx).2
  have hA : A.valid := hid ▸ hattempt
  exact (generationFenced_iff ord s hA _).mpr (.inr ((hlaw A).recorded x hx hvalid))

/-- The outcome of attempt 5 in generation 5, and an entry that follows it. -/
def recordedGeneration : List Op :=
  [.append { probe ⟨1⟩ ⟨⟨5⟩, ⟨5⟩⟩ {} with attemptOutcome := AttemptOutcome.kSucceeded },
    .append (probe ⟨2⟩ ⟨⟨5⟩, ⟨5⟩⟩ {})]

theorem generations_fenced_recorded :
    let s := run default (.fresh kDefaultLedgerId) recordedGeneration
    (∀ x ∈ attemptEntries s.history ⟨5⟩, x.attempt.generation.valid →
      GenerationFenced default s ⟨5⟩ x.attempt.generation) ∧
    (attemptEntries s.history ⟨5⟩).Pairwise fun x y => x.attempt.generation.valid →
      y.attempt.generation.valid → x.attempt.generation ≤ y.attempt.generation :=
  generations_fenced default kDefaultLedgerId recordedGeneration
    ⟨⟨fun _ _ _ _ _ => .inl (by decide), fun _ _ => trivial⟩,
      ⟨fun _ _ _ _ _ => .inr (by decide +kernel), fun _ _ => trivial⟩, trivial⟩ ⟨5⟩

/-- While attempt 5 is pending, generation 3 is accepted after generation 5. -/
theorem generations_not_fenced :
    ¬ ∀ (ord : IterationOrder) (id : LedgerId) (ops : List Op) (A : AttemptId),
      (∀ x ∈ attemptEntries (run ord (.fresh id) ops).history A, x.attempt.generation.valid →
        GenerationFenced ord (run ord (.fresh id) ops) A x.attempt.generation) ∧
      (attemptEntries (run ord (.fresh id) ops).history A).Pairwise fun x y =>
        x.attempt.generation.valid → y.attempt.generation.valid →
          x.attempt.generation ≤ y.attempt.generation := by
  intro h
  obtain ⟨hfenced, -⟩ := h default kDefaultLedgerId [.append (probe ⟨1⟩ ⟨⟨5⟩, ⟨5⟩⟩ {})] ⟨5⟩
  have hmem : probe ⟨1⟩ ⟨⟨5⟩, ⟨5⟩⟩ {} ∈ attemptEntries (run default (.fresh kDefaultLedgerId)
      [.append (probe ⟨1⟩ ⟨⟨5⟩, ⟨5⟩⟩ {})]).history ⟨5⟩ := by
    decide +kernel
  refine not_refusedAsStale_of_isOk ?_ (hfenced _ hmem (by decide)
    (probe ⟨2⟩ ⟨⟨5⟩, ⟨3⟩⟩ {}) (by decide) (by decide) rfl (by decide) (by decide))
  decide +kernel

/-- The condition is needed: an entry that does not meet it leaves its generation unfenced on a ledger
that still takes entries. -/
theorem not_fenced_of_not_recorded (ord : IterationOrder) (s : EfficiencyLedger) (e : LedgerEntry)
    (hkeeps : ¬ KeepsGenerationOnRecord s e) :
    let s' := (appendLocked ord e s).state
    e ∈ attemptEntries s'.history e.attempt.id ∧
      (GenerationFenced ord s' e.attempt.id e.attempt.generation ↔ ¬ s'.Open) := by
  intro s'
  unfold KeepsGenerationOnRecord at hkeeps
  push Not at hkeeps
  obtain ⟨hadm, hroom, hevent, hattempt, hlater, hpending, hunrecorded⟩ := hkeeps
  obtain ⟨accounts, hcall⟩ := appendLocked_of_hasRoom ord hadm hevent hroom
  have hbooks : s'.toBooks = (s.toBooks.withAccounts accounts).record e := by
    show (appendLocked ord e s).state.toBooks = _
    rw [hcall]
    rfl
  have hmine : e.event ≠ EventType.kReclassify ∧ e.hasAttempt ∧ e.attempt.id = e.attempt.id :=
    ⟨hevent, hattempt, rfl⟩
  constructor
  · rw [hbooks, Books.record_history, attemptEntries_append, if_pos hmine]
    exact List.mem_append_right _ (List.mem_singleton.mpr rfl)
  · have hgen : ¬ (s'.attempt e.attempt.id).generation.valid := by
      rw [hbooks, attempt_record, if_pos hmine, AttemptState.record_generation,
        if_neg (not_not.mpr hpending)]
      exact not_not.mpr hunrecorded
    rw [generationFenced_iff ord s' hattempt, or_iff_left]
    rintro (hlow | ⟨hrec, -⟩)
    · exact UInt64.not_le.mpr hlater hlow
    · exact hgen hrec

end El
