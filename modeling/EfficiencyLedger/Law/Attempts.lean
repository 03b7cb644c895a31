import EfficiencyLedger.Proof.Run

/-!
# The attempt state machine

`AttemptHistory es st` is the law between the entries `es` of one attempt, in order, and what the
ledger has on record of it. Every accepted entry keeps it (`AttemptHistory.snoc`), since the check
of `checkAttempt` is what the law of the longer list asks of the new entry; so it holds in every
reachable state (`attempt_history`).
-/

namespace El

/-! ### The check and the record of one entry -/

/-- What the check of an attempt on record asks of an entry. -/
structure AttemptState.Allows (st : AttemptState) (e : LedgerEntry) : Prop where
  generation : st.generation.valid → e.attempt.generation.valid →
    st.generation = e.attempt.generation
  outcome : st.outcome ≠ AttemptOutcome.kPending → ¬ e.hasOutcome
  completion : st.outcome ≠ AttemptOutcome.kPending → isCompletionSignal e.event = false
  publication : e.fences.publication.valid → st.lastPublication.valid →
    st.lastPublication < e.fences.publication

theorem allows_of_checkAttempt {st : AttemptState} {e : LedgerEntry}
    (h : (checkAttempt st e).ok = true) : st.Allows e := by
  unfold checkAttempt at h
  split_ifs at h with hgen hout hcomp hpub
  · exact absurd h (Status.not_ok (by decide))
  · exact absurd h (Status.not_ok (by decide))
  · exact absurd h (Status.not_ok (by decide))
  · exact absurd h (Status.not_ok (by decide))
  refine ⟨fun hst he => ?_, fun hst he => hout ⟨hst, he⟩, fun hst => ?_, fun he hst => ?_⟩
  · by_contra hne
    exact hgen ⟨hst, he, hne⟩
  · by_contra hne
    exact hcomp ⟨hst, by simpa using hne⟩
  · exact Identity.not_le.mp fun hle => hpub ⟨he, hst, hle⟩

theorem Books.Admits.allows {b : Books} {e : LedgerEntry} (h : b.Admits e) (hattempt : e.hasAttempt)
    {st : AttemptState} (hst : b.attempts.lookup e.attempt.id = some st) : st.Allows e := by
  have hok := h.attempt
  unfold Books.attemptStatus at hok
  rw [if_pos hattempt, hst] at hok
  exact allows_of_checkAttempt hok

namespace AttemptState

variable (st : AttemptState) (e : LedgerEntry)

theorem record_outcome :
    (st.record e).outcome = if e.hasOutcome then e.attemptOutcome else st.outcome := by
  unfold record
  simp only
  split_ifs <;> rfl

theorem record_generation :
    (st.record e).generation = if e.hasOutcome then e.attempt.generation else st.generation := by
  unfold record
  simp only
  split_ifs <;> rfl

theorem record_lastPublication :
    (st.record e).lastPublication = if e.fences.publication.valid ∧
      (¬ st.lastPublication.valid ∨ st.lastPublication < e.fences.publication) then
        e.fences.publication
      else st.lastPublication := by
  unfold record
  simp only
  split_ifs <;> simp_all

end AttemptState

/-! ### The law -/

/-- The valid publication ids the entries carry, in order. -/
def publications (es : List LedgerEntry) : List PublicationId :=
  (es.map (·.fences.publication)).filter fun p => p.valid

/-- The law between the entries of one attempt and its state on record. -/
structure AttemptHistory (es : List LedgerEntry) (st : Option AttemptState) : Prop where
  /-- An attempt with entries is on record. -/
  present : es ≠ [] → st.isSome
  /-- At most one entry carries an outcome. It is the one on record, and no later entry completes
  the attempt again or names another generation. -/
  terminal : ∀ pre t suf, es = pre ++ t :: suf → t.hasOutcome →
    (∀ x ∈ pre ++ suf, ¬ x.hasOutcome) ∧
    (∃ s, st = some s ∧ s.outcome = t.attemptOutcome ∧ s.generation = t.attempt.generation) ∧
    ∀ x ∈ suf, isCompletionSignal x.event = false ∧
      (x.attempt.generation.valid → t.attempt.generation.valid →
        x.attempt.generation = t.attempt.generation)
  /-- The publications increase, and the last of them is on record. -/
  increasing : (publications es).Pairwise (· < ·)
  last : (st.getD {}).lastPublication = (publications es).getLastD {}

theorem publications_append_invalid {es : List LedgerEntry} {e : LedgerEntry}
    (h : ¬ e.fences.publication.valid) : publications (es ++ [e]) = publications es := by
  unfold publications
  rw [List.map_append, List.filter_append, List.map_singleton,
    List.filter_cons_of_neg (by simpa using h), List.filter_nil, List.append_nil]

theorem publications_append_valid {es : List LedgerEntry} {e : LedgerEntry}
    (h : e.fences.publication.valid) :
    publications (es ++ [e]) = publications es ++ [e.fences.publication] := by
  unfold publications
  rw [List.map_append, List.filter_append, List.map_singleton,
    List.filter_cons_of_pos (by simpa using h), List.filter_nil]

theorem le_last_of_pairwise {ps : List PublicationId} (h : ps.Pairwise (· < ·)) {p q : PublicationId}
    (hp : p ∈ ps) (hq : ps.getLastD {} < q) : p < q := by
  rcases List.eq_nil_or_concat ps with rfl | ⟨ps', l, rfl⟩
  · cases hp
  · rw [List.concat_eq_append] at h hp hq
    rw [List.getLastD_eq_getLast?, List.getLast?_append, List.getLast?_singleton,
      Option.some_or, Option.getD_some] at hq
    rcases List.mem_append.mp hp with hmem | hlast
    · exact Identity.lt_trans ((List.pairwise_append.mp h).2.2 p hmem l (by simp)) hq
    · rw [List.mem_singleton.mp hlast]
      exact hq

theorem AttemptHistory.nil : AttemptHistory [] none :=
  ⟨fun h => absurd rfl h, fun pre t suf h => (by simp at h), List.Pairwise.nil, rfl⟩

section Snoc

variable {es : List LedgerEntry} {st : Option AttemptState} {e : LedgerEntry}

theorem AttemptHistory.outcome_of_mem (h : AttemptHistory es st) {x : LedgerEntry} (hx : x ∈ es)
    (hout : x.hasOutcome) : ∃ s, st = some s ∧ s.outcome ≠ AttemptOutcome.kPending := by
  obtain ⟨pre, suf, hsplit⟩ := List.append_of_mem hx
  obtain ⟨-, ⟨s, hst, houtcome, -⟩, -⟩ := h.terminal pre x suf hsplit hout
  refine ⟨s, hst, ?_⟩
  rw [houtcome]
  exact hout

theorem AttemptHistory.terminal_snoc (h : AttemptHistory es st)
    (hallows : ∀ s, st = some s → s.Allows e) (pre : List LedgerEntry) (t : LedgerEntry)
    (suf : List LedgerEntry) (hsplit : es ++ [e] = pre ++ t :: suf) (hout : t.hasOutcome) :
    (∀ x ∈ pre ++ suf, ¬ x.hasOutcome) ∧
    (∃ s, some ((st.getD {}).record e) = some s ∧ s.outcome = t.attemptOutcome ∧
      s.generation = t.attempt.generation) ∧
    ∀ x ∈ suf, isCompletionSignal x.event = false ∧
      (x.attempt.generation.valid → t.attempt.generation.valid →
        x.attempt.generation = t.attempt.generation) := by
  rcases List.eq_nil_or_concat suf with rfl | ⟨suf', x, rfl⟩
  · -- the new entry is the one with an outcome
    obtain ⟨rfl, ht⟩ := List.append_inj' hsplit rfl
    obtain rfl := (List.singleton_inj.mp ht).symm
    refine ⟨fun x hx hxout => ?_, ⟨_, rfl, ?_, ?_⟩, fun x hx => (by cases hx)⟩
    · rw [List.append_nil] at hx
      obtain ⟨s, hst, hterm⟩ := h.outcome_of_mem hx hxout
      exact (hallows s hst).outcome hterm hout
    · rw [AttemptState.record_outcome, if_pos hout]
    · rw [AttemptState.record_generation, if_pos hout]
  · -- the one with an outcome is an earlier one
    rw [List.concat_eq_append, ← List.cons_append, ← List.append_assoc] at hsplit
    obtain ⟨hes, hx⟩ := List.append_inj' hsplit rfl
    obtain rfl := List.singleton_inj.mp hx
    obtain ⟨hothers, ⟨s, hst, houtcome, hgen⟩, hlater⟩ := h.terminal pre t suf' hes hout
    have hterm : s.outcome ≠ AttemptOutcome.kPending := houtcome ▸ hout
    have hnew := hallows s hst
    refine ⟨fun x hx => ?_, ⟨_, rfl, ?_, ?_⟩, fun x hx => ?_⟩
    · rw [List.concat_eq_append, ← List.append_assoc] at hx
      rcases List.mem_append.mp hx with hold | hlast
      · exact hothers x hold
      · rw [List.mem_singleton.mp hlast]
        exact hnew.outcome hterm
    · rw [AttemptState.record_outcome, if_neg (hnew.outcome hterm), hst, Option.getD_some, houtcome]
    · rw [AttemptState.record_generation, if_neg (hnew.outcome hterm), hst, Option.getD_some, hgen]
    · rw [List.concat_eq_append] at hx
      rcases List.mem_append.mp hx with hold | hlast
      · exact hlater x hold
      · rw [List.mem_singleton.mp hlast]
        refine ⟨hnew.completion hterm, fun hvalid htvalid => ?_⟩
        rw [← hgen] at htvalid ⊢
        exact (hnew.generation htvalid hvalid).symm

theorem last_valid {p : PublicationId} (hp : p ∈ publications es) :
    ((publications es).getLastD {}).valid := by
  have hvalid : ∀ q ∈ publications es, q.valid := fun q hq => by
    simpa using (List.mem_filter.mp hq).2
  have hne : publications es ≠ [] := List.ne_nil_of_mem hp
  rw [List.getLastD_eq_getLast?, List.getLast?_eq_some_getLast hne, Option.getD_some]
  exact hvalid _ (List.getLast_mem hne)

theorem AttemptHistory.snoc (h : AttemptHistory es st) (hallows : ∀ s, st = some s → s.Allows e) :
    AttemptHistory (es ++ [e]) (some ((st.getD {}).record e)) := by
  have hlt (hpub : e.fences.publication.valid) (hlast : (st.getD {}).lastPublication.valid) :
      (st.getD {}).lastPublication < e.fences.publication := by
    cases hst : st with
    | none =>
      rw [hst] at hlast
      exact absurd rfl hlast
    | some s =>
      rw [hst] at hlast
      exact (hallows s hst).publication hpub hlast
  refine ⟨fun _ => rfl, h.terminal_snoc hallows, ?_, ?_⟩
  · by_cases hpub : e.fences.publication.valid
    · rw [publications_append_valid hpub]
      refine List.pairwise_append.mpr ⟨h.increasing, List.pairwise_singleton _ _, ?_⟩
      intro p hp q hq
      rw [List.mem_singleton.mp hq]
      have hnext := hlt hpub
      rw [h.last] at hnext
      exact le_last_of_pairwise h.increasing hp (hnext (last_valid hp))
    · rw [publications_append_invalid hpub]
      exact h.increasing
  · rw [Option.getD_some, AttemptState.record_lastPublication]
    by_cases hpub : e.fences.publication.valid
    · have hnew : ¬ (st.getD {}).lastPublication.valid ∨
          (st.getD {}).lastPublication < e.fences.publication := by
        by_cases hlast : (st.getD {}).lastPublication.valid
        · exact .inr (hlt hpub hlast)
        · exact .inl hlast
      rw [if_pos ⟨hpub, hnew⟩, publications_append_valid hpub, List.getLastD_eq_getLast?,
        List.getLast?_append, List.getLast?_singleton, Option.some_or, Option.getD_some]
    · rw [if_neg fun hc => hpub hc.1, publications_append_invalid hpub, h.last]

end Snoc

/-! ### Every reachable state -/

/-- The entries of an attempt, revisions apart. -/
def attemptEntries (es : List LedgerEntry) (A : AttemptId) : List LedgerEntry :=
  es.filter fun e => e.event ≠ EventType.kReclassify ∧ e.hasAttempt ∧ e.attempt.id = A

theorem attemptEntries_append (es : List LedgerEntry) (e : LedgerEntry) (A : AttemptId) :
    attemptEntries (es ++ [e]) A =
      if e.event ≠ EventType.kReclassify ∧ e.hasAttempt ∧ e.attempt.id = A then
        attemptEntries es A ++ [e]
      else attemptEntries es A := by
  unfold attemptEntries
  rw [List.filter_append]
  split
  · rename_i h
    rw [List.filter_cons_of_pos (by simpa using h), List.filter_nil]
  · rename_i h
    rw [List.filter_cons_of_neg (by simpa using h), List.filter_nil, List.append_nil]

theorem record_attempts (b : Books) (e : LedgerEntry) (A : AttemptId) :
    (b.record e).attempts.lookup A =
      if e.event ≠ EventType.kReclassify ∧ e.hasAttempt ∧ e.attempt.id = A then
        some (((b.attempts.lookup A).getD {}).record e)
      else b.attempts.lookup A := by
  have hlife : (b.recordLifecycle e).attempts = b.attempts := by
    unfold Books.recordLifecycle
    split <;> rfl
  unfold Books.record
  by_cases hevent : e.event = EventType.kReclassify
  · rw [if_pos hevent, if_neg fun h => h.1 hevent]
    rfl
  rw [if_neg hevent]
  show ((b.recordLifecycle e).recordAttempt e).attempts.lookup A = _
  unfold Books.recordAttempt
  rw [hlife]
  by_cases hattempt : e.hasAttempt
  · rw [if_pos hattempt]
    by_cases hid : e.attempt.id = A
    · subst hid
      rw [if_pos ⟨hevent, hattempt, rfl⟩, Finmap.lookup_insert]
    · rw [if_neg fun h => hid h.2.2, Finmap.lookup_insert_of_ne _ (Ne.symm hid)]
  · rw [if_neg hattempt, if_neg fun h => hattempt h.2.1, hlife]

/-- The law for every attempt of the books. -/
def Books.AttemptsLawful (b : Books) : Prop :=
  ∀ A, AttemptHistory (attemptEntries b.history A) (b.attempts.lookup A)

theorem attemptsLawful_commit (b : Books) (e : LedgerEntry) (accounts : Accounts)
    (h : b.AttemptsLawful) (hadm : b.Admits e) :
    ((b.withAccounts accounts).record e).AttemptsLawful := by
  intro A
  rw [Books.record_history, attemptEntries_append, record_attempts]
  split
  · rename_i hmine
    obtain ⟨-, hattempt, rfl⟩ := hmine
    exact (h e.attempt.id).snoc fun st hst => hadm.allows hattempt hst
  · exact h A

theorem attemptsLawful_appendLocked (ord : IterationOrder) (s : EfficiencyLedger) (e : LedgerEntry)
    (h : s.AttemptsLawful) : (appendLocked ord e s).state.AttemptsLawful := by
  refine books_appendLocked ord h (fun _ accounts _ => ?_) fun hadm accounts _ => ?_
  · exact h
  · exact attemptsLawful_commit s.toBooks e accounts h hadm.books

/-- **The attempt state machine.** In every reachable state, and for every attempt, what is on record
is determined by the accepted entries of the attempt, which obey its law. -/
theorem attempt_history (ord : IterationOrder) (id : LedgerId) (ops : List Op) (A : AttemptId) :
    AttemptHistory (attemptEntries (run ord (.fresh id) ops).history A)
      ((run ord (.fresh id) ops).attempts.lookup A) :=
  books_invariant (P := Books.AttemptsLawful) (fun _ => .nil) (attemptsLawful_appendLocked ord)
    (s := .fresh id) (fun _ => .nil) ops A

end El
