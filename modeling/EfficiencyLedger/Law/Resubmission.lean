import EfficiencyLedger.Proof.Books

/-!
# Exactly-once under resubmission

The index is the inverse of the history, so an entry with an id of the history is refused before
anything else is looked at. A run with resubmissions in it is a list of its own operations and of
appends of duplicates; every duplicate fails, and the run ends as it would without them
(`exactly_once`).
-/

namespace El

theorem appendLocked_of_mem_index (ord : IterationOrder) {s : EfficiencyLedger} {e : LedgerEntry}
    (h : e.id ∈ s.index) : appendLocked ord e s = .error (refusal s e) s :=
  (appendLocked_of_not_admits ord fun hadm => hadm.books.fresh h).1

/-- An operation of the run, or the append of a duplicate. -/
abbrev Submission := Op ⊕ LedgerEntry

/-- The run without the duplicates. -/
def originals (steps : List Submission) : List Op := steps.filterMap Sum.getLeft?

/-- The run with the duplicates. -/
def submitted (steps : List Submission) : List Op := steps.map (Sum.elim id Op.append)

/-- The duplicate carries an id that was accepted at some point of the operations before it. -/
def AlreadyAccepted (ord : IterationOrder) (s : EfficiencyLedger) (ops : List Op)
    (e : LedgerEntry) : Prop :=
  ∃ before, before <+: ops ∧ ∃ x ∈ (run ord s before).history, x.id = e.id

/-- Every duplicate of the run carries the id of an entry accepted before it. -/
def Resubmits (ord : IterationOrder) (s : EfficiencyLedger) (steps : List Submission) : Prop :=
  ∀ pre e suf, steps = pre ++ Sum.inr e :: suf → AlreadyAccepted ord s (originals pre) e

theorem mem_index_of_alreadyAccepted {ord : IterationOrder} {id : LedgerId} {ops : List Op}
    (hops : ∀ op ∈ ops, op.isLoad = false) {e : LedgerEntry}
    (h : AlreadyAccepted ord (.fresh id) ops e) : e.id ∈ (run ord (.fresh id) ops).index := by
  obtain ⟨before, ⟨later, rfl⟩, x, hx, hid⟩ := h
  have hlater : ∀ op ∈ later, op.isLoad = false := fun op hop => hops op (by simp [hop])
  have hrun : run ord (.fresh id) (before ++ later) = run ord (run ord (.fresh id) before) later :=
    Machine.run_append _ _ _ _
  rw [(wf_run ord id _).mem_index]
  refine ⟨x, ?_, hid⟩
  rw [hrun]
  exact (history_run_of_not_load hlater).subset hx

theorem run_submitted {ord : IterationOrder} {id : LedgerId} {steps : List Submission}
    (hops : ∀ op ∈ originals steps, op.isLoad = false) (h : Resubmits ord (.fresh id) steps) :
    run ord (.fresh id) (submitted steps) = run ord (.fresh id) (originals steps) := by
  induction steps using List.reverseRecOn with
  | nil => rfl
  | append_singleton steps step ih =>
    have hgrows : Resubmits ord (.fresh id) steps := fun pre e suf hsplit =>
      h pre e (suf ++ [step]) (by rw [hsplit]; simp)
    have horig : originals (steps ++ [step]) = originals steps ++ originals [step] :=
      List.filterMap_append
    have hsub : submitted (steps ++ [step]) = submitted steps ++ submitted [step] :=
      List.map_append
    have hrun (ops ops' : List Op) :
        run ord (.fresh id) (ops ++ ops') = run ord (run ord (.fresh id) ops) ops' :=
      Machine.run_append _ _ _ _
    rw [horig] at hops
    have hbefore : ∀ op ∈ originals steps, op.isLoad = false := fun op hop =>
      hops op (List.mem_append_left _ hop)
    rw [horig, hsub, hrun, hrun, ih hbefore hgrows]
    cases step with
    | inl op => rfl
    | inr e =>
      have hmem := mem_index_of_alreadyAccepted hbefore (h steps e [] rfl)
      show (appendLocked ord e (run ord (.fresh id) (originals steps))).state = _
      rw [appendLocked_of_mem_index ord hmem]
      rfl

/-- **Exactly once.** In every reachable state the ids of the history are valid and distinct, and the
index is their inverse. In a run without loads every duplicate returns an error, and the run ends in
the state of the run without the duplicates. -/
theorem exactly_once (ord : IterationOrder) (id : LedgerId) (ops : List Op)
    (steps : List Submission) (hops : ∀ op ∈ originals steps, op.isLoad = false)
    (h : Resubmits ord (.fresh id) steps) :
    ((∀ e ∈ (run ord (.fresh id) ops).history, e.id.valid) ∧
      ((run ord (.fresh id) ops).history.map (·.id)).Nodup ∧
      ∀ k i, (run ord (.fresh id) ops).index.lookup k = some i ↔
        ∃ e, (run ord (.fresh id) ops).history[i]? = some e ∧ e.id = k) ∧
    (∀ pre e suf, steps = pre ++ Sum.inr e :: suf →
      (appendLocked ord e (run ord (.fresh id) (submitted pre))).isOk = false) ∧
    run ord (.fresh id) (submitted steps) = run ord (.fresh id) (originals steps) := by
  have hwf := wf_run ord id ops
  refine ⟨⟨fun e he => (validate_eq_true_iff.mp (validate_run ord id ops e he)).id, ?_, hwf.index⟩,
    fun pre e suf hsplit => ?_, run_submitted hops h⟩
  · apply (List.nodup_map_iff_inj_on hwf.nodup).mpr
    intro x hx y hy hid
    exact hwf.id_injective hx hy hid
  · have hbefore : ∀ op ∈ originals pre, op.isLoad = false := by
      intro op hop
      apply hops op
      rw [hsplit, originals, List.filterMap_append]
      exact List.mem_append_left _ hop
    have hpre : Resubmits ord (.fresh id) pre := fun pre' e' suf' hsplit' =>
      h pre' e' (suf' ++ Sum.inr e :: suf) (by rw [hsplit, hsplit']; simp)
    rw [run_submitted hbefore hpre,
      appendLocked_of_mem_index ord (mem_index_of_alreadyAccepted hbefore (h pre e suf hsplit))]
    rfl

/-- An ordinary entry and a revision with the id of it. -/
def entryAndDuplicate : List Submission :=
  [.inl (.append { id := ⟨1⟩, event := EventType.kExecutionProgress, account := ⟨7⟩ }),
    .inr { id := ⟨1⟩, event := EventType.kReclassify, account := ⟨8⟩ }]

theorem exactly_once_entryAndDuplicate :
    ((∀ e ∈ (run default (.fresh ⟨1⟩) []).history, e.id.valid) ∧
      ((run default (.fresh ⟨1⟩) []).history.map (·.id)).Nodup ∧
      ∀ k i, (run default (.fresh ⟨1⟩) []).index.lookup k = some i ↔
        ∃ e, (run default (.fresh ⟨1⟩) []).history[i]? = some e ∧ e.id = k) ∧
    (∀ pre e suf, entryAndDuplicate = pre ++ Sum.inr e :: suf →
      (appendLocked default e (run default (.fresh ⟨1⟩) (submitted pre))).isOk = false) ∧
    run default (.fresh ⟨1⟩) (submitted entryAndDuplicate) =
      run default (.fresh ⟨1⟩) (originals entryAndDuplicate) := by
  refine exactly_once default ⟨1⟩ [] entryAndDuplicate (by decide) fun pre e suf hsplit => ?_
  rcases pre with _ | ⟨x, _ | ⟨y, pre⟩⟩
  · simp [entryAndDuplicate] at hsplit
  · simp only [entryAndDuplicate, List.cons_append, List.nil_append, List.cons.injEq, Sum.inr.injEq]
      at hsplit
    obtain ⟨rfl, rfl, -⟩ := hsplit
    exact ⟨_, List.prefix_refl _, by decide +kernel⟩
  · simp [entryAndDuplicate] at hsplit

end El
