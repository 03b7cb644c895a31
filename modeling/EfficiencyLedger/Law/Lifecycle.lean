import EfficiencyLedger.Proof.Run

/-!
# At-most-once lifecycle completion

The four gates are one gate for four kinds of owner (`LifecycleKind`): an entry that completes a
kind is refused where its valid owner is in the set of the kind, and adds it otherwise. So in every
reachable state each set holds exactly the owners that entries of the history completed, and no
owner was completed twice (`lifecycle_exact`).
-/

namespace El

/-- The kinds of owners that are completed at most once. -/
inductive LifecycleKind where
  | transfer | reservation | allocation | recovery
  deriving DecidableEq

namespace LifecycleKind

def tag : LifecycleKind → IdTag
  | transfer => .transferId
  | reservation => .reservationId
  | allocation => .allocationId
  | recovery => .recoveryId

/-- The events that complete an owner of the kind. -/
def completes (k : LifecycleKind) (e : LedgerEntry) : Prop :=
  match k with
  | transfer => e.event = EventType.kTransferCompleted
  | reservation => e.event = EventType.kReservationReleased
  | allocation => e.event = EventType.kAllocationReleased
  | recovery => e.event = EventType.kRecoveryCompleted ∨ e.event = EventType.kRecoveryFailed

instance (k : LifecycleKind) (e : LedgerEntry) : Decidable (k.completes e) :=
  match k with
  | transfer => inferInstanceAs (Decidable (e.event = EventType.kTransferCompleted))
  | reservation => inferInstanceAs (Decidable (e.event = EventType.kReservationReleased))
  | allocation => inferInstanceAs (Decidable (e.event = EventType.kAllocationReleased))
  | recovery => inferInstanceAs (Decidable
      (e.event = EventType.kRecoveryCompleted ∨ e.event = EventType.kRecoveryFailed))

def owner (k : LifecycleKind) (e : LedgerEntry) : Identity k.tag :=
  match k with
  | transfer => e.owners.transfer
  | reservation => e.owners.reservation
  | allocation => e.owners.allocation
  | recovery => e.owners.recovery

/-- The set of the kind. -/
def completed (k : LifecycleKind) (b : Books) : Finset (Identity k.tag) :=
  match k with
  | transfer => b.transferCompleted
  | reservation => b.reservationReleased
  | allocation => b.allocationReleased
  | recovery => b.recoveryCompleted

variable (k : LifecycleKind)

/-- The entry completes a valid owner of the kind. -/
abbrev Completion (e : LedgerEntry) : Prop := k.completes e ∧ (k.owner e).valid

/-- The valid owners that the entries complete, in order. -/
def completions (es : List LedgerEntry) : List (Identity k.tag) :=
  (es.filter fun e => k.Completion e).map k.owner

theorem isLifecycleCompletion_of_completes {e : LedgerEntry} (h : k.completes e) :
    isLifecycleCompletion e = true := by
  unfold isLifecycleCompletion
  rw [decide_eq_true_iff]
  cases k with
  | transfer => exact .inl h
  | reservation => exact .inr (.inl h)
  | allocation => exact .inr (.inr (.inl h))
  | recovery => exact .inr (.inr (.inr h))

theorem owner_notMem_of_checkLifecycle {b : Books} {e : LedgerEntry}
    (h : (checkLifecycle b e).ok = true) (hcomp : k.Completion e) : k.owner e ∉ k.completed b := by
  obtain ⟨hcompletes, hvalid⟩ := hcomp
  have hdup (m : String) : (⟨ErrorCode.kDuplicateEntry, m⟩ : Status).ok ≠ true := by
    show false ≠ true
    exact Bool.false_ne_true
  intro hmem
  unfold checkLifecycle at h
  rw [if_pos (k.isLifecycleCompletion_of_completes hcompletes)] at h
  split_ifs at h with htransfer hreservation hallocation hrecovery
  · exact hdup _ h
  · exact hdup _ h
  · exact hdup _ h
  · exact hdup _ h
  · cases k with
    | transfer => exact htransfer ⟨hcompletes, hvalid, hmem⟩
    | reservation => exact hreservation ⟨hcompletes, hvalid, hmem⟩
    | allocation => exact hallocation ⟨hcompletes, hvalid, hmem⟩
    | recovery => exact hrecovery ⟨hcompletes, hvalid, hmem⟩

theorem completed_recordLifecycle (b : Books) (e : LedgerEntry) :
    k.completed (b.recordLifecycle e) =
      if k.Completion e then insert (k.owner e) (k.completed b) else k.completed b := by
  unfold Books.recordLifecycle
  by_cases hlife : isLifecycleCompletion e = true
  · rw [if_pos hlife]
    cases k <;> rfl
  · have hno : ¬ k.Completion e := fun h => hlife (k.isLifecycleCompletion_of_completes h.1)
    rw [if_neg hlife, if_neg hno]

theorem not_completes_of_revision {e : LedgerEntry} (h : e.event = EventType.kReclassify) :
    ¬ k.completes e := by
  unfold completes
  rw [h]
  cases k <;> decide

theorem completed_record (b : Books) (e : LedgerEntry) :
    k.completed (b.record e) =
      if k.Completion e then insert (k.owner e) (k.completed b) else k.completed b := by
  have hpush (b : Books) : k.completed (b.pushEntry e) = k.completed b := by cases k <;> rfl
  have hattempt (b : Books) : k.completed (b.recordAttempt e) = k.completed b := by
    unfold Books.recordAttempt
    split
    · cases k <;> rfl
    · rfl
  unfold Books.record
  by_cases hevent : e.event = EventType.kReclassify
  · have hno : ¬ k.Completion e := fun h => k.not_completes_of_revision hevent h.1
    rw [if_pos hevent, if_neg hno, hpush]
  · rw [if_neg hevent, hpush, hattempt, completed_recordLifecycle]

theorem completions_append (es : List LedgerEntry) (e : LedgerEntry) :
    k.completions (es ++ [e]) =
      if k.Completion e then k.completions es ++ [k.owner e] else k.completions es := by
  unfold completions
  rw [List.filter_append, List.map_append]
  by_cases hcomp : k.Completion e
  · rw [List.filter_cons_of_pos (by simpa using hcomp), if_pos hcomp]
    rfl
  · rw [List.filter_cons_of_neg (by simpa using hcomp), if_neg hcomp, List.filter_nil, List.map_nil,
      List.append_nil]

/-- The set holds the owners that the history completes, each of them once. -/
structure Exact (b : Books) : Prop where
  completed : k.completed b = (k.completions b.history).toFinset
  once : (k.completions b.history).Nodup

theorem exact_empty : k.Exact {} := by
  refine ⟨?_, List.nodup_nil⟩
  cases k <;> rfl

theorem Exact.record {k : LifecycleKind} {b : Books} {e : LedgerEntry} (h : k.Exact b)
    (hgate : k.Completion e → k.owner e ∉ k.completed b) : k.Exact (b.record e) := by
  refine ⟨?_, ?_⟩
  · rw [completed_record, Books.record_history, completions_append]
    split
    · rw [h.completed, List.toFinset_append, List.toFinset_cons, List.toFinset_nil,
        Finset.union_comm]
      rfl
    · exact h.completed
  · rw [Books.record_history, completions_append]
    split
    · rename_i hcomp
      refine List.nodup_append.mpr ⟨h.once, List.nodup_singleton _, ?_⟩
      rintro x hx y hy rfl
      have hnew := hgate hcomp
      rw [h.completed, List.mem_toFinset, ← List.mem_singleton.mp hy] at hnew
      exact hnew hx
    · exact h.once

theorem exact_commit (b : Books) (e : LedgerEntry) (accounts : Accounts) (h : k.Exact b)
    (hadm : b.Admits e) : k.Exact ((b.withAccounts accounts).record e) := by
  have hbooks : k.Exact (b.withAccounts accounts) := by
    cases k <;> exact ⟨h.completed, h.once⟩
  apply hbooks.record
  intro hcomp
  by_cases hevent : e.event = EventType.kReclassify
  · exact absurd hcomp.1 (k.not_completes_of_revision hevent)
  · have hnew := k.owner_notMem_of_checkLifecycle (hadm.ordinary hevent).lifecycle hcomp
    cases k <;> exact hnew

end LifecycleKind

theorem lifecycle_appendLocked (k : LifecycleKind) (ord : IterationOrder) (s : EfficiencyLedger)
    (e : LedgerEntry) (h : k.Exact s.toBooks) : k.Exact (appendLocked ord e s).state.toBooks := by
  refine books_appendLocked ord h (fun _ accounts _ => ?_) fun hadm accounts _ => ?_
  · cases k <;> exact ⟨h.completed, h.once⟩
  · exact k.exact_commit s.toBooks e accounts h hadm.books

/-- **At-most-once lifecycle completion.** In every reachable state each of the four sets holds
exactly the valid owners that the history completes, and the history completes each of them once. -/
theorem lifecycle_exact (ord : IterationOrder) (id : LedgerId) (ops : List Op) (k : LifecycleKind) :
    k.completed (run ord (.fresh id) ops).toBooks =
        (k.completions (run ord (.fresh id) ops).history).toFinset ∧
      (k.completions (run ord (.fresh id) ops).history).Nodup := by
  have h : k.Exact (run ord (.fresh id) ops).toBooks :=
    books_invariant (P := k.Exact) k.exact_empty (lifecycle_appendLocked k ord) (s := .fresh id)
      k.exact_empty ops
  exact ⟨h.completed, h.once⟩

end El
