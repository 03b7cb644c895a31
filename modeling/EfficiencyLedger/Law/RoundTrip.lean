import EfficiencyLedger.Law.Atomicity
import EfficiencyLedger.Proof.Reload

/-!
# Save and load

A load replays the saved history under the header of the save. A ledger that gave up no call half
way comes back from its save exactly where the epoch and generation fences of all its entries are
those it has now, and its notes and its number of entries are within the limits of the binary form
(`round_trip_iff`).
-/

namespace El

/-- A fresh ledger loads the save, and agrees with the saved ledger on all that is saved or derived
from it. -/
def RoundTrips (ord : IterationOrder) (s : EfficiencyLedger) : Prop :=
  ∀ id, ∃ t, loadFromString ord s.saveToString (.fresh id) = .ok ⟨⟩ t ∧
    t.ledgerId = s.ledgerId ∧ t.epoch = s.epoch ∧ t.ledgerGeneration = s.ledgerGeneration ∧
    t.accountGeneration = s.accountGeneration ∧ t.history = s.history ∧ t.digest = s.digest ∧
    ∀ a, t.accountSummary a = s.accountSummary a

/-- The header has not moved away from the fences of the entries, and the binary form can hold the
history. -/
structure Reloadable (s : EfficiencyLedger) : Prop where
  fences : ∀ e ∈ s.history, s.FencesMatch e
  notes : ∀ e ∈ s.history, e.note.length ≤ kMaxNoteLength
  count : s.history.length ≤ kMaxEntryCount

theorem accountSummary_eq_of_totals {s t : EfficiencyLedger} (h : s.toBooks.Same t.toBooks)
    (a : AccountId) : t.accountSummary a = s.accountSummary a := by
  refine AccountAggregate.ext_bucket fun bk => funext fun d => ?_
  exact (h.totals (a, bk, d)).symm

theorem roundTrips_of_reloadable {ord : IterationOrder} {s : EfficiencyLedger}
    (hvalid : ∀ e ∈ s.history, e.validate = true) (hrestorable : s.toBooks.Restorable ord)
    (h : Reloadable s) : RoundTrips ord s := by
  intro id
  have henc : s.Encodable :=
    ⟨h.count, fun e he => ⟨participants_of_validate (hvalid e he), h.notes e he⟩⟩
  obtain ⟨c, -, hsame, hload⟩ := load_saved ord henc hrestorable h.fences (.fresh id)
  refine ⟨_, hload, rfl, rfl, rfl, rfl, hsame.history.symm, ?_, fun a => ?_⟩
  · show mixBytes kFnvOffset (digestStream c.history) = mixBytes kFnvOffset (digestStream s.history)
    rw [hsame.history]
  · exact accountSummary_eq_of_totals hsame a

theorem reloadable_of_roundTrips {ord : IterationOrder} {s : EfficiencyLedger}
    (h : RoundTrips ord s) : Reloadable s := by
  obtain ⟨t, hload, -, hepoch, hledger, haccount, hhistory, -, -⟩ := h kDefaultLedgerId
  obtain ⟨⟨hcount, henc⟩, hfences⟩ := fences_of_load hload
  rw [hhistory] at hcount henc hfences
  refine ⟨fun e he => ?_, fun e he => (henc e he).note, hcount⟩
  have hmatch := hfences e he
  refine ⟨fun hv => ?_, fun hv => ?_, fun hv => ?_⟩
  · rw [← hepoch]
    exact hmatch.epoch hv
  · rw [← hledger]
    exact hmatch.ledgerGeneration hv
  · rw [← haccount]
    exact hmatch.accountGeneration hv

/-- **When a save brings the ledger back.** -/
theorem round_trip_iff (ord ord' : IterationOrder) (id : LedgerId) (ops : List Op)
    (h : AppendsMeet ord (NoResidue ord) (.fresh id) ops) :
    RoundTrips ord' (run ord (.fresh id) ops) ↔ Reloadable (run ord (.fresh id) ops) :=
  ⟨reloadable_of_roundTrips,
    roundTrips_of_reloadable (validate_run ord id ops) (restorable_run ord ord' id ops h)⟩

/-- An entry fenced with the epoch 1, accepted in it. -/
def fencedInEpochOne : List Op := [.append (fencedEntry 1 ⟨1⟩)]

theorem round_trip_fencedInEpochOne :
    RoundTrips default (run default (.fresh kDefaultLedgerId) fencedInEpochOne) ↔
      Reloadable (run default (.fresh kDefaultLedgerId) fencedInEpochOne) :=
  round_trip_iff default default kDefaultLedgerId fencedInEpochOne
    ⟨⟨noResidue_of_isOk (by decide +kernel), fun _ _ => trivial⟩, trivial⟩

/-- Once the epoch has advanced, the save of that ledger does not load. -/
theorem advanced_epoch_unloadable :
    ¬ ∀ (ord : IterationOrder) (id : LedgerId) (ops : List Op), (∀ op ∈ ops, op.isLoad = false) →
      RoundTrips ord (run ord (.fresh id) ops) := by
  intro h
  have hreload := reloadable_of_roundTrips
    (h default kDefaultLedgerId (fencedInEpochOne ++ [.advanceEpoch]) (by decide))
  have hmem : fencedEntry 1 ⟨1⟩ ∈
      (run default (.fresh kDefaultLedgerId) (fencedInEpochOne ++ [.advanceEpoch])).history := by
    decide +kernel
  have hepoch : (⟨1⟩ : CoordinatorEpoch) =
      (run default (.fresh kDefaultLedgerId) (fencedInEpochOne ++ [.advanceEpoch])).epoch :=
    (hreload.fences _ hmem).epoch (by decide)
  revert hepoch
  decide +kernel

end El
