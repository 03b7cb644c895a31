import EfficiencyLedger.Proof.Append
import EfficiencyLedger.Proof.Books

/-!
# Shared quantities

A quantity is split by the largest remainders of its weighted parts (`largest_remainder`). The
attribution policy of an entry plays no part in it: an entry gets what its policy promises where the
weighted split happens to give it (`policy_honoured_iff`).
-/

namespace El

open CheckedU64 Apportion

/-! ### One quantity -/

/-- **The largest-remainder split.** Where the weights have a total other than zero that fits in 64
bits, the additions and the narrowed quotients of the loops are exact, nothing is left over, and an
index gets its part rounded down and one more where it has one of the largest remainders. Otherwise
everything is left over. -/
theorem largest_remainder (amount : UInt64) (ws : List UInt64) :
    (total ws ≠ 0 → total ws < u64Limit →
      (distributeDim amount ws).2 = 0 ∧ (distributeDim amount ws).1.length = ws.length ∧
      total (distributeDim amount ws).1 = amount.toNat ∧
      (∀ i < ws.length, ((distributeDim amount ws).1.getD i 0).toNat =
        share amount.toNat (ws.map UInt64.toNat) i) ∧
      (∀ i < ws.length, ws.getD i 0 = 0 → (distributeDim amount ws).1.getD i 0 = 0) ∧
      ∃ W out rems allocated, ws.foldlM checkedAdd 0 = some W ∧ W.toNat = total ws ∧
        allocate amount W ws 0 = (out, rems, some allocated) ∧
        out.map UInt64.toNat = floors amount.toNat (total ws) (ws.map UInt64.toNat) ∧
        rems.map UInt64.toNat = remainders amount.toNat (total ws) (ws.map UInt64.toNat) ∧
        allocated.toNat = (floors amount.toNat (total ws) (ws.map UInt64.toNat)).sum) ∧
    (ws = [] ∨ total ws = 0 ∨ u64Limit ≤ total ws →
      distributeDim amount ws = (ws.map fun _ => 0, amount)) := by
  constructor
  · intro hne hfit
    have hpos := Nat.pos_of_ne_zero hne
    obtain ⟨hresidual, hshare⟩ := distributeDim_of_fits amount hpos hfit
    have hsum := distributeDim_sum amount ws
    rw [hresidual, UInt64.toNat_zero, Nat.add_zero] at hsum
    refine ⟨hresidual, length_distributeDim amount ws, hsum, hshare, ?_, ?_⟩
    · intro i hi hzero
      rw [← UInt64.toNat_inj, hshare i hi, UInt64.toNat_zero]
      apply share_eq_zero amount.toNat hpos
      rw [getD_map_toNat, hzero, UInt64.toNat_zero]
    · obtain ⟨W, out, rems, allocated, hfold, -, hW, hloop, hexact⟩ :=
        exists_allocation amount hpos hfit
      exact ⟨W, out, rems, allocated, hfold, hW, hloop, hexact⟩
  · rintro (rfl | hdegenerate)
    · exact distributeDim_of_degenerate amount (Or.inl rfl)
    · exact distributeDim_of_degenerate amount hdegenerate

theorem largest_remainder_thirds :
    (distributeDim 100 [1, 1, 1]).2 = 0 ∧ (distributeDim 100 [1, 1, 1]).1.length = 3 ∧
    total (distributeDim 100 [1, 1, 1]).1 = 100 :=
  have h := (largest_remainder 100 [1, 1, 1]).1 (by decide) (by decide)
  ⟨h.1, h.2.1, h.2.2.1⟩

/-! ### Attribution policies -/

/-- What the participant at a position receives of a quantity. -/
def received (e : LedgerEntry) (q : Quantity) (d : Dimension) (i : Nat) : Nat :=
  ((computeAttribution e).shares[i]?.map fun sh => (sh.field q d).toNat).getD 0

/-- What goes to the residual account, behind the participants. -/
def unattributed (e : LedgerEntry) (q : Quantity) (d : Dimension) : Nat :=
  (((computeAttribution e).shares.drop (participantsOf e).length).map fun sh =>
    (sh.field q d).toNat).sum

/-- What the policy of a shared entry promises its participants: shares that differ by one unit at
most, or nothing at all. -/
def PolicyHonoured (e : LedgerEntry) (sh : SharedRef) : Prop :=
  (sh.policy = AttributionPolicy.kEqualShare → ∀ q d, ∀ i < sh.participants.length,
    ∀ j < sh.participants.length, received e q d i ≤ received e q d j + 1) ∧
  (sh.policy = AttributionPolicy.kUnattributedShared → ∀ q d,
    (∀ i < sh.participants.length, received e q d i = 0) ∧
      unattributed e q d = (e.quantity q d).toNat)

def SharedRef.weights (sh : SharedRef) : List UInt64 := sh.participants.map (·.weight)

theorem length_weights (sh : SharedRef) :
    (sh.weights.map UInt64.toNat).length = sh.participants.length := by
  rw [SharedRef.weights, List.length_map, List.length_map]

section Shared

variable {e : LedgerEntry} {sh : SharedRef}

theorem participantsOf_of_shared (hshared : e.shared = some sh) (hne : sh.participants ≠ []) :
    participantsOf e = sh.participants.map fun p => (p.account, p.weight) := by
  unfold participantsOf
  rw [hshared]
  exact if_neg hne

theorem received_eq (q : Quantity) (d : Dimension) {i : Nat} (hi : i < (participantsOf e).length) :
    received e q d i = ((e.portion q d).1.getD i 0).toNat := by
  obtain ⟨rest, hshares, -⟩ := shares_eq e
  have hlen : i < ((participantsOf e).zipIdx.map e.participantShare).length := by simpa using hi
  unfold received
  rw [hshares, List.getElem?_append_left hlen, List.getElem?_eq_getElem hlen, Option.map_some,
    Option.getD_some, List.getElem_map, field_participantShare, List.getElem_zipIdx]
  simp

theorem unattributed_eq (q : Quantity) (d : Dimension) :
    unattributed e q d = (e.portion q d).2.toNat := by
  obtain ⟨rest, hshares, hrest⟩ := shares_eq e
  have hlen : ((participantsOf e).zipIdx.map e.participantShare).length =
      (participantsOf e).length := by simp
  unfold unattributed
  rw [hshares, List.drop_left' hlen]
  rcases hrest with rfl | ⟨rfl, hzero⟩
  · simp [field_residualShare]
  · simp [hzero]

theorem weights_of_participantTotal {ps : List SharedParticipant} : ∀ {t W : UInt64},
    participantTotal ps t = some W →
      t.toNat + total (ps.map (·.weight)) = W.toNat ∧ ∀ p ∈ ps, p.weight ≠ 0 := by
  induction ps with
  | nil =>
    intro t W h
    cases h
    simp
  | cons p ps ih =>
    intro t W h
    unfold participantTotal at h
    split at h
    · cases h
    split at h
    · cases h
    rename_i hweight
    cases hadd : checkedAdd t p.weight with
    | none => simp [hadd] at h
    | some t' =>
      simp only [hadd] at h
      obtain ⟨hsum, hrest⟩ := ih h
      rw [checkedAdd_eq_some.mp hadd] at hsum
      refine ⟨?_, ?_⟩
      · rw [List.map_cons, total_cons]
        omega
      · intro x hx
        rcases List.mem_cons.mp hx with rfl | hx
        · exact hweight
        · exact hrest x hx

theorem total_weights (hvalid : sh.valid = true) (hne : sh.participants ≠ []) :
    0 < total sh.weights ∧ total sh.weights < u64Limit := by
  unfold SharedRef.valid at hvalid
  rw [if_neg hne] at hvalid
  split at hvalid
  · cases hvalid
  cases htotal : participantTotal sh.participants 0 with
  | none => simp [htotal] at hvalid
  | some W =>
    obtain ⟨hsum, hpos⟩ := weights_of_participantTotal htotal
    have hW := toNat_lt_limit W
    obtain ⟨p, ps, hps⟩ := List.exists_cons_of_ne_nil hne
    have hfirst : p.weight.toNat ≠ 0 := fun h =>
      hpos p (by simp [hps]) (UInt64.toNat_inj.mp h)
    rw [UInt64.toNat_zero, Nat.zero_add] at hsum
    unfold SharedRef.weights
    refine ⟨?_, by omega⟩
    rw [hps, List.map_cons, total_cons]
    omega

theorem weights_participantsOf (hvalid : e.validate = true) (hne : participantsOf e ≠ []) :
    0 < total ((participantsOf e).map (·.2)) ∧ total ((participantsOf e).map (·.2)) < u64Limit := by
  have howner : participantsOf e = [(e.account, 1)] → 0 < total ((participantsOf e).map (·.2)) ∧
      total ((participantsOf e).map (·.2)) < u64Limit := by
    intro h
    rw [h]
    show 0 < total [1] ∧ total [1] < u64Limit
    decide
  unfold participantsOf at hne howner ⊢
  cases hshared : e.shared with
  | none =>
    simp only [hshared] at hne howner ⊢
    split at hne
    · rename_i hacc
      exact howner (if_pos hacc)
    · exact absurd rfl hne
  | some sh =>
    simp only [hshared] at hne howner ⊢
    by_cases hnil : sh.participants = []
    · rw [if_pos hnil] at hne howner ⊢
      split at hne
      · rename_i hacc
        exact howner (if_pos hacc)
      · exact absurd rfl hne
    · have hsplit := total_weights ((validate_eq_true_iff.mp hvalid).shared sh hshared) hnil
      rw [if_neg hnil, List.map_map]
      exact hsplit

/-- **A valid entry with beneficiaries is split by their weights.** -/
theorem portion_of_valid (hvalid : e.validate = true) (hne : participantsOf e ≠ []) (q : Quantity)
    (d : Dimension) :
    (∀ i < (participantsOf e).length, ((e.portion q d).1.getD i 0).toNat =
      share (e.quantity q d).toNat (((participantsOf e).map (·.2)).map UInt64.toNat) i) ∧
      (e.portion q d).2 = 0 := by
  obtain ⟨hpos, hfit⟩ := weights_participantsOf hvalid hne
  unfold LedgerEntry.portion LedgerEntry.quantity distributeInto
  cases e.source q with
  | none =>
    refine ⟨fun i _ => ?_, rfl⟩
    rw [getD_zeros, UInt64.toNat_zero, share_zero]
  | some u =>
    obtain ⟨hresidual, hshare⟩ := distributeDim_of_fits (u.data d) hpos hfit
    simp only [if_neg hne]
    refine ⟨fun i hi => hshare i ?_, hresidual⟩
    rw [List.length_map]
    exact hi

/-- **A valid shared entry is split by its weights**, whatever its policy. -/
theorem received_of_valid (hvalid : e.validate = true) (hshared : e.shared = some sh)
    (hne : sh.participants ≠ []) (q : Quantity) (d : Dimension) :
    (∀ i < sh.participants.length, received e q d i =
      share (e.quantity q d).toNat (sh.weights.map UInt64.toNat) i) ∧ unattributed e q d = 0 := by
  have hparts := participantsOf_of_shared hshared hne
  have hlen : (participantsOf e).length = sh.participants.length := by
    rw [hparts, List.length_map]
  have hweights : (participantsOf e).map (·.2) = sh.weights := by
    rw [hparts, List.map_map]
    rfl
  have hnil : participantsOf e ≠ [] := by
    rw [hparts]
    simpa using hne
  obtain ⟨hshare, hresidual⟩ := portion_of_valid hvalid hnil q d
  rw [hweights, hlen] at hshare
  refine ⟨fun i hi => ?_, ?_⟩
  · rw [received_eq q d (hlen ▸ hi), hshare i hi]
  · rw [unattributed_eq, hresidual, UInt64.toNat_zero]

theorem equalShares_iff (hvalid : e.validate = true) (hshared : e.shared = some sh)
    (hne : sh.participants ≠ []) (q : Quantity) (d : Dimension) :
    (∀ i < sh.participants.length, ∀ j < sh.participants.length,
        received e q d i ≤ received e q d j + 1) ↔
      EvenShares (e.quantity q d).toNat (sh.weights.map UInt64.toNat) := by
  have hsplit := received_of_valid hvalid hshared hne q d
  unfold EvenShares
  rw [length_weights]
  apply forall₄_congr
  intro i hi j hj
  rw [hsplit.1 i hi, hsplit.1 j hj]

theorem equalShares_of_equal_weights (hvalid : e.validate = true) (hshared : e.shared = some sh)
    (hne : sh.participants ≠ []) {w : UInt64} (hw : ∀ p ∈ sh.participants, p.weight = w)
    (q : Quantity) (d : Dimension) :
    ∀ i < sh.participants.length, ∀ j < sh.participants.length,
      received e q d i ≤ received e q d j + 1 := by
  apply (equalShares_iff hvalid hshared hne q d).mpr
  apply even_of_equal (w := w.toNat)
  intro x hx
  obtain ⟨v, hv, rfl⟩ := List.mem_map.mp hx
  obtain ⟨p, hp, rfl⟩ := List.mem_map.mp hv
  rw [hw p hp]

theorem not_equalShares_of_gap (hvalid : e.validate = true) (hshared : e.shared = some sh)
    (hne : sh.participants ≠ []) (q : Quantity) (d : Dimension) {i j : Nat}
    (hi : i < sh.participants.length) (hj : j < sh.participants.length)
    (hgap : (e.quantity q d).toNat * (sh.weights.getD j 0).toNat + 3 * total sh.weights ≤
      (e.quantity q d).toNat * (sh.weights.getD i 0).toNat) :
    ∃ i < sh.participants.length, ∃ j < sh.participants.length,
      received e q d j + 1 < received e q d i := by
  obtain ⟨hpos, -⟩ := total_weights ((validate_eq_true_iff.mp hvalid).shared sh hshared) hne
  have hlen := length_weights sh
  rw [← getD_map_toNat, ← getD_map_toNat] at hgap
  have huneven := not_even_of_gap hpos (hlen ▸ hi) (hlen ▸ hj) hgap
  rw [← equalShares_iff hvalid hshared hne q d] at huneven
  push Not at huneven
  exact huneven

end Shared

/-- **When the policy of an accepted entry is honoured.** Equal shares come about where the weighted
ones happen to be even, and everything stays unattributed where there is nothing to attribute. -/
theorem policy_honoured_iff (ord : IterationOrder) (s s' : EfficiencyLedger) (e : LedgerEntry)
    (sh : SharedRef) (haccepted : appendLocked ord e s = .ok ⟨⟩ s')
    (hshared : e.shared = some sh) (hne : sh.participants ≠ []) :
    PolicyHonoured e sh ↔
      (sh.policy = AttributionPolicy.kEqualShare → ∀ q d,
        EvenShares (e.quantity q d).toNat (sh.weights.map UInt64.toNat)) ∧
      (sh.policy = AttributionPolicy.kUnattributedShared → ∀ q d, e.quantity q d = 0) := by
  have hvalid := (appendLocked_eq_ok ord haccepted).1.books.valid
  apply and_congr
  · apply imp_congr_right
    intro _
    apply forall₂_congr
    intro q d
    exact equalShares_iff hvalid hshared hne q d
  · apply imp_congr_right
    intro _
    apply forall₂_congr
    intro q d
    obtain ⟨hsplit, hresidual⟩ := received_of_valid hvalid hshared hne q d
    rw [hresidual]
    constructor
    · rintro ⟨-, hzero⟩
      exact UInt64.toNat_inj.mp hzero.symm
    · intro hzero
      refine ⟨fun i hi => ?_, by rw [hzero, UInt64.toNat_zero]⟩
      rw [hsplit i hi, hzero, UInt64.toNat_zero, share_zero]

/-- The accounts 7 and 8 share four units of the first dimension, with the weights 1 and `w`. -/
def sharedFour (policy : AttributionPolicy) (w : UInt64) : LedgerEntry :=
  { id := ⟨1⟩
    event := EventType.kExecutionProgress
    usage := ⟨fun d => if d.val = 0 then 4 else 0⟩
    shared := some { policy := policy, participants := [⟨⟨7⟩, 1⟩, ⟨⟨8⟩, w⟩] } }

theorem policy_honoured_sharedFour :
    let sh : SharedRef :=
      { policy := AttributionPolicy.kEqualShare, participants := [⟨⟨7⟩, 1⟩, ⟨⟨8⟩, 1⟩] }
    PolicyHonoured (sharedFour .kEqualShare 1) sh ↔
      (sh.policy = AttributionPolicy.kEqualShare → ∀ q d,
        EvenShares ((sharedFour .kEqualShare 1).quantity q d).toNat (sh.weights.map UInt64.toNat)) ∧
      (sh.policy = AttributionPolicy.kUnattributedShared → ∀ q d,
        (sharedFour .kEqualShare 1).quantity q d = 0) :=
  policy_honoured_iff default (.fresh kDefaultLedgerId) _ (sharedFour .kEqualShare 1) _
    (EStateM.Result.eq_ok_of_isOk (by decide +kernel)) rfl (by decide)

/-- Equal shares of four units, one for the account 7 and three for the account 8. -/
theorem policy_broken_sharedFour :
    ¬∀ (ord : IterationOrder) (s s' : EfficiencyLedger) (e : LedgerEntry) (sh : SharedRef),
      appendLocked ord e s = .ok ⟨⟩ s' → e.shared = some sh → sh.participants ≠ [] →
        PolicyHonoured e sh := by
  intro h
  have hhonoured := h default (.fresh kDefaultLedgerId) _ (sharedFour .kEqualShare 3) _
    (EStateM.Result.eq_ok_of_isOk (by decide +kernel)) rfl (by decide)
  have hshares := hhonoured.1 rfl .physical 0 1 (by decide) 0 (by decide)
  exact absurd hshares (by decide +kernel)

end El
