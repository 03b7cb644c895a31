import EfficiencyLedger.Proof.Split
import Mathlib.Algebra.BigOperators.Group.Finset.Basic
import Mathlib.Algebra.BigOperators.Group.Finset.Piecewise

/-!
# What an entry attributes to an account

`attributed e a b d` is the exact amount the shares of `e` bring to the counter `(b, d)` of the
account `a`. `sum_field` states the exactness of the split for a whole entry: over all shares,
the residual one included, each of the three quantities of the entry comes out exactly.
-/

namespace El

open CheckedU64

/-- The three quantities of an entry that are attributed. -/
inductive Quantity where
  | physical | avoided | stranded
  deriving DecidableEq

def Quantity.bucket : Quantity → Bucket
  | .physical => .physical
  | .avoided => .avoided
  | .stranded => .stranded

def LedgerEntry.source (e : LedgerEntry) : Quantity → Option ResourceUsage
  | .physical => some e.usage
  | .avoided => e.avoidedWork
  | .stranded => e.strandedCapacity

/-- The entry's own quantity, zero where the entry carries none. -/
def LedgerEntry.quantity (e : LedgerEntry) (q : Quantity) (d : Dimension) : UInt64 :=
  match e.source q with
  | none => 0
  | some u => u.data d

theorem quantity_eq_zero {e : LedgerEntry} {q : Quantity} (h : e.source q = none) (d : Dimension) :
    e.quantity q d = 0 := by
  unfold LedgerEntry.quantity
  rw [h]

def AttributionShare.field (sh : AttributionShare) : Quantity → DimTotals
  | .physical => sh.physical
  | .avoided => sh.avoided
  | .stranded => sh.stranded

/-- What a share posts to a bucket of its account, for an entry of class `cls`. -/
def AttributionShare.amount (cls : ByteEnum EfficiencyClass) (sh : AttributionShare) (b : Bucket) :
    DimTotals :=
  match b with
  | .physical => sh.physical
  | .avoided => sh.avoided
  | .stranded => sh.stranded
  | b => if consumptionBucket cls = some b then sh.physical else fun _ => 0

/-- The exact total the shares post to one counter of the account `a`. -/
def postedBy (cls : ByteEnum EfficiencyClass) (shares : List AttributionShare) (a : AccountId)
    (b : Bucket) (d : Dimension) : Nat :=
  (shares.map fun sh => if sh.account = a then (sh.amount cls b d).toNat else 0).sum

/-- The exact amount the entry attributes to one counter of the account `a`. -/
def attributed (e : LedgerEntry) (a : AccountId) (b : Bucket) (d : Dimension) : Nat :=
  postedBy e.classification (computeAttribution e).shares a b d

/-! ### The three quantities come out exactly -/

section Exact

variable (e : LedgerEntry) (q : Quantity) (d : Dimension)

/-- One quantity in one dimension: a share for each participant, and the residual. -/
def LedgerEntry.portion : List UInt64 × UInt64 :=
  distributeInto (participantsOf e) (e.source q) d

theorem length_portion : (e.portion q d).1.length = (participantsOf e).length := by
  unfold LedgerEntry.portion distributeInto
  cases e.source q with
  | none => simp
  | some u =>
    by_cases hnil : participantsOf e = []
    · simp [hnil]
    · simp [hnil, length_distributeDim]

theorem portion_sum :
    total (e.portion q d).1 + (e.portion q d).2.toNat = (e.quantity q d).toNat := by
  unfold LedgerEntry.portion LedgerEntry.quantity distributeInto
  cases e.source q with
  | none => simpa using total_zeros (participantsOf e)
  | some u =>
    by_cases hnil : participantsOf e = []
    · simp [hnil]
    · simpa [hnil] using distributeDim_sum (u.data d) ((participantsOf e).map (·.2))

theorem map_getD_zipIdx {α : Type} (l : List α) (out : List UInt64) (h : out.length = l.length) :
    (l.zipIdx.map fun p => out.getD p.2 0) = out := by
  apply List.ext_getElem (by simp [h])
  intro i hi hi'
  simp [hi']

/-- The share of the participant at a position. -/
def LedgerEntry.participantShare (p : (AccountId × UInt64) × Nat) : AttributionShare :=
  { account := p.1.1
    physical := fun d => (e.portion .physical d).1.getD p.2 0
    avoided := fun d => (e.portion .avoided d).1.getD p.2 0
    stranded := fun d => (e.portion .stranded d).1.getD p.2 0 }

/-- The share of the residual account. -/
def LedgerEntry.residualShare : AttributionShare :=
  { account := ⟨kResidualAccountValue⟩
    physical := fun d => (e.portion .physical d).2
    avoided := fun d => (e.portion .avoided d).2
    stranded := fun d => (e.portion .stranded d).2 }

theorem field_participantShare (p : (AccountId × UInt64) × Nat) :
    (e.participantShare p).field q d = (e.portion q d).1.getD p.2 0 := by
  cases q <;> rfl

theorem field_residualShare : e.residualShare.field q d = (e.portion q d).2 := by
  cases q <;> rfl

theorem shares_eq :
    ∃ rest, (computeAttribution e).shares =
        (participantsOf e).zipIdx.map e.participantShare ++ rest ∧
      (rest = [e.residualShare] ∨ rest = [] ∧ ∀ q d, (e.portion q d).2 = 0) := by
  by_cases hany : ∃ d, (e.portion .physical d).2 ≠ 0 ∨ (e.portion .avoided d).2 ≠ 0 ∨
      (e.portion .stranded d).2 ≠ 0
  · exact ⟨[e.residualShare], if_pos hany, .inl rfl⟩
  · refine ⟨[], ?_, .inr ⟨rfl, ?_⟩⟩
    · rw [List.append_nil]
      exact if_neg hany
    · intro q d
      have hd := not_exists.mp hany d
      rw [not_or, not_or, not_not, not_not, not_not] at hd
      cases q with
      | physical => exact hd.1
      | avoided => exact hd.2.1
      | stranded => exact hd.2.2

/-- **Every quantity of an entry is attributed exactly**, the residual account included. -/
theorem sum_field :
    ((computeAttribution e).shares.map fun sh => (sh.field q d).toNat).sum =
      (e.quantity q d).toNat := by
  obtain ⟨rest, hshares, hrest⟩ := shares_eq e
  have hparts : ((participantsOf e).zipIdx.map e.participantShare).map
      (fun sh => (sh.field q d).toNat) = (e.portion q d).1.map UInt64.toNat := by
    conv_rhs => rw [← map_getD_zipIdx (participantsOf e) _ (length_portion e q d)]
    rw [List.map_map, List.map_map]
    exact List.map_congr_left fun p _ => by simp [field_participantShare]
  rw [hshares, List.map_append, hparts, List.sum_append, ← total, ← portion_sum e q d]
  rcases hrest with rfl | ⟨rfl, hzero⟩
  · simp [field_residualShare]
  · simp [hzero]

end Exact

/-! ### What is posted to one counter -/

section Posted

variable (cls : ByteEnum EfficiencyClass) (a : AccountId) (b : Bucket) (d : Dimension)

@[simp] theorem postedBy_nil : postedBy cls [] a b d = 0 := rfl

@[simp] theorem postedBy_cons (sh : AttributionShare) (shares : List AttributionShare) :
    postedBy cls (sh :: shares) a b d =
      (if sh.account = a then (sh.amount cls b d).toNat else 0) + postedBy cls shares a b d := by
  simp [postedBy]

theorem postedBy_append (shares shares' : List AttributionShare) :
    postedBy cls (shares ++ shares') a b d = postedBy cls shares a b d + postedBy cls shares' a b d := by
  unfold postedBy
  rw [List.map_append, List.sum_append]

/-- The quantity a bucket is filled from. -/
def Bucket.quantity : Bucket → Quantity
  | .avoided => .avoided
  | .stranded => .stranded
  | _ => .physical

@[simp] theorem amount_quantity (sh : AttributionShare) (q : Quantity) :
    sh.amount cls q.bucket = sh.field q := by
  cases q <;> rfl

theorem amount_le (sh : AttributionShare) :
    (sh.amount cls b d).toNat ≤ (sh.field b.quantity d).toNat := by
  cases b with
  | physical | avoided | stranded => exact Nat.le_refl _
  | useful | overhead | waste | unknown =>
    simp only [AttributionShare.amount]
    split
    · exact Nat.le_refl _
    · exact Nat.zero_le _

theorem postedBy_le (shares : List AttributionShare) :
    postedBy cls shares a b d ≤ (shares.map fun sh => (sh.field b.quantity d).toNat).sum := by
  apply List.sum_le_sum
  intro sh _
  split
  · exact amount_le cls b d sh
  · exact Nat.zero_le _

theorem postedBy_eq_zero {shares : List AttributionShare} (h : ∀ sh ∈ shares, sh.account ≠ a) :
    postedBy cls shares a b d = 0 := by
  apply List.sum_eq_zero
  intro x hx
  obtain ⟨sh, hsh, rfl⟩ := List.mem_map.mp hx
  exact if_neg (h sh hsh)

theorem sum_postedBy (q : Quantity) {shares : List AttributionShare} {accs : Finset AccountId}
    (h : ∀ sh ∈ shares, sh.account ∈ accs) :
    ∑ a ∈ accs, postedBy cls shares a q.bucket d =
      (shares.map fun sh => (sh.field q d).toNat).sum := by
  induction shares with
  | nil => simp
  | cons sh shares ih =>
    simp only [postedBy_cons, amount_quantity, Finset.sum_add_distrib, List.map_cons, List.sum_cons]
    rw [ih fun x hx => h x (by simp [hx]), Finset.sum_ite_eq, if_pos (h sh (by simp))]

end Posted

section Attributed

variable (e : LedgerEntry) (a : AccountId) (b : Bucket) (d : Dimension)

theorem attributed_le : attributed e a b d ≤ (e.quantity b.quantity d).toNat := by
  have h := postedBy_le e.classification a b d (computeAttribution e).shares
  rwa [sum_field] at h

theorem attributed_lt : attributed e a b d < u64Limit :=
  lt_of_le_of_lt (attributed_le e a b d) (toNat_lt_limit _)

theorem attributed_eq_zero (h : ∀ sh ∈ (computeAttribution e).shares, sh.account ≠ a) :
    attributed e a b d = 0 := postedBy_eq_zero _ _ _ _ h

theorem sum_attributed (q : Quantity) {accs : Finset AccountId}
    (h : ∀ sh ∈ (computeAttribution e).shares, sh.account ∈ accs) :
    ∑ a ∈ accs, attributed e a q.bucket d = (e.quantity q d).toNat := by
  rw [← sum_field]
  exact sum_postedBy e.classification d q h

end Attributed

end El
