import Mathlib.Data.UInt

/-!
# Checked arithmetic on 64-bit counters

`checkedAdd`, `checkedSub` and `checkedMul` return `none` where the exact result does not fit,
and are characterised by the exact arithmetic of the `toNat` values. The bound `2 ^ 64` is named
`u64Limit`, so that proofs use it without computing it.
-/

namespace CheckedU64

def checkedAdd (a b : UInt64) : Option UInt64 :=
  if a.toNat > 0xFFFFFFFFFFFFFFFF - b.toNat then none else some (a + b)

def checkedSub (a b : UInt64) : Option UInt64 :=
  if b > a then none else some (a - b)

def checkedMul (a b : UInt64) : Option UInt64 :=
  if a ≠ 0 ∧ b.toNat > 0xFFFFFFFFFFFFFFFF / a.toNat then none else some (a * b)

/-- The first natural number that does not fit in 64 bits. -/
def u64Limit : Nat := 2 ^ 64

theorem toNat_lt_limit (a : UInt64) : a.toNat < u64Limit := a.toNat_lt

theorem toNat_add_of_lt {a b : UInt64} (h : a.toNat + b.toNat < u64Limit) :
    (a + b).toNat = a.toNat + b.toNat := by
  unfold u64Limit at h
  rw [UInt64.toNat_add]
  omega

theorem checkedAdd_eq_none {a b : UInt64} :
    checkedAdd a b = none ↔ u64Limit ≤ a.toNat + b.toNat := by
  have hb := b.toNat_lt
  unfold checkedAdd u64Limit
  split <;> simp <;> omega

theorem checkedAdd_eq_some {a b c : UInt64} :
    checkedAdd a b = some c ↔ c.toNat = a.toNat + b.toNat := by
  have hc := toNat_lt_limit c
  cases h : checkedAdd a b with
  | none =>
    rw [checkedAdd_eq_none] at h
    simp only [reduceCtorEq, false_iff]
    omega
  | some d =>
    have hlt : ¬ u64Limit ≤ a.toNat + b.toNat := by
      rw [← checkedAdd_eq_none, h]
      simp
    have hd : d = a + b := by
      unfold checkedAdd at h
      split at h <;> simp_all
    rw [Option.some.injEq, ← UInt64.toNat_inj, hd, toNat_add_of_lt (Nat.not_le.mp hlt)]
    exact eq_comm

theorem exists_checkedAdd {a b : UInt64} (h : a.toNat + b.toNat < u64Limit) :
    ∃ c, checkedAdd a b = some c := by
  cases hc : checkedAdd a b with
  | none => exact absurd (checkedAdd_eq_none.mp hc) (by omega)
  | some c => exact ⟨c, rfl⟩

theorem checkedSub_eq_none {a b : UInt64} : checkedSub a b = none ↔ a.toNat < b.toNat := by
  unfold checkedSub
  simp only [gt_iff_lt, UInt64.lt_iff_toNat_lt]
  split <;> simp <;> omega

theorem checkedSub_eq_some {a b c : UInt64} :
    checkedSub a b = some c ↔ a.toNat = c.toNat + b.toNat := by
  cases h : checkedSub a b with
  | none =>
    rw [checkedSub_eq_none] at h
    simp only [reduceCtorEq, false_iff]
    omega
  | some d =>
    have hle : b ≤ a := by
      rw [UInt64.le_iff_toNat_le]
      have : ¬ a.toNat < b.toNat := by rw [← checkedSub_eq_none, h]; simp
      omega
    have hd : d = a - b := by
      unfold checkedSub at h
      split at h <;> simp_all
    rw [Option.some.injEq, ← UInt64.toNat_inj, hd, UInt64.toNat_sub_of_le _ _ hle]
    rw [UInt64.le_iff_toNat_le] at hle
    omega

theorem exists_checkedSub {a b : UInt64} (h : b.toNat ≤ a.toNat) : ∃ c, checkedSub a b = some c := by
  cases hc : checkedSub a b with
  | none => exact absurd (checkedSub_eq_none.mp hc) (by omega)
  | some c => exact ⟨c, rfl⟩

theorem toNat_mul_of_lt {a b : UInt64} (h : a.toNat * b.toNat < u64Limit) :
    (a * b).toNat = a.toNat * b.toNat := by
  unfold u64Limit at h
  rw [UInt64.toNat_mul, Nat.mod_eq_of_lt h]

theorem checkedMul_eq_none {a b : UInt64} :
    checkedMul a b = none ↔ u64Limit ≤ a.toNat * b.toNat := by
  unfold checkedMul
  split
  · rename_i hover
    obtain ⟨hne, hgt⟩ := hover
    have hpos : 0 < a.toNat := Nat.pos_of_ne_zero fun h => hne (UInt64.toNat_inj.mp h)
    rw [gt_iff_lt, Nat.div_lt_iff_lt_mul hpos, Nat.mul_comm] at hgt
    have hle : u64Limit ≤ a.toNat * b.toNat := hgt
    simp only [hle]
  · rename_i hfits
    refine iff_of_false (by simp) (Nat.not_le.mpr ?_)
    by_cases hzero : a = 0
    · rw [hzero, UInt64.toNat_zero, Nat.zero_mul]
      exact Nat.two_pow_pos 64
    · have hpos : 0 < a.toNat := Nat.pos_of_ne_zero fun h => hzero (UInt64.toNat_inj.mp h)
      have hle : b.toNat ≤ 0xFFFFFFFFFFFFFFFF / a.toNat := Nat.not_lt.mp fun h => hfits ⟨hzero, h⟩
      rw [Nat.le_div_iff_mul_le hpos, Nat.mul_comm] at hle
      exact Nat.lt_of_le_of_lt hle (by decide)

theorem checkedMul_eq_some {a b c : UInt64} :
    checkedMul a b = some c ↔ c.toNat = a.toNat * b.toNat := by
  have hc := toNat_lt_limit c
  cases h : checkedMul a b with
  | none =>
    rw [checkedMul_eq_none] at h
    simp only [reduceCtorEq, false_iff]
    omega
  | some d =>
    have hlt : a.toNat * b.toNat < u64Limit := by
      rw [← Nat.not_le, ← checkedMul_eq_none, h]
      simp
    have hd : d = a * b := by
      unfold checkedMul at h
      split at h <;> simp_all
    rw [Option.some.injEq, ← UInt64.toNat_inj, hd, toNat_mul_of_lt hlt]
    exact eq_comm

end CheckedU64
