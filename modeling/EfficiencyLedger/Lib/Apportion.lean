import Mathlib.Algebra.BigOperators.Group.List.Basic
import Mathlib.Algebra.Order.BigOperators.Group.List
import Mathlib.Algebra.Ring.Nat

/-!
# Largest-remainder apportionment

Splitting an amount in proportion to weights `ws` of total `W` leaves, after every share has been
rounded down, a leftover of fewer units than there are weights: `leftover_lt_length`. One unit each
goes to the largest remainders, to the lower index where they are equal: `share` is what an index
gets. The units go to the front of the indices in that order (`mem_take_iff_rank`), and none of them
to a weight of nothing (`share_eq_zero`).
-/

namespace Apportion

/-- The shares rounded down. -/
def floors (amount W : Nat) (ws : List Nat) : List Nat := ws.map fun w => amount * w / W

/-- What rounding down took from each share, in units of `1 / W`. -/
def remainders (amount W : Nat) (ws : List Nat) : List Nat := ws.map fun w => amount * w % W

theorem mul_sum_floors_add_sum_remainders (amount W : Nat) (ws : List Nat) :
    W * (floors amount W ws).sum + (remainders amount W ws).sum = amount * ws.sum := by
  induction ws with
  | nil => simp [floors, remainders]
  | cons w ws ih =>
    have h := Nat.div_add_mod (amount * w) W
    simp only [floors, remainders, List.map_cons, List.sum_cons, Nat.mul_add] at ih ⊢
    omega

theorem sum_remainders_lt (amount : Nat) {W : Nat} {ws : List Nat} (hW : 0 < W) (hws : ws ≠ []) :
    (remainders amount W ws).sum < W * ws.length := by
  induction ws with
  | nil => exact absurd rfl hws
  | cons w ws ih =>
    have hw := Nat.mod_lt (amount * w) hW
    simp only [remainders, List.map_cons, List.sum_cons, List.length_cons, Nat.mul_add, Nat.mul_one]
    by_cases hnil : ws = []
    · subst hnil
      simpa using hw
    · have := ih hnil
      simp only [remainders] at this
      omega

theorem sum_floors_le (amount : Nat) {ws : List Nat} (hW : 0 < ws.sum) :
    (floors amount ws.sum ws).sum ≤ amount := by
  have h := mul_sum_floors_add_sum_remainders amount ws.sum ws
  rw [Nat.mul_comm amount] at h
  exact Nat.le_of_mul_le_mul_left (Nat.le.intro h) hW

theorem leftover_lt_length (amount : Nat) {ws : List Nat} (hW : 0 < ws.sum) :
    amount - (floors amount ws.sum ws).sum < ws.length := by
  have hnil : ws ≠ [] := by
    rintro rfl
    simp at hW
  have hsplit := mul_sum_floors_add_sum_remainders amount ws.sum ws
  have hlt := sum_remainders_lt amount hW hnil
  apply Nat.lt_of_mul_lt_mul_left (a := ws.sum)
  rw [Nat.mul_sub, Nat.mul_comm ws.sum amount]
  omega

/-! ### The order of the remainders -/

/-- The index `i` is served before `j`. -/
def Before (rems : List Nat) (i j : Nat) : Prop :=
  rems.getD j 0 < rems.getD i 0 ∨ rems.getD i 0 = rems.getD j 0 ∧ i < j

instance (rems : List Nat) (i j : Nat) : Decidable (Before rems i j) :=
  inferInstanceAs (Decidable (_ ∨ _))

/-- The number of indices served before `i`. -/
def rank (rems : List Nat) (i : Nat) : Nat :=
  (List.range rems.length).countP fun j => Before rems j i

/-- What the index `i` gets: its share rounded down, and one of the units left over. -/
def share (amount : Nat) (ws : List Nat) (i : Nat) : Nat :=
  amount * ws.getD i 0 / ws.sum +
    if rank (remainders amount ws.sum ws) i < amount - (floors amount ws.sum ws).sum then 1 else 0

theorem Before.asymm {rems : List Nat} {i j : Nat} (h : Before rems i j) : ¬Before rems j i := by
  unfold Before at *
  omega

theorem mem_take_iff_rank {rems : List Nat} {l : List Nat} (hl : l.Pairwise (Before rems)) {i : Nat}
    (hi : i ∈ l) (k : Nat) : i ∈ l.take k ↔ l.countP (fun j => Before rems j i) < k := by
  induction l generalizing k with
  | nil => simp at hi
  | cons x l ih =>
    rw [List.pairwise_cons] at hl
    cases k with
    | zero => simp
    | succ k =>
      rw [List.take_succ_cons, List.mem_cons, List.countP_cons]
      by_cases hx : i = x
      · subst hx
        have hnone : l.countP (fun j => Before rems j i) = 0 := by
          rw [List.countP_eq_zero]
          intro j hj
          simpa using (hl.1 j hj).asymm
        have hself : ¬Before rems i i := fun h => h.asymm h
        simp [hnone, hself]
      · have hmem : i ∈ l := (List.mem_cons.mp hi).resolve_left hx
        simp only [hx, false_or, hl.1 i hmem, decide_true, if_true, ih hl.2 hmem]
        omega

/-! ### Who gets a unit -/

theorem sum_remainders (amount : Nat) (ws : List Nat) :
    (remainders amount ws.sum ws).sum =
      (amount - (floors amount ws.sum ws).sum) * ws.sum := by
  have hsplit := mul_sum_floors_add_sum_remainders amount ws.sum ws
  rw [Nat.sub_mul, Nat.mul_comm _ ws.sum, Nat.mul_comm (floors _ _ _).sum]
  rw [Nat.mul_comm ws.sum amount]
  omega

theorem leftover_le_countP (amount : Nat) {ws : List Nat} (hW : 0 < ws.sum) :
    amount - (floors amount ws.sum ws).sum ≤
      (remainders amount ws.sum ws).countP fun r => 0 < r := by
  have hbound (rems : List Nat) (h : ∀ r ∈ rems, r < ws.sum) :
      rems.sum ≤ (rems.countP fun r => 0 < r) * ws.sum := by
    induction rems with
    | nil => simp
    | cons r rems ih =>
      have htail := ih fun r' hr' => h r' (List.mem_cons_of_mem r hr')
      have hr := h r List.mem_cons_self
      rw [List.sum_cons, List.countP_cons, Nat.add_mul]
      by_cases hpos : 0 < r
      · simp only [hpos, decide_true, if_true, Nat.one_mul]
        omega
      · simp only [hpos, decide_false, Bool.false_eq_true, if_false, Nat.zero_mul]
        omega
  have hrems := hbound (remainders amount ws.sum ws) fun r hr => by
    obtain ⟨w, -, rfl⟩ := List.mem_map.mp hr
    exact Nat.mod_lt _ hW
  rw [sum_remainders] at hrems
  exact Nat.le_of_mul_le_mul_right hrems hW

/-- **A weight of nothing gets nothing**: all other remainders are served first, and they are
enough. -/
theorem share_eq_zero (amount : Nat) {ws : List Nat} (hW : 0 < ws.sum) {i : Nat}
    (hi : ws.getD i 0 = 0) : share amount ws i = 0 := by
  have hrem : (remainders amount ws.sum ws).getD i 0 = 0 := by
    have hmap : (remainders amount ws.sum ws).getD i 0 = amount * ws.getD i 0 % ws.sum := by
      simp only [remainders, List.getD_eq_getElem?_getD, List.getElem?_map]
      cases ws[i]? <;> simp
    rw [hmap, hi, Nat.mul_zero, Nat.zero_mod]
  have hserved : (remainders amount ws.sum ws).countP (fun r => 0 < r) ≤
      rank (remainders amount ws.sum ws) i := by
    generalize remainders amount ws.sum ws = rems at hrem
    have hrange : rems = (List.range rems.length).map fun j => rems.getD j 0 := by
      apply List.ext_getElem
      · simp
      · intro j hj hj'
        simp [hj]
    conv_lhs => rw [hrange]
    rw [List.countP_map, rank]
    apply List.countP_mono_left
    intro j _ hj
    simp only [Function.comp_apply, decide_eq_true_eq] at hj ⊢
    exact Or.inl (by omega)
  have hleft := leftover_le_countP amount hW
  unfold share
  rw [hi, Nat.mul_zero, Nat.zero_div, if_neg (by omega)]

/-! ### Even shares -/

/-- The shares differ by one unit at most. -/
def EvenShares (amount : Nat) (ws : List Nat) : Prop :=
  ∀ i < ws.length, ∀ j < ws.length, share amount ws i ≤ share amount ws j + 1

theorem share_zero (ws : List Nat) (i : Nat) : share 0 ws i = 0 := by
  unfold share
  rw [Nat.zero_mul, Nat.zero_div, Nat.zero_sub, if_neg (Nat.not_lt_zero _)]

theorem even_of_equal (amount : Nat) {ws : List Nat} {w : Nat} (h : ∀ x ∈ ws, x = w) :
    EvenShares amount ws := by
  intro i hi j hj
  have hget (k : Nat) (hk : k < ws.length) : ws.getD k 0 = w := by
    rw [List.getD_eq_getElem?_getD, List.getElem?_eq_getElem hk]
    exact h _ (List.getElem_mem hk)
  unfold share
  rw [hget i hi, hget j hj]
  split <;> split <;> omega

theorem not_even_of_gap {amount : Nat} {ws : List Nat} (hW : 0 < ws.sum) {i j : Nat}
    (hi : i < ws.length) (hj : j < ws.length)
    (h : amount * ws.getD j 0 + 3 * ws.sum ≤ amount * ws.getD i 0) : ¬EvenShares amount ws := by
  intro heven
  have hshares := heven i hi j hj
  have hparts : amount * ws.getD j 0 / ws.sum + 3 ≤ amount * ws.getD i 0 / ws.sum := by
    rw [← Nat.add_mul_div_right _ _ hW]
    exact Nat.div_le_div_right h
  unfold share at hshares
  split at hshares <;> split at hshares <;> omega

end Apportion
