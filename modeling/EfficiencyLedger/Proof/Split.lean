import EfficiencyLedger.Lib.Apportion
import EfficiencyLedger.Model.Attribution

/-!
# The split of a quantity is exact

`distributeDim_sum`: for every amount and every weight list, the shares and the residual of
`distributeDim` add up to the amount. The quotients are the floors of largest-remainder
apportionment, no checked addition of the loop fails, and the leftover is small enough for the
increment loop to hand all of it out.
-/

namespace El

open CheckedU64 Apportion

/-- The exact total of a list of counters. -/
def total (l : List UInt64) : Nat := (l.map UInt64.toNat).sum

@[simp] theorem total_nil : total [] = 0 := rfl

@[simp] theorem total_cons (v : UInt64) (l : List UInt64) : total (v :: l) = v.toNat + total l := by
  simp [total]

theorem total_zeros {α : Type} (l : List α) : total (l.map fun _ => 0) = 0 := by
  simp [total]

theorem le_total {v : UInt64} {l : List UInt64} (h : v ∈ l) : v.toNat ≤ total l :=
  List.single_le_sum (fun _ _ => Nat.zero_le _) _ (List.mem_map_of_mem h)

theorem toNat_ofNat_of_lt {n : Nat} (h : n < u64Limit) : (UInt64.ofNat n).toNat = n :=
  UInt64.toNat_ofNat_of_lt' h

theorem foldlM_checkedAdd {ws : List UInt64} {t W : UInt64} (h : ws.foldlM checkedAdd t = some W) :
    W.toNat = t.toNat + total ws := by
  induction ws generalizing t with
  | nil =>
    cases h
    simp
  | cons w ws ih =>
    rw [List.foldlM_cons] at h
    obtain ⟨t', ht, hws⟩ := Option.bind_eq_some_iff.mp h
    rw [ih hws, checkedAdd_eq_some.mp ht, total_cons]
    omega

theorem mulDiv_exact (amount : UInt64) {w W : UInt64} (hw : w.toNat ≤ W.toNat) (hW : W ≠ 0) :
    (mulDiv amount w W).1.toNat = amount.toNat * w.toNat / W.toNat ∧
      (mulDiv amount w W).2.toNat = amount.toNat * w.toNat % W.toNat := by
  have hpos : 0 < W.toNat := Nat.pos_of_ne_zero fun h => hW (UInt64.toNat_inj.mp h)
  have hq : amount.toNat * w.toNat / W.toNat ≤ amount.toNat := by
    calc amount.toNat * w.toNat / W.toNat ≤ amount.toNat * W.toNat / W.toNat :=
          Nat.div_le_div_right (Nat.mul_le_mul_left _ hw)
      _ = amount.toNat := Nat.mul_div_cancel _ hpos
  have hr := Nat.mod_lt (amount.toNat * w.toNat) hpos
  exact ⟨toNat_ofNat_of_lt (lt_of_le_of_lt hq (toNat_lt_limit _)),
    toNat_ofNat_of_lt (lt_trans hr (toNat_lt_limit _))⟩

theorem allocate_exact (amount : UInt64) {W : UInt64} (hW : W ≠ 0) :
    ∀ (ws : List UInt64) (allocated : UInt64), (∀ w ∈ ws, w.toNat ≤ W.toNat) →
      allocated.toNat + (floors amount.toNat W.toNat (ws.map UInt64.toNat)).sum < u64Limit →
      ∃ out rems allocated', allocate amount W ws allocated = (out, rems, some allocated') ∧
        out.map UInt64.toNat = floors amount.toNat W.toNat (ws.map UInt64.toNat) ∧
        rems.map UInt64.toNat = remainders amount.toNat W.toNat (ws.map UInt64.toNat) ∧
        allocated'.toNat = allocated.toNat + total out := by
  intro ws
  induction ws with
  | nil => exact fun allocated _ _ => ⟨[], [], allocated, rfl, rfl, rfl, rfl⟩
  | cons w ws ih =>
    intro allocated hws hfit
    obtain ⟨hq, hr⟩ := mulDiv_exact amount (hws w (by simp)) hW
    simp only [List.map_cons, floors, List.sum_cons] at hfit
    have hroom : allocated.toNat + (mulDiv amount w W).1.toNat < u64Limit := by omega
    obtain ⟨next, hnext⟩ := exists_checkedAdd hroom
    have hval := checkedAdd_eq_some.mp hnext
    obtain ⟨out, rems, last, hrec, hout, hrems, hlast⟩ := ih next (fun v hv => hws v (by simp [hv]))
      (by simp only [floors]; omega)
    refine ⟨(mulDiv amount w W).1 :: out, (mulDiv amount w W).2 :: rems, last, ?_, ?_, ?_, ?_⟩
    · simp only [allocate, hnext, hrec]
    · simp only [List.map_cons, hq, hout, floors]
    · simp only [List.map_cons, hr, hrems, remainders]
    · rw [hlast, hval, total_cons]
      omega

theorem length_allocate (amount W : UInt64) :
    ∀ (ws : List UInt64) (allocated : UInt64),
      (allocate amount W ws allocated).1.length = ws.length := by
  intro ws
  induction ws with
  | nil => exact fun _ => rfl
  | cons w ws ih =>
    intro allocated
    simp only [allocate]
    split <;> simp [ih]

theorem total_modify_succ {l : List UInt64} {k : Nat} (hk : k < l.length)
    (hfit : total l + 1 < u64Limit) : total (l.modify k (· + 1)) = total l + 1 := by
  induction l generalizing k with
  | nil => simp at hk
  | cons v l ih =>
    rw [total_cons] at hfit
    cases k with
    | zero =>
      have hv : (v + 1).toNat = v.toNat + 1 := toNat_add_of_lt (b := 1) (by simp; omega)
      rw [List.modify_zero_cons, total_cons, total_cons, hv]
      omega
    | succ k =>
      rw [List.modify_succ_cons, total_cons, total_cons, ih (by simpa using hk) (by omega)]
      omega

theorem total_increments {ks : List Nat} : ∀ {l : List UInt64}, (∀ k ∈ ks, k < l.length) →
    total l + ks.length < u64Limit →
    total (ks.foldl (fun out k => out.modify k (· + 1)) l) = total l + ks.length := by
  induction ks with
  | nil => exact fun _ _ => rfl
  | cons k ks ih =>
    intro l hks hfit
    rw [List.length_cons] at hfit
    have hstep := total_modify_succ (hks k (by simp)) (by omega : total l + 1 < u64Limit)
    rw [List.foldl_cons, ih (by simpa using fun j hj => hks j (by simp [hj])) (by omega), hstep,
      List.length_cons]
    omega

theorem length_increments (ks : List Nat) (l : List UInt64) :
    (ks.foldl (fun out k => out.modify k (· + 1)) l).length = l.length := by
  induction ks generalizing l with
  | nil => rfl
  | cons k ks ih => simp [ih]

theorem length_distributeDim (amount : UInt64) (ws : List UInt64) :
    (distributeDim amount ws).1.length = ws.length := by
  unfold distributeDim
  split
  · simp
  · cases ws.foldlM checkedAdd 0 with
    | none => simp
    | some W =>
      have hlen := length_allocate amount W ws 0
      rcases hloop : allocate amount W ws 0 with ⟨out, rems, _ | allocated⟩ <;>
        simp only [hloop] at hlen ⊢ <;> split <;> try split
      all_goals simp [length_increments, hlen]

/-! ### The loops at the total of the weights -/

theorem exists_foldlM_checkedAdd {ws : List UInt64} : ∀ t : UInt64,
    t.toNat + total ws < u64Limit → ∃ W, ws.foldlM checkedAdd t = some W := by
  induction ws with
  | nil => exact fun _ _ => ⟨_, rfl⟩
  | cons w ws ih =>
    intro t hfit
    rw [total_cons] at hfit
    obtain ⟨t', ht⟩ := exists_checkedAdd (a := t) (b := w) (by omega)
    have hval := checkedAdd_eq_some.mp ht
    obtain ⟨W, hW⟩ := ih t' (by omega)
    refine ⟨W, ?_⟩
    rw [List.foldlM_cons, ht]
    exact hW

theorem exists_allocation (amount : UInt64) {ws : List UInt64} (hpos : 0 < total ws)
    (hfit : total ws < u64Limit) :
    ∃ W out rems allocated, ws.foldlM checkedAdd 0 = some W ∧ W ≠ 0 ∧ W.toNat = total ws ∧
      allocate amount W ws 0 = (out, rems, some allocated) ∧
      out.map UInt64.toNat = floors amount.toNat (total ws) (ws.map UInt64.toNat) ∧
      rems.map UInt64.toNat = remainders amount.toNat (total ws) (ws.map UInt64.toNat) ∧
      allocated.toNat = (floors amount.toNat (total ws) (ws.map UInt64.toNat)).sum := by
  obtain ⟨W, hfold⟩ := exists_foldlM_checkedAdd 0 (by simpa using hfit)
  have hW : W.toNat = total ws := by simpa using foldlM_checkedAdd hfold
  have hne : W ≠ 0 := by
    rintro rfl
    rw [UInt64.toNat_zero] at hW
    omega
  have hle := sum_floors_le amount.toNat hpos
  have hamount := toNat_lt_limit amount
  obtain ⟨out, rems, allocated, hloop, hout, hrems, hallocated⟩ :=
    allocate_exact amount hne ws 0 (fun w hw => hW ▸ le_total hw) (by
      rw [hW, UInt64.toNat_zero]
      unfold total at *
      omega)
  rw [hW] at hout hrems
  refine ⟨W, out, rems, allocated, hfold, hne, hW, hloop, hout, hrems, ?_⟩
  rw [hallocated, ← hout, UInt64.toNat_zero, Nat.zero_add, total]

theorem distributeDim_of_degenerate (amount : UInt64) {ws : List UInt64}
    (h : total ws = 0 ∨ u64Limit ≤ total ws) :
    distributeDim amount ws = (ws.map fun _ => 0, amount) := by
  unfold distributeDim
  split
  · rfl
  · cases hfold : ws.foldlM checkedAdd 0 with
    | none => rfl
    | some W =>
      have hW : W.toNat = total ws := by simpa using foldlM_checkedAdd hfold
      have hlt := toNat_lt_limit W
      have hzero : W = 0 := UInt64.toNat_inj.mp (by rw [UInt64.toNat_zero]; omega)
      simp only [hzero, if_true]

/-! ### The order of the increments -/

theorem getD_map_toNat (l : List UInt64) (i : Nat) :
    (l.map UInt64.toNat).getD i 0 = (l.getD i 0).toNat := by
  rw [List.getD_eq_getElem?_getD, List.getD_eq_getElem?_getD, List.getElem?_map]
  cases l[i]? <;> rfl

theorem remainderBefore_iff (rems : List UInt64) (a b : Nat) :
    remainderBefore rems a b = true ↔ Before (rems.map UInt64.toNat) a b := by
  unfold remainderBefore Before
  rw [getD_map_toNat, getD_map_toNat]
  by_cases h : rems.getD a 0 = rems.getD b 0
  · rw [if_neg (not_not.mpr h), h]
    simp
  · have hne : (rems.getD a 0).toNat ≠ (rems.getD b 0).toNat := fun heq => h (UInt64.toNat_inj.mp heq)
    rw [if_pos h, decide_eq_true_eq, gt_iff_lt, UInt64.lt_iff_toNat_lt]
    omega

theorem pairwise_order (rems : List UInt64) (n : Nat) :
    ((List.range n).mergeSort fun a b => !remainderBefore rems b a).Pairwise
      (Before (rems.map UInt64.toNat)) := by
  have hle (a b : Nat) : (!remainderBefore rems b a) = true ↔
      ¬Before (rems.map UInt64.toNat) b a := by
    rw [Bool.not_eq_true', ← Bool.not_eq_true, remainderBefore_iff]
  have htrans (a b c : Nat) (hab : (!remainderBefore rems b a) = true)
      (hbc : (!remainderBefore rems c b) = true) : (!remainderBefore rems c a) = true := by
    rw [hle] at *
    unfold Before at *
    omega
  have htotal (a b : Nat) : ((!remainderBefore rems b a) || !remainderBefore rems a b) = true := by
    rw [Bool.or_eq_true, hle, hle]
    unfold Before
    omega
  have hsorted := List.pairwise_mergeSort htrans htotal (List.range n)
  have hnodup : ((List.range n).mergeSort fun a b => !remainderBefore rems b a).Nodup :=
    (List.mergeSort_perm _ _).nodup_iff.mpr List.nodup_range
  refine (hsorted.and hnodup).imp ?_
  rintro a b ⟨hab, hne⟩
  rw [hle] at hab
  unfold Before at *
  omega

theorem mem_order_take_iff {rems : List UInt64} {n : Nat} (hn : rems.length = n) {i : Nat}
    (hi : i < n) (k : Nat) :
    i ∈ ((List.range n).mergeSort fun a b => !remainderBefore rems b a).take k ↔
      rank (rems.map UInt64.toNat) i < k := by
  have hmem : i ∈ (List.range n).mergeSort fun a b => !remainderBefore rems b a := by
    rw [List.mem_mergeSort, List.mem_range]
    exact hi
  rw [mem_take_iff_rank (pairwise_order rems n) hmem k, (List.mergeSort_perm _ _).countP_eq, rank,
    List.length_map, hn]

theorem getD_increments {ks : List Nat} : ∀ {l : List UInt64} {i : Nat}, ks.Nodup → i < l.length →
    (ks.foldl (fun out k => out.modify k (· + 1)) l).getD i 0 =
      l.getD i 0 + if i ∈ ks then 1 else 0 := by
  induction ks with
  | nil =>
    intro l i _ _
    simp
  | cons k ks ih =>
    intro l i hks hi
    rw [List.nodup_cons] at hks
    rw [List.foldl_cons, ih hks.2 (by simpa using hi), List.getD_eq_getElem?_getD,
      List.getD_eq_getElem?_getD, List.getElem?_modify, List.getElem?_eq_getElem hi]
    by_cases hk : k = i
    · subst hk
      simp [hks.1]
    · simp [hk, Ne.symm hk]

theorem getD_zeros {α : Type} (l : List α) (i : Nat) :
    ((l.map fun _ => (0 : UInt64)).getD i 0) = 0 := by
  rw [List.getD_eq_getElem?_getD, List.getElem?_map]
  cases l[i]? <;> rfl

theorem getD_handedOut {out rems : List UInt64} {n : Nat} (hout : out.length = n)
    (hrems : rems.length = n) (k : Nat) {i : Nat} (hi : i < n) :
    ((((List.range n).mergeSort fun a b => !remainderBefore rems b a).take k).foldl
        (fun out k => out.modify k (· + 1)) out).getD i 0 =
      out.getD i 0 + if rank (rems.map UInt64.toNat) i < k then 1 else 0 := by
  have hnodup : (((List.range n).mergeSort fun a b => !remainderBefore rems b a).take k).Nodup :=
    ((List.mergeSort_perm _ _).nodup_iff.mpr List.nodup_range).sublist (List.take_sublist _ _)
  rw [getD_increments hnodup (hout ▸ hi)]
  simp only [mem_order_take_iff hrems hi]

theorem getD_le_total {out : List UInt64} {i : Nat} (hi : i < out.length) :
    (out.getD i 0).toNat ≤ total out := by
  rw [List.getD_eq_getElem?_getD, List.getElem?_eq_getElem hi]
  exact le_total (List.getElem_mem _)

/-- **The split follows the largest remainders** where the weights have a total to divide by. -/
theorem distributeDim_of_fits (amount : UInt64) {ws : List UInt64} (hpos : 0 < total ws)
    (hfit : total ws < u64Limit) :
    (distributeDim amount ws).2 = 0 ∧ ∀ i < ws.length,
      ((distributeDim amount ws).1.getD i 0).toNat = share amount.toNat (ws.map UInt64.toNat) i := by
  obtain ⟨W, out, rems, allocated, hfold, hne, hW, hloop, hout, hrems, hallocated⟩ :=
    exists_allocation amount hpos hfit
  have hnil : ws ≠ [] := by
    rintro rfl
    exact absurd hpos (by simp)
  have hle := sum_floors_le amount.toNat hpos
  have hlen : out.length = ws.length := by simpa [floors] using congrArg List.length hout
  have hlen' : rems.length = ws.length := by simpa [remainders] using congrArg List.length hrems
  have hfloor (i : Nat) : (out.getD i 0).toNat =
      amount.toNat * (ws.map UInt64.toNat).getD i 0 / total ws := by
    rw [← getD_map_toNat, hout, floors]
    simp only [List.getD_eq_getElem?_getD, List.getElem?_map]
    cases ws[i]? <;> simp
  unfold share distributeDim
  by_cases hzero : amount = 0
  · rw [if_pos (Or.inr hzero)]
    refine ⟨hzero, fun i _ => ?_⟩
    rw [getD_zeros, hzero]
    simp
  rw [if_neg (by simp [hnil, hzero])]
  simp only [hfold, if_neg hne, hloop]
  change (floors amount.toNat (total ws) (ws.map UInt64.toNat)).sum ≤ _ at hle
  change _ ∧ ∀ i < ws.length, _ = amount.toNat * _ / total ws +
    if rank (remainders amount.toNat (total ws) (ws.map UInt64.toNat)) i <
      amount.toNat - (floors amount.toNat (total ws) (ws.map UInt64.toNat)).sum then 1 else 0
  split
  · rename_i hless
    rw [UInt64.lt_iff_toNat_lt, hallocated] at hless
    have hleft : (amount - allocated).toNat =
        amount.toNat - (floors amount.toNat (total ws) (ws.map UInt64.toNat)).sum := by
      rw [UInt64.toNat_sub_of_le _ _ (UInt64.le_iff_toNat_le.mpr (by omega)), hallocated]
    refine ⟨rfl, fun i hi => ?_⟩
    rw [getD_handedOut hlen hlen' _ hi, hrems, hleft, ← hfloor]
    -- a share that gets a unit is below the amount
    have hroom := getD_le_total (hlen ▸ hi : i < out.length)
    have hamount := toNat_lt_limit amount
    rw [total, hout] at hroom
    split
    · exact toNat_add_of_lt (b := 1) (by rw [UInt64.toNat_one]; omega)
    · rw [UInt64.add_zero]
      rfl
  · rename_i hge
    rw [UInt64.lt_iff_toNat_lt, hallocated] at hge
    refine ⟨rfl, fun i _ => ?_⟩
    rw [if_neg (by omega), ← hfloor]
    rfl

/-- **The split is exact**: shares and residual add up to the amount. -/
theorem distributeDim_sum (amount : UInt64) (ws : List UInt64) :
    total (distributeDim amount ws).1 + (distributeDim amount ws).2.toNat = amount.toNat := by
  by_cases hsplit : 0 < total ws ∧ total ws < u64Limit
  · obtain ⟨hpos, hfit⟩ := hsplit
    obtain ⟨W, out, rems, allocated, hfold, hne, hW, hloop, hout, -, hallocated⟩ :=
      exists_allocation amount hpos hfit
    have hle := sum_floors_le amount.toNat hpos
    have hlt := leftover_lt_length amount.toNat hpos
    have hamount := toNat_lt_limit amount
    have hlen : out.length = ws.length := by simpa [floors] using congrArg List.length hout
    change (floors amount.toNat (total ws) _).sum ≤ _ at hle
    change _ - (floors amount.toNat (total ws) _).sum < _ at hlt
    rw [List.length_map] at hlt
    rw [← hout, ← total] at hle hlt hallocated
    unfold distributeDim
    split
    · rw [total_zeros, Nat.zero_add]
    simp only [hfold, if_neg hne, hloop]
    split
    · rename_i hless
      rw [UInt64.lt_iff_toNat_lt] at hless
      have hleft : (amount - allocated).toNat = amount.toNat - total out := by
        rw [UInt64.toNat_sub_of_le _ _ (UInt64.le_of_lt hless), hallocated]
      rw [total_increments, List.length_take, List.length_mergeSort, List.length_range, hleft,
        UInt64.toNat_zero]
      · omega
      · intro k hk
        have hmem := List.mem_of_mem_take hk
        rw [List.mem_mergeSort, List.mem_range] at hmem
        omega
      · rw [List.length_take, List.length_mergeSort, List.length_range, hleft]
        omega
    · rename_i hge
      rw [UInt64.lt_iff_toNat_lt] at hge
      simp only [UInt64.toNat_zero]
      omega
  · rw [distributeDim_of_degenerate amount (by omega), total_zeros, Nat.zero_add]

end El
