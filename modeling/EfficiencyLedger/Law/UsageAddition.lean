import EfficiencyLedger.Model.Entry
import Mathlib.Data.List.Sort
import Mathlib.Order.WellFounded

/-!
# Adding one usage to another

The element-wise `add` writes every sum before it checks the next one. Its outcome is the exact sums
up to the first dimension without room (`add_eq`); so a call that fails leaves the usage alone
exactly where it had added nothing but zeros up to there (`adds_transactionally_iff`).
-/

namespace El

open CheckedU64

section

variable (u other : ResourceUsage)

/-- The sum of the two cells fits in 64 bits. -/
def CellFits (d : Dimension) : Prop := (u.data d).toNat + (other.data d).toNat < u64Limit

instance : DecidablePred (CellFits u other) := fun _ => Nat.decLt _ _

/-- The usage with the sums in place in the dimensions `ds`. -/
def addedOver (ds : List Dimension) : ResourceUsage :=
  ⟨fun d => if d ∈ ds then u.data d + other.data d else u.data d⟩

theorem data_addedOver (ds : List Dimension) (d : Dimension) : (addedOver u other ds).data d =
    if d ∈ ds then u.data d + other.data d else u.data d := rfl

/-- The call returns whether all sums fit, and all of them are written or none. -/
structure AddsTransactionally : Prop where
  result : (u.add other).1 = true ↔ ∀ d, CellFits u other d
  exact : (u.add other).1 = true →
    ∀ d, ((u.add other).2.data d).toNat = (u.data d).toNat + (other.data d).toNat
  unchanged : (u.add other).1 = false → (u.add other).2 = u

end

variable {u other : ResourceUsage}

theorem takeWhile_congr {α : Type} {p q : α → Bool} {l : List α} (h : ∀ x ∈ l, p x = q x) :
    l.takeWhile p = l.takeWhile q := by
  induction l with
  | nil => rfl
  | cons x l ih =>
    rw [List.takeWhile_cons, List.takeWhile_cons, h x (by simp),
      ih fun y hy => h y (List.mem_cons_of_mem x hy)]

theorem mem_takeWhile_of_sorted {α : Type} [LinearOrder α] {p : α → Bool} {l : List α}
    (hl : l.Pairwise (· < ·)) (x : α) :
    x ∈ l.takeWhile p ↔ x ∈ l ∧ ∀ y ∈ l, y ≤ x → p y = true := by
  induction l with
  | nil => simp
  | cons a l ih =>
    obtain ⟨hlt, hl⟩ := List.pairwise_cons.mp hl
    rw [List.takeWhile_cons]
    by_cases ha : p a = true
    · rw [if_pos ha, List.mem_cons, ih hl]
      constructor
      · rintro (rfl | ⟨hx, hall⟩)
        · refine ⟨by simp, fun y hy hle => ?_⟩
          rcases List.mem_cons.mp hy with rfl | hy
          · exact ha
          · exact absurd hle (not_le.mpr (hlt y hy))
        · refine ⟨by simp [hx], fun y hy hle => ?_⟩
          rcases List.mem_cons.mp hy with rfl | hy
          · exact ha
          · exact hall y hy hle
      · rintro ⟨hx, hall⟩
        rcases List.mem_cons.mp hx with rfl | hx
        · exact .inl rfl
        · exact .inr ⟨hx, fun y hy => hall y (List.mem_cons_of_mem a hy)⟩
    · rw [if_neg ha]
      refine iff_of_false (by simp) ?_
      rintro ⟨hx, hall⟩
      have hle : a ≤ x := by
        rcases List.mem_cons.mp hx with rfl | hx
        · exact le_refl _
        · exact (hlt x hx).le
      exact ha (hall a (by simp) hle)

/-- **What the loop leaves**: the sums in place up to the first that does not fit. -/
theorem addLoop_eq (other : ResourceUsage) {ds : List Dimension} (hds : ds.Nodup) :
    ∀ u : ResourceUsage, addLoop other ds u =
      (decide (∀ d ∈ ds, CellFits u other d),
        addedOver u other (ds.takeWhile fun d => CellFits u other d)) := by
  induction ds with
  | nil => exact fun u => by simp [addLoop, addedOver]
  | cons d ds ih =>
    intro u
    obtain ⟨hd, hds⟩ := List.nodup_cons.mp hds
    rw [addLoop]
    by_cases hfits : CellFits u other d
    · obtain ⟨out, hout⟩ := exists_checkedAdd hfits
      have hval : out = u.data d + other.data d := by
        rw [← UInt64.toNat_inj, toNat_add_of_lt hfits]
        exact checkedAdd_eq_some.mp hout
      have hsame {x : Dimension} (hx : x ∈ ds) :
          CellFits ⟨Function.update u.data d out⟩ other x ↔ CellFits u other x := by
        have hne : x ≠ d := fun h => hd (h ▸ hx)
        simp only [CellFits, Function.update_of_ne hne]
      rw [hout]
      simp only [ih hds]
      rw [List.takeWhile_cons, if_pos (by simpa using hfits)]
      refine Prod.ext ?_ ?_
      · simp only [List.mem_cons, forall_eq_or_imp, hfits, true_and, decide_eq_decide]
        exact forall₂_congr fun x hx => hsame hx
      · rw [takeWhile_congr fun x hx => decide_eq_decide.mpr (hsame hx)]
        refine congrArg ResourceUsage.mk (funext fun x => ?_)
        by_cases hx : x = d
        · subst hx
          have hout : x ∉ ds.takeWhile fun d => CellFits u other d :=
            fun hmem => hd ((List.takeWhile_sublist _).subset hmem)
          rw [if_neg hout, if_pos (by simp)]
          exact (Function.update_self ..).trans hval
        · simp only [Function.update_of_ne hx, List.mem_cons, hx, false_or]
    · rw [checkedAdd_eq_none.mpr (Nat.not_lt.mp hfits), List.takeWhile_cons,
        if_neg (by simpa using hfits)]
      simp [hfits, addedOver]

/-- The dimensions up to the first without room. -/
def dimsBefore (u other : ResourceUsage) : List Dimension :=
  (List.finRange kDimensionCount).takeWhile fun d => CellFits u other d

theorem mem_dimsBefore {d : Dimension} :
    d ∈ dimsBefore u other ↔ ∀ d' ≤ d, CellFits u other d' := by
  unfold dimsBefore
  rw [mem_takeWhile_of_sorted (List.sortedLT_finRange _).pairwise]
  simp

theorem add_eq (u other : ResourceUsage) :
    u.add other = (decide (∀ d, CellFits u other d), addedOver u other (dimsBefore u other)) := by
  unfold ResourceUsage.add
  rw [addLoop_eq other (List.nodup_finRange _)]
  simp [dimsBefore]

theorem addedOver_eq_self {ds : List Dimension} :
    addedOver u other ds = u ↔ ∀ d ∈ ds, other.data d = 0 := by
  constructor
  · intro hsame d hd
    have hcell : (addedOver u other ds).data d = u.data d := by rw [hsame]
    rw [data_addedOver, if_pos hd] at hcell
    simpa using hcell
  · intro hzero
    refine congrArg ResourceUsage.mk (funext fun d => ?_)
    split
    · rename_i hd
      rw [hzero d hd, UInt64.add_zero]
    · rfl

/-- **When the element-wise addition is transactional**: exactly where nothing but zeros is added in
the dimensions before the first without room. -/
theorem adds_transactionally_iff (u other : ResourceUsage) :
    AddsTransactionally u other ↔
      ∀ d, ¬ CellFits u other d → (∀ d' < d, CellFits u other d') → ∀ d' < d, other.data d' = 0 := by
  have hresult : (u.add other).1 = true ↔ ∀ d, CellFits u other d := by
    rw [add_eq, decide_eq_true_iff]
  constructor
  · rintro ⟨-, -, hunchanged⟩ d hd hbefore d' hlt
    have hfalse : (u.add other).1 = false := by
      rw [Bool.eq_false_iff]
      exact fun h => hd (hresult.mp h d)
    have hsame := hunchanged hfalse
    rw [add_eq, addedOver_eq_self] at hsame
    exact hsame d' (mem_dimsBefore.mpr fun x hx => hbefore x (hx.trans_lt hlt))
  · intro hzero
    refine ⟨hresult, fun htrue d => ?_, fun hfalse => ?_⟩
    · have hall := hresult.mp htrue
      rw [add_eq, data_addedOver, if_pos (mem_dimsBefore.mpr fun x _ => hall x)]
      exact toNat_add_of_lt (hall d)
    · obtain ⟨d₀, hd₀⟩ : ∃ d, ¬ CellFits u other d := by
        by_contra hno
        push Not at hno
        rw [hresult.mpr hno] at hfalse
        cases hfalse
      -- the first dimension without room
      obtain ⟨d, hd, hfirst⟩ := wellFounded_lt.has_min {d | ¬ CellFits u other d} ⟨d₀, hd₀⟩
      have hbefore : ∀ d' < d, CellFits u other d' := fun d' hlt =>
        not_not.mp fun hno => hfirst d' hno hlt
      rw [add_eq, addedOver_eq_self]
      intro d' hd'
      refine hzero d hd hbefore d' ?_
      by_contra hge
      exact hd (mem_dimsBefore.mp hd' d (not_lt.mp hge))

/-- With the second dimension full, a call that also adds to the first fails and leaves that sum
written. -/
theorem add_writes_before_overflow :
    ¬ ∀ u other : ResourceUsage, AddsTransactionally u other := by
  intro h
  let u : ResourceUsage := ⟨fun d => if d.val = 1 then 0xFFFFFFFFFFFFFFFF else 0⟩
  let other : ResourceUsage := ⟨fun d => if d.val < 2 then 1 else 0⟩
  have hfalse : (u.add other).1 = false := by decide +kernel
  have hcell : ((u.add other).2.data 0) = 1 := by decide +kernel
  rw [(h u other).unchanged hfalse] at hcell
  revert hcell
  decide

end El
