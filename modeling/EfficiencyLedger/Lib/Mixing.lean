import Mathlib.Data.List.Basic
import Mathlib.Logic.ExistsUnique

/-!
# Hashes that mix in one symbol after the other

A hash of a list that folds a step over it. Where the step is injective in the state for each symbol
and in the symbol for each state (`Mixes`), lists that differ at exactly one position never collide
(`Mixes.foldl_ne`): the step at the position tells the states apart, and no later step brings them
together again.
-/

universe u v

namespace Mixing

variable {σ : Type u} {α : Type v}

/-- Lists of one length that differ at exactly one position. -/
structure DifferOnce (xs ys : List α) : Prop where
  length : xs.length = ys.length
  position : ∃! i : Nat, xs[i]? ≠ ys[i]?

theorem differOnce_split {pre suf : List α} {a b : α} (h : a ≠ b) :
    DifferOnce (pre ++ a :: suf) (pre ++ b :: suf) := by
  refine ⟨by simp, pre.length, by simpa using h, fun i hi => ?_⟩
  by_contra hne
  apply hi
  rcases Nat.lt_or_gt_of_ne hne with hlt | hgt
  · rw [List.getElem?_append_left hlt, List.getElem?_append_left hlt]
  · obtain ⟨k, rfl⟩ := Nat.exists_eq_add_of_lt hgt
    rw [List.getElem?_append_right (by omega), List.getElem?_append_right (by omega)]
    have hk : pre.length + k + 1 - pre.length = k + 1 := by omega
    rw [hk, List.getElem?_cons_succ, List.getElem?_cons_succ]

theorem DifferOnce.exists_split {xs ys : List α} (h : DifferOnce xs ys) :
    ∃ pre a b suf, a ≠ b ∧ xs = pre ++ a :: suf ∧ ys = pre ++ b :: suf := by
  obtain ⟨hlen, i, hi, honly⟩ := h
  have hsame (j : Nat) (hj : j ≠ i) : xs[j]? = ys[j]? := not_not.mp fun hne => hj (honly j hne)
  have hx : i < xs.length := by
    by_contra hout
    apply hi
    rw [List.getElem?_eq_none (by omega), List.getElem?_eq_none (by omega)]
  have hy : i < ys.length := hlen ▸ hx
  have htake : xs.take i = ys.take i := by
    apply List.ext_getElem?
    intro j
    by_cases hj : j < i
    · rw [List.getElem?_take_of_lt hj, List.getElem?_take_of_lt hj, hsame j (by omega)]
    · rw [List.getElem?_eq_none (by simp; omega), List.getElem?_eq_none (by simp; omega)]
  have hdrop : xs.drop (i + 1) = ys.drop (i + 1) := by
    apply List.ext_getElem?
    intro j
    rw [List.getElem?_drop, List.getElem?_drop, hsame _ (by omega)]
  refine ⟨xs.take i, xs[i], ys[i], xs.drop (i + 1), fun hab => hi ?_, ?_, ?_⟩
  · rw [List.getElem?_eq_getElem hx, List.getElem?_eq_getElem hy, hab]
  · rw [← List.drop_eq_getElem_cons hx, List.take_append_drop]
  · rw [htake, hdrop, ← List.drop_eq_getElem_cons hy, List.take_append_drop]

/-- The step loses nothing of the state, and nothing of the symbol. -/
structure Mixes (step : σ → α → σ) : Prop where
  state : ∀ a, Function.Injective fun s => step s a
  symbol : ∀ s, Function.Injective (step s)

variable {step : σ → α → σ}

theorem Mixes.foldl_injective (h : Mixes step) (xs : List α) :
    Function.Injective fun s => xs.foldl step s := by
  induction xs with
  | nil => exact fun _ _ hst => hst
  | cons x xs ih =>
    intro s t hst
    exact h.state x (ih hst)

/-- **One changed symbol changes the hash.** -/
theorem Mixes.foldl_ne (h : Mixes step) {xs ys : List α} (hdiff : DifferOnce xs ys) (s : σ) :
    xs.foldl step s ≠ ys.foldl step s := by
  obtain ⟨pre, a, b, suf, hab, rfl, rfl⟩ := hdiff.exists_split
  intro hsame
  rw [List.foldl_append, List.foldl_append, List.foldl_cons, List.foldl_cons] at hsame
  exact hab (h.symbol _ (h.foldl_injective suf hsame))

end Mixing
