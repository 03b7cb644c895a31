import Mathlib.Data.List.Basic

/-!
# Streams with partial transfers

A stream carries a sequence of units from a writer to a reader. A single call moves as many of them
as it pleases, so both ends repeat their calls until everything is through: `sendAll` and `recvAll`.
`Transfer` is what the calls of a run do; as long as they make progress, the two loops move exactly
what they were asked for, in order (`sendAll_eq`, `recvAll_eq`), wherever the calls cut it.

The reader may run alongside the writer: it then finds less of the stream at each of its calls, which
is one more way of cutting it.
-/

universe u

namespace Stream

/-- Of `n` units that could be moved, how many the `k`-th call on one end of the stream moves. A call
that moves none has failed. -/
abbrev Transfer := Nat → Nat → Nat

/-- Every call moves something, and no more than it can. -/
def Progress (t : Transfer) : Prop := ∀ k n, t k n ≤ n ∧ (0 < n → 0 < t k n)

/-- What was sent and not yet received, and the number of calls so far on both ends. -/
structure Channel (α : Type u) where
  inFlight : List α := []
  sends : Nat := 0
  recvs : Nat := 0

variable {α : Type u}

/-- The send loop: the unsent rest of `data` is offered until nothing is left or a call fails. -/
def sendAll (t : Transfer) (data : List α) (c : Channel α) : Bool × Channel α :=
  if data.length = 0 then (true, c)
  else
    let n := t c.sends data.length
    if n = 0 then (false, { c with sends := c.sends + 1 })
    else
      sendAll t (data.drop n)
        { c with inFlight := c.inFlight ++ data.take n, sends := c.sends + 1 }
termination_by data.length
decreasing_by
  rw [List.length_drop]
  omega

/-- The receive loop: `got` units are there and `need` more are asked for. A call waits until
there is something to return; it fails where the stream has ended. -/
def recvLoop (t : Transfer) (got : List α) (need : Nat) (c : Channel α) :
    Option (List α) × Channel α :=
  if need = 0 then (some got, c)
  else
    let n := t c.recvs (min need c.inFlight.length)
    if n = 0 then (none, { c with recvs := c.recvs + 1 })
    else
      recvLoop t (got ++ c.inFlight.take n) (need - n)
        { c with inFlight := c.inFlight.drop n, recvs := c.recvs + 1 }
termination_by need

def recvAll (t : Transfer) (len : Nat) (c : Channel α) : Option (List α) × Channel α :=
  recvLoop t [] len c

/-- **Everything is sent**, behind what is already under way. -/
theorem sendAll_eq {t : Transfer} (ht : Progress t) (data inFlight : List α) (sends recvs : Nat) :
    ∃ sends', sendAll t data ⟨inFlight, sends, recvs⟩ =
      (true, ⟨inFlight ++ data, sends', recvs⟩) := by
  induction hlen : data.length using Nat.strongRecOn generalizing data inFlight sends with
  | ind len ih =>
    subst hlen
    rw [sendAll]
    by_cases hdone : data.length = 0
    · rw [if_pos hdone, List.length_eq_zero_iff.mp hdone, List.append_nil]
      exact ⟨sends, rfl⟩
    · have hpos : 0 < t sends data.length := (ht sends data.length).2 (by omega)
      have hrest : (data.drop (t sends data.length)).length < data.length := by
        rw [List.length_drop]
        omega
      obtain ⟨sends', hsend⟩ := ih _ hrest _ (inFlight ++ data.take (t sends data.length))
        (sends + 1) rfl
      have hn : t sends data.length ≠ 0 := by omega
      refine ⟨sends', ?_⟩
      simp only [if_neg hdone, if_neg hn]
      rw [List.append_assoc, List.take_append_drop] at hsend
      exact hsend

theorem recvLoop_eq {t : Transfer} (ht : Progress t) (need : Nat) {inFlight : List α}
    (hneed : need ≤ inFlight.length) (got : List α) (sends recvs : Nat) :
    ∃ recvs', recvLoop t got need ⟨inFlight, sends, recvs⟩ =
      (some (got ++ inFlight.take need), ⟨inFlight.drop need, sends, recvs'⟩) := by
  induction need using Nat.strongRecOn generalizing inFlight got recvs with
  | ind need ih =>
    rw [recvLoop]
    by_cases hdone : need = 0
    · rw [if_pos hdone, hdone, List.take_zero, List.append_nil, List.drop_zero]
      exact ⟨recvs, rfl⟩
    · rw [if_neg hdone]
      simp only [Nat.min_eq_left hneed]
      obtain ⟨hle, hpos⟩ := ht recvs need
      generalize t recvs need = n at hle hpos ⊢
      have hn : 0 < n := hpos (by omega)
      have hrest : need - n ≤ (inFlight.drop n).length := by
        rw [List.length_drop]
        omega
      obtain ⟨recvs', hrecv⟩ := ih (need - n) (by omega) hrest (got ++ inFlight.take n) (recvs + 1)
      have hjoin : inFlight.take n ++ (inFlight.drop n).take (need - n) = inFlight.take need := by
        rw [← List.take_add, Nat.add_sub_cancel' hle]
      refine ⟨recvs', ?_⟩
      rw [if_neg (by omega)]
      rw [List.append_assoc, hjoin, List.drop_drop, Nat.add_sub_cancel' hle] at hrecv
      exact hrecv

/-- **The next units are received**, as many as were asked for. -/
theorem recvAll_eq {t : Transfer} (ht : Progress t) (data rest : List α) (sends recvs : Nat) :
    ∃ recvs', recvAll t data.length ⟨data ++ rest, sends, recvs⟩ =
      (some data, ⟨rest, sends, recvs'⟩) := by
  have hlen : data.length ≤ (data ++ rest).length := by
    rw [List.length_append]
    omega
  obtain ⟨recvs', h⟩ := recvLoop_eq ht data.length hlen [] sends recvs
  rw [List.nil_append, List.take_left, List.drop_left] at h
  exact ⟨recvs', h⟩

theorem recvLoop_eq_none {t : Transfer} (ht : Progress t) (need : Nat) {inFlight : List α}
    (hneed : inFlight.length < need) (got : List α) (sends recvs : Nat) :
    (recvLoop t got need ⟨inFlight, sends, recvs⟩).1 = none := by
  induction need using Nat.strongRecOn generalizing inFlight got recvs with
  | ind need ih =>
    rw [recvLoop, if_neg (by omega)]
    simp only [Nat.min_eq_right (Nat.le_of_lt hneed)]
    obtain ⟨hle, hpos⟩ := ht recvs inFlight.length
    generalize t recvs inFlight.length = n at hle hpos ⊢
    by_cases hn : n = 0
    · rw [if_pos hn]
    · rw [if_neg hn]
      refine ih (need - n) (by omega) ?_ _ _
      rw [List.length_drop]
      omega

theorem recvAll_eq_some {t : Transfer} (ht : Progress t) {len : Nat} {c c' : Channel α}
    {data : List α} (h : recvAll t len c = (some data, c')) :
    c.inFlight = data ++ c'.inFlight ∧ data.length = len := by
  obtain ⟨inFlight, sends, recvs⟩ := c
  by_cases hlen : len ≤ inFlight.length
  · obtain ⟨recvs', hrun⟩ := recvLoop_eq ht len hlen [] sends recvs
    rw [recvAll, hrun] at h
    cases h
    simp only [List.nil_append, List.take_append_drop, List.length_take]
    exact ⟨trivial, Nat.min_eq_left hlen⟩
  · have hrun := recvLoop_eq_none ht len (Nat.lt_of_not_le hlen) [] sends recvs
    rw [recvAll] at h
    rw [h] at hrun
    cases hrun

end Stream
