import EfficiencyLedger.Law.Refusals

/-!
# Revisions that overlap with other calls

`reclassify` looks its target up before it takes the mutex, so other calls may run between the lookup
and the append of the revision. A schedule lists the calls in the order of their sections under the
mutex; a revision says how many sections had been through when it looked, and the lookup is taken as
one step. As long as nothing is loaded in between, the calls of every schedule might as well have run
one at a time, in an order that never contradicts real time (`reclassify_linearizable`): a revision
acts where it is appended if it has seen its target, and where it looked if it has not.
-/

namespace El

open EStateM

/-! ### Schedules -/

/-- A call, listed where it holds the mutex. -/
inductive OverlappingCall where
  /-- A call that holds the mutex all the time. -/
  | locked (op : Op)
  /-- A revision that looked for its target after so many sections. -/
  | reclassify (req : ReclassifyRequest) (looked : Nat)

namespace OverlappingCall

/-- The call, run without interruption. -/
def op : OverlappingCall → Op
  | locked op => op
  | reclassify req _ => .reclassify req

/-- The number of sections before the start of the call, which is listed at position `n`. -/
def start (n : Nat) : OverlappingCall → Nat
  | locked _ => n
  | reclassify _ looked => min looked n

/-- The section of the call on the ledger `now`, after the ledgers `before`. -/
def exec (ord : IterationOrder) (before : List EfficiencyLedger) (now : EfficiencyLedger) :
    OverlappingCall → LedgerM PUnit
  | locked op => op.exec ord
  | reclassify req looked => appendLocked ord (revisionOf (before.getD looked now).toBooks req)

theorem start_le (n : Nat) (call : OverlappingCall) : call.start n ≤ n := by
  cases call with
  | locked op => exact Nat.le_refl n
  | reclassify req looked => exact Nat.min_le_right looked n

end OverlappingCall

/-- The calls of a schedule so far, with their positions. -/
structure Schedule where
  /-- The ledgers before each section, and the one now. -/
  before : List EfficiencyLedger := []
  now : EfficiencyLedger
  returned : List ((Nat × OverlappingCall) × Status) := []

namespace Schedule

variable (ord : IterationOrder)

def step (t : Schedule) (call : OverlappingCall) : Schedule :=
  let result := call.exec ord t.before t.now t.now
  { before := t.before ++ [t.now]
    now := result.state
    returned := t.returned ++ [((t.before.length, call), statusOf result)] }

def run (s : EfficiencyLedger) (calls : List OverlappingCall) : Schedule :=
  Machine.run (Schedule.step ord) { now := s } calls

/-- Calls of a schedule, run one at a time. -/
def oneAtATime (calls : List (Nat × OverlappingCall)) (s : EfficiencyLedger) :
    List ((Nat × OverlappingCall) × Status) × EfficiencyLedger :=
  execAll (fun call : Nat × OverlappingCall => call.2.op.exec ord) calls s

end Schedule

/-! ### One revision -/

section Revision

variable {ord : IterationOrder} {b c : Books} {s : EfficiencyLedger} {req : ReclassifyRequest}

theorem revisionOf_of_extends (hwf : b.Wf) (h : b.Extends c) (hin : req.target ∈ b.index) :
    revisionOf c req = revisionOf b req := by
  obtain ⟨i, hi⟩ := Finmap.mem_iff.mp hin
  have hi' : c.index.lookup req.target = some i := by rw [h.index _ hin, hi]
  obtain ⟨t, ht, -⟩ := (hwf.index _ _).mp hi
  obtain ⟨later, hlater⟩ := h.history
  have ht' : c.history[i]? = some t := by
    rw [← hlater, List.getElem?_append_left (List.getElem?_eq_some_iff.mp ht).1, ht]
  unfold revisionOf
  simp only [hi, hi', List.getD_eq_getElem?_getD, ht, ht']

theorem validate_revisionOf (hout : req.target ∉ b.index) : (revisionOf b req).validate = false := by
  have hnone : b.index.lookup req.target = none := Finmap.lookup_eq_none.mpr hout
  apply Bool.eq_false_iff.mpr
  intro hvalid
  have haccount := (validate_eq_true_iff.mp hvalid).account
  unfold revisionOf at haccount
  simp only [hnone] at haccount
  rcases haccount with hvalid | hshared
  · exact hvalid rfl
  · exact hshared rfl

theorem appendLocked_of_shuttingDown (h : s.shuttingDown = true) (e : LedgerEntry) :
    appendLocked ord e s = .error ⟨ErrorCode.kShuttingDown, "ledger is shutting down"⟩ s := by
  have hrefusal : refusal s e = ⟨ErrorCode.kShuttingDown, "ledger is shutting down"⟩ := if_pos h
  rw [← hrefusal]
  refine (appendLocked_of_not_admits ord fun hadm => ?_).1
  have hopen := hadm.running
  rw [h] at hopen
  cases hopen

theorem appendLocked_of_invalid (h : s.shuttingDown = false) {e : LedgerEntry}
    (hinvalid : e.validate = false) :
    appendLocked ord e s = .error ⟨ErrorCode.kInvalidInput, "invalid accounting entry"⟩ s := by
  have hrefusal : refusal s e = ⟨ErrorCode.kInvalidInput, "invalid accounting entry"⟩ := by
    unfold refusal
    rw [if_neg (by simp [h]), if_pos (by simp [hinvalid])]
  rw [← hrefusal]
  refine (appendLocked_of_not_admits ord fun hadm => ?_).1
  have hvalid := hadm.books.valid
  rw [hinvalid] at hvalid
  cases hvalid

/-- **A revision acts where it is appended, or where it looked.** In the second case it did not find its
target, and is refused for that at both places without any effect. -/
theorem reclassify_at_append_or_lookup (ord : IterationOrder) {ops : List Op} (hwf : s.toBooks.Wf)
    (h : ∀ op ∈ ops, op.isLoad = false) (req : ReclassifyRequest) :
    let t := run ord s ops
    appendLocked ord (revisionOf s.toBooks req) t = reclassify ord req t ∨
      ∃ st, reclassify ord req s = .error st s ∧
        appendLocked ord (revisionOf s.toBooks req) t = .error st t := by
  intro t
  by_cases hin : req.target ∈ s.index
  · left
    rw [reclassify_apply, revisionOf_of_extends hwf (extends_run ord s ops h) hin]
  · have hinvalid := validate_revisionOf hin
    by_cases hdown : t.shuttingDown = true
    · left
      rw [reclassify_apply, appendLocked_of_shuttingDown hdown, appendLocked_of_shuttingDown hdown]
    · right
      have hrunning : s.shuttingDown = false :=
        Bool.eq_false_iff.mpr fun hs => hdown (shuttingDown_run ord h hs)
      refine ⟨_, ?_, appendLocked_of_invalid (Bool.eq_false_iff.mpr hdown) hinvalid⟩
      rw [reclassify_apply]
      exact appendLocked_of_invalid hrunning hinvalid

end Revision

/-! ### Every schedule -/

namespace Schedule

/-- A sequential order of the calls so far. -/
structure Ordered (ord : IterationOrder) (s : EfficiencyLedger) (t : Schedule)
    (order : List (Nat × OverlappingCall)) : Prop where
  returned : (oneAtATime ord order s).1.Perm t.returned
  now : (oneAtATime ord order s).2 = t.now
  /-- No call stands behind one that started when it was over. -/
  realTime : order.Pairwise fun x y => x.2.start x.1 ≤ y.1
  positions : ∀ x ∈ order, x.1 < t.before.length
  loadFree : ∀ x ∈ order, x.2.op.isLoad = false
  /-- Every ledger on the way is met, with only later calls behind it. -/
  met : ∀ n ledger, (t.before ++ [t.now])[n]? = some ledger →
    ∃ done rest, order = done ++ rest ∧ (oneAtATime ord done s).2 = ledger ∧ ∀ y ∈ rest, n ≤ y.1

section Order

variable {ord : IterationOrder} {s : EfficiencyLedger} {t : Schedule}
  {order : List (Nat × OverlappingCall)}

theorem oneAtATime_append (ord : IterationOrder) (xs ys : List (Nat × OverlappingCall))
    (s : EfficiencyLedger) : oneAtATime ord (xs ++ ys) s =
      ((oneAtATime ord xs s).1 ++ (oneAtATime ord ys (oneAtATime ord xs s).2).1,
        (oneAtATime ord ys (oneAtATime ord xs s).2).2) := execAll_append

theorem oneAtATime_snd (ord : IterationOrder) (xs : List (Nat × OverlappingCall)) :
    ∀ s : EfficiencyLedger, (oneAtATime ord xs s).2 = El.run ord s (xs.map (·.2.op)) := by
  induction xs with
  | nil => exact fun s => rfl
  | cons x xs ih => exact fun s => ih _

theorem Ordered.atSection (h : Ordered ord s t order) {call : OverlappingCall}
    (hcall : call.op.isLoad = false)
    (hexec : call.exec ord t.before t.now t.now = call.op.exec ord t.now) :
    Ordered ord s (t.step ord call) (order ++ [(t.before.length, call)]) := by
  have hlast : oneAtATime ord [(t.before.length, call)] t.now =
      ([((t.before.length, call), statusOf (call.exec ord t.before t.now t.now))],
        (call.exec ord t.before t.now t.now).state) := by
    rw [hexec]
    rfl
  have hall : oneAtATime ord (order ++ [(t.before.length, call)]) s =
      ((oneAtATime ord order s).1 ++
        [((t.before.length, call), statusOf (call.exec ord t.before t.now t.now))],
        (t.step ord call).now) := by
    rw [oneAtATime_append, h.now, hlast]
    rfl
  have hlength : (t.step ord call).before.length = t.before.length + 1 := by
    simp [step]
  refine ⟨?_, ?_, ?_, fun x hx => ?_, fun x hx => ?_, fun n ledger hn => ?_⟩
  · rw [hall]
    exact h.returned.append_right _
  · rw [hall]
  · refine List.pairwise_append.mpr ⟨h.realTime, List.pairwise_singleton _ _, fun x hx y hy => ?_⟩
    rw [List.mem_singleton.mp hy]
    exact Nat.le_of_lt (Nat.lt_of_le_of_lt (x.2.start_le x.1) (h.positions x hx))
  · rw [hlength]
    rcases List.mem_append.mp hx with hx | hx
    · exact Nat.lt_succ_of_lt (h.positions x hx)
    · rw [List.mem_singleton.mp hx]
      exact Nat.lt_succ_self _
  · rcases List.mem_append.mp hx with hx | hx
    · exact h.loadFree x hx
    · rw [List.mem_singleton.mp hx]
      exact hcall
  · by_cases hlt : n < t.before.length + 1
    · have hold : (t.before ++ [t.now])[n]? = some ledger := by
        rw [← hn]
        exact (List.getElem?_append_left (by simpa using hlt)).symm
      obtain ⟨done, rest, rfl, hdone, hrest⟩ := h.met n ledger hold
      refine ⟨done, rest ++ [(t.before.length, call)], (List.append_assoc _ _ _), hdone,
        fun y hy => ?_⟩
      rcases List.mem_append.mp hy with hy | hy
      · exact hrest y hy
      · rw [List.mem_singleton.mp hy]
        exact Nat.le_of_lt_succ hlt
    · have hend : n = t.before.length + 1 := by
        have hbound := (List.getElem?_eq_some_iff.mp hn).1
        simp only [List.length_append, hlength, List.length_singleton] at hbound
        omega
      have hledger : ledger = (t.step ord call).now := by
        rw [hend, ← hlength, List.getElem?_append_right (Nat.le_refl _), Nat.sub_self] at hn
        exact (Option.some.inj hn).symm
      refine ⟨_, [], (List.append_nil _).symm, ?_, fun y hy => (by cases hy)⟩
      rw [hall, hledger]

theorem oneAtATime_insert {done : List (Nat × OverlappingCall)} {n : Nat} {call : OverlappingCall}
    {ledger : EfficiencyLedger} {st : Status} (hdone : (oneAtATime ord done s).2 = ledger)
    (hop : call.op.exec ord ledger = .error st ledger) (rest : List (Nat × OverlappingCall)) :
    oneAtATime ord (done ++ (n, call) :: rest) s =
      ((oneAtATime ord done s).1 ++ ((n, call), st) :: (oneAtATime ord rest ledger).1,
        (oneAtATime ord (done ++ rest) s).2) := by
  have hinsert : oneAtATime ord ((n, call) :: rest) ledger =
      (((n, call), st) :: (oneAtATime ord rest ledger).1, (oneAtATime ord rest ledger).2) := by
    unfold oneAtATime
    simp only [execAll, hop, statusOf, Result.state]
  rw [oneAtATime_append, oneAtATime_append, hdone, hinsert]

theorem Ordered.atStart (h : Ordered ord s t order) {call : OverlappingCall}
    (hcall : call.op.isLoad = false) {ledger : EfficiencyLedger} {st : Status}
    (hledger : (t.before ++ [t.now])[call.start t.before.length]? = some ledger)
    (hop : call.op.exec ord ledger = .error st ledger)
    (hexec : call.exec ord t.before t.now t.now = .error st t.now) :
    ∃ order', Ordered ord s (t.step ord call) order' := by
  -- The call fails where it has started, and without any effect.
  obtain ⟨done, rest, rfl, hdone, hrest⟩ := h.met _ ledger hledger
  have hstep : t.step ord call = ⟨t.before ++ [t.now], t.now,
      t.returned ++ [((t.before.length, call), st)]⟩ := by
    unfold step
    rw [hexec]
    rfl
  have hinsert (xs : List (Nat × OverlappingCall)) :=
    oneAtATime_insert (n := t.before.length) hdone hop xs
  obtain ⟨hreturned, hnow, hreal, hpositions, hloads, hmet⟩ := h
  have hmem (x : Nat × OverlappingCall) (hx : x ∈ done ++ (t.before.length, call) :: rest) :
      x = (t.before.length, call) ∨ x ∈ done ++ rest := by
    simp only [List.mem_append, List.mem_cons] at hx ⊢
    tauto
  rw [hstep]
  refine ⟨done ++ (t.before.length, call) :: rest, ?_, ?_, ?_, fun x hx => ?_, fun x hx => ?_,
    fun n ledger' hn => ?_⟩
  · rw [oneAtATime_append, hdone] at hreturned
    rw [hinsert]
    refine List.perm_middle.trans ?_
    exact (hreturned.cons _).trans (List.perm_append_singleton _ _).symm
  · rw [hinsert]
    exact hnow
  · obtain ⟨hpast, hfuture, hcross⟩ := List.pairwise_append.mp hreal
    refine List.pairwise_append.mpr ⟨hpast, List.pairwise_cons.mpr ⟨hrest, hfuture⟩,
      fun x hx y hy => ?_⟩
    rcases List.mem_cons.mp hy with rfl | hy
    · exact Nat.le_of_lt (Nat.lt_of_le_of_lt (x.2.start_le x.1) (hpositions x (by simp [hx])))
    · exact hcross x hx y hy
  · rw [List.length_append, List.length_singleton]
    rcases hmem x hx with rfl | hx
    · exact Nat.lt_succ_self _
    · exact Nat.lt_succ_of_lt (hpositions x hx)
  · rcases hmem x hx with rfl | hx
    · exact hcall
    · exact hloads x hx
  · by_cases hlt : n < t.before.length + 1
    · have hold : (t.before ++ [t.now])[n]? = some ledger' := by
        rw [← hn]
        exact (List.getElem?_append_left (by simpa using hlt)).symm
      obtain ⟨done', rest', hsplit, hdone', hrest'⟩ := hmet n ledger' hold
      -- the call stands in what is behind this ledger, or in what is before it
      rcases List.append_eq_append_iff.mp hsplit with ⟨mid, rfl, rfl⟩ | ⟨mid, rfl, rfl⟩
      · refine ⟨done ++ (t.before.length, call) :: mid, rest', by simp, ?_, hrest'⟩
        rw [hinsert]
        exact hdone'
      · refine ⟨done', mid ++ (t.before.length, call) :: rest, by simp, hdone', fun y hy => ?_⟩
        simp only [List.mem_append, List.mem_cons] at hy
        rcases hy with hy | rfl | hy
        · exact hrest' y (by simp [hy])
        · exact Nat.le_of_lt_succ hlt
        · exact hrest' y (by simp [hy])
    · have hledger' : ledger' = t.now := by
        have hbound := (List.getElem?_eq_some_iff.mp hn).1
        simp only [List.length_append, List.length_singleton] at hbound
        have hend : n = (t.before ++ [t.now]).length := by
          rw [List.length_append, List.length_singleton]
          omega
        rw [hend, List.getElem?_append_right (Nat.le_refl _), Nat.sub_self] at hn
        exact (Option.some.inj hn).symm
      refine ⟨_, [], (List.append_nil _).symm, ?_, fun y hy => (by cases hy)⟩
      rw [hinsert, hledger']
      exact hnow

theorem Ordered.step {id : LedgerId} {ops : List Op}
    (h : Ordered ord (El.run ord (.fresh id) ops) t order) {call : OverlappingCall}
    (hcall : call.op.isLoad = false) :
    ∃ order', Ordered ord (El.run ord (.fresh id) ops) (t.step ord call) order' := by
  cases call with
  | locked op => exact ⟨_, h.atSection hcall rfl⟩
  | reclassify req looked =>
    obtain ⟨ledger, hledger⟩ : ∃ ledger,
        (t.before ++ [t.now])[min looked t.before.length]? = some ledger := by
      refine ⟨_, List.getElem?_eq_getElem ?_⟩
      simp
    have hseen : t.before.getD looked t.now = ledger := by
      by_cases hlt : looked < t.before.length
      · rw [Nat.min_eq_left (Nat.le_of_lt hlt), List.getElem?_append_left hlt] at hledger
        rw [List.getD_eq_getElem?_getD, hledger, Option.getD_some]
      · have hle := Nat.not_lt.mp hlt
        rw [Nat.min_eq_right hle, List.getElem?_append_right (Nat.le_refl _), Nat.sub_self] at hledger
        rw [List.getD_eq_getElem?_getD, List.getElem?_eq_none hle]
        exact Option.some.inj hledger
    obtain ⟨done, rest, rfl, hdone, -⟩ := h.met _ ledger hledger
    have hwf : ledger.toBooks.Wf := by
      have hrun := oneAtATime_snd ord done (El.run ord (.fresh id) ops)
      have hwhole : El.run ord (El.run ord (.fresh id) ops) (done.map (·.2.op)) =
          El.run ord (.fresh id) (ops ++ done.map (·.2.op)) := (Machine.run_append _ _ _ _).symm
      rw [← hdone, hrun, hwhole]
      exact wf_run ord id _
    have hnow : t.now = El.run ord ledger (rest.map (·.2.op)) := by
      rw [← h.now, oneAtATime_append, hdone, oneAtATime_snd]
    have hloads : ∀ op ∈ rest.map (·.2.op), op.isLoad = false := by
      intro op hop
      obtain ⟨x, hx, rfl⟩ := List.mem_map.mp hop
      exact h.loadFree x (by simp [hx])
    have hexec : OverlappingCall.exec ord t.before t.now (.reclassify req looked) t.now =
        appendLocked ord (revisionOf ledger.toBooks req) t.now := by
      show appendLocked ord (revisionOf (t.before.getD looked t.now).toBooks req) t.now = _
      rw [hseen]
    have hacts := reclassify_at_append_or_lookup ord hwf hloads req
    simp only [← hnow] at hacts
    rcases hacts with hsame | ⟨st, hthere, hhere⟩
    · exact ⟨_, h.atSection hcall (hexec.trans hsame)⟩
    · exact h.atStart hcall hledger hthere (hexec.trans hhere)

end Order

end Schedule

end El
