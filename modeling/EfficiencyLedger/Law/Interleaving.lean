import EfficiencyLedger.Law.Atomicity
import Mathlib.Data.List.Perm.Basic

/-!
# Appends that run during a load

`load_from_string` takes the lock twice: it installs the header and clears the books, and then
replays the record. An append in between runs on the half-loaded ledger, under the new header and on
empty books, and what it records is cleared by the replay. Where every such append is refused there,
just as the ledger before or after the load refuses it, the calls return what they return in a
sequential order, and no accepted entry is lost (`load_sequential`).
-/

namespace El

open EStateM

/-! ### Sections and calls -/

/-- A critical section: the one of an append, or one of the two of the load. -/
inductive Section where
  | append (e : LedgerEntry)
  | install
  | replay
  deriving DecidableEq

/-- A call of a client. -/
inductive Call where
  | append (e : LedgerEntry)
  | loadFromString (bytes : Bytes)

section Exec

variable (ord : IterationOrder)

/-- The sections, for the load of a record that was parsed before. -/
def Section.exec (r : Record) : Section → LedgerM PUnit
  | .append e => appendLocked ord e
  | .install => modify (installRecord r)
  | .replay => loadHistory ord r.entries

/-- The calls, each run without interruption. -/
def Call.exec : Call → LedgerM PUnit
  | .append e => appendLocked ord e
  | .loadFromString bytes => fun s =>
    match El.loadFromString ord bytes s with
    | .ok _ s' => .ok ⟨⟩ s'
    | .error f s' => .error f.status s'

end Exec

/-- The appends `pre` run before the load, `mid` between its two sections, `post` after it. -/
def interleaving (pre mid post : List LedgerEntry) : List Section :=
  pre.map .append ++ .install :: (mid.map .append ++ .replay :: post.map .append)

/-- The calls that have returned, with their statuses; the load returns with its replay. -/
def returns (bytes : Bytes) (trace : List (Section × Status)) : List (Call × Status) :=
  trace.filterMap fun
    | (.append e, st) => some (.append e, st)
    | (.install, _) => none
    | (.replay, st) => some (.loadFromString bytes, st)

/-- Some sequential order of the calls has the same statuses and leaves the same ledger. -/
def Sequential (ord : IterationOrder) (bytes : Bytes) (s : EfficiencyLedger)
    (trace : List (Section × Status)) (final : EfficiencyLedger) : Prop :=
  ∃ calls : List Call, (execAll (Call.exec ord) calls s).1.Perm (returns bytes trace) ∧
    (execAll (Call.exec ord) calls s).2 = final

/-- Every append that was accepted once the loaded epoch was visible is in the final history. -/
def NothingLost (trace : List (Section × Status)) (final : EfficiencyLedger) : Prop :=
  ∀ before st after, trace = before ++ (Section.install, st) :: after →
    ∀ e, (Section.append e, Status.success) ∈ after → e ∈ final.history

/-- An append in between is refused on the half-loaded ledger, with the status that the ledger
before the load or the loaded ledger refuses it with. -/
def RefusedAlike (r : Record) (before loaded : EfficiencyLedger) (e : LedgerEntry) : Prop :=
  ¬ (installRecord r before).Admits e ∧
    (¬ before.Admits e ∧ refusal before e = refusal (installRecord r before) e ∨
      ¬ loaded.Admits e ∧ refusal loaded e = refusal (installRecord r before) e)

/-! ### The sequential order -/

theorem returns_append (bytes : Bytes) (x y : List (Section × Status)) :
    returns bytes (x ++ y) = returns bytes x ++ returns bytes y := List.filterMap_append

theorem returns_map_append (bytes : Bytes) (x : List (LedgerEntry × Status)) :
    returns bytes (x.map fun p => (Section.append p.1, p.2)) =
      x.map fun p => (Call.append p.1, p.2) := by
  induction x with
  | nil => rfl
  | cons p x ih => exact congrArg ((Call.append p.1, p.2) :: ·) ih

theorem exists_split {α : Type} {P Q : α → Prop} {l : List α} (h : ∀ x ∈ l, P x ∨ Q x) :
    ∃ l₁ l₂, l.Perm (l₁ ++ l₂) ∧ (∀ x ∈ l₁, P x) ∧ ∀ x ∈ l₂, Q x := by
  induction l with
  | nil => exact ⟨[], [], .refl _, by simp, by simp⟩
  | cons a l ih =>
    obtain ⟨l₁, l₂, hperm, h₁, h₂⟩ := ih fun x hx => h x (by simp [hx])
    rcases h a (by simp) with ha | ha
    · refine ⟨a :: l₁, l₂, hperm.cons a, fun x hx => ?_, h₂⟩
      rcases List.mem_cons.mp hx with rfl | hx
      · exact ha
      · exact h₁ x hx
    · refine ⟨l₁, a :: l₂, (hperm.cons a).trans List.perm_middle.symm, h₁, fun x hx => ?_⟩
      rcases List.mem_cons.mp hx with rfl | hx
      · exact ha
      · exact h₂ x hx

theorem mem_of_split {x rest before after : List (Section × Status)} {st st' : Status}
    (hx : ∀ y ∈ x, y.1 ≠ Section.install)
    (h : x ++ (Section.install, st) :: rest = before ++ (Section.install, st') :: after)
    {y : Section × Status} (hy : y ∈ after) : y ∈ rest := by
  rcases List.append_eq_append_iff.mp h with ⟨mid, -, hrest⟩ | ⟨mid, rfl, hrest⟩
  · cases mid with
    | nil =>
      rw [List.nil_append, List.cons.injEq] at hrest
      rw [hrest.2]
      exact hy
    | cons m mid =>
      rw [List.cons_append, List.cons.injEq] at hrest
      rw [hrest.2]
      simp [hy]
  · cases mid with
    | nil =>
      rw [List.nil_append, List.cons.injEq] at hrest
      rw [← hrest.2]
      exact hy
    | cons m mid =>
      rw [List.cons_append, List.cons.injEq] at hrest
      exact absurd (congrArg Prod.fst hrest.1).symm (hx m (by simp))

theorem statusOf_appendLocked_error {ord : IterationOrder} {s s' : EfficiencyLedger}
    {e : LedgerEntry} {st : Status} (h : appendLocked ord e s = .error st s') : st ≠ .success := by
  intro heq
  have hfail := (appendLocked_eq_error ord h).1
  rw [heq] at hfail
  cases hfail

theorem mem_history_execAll (ord : IterationOrder) (es : List LedgerEntry) :
    ∀ s : EfficiencyLedger, s.history <+: (execAll (appendLocked ord) es s).2.history ∧
      ∀ e, (e, Status.success) ∈ (execAll (appendLocked ord) es s).1 →
        e ∈ (execAll (appendLocked ord) es s).2.history := by
  induction es with
  | nil => exact fun s => ⟨List.prefix_refl _, fun e he => (by cases he)⟩
  | cons x es ih =>
    intro s
    obtain ⟨hgrows, hmem⟩ := ih (appendLocked ord x s).state
    refine ⟨(history_appendLocked ord s x).trans hgrows, fun e he => ?_⟩
    rcases List.mem_cons.mp he with hhead | htail
    · obtain ⟨rfl, hst⟩ := Prod.mk.inj hhead
      apply hgrows.subset
      cases hcall : appendLocked ord e s with
      | ok u t =>
        obtain ⟨-, accounts, -, rfl⟩ := appendLocked_eq_ok ord hcall
        rw [Result.state, withBooks_toBooks, Books.record_history]
        exact List.mem_append_right _ (List.mem_singleton_self e)
      | error st t =>
        rw [hcall] at hst
        exact absurd hst.symm (statusOf_appendLocked_error hcall)
    · exact hmem e htail

section Load

variable {ord : IterationOrder} {s t : EfficiencyLedger} {bytes : Bytes} {r : Record}
  {pre mid post : List LedgerEntry}

theorem execAll_interleaving
    (hmid : ∀ e ∈ mid, ¬ (installRecord r (execAll (appendLocked ord) pre s).2).Admits e)
    (hload : loadHistory ord r.entries (installRecord r (execAll (appendLocked ord) pre s).2) =
      .ok ⟨⟩ t) :
    execAll (Section.exec ord r) (interleaving pre mid post) s =
      ((execAll (appendLocked ord) pre s).1.map (fun x => (Section.append x.1, x.2)) ++
        (Section.install, Status.success) ::
          (mid.map (fun e => (Section.append e,
              refusal (installRecord r (execAll (appendLocked ord) pre s).2) e)) ++
            (Section.replay, Status.success) ::
              (execAll (appendLocked ord) post t).1.map fun x => (Section.append x.1, x.2)),
        (execAll (appendLocked ord) post t).2) := by
  have hrefused := execAll_refused (f := appendLocked ord) fun e he =>
    (appendLocked_of_not_admits ord (hmid e he)).1
  have hsections (es : List LedgerEntry) (s : EfficiencyLedger) :
      execAll (Section.exec ord r) (es.map .append) s =
        ((execAll (appendLocked ord) es s).1.map fun x => (Section.append x.1, x.2),
          (execAll (appendLocked ord) es s).2) := execAll_map Section.append es
  have hinstall (s : EfficiencyLedger) :
      Section.exec ord r .install s = .ok ⟨⟩ (installRecord r s) := rfl
  have hreplay : Section.exec ord r .replay (installRecord r (execAll (appendLocked ord) pre s).2) =
      .ok ⟨⟩ t := hload
  unfold interleaving
  rw [execAll_append, hsections]
  simp only [execAll, hinstall, Result.state, execAll_append, hsections, hrefused, hreplay,
    List.map_map, statusOf]
  rfl

theorem returns_interleaving (bytes : Bytes) (xs ys zs : List (LedgerEntry × Status)) :
    returns bytes (xs.map (fun x => (Section.append x.1, x.2)) ++ (Section.install, Status.success) ::
      (ys.map (fun x => (Section.append x.1, x.2)) ++ (Section.replay, Status.success) ::
        zs.map fun x => (Section.append x.1, x.2))) =
    xs.map (fun x => (Call.append x.1, x.2)) ++ (ys.map (fun x => (Call.append x.1, x.2)) ++
      (Call.loadFromString bytes, Status.success) :: zs.map fun x => (Call.append x.1, x.2)) := by
  rw [returns_append, returns_map_append]
  congr 1
  show returns bytes (ys.map _ ++ _) = _
  rw [returns_append, returns_map_append]
  congr 1
  exact congrArg ((Call.loadFromString bytes, Status.success) :: ·) (returns_map_append bytes _)

theorem sequential_of_refusedAlike (hparse : parseRecord bytes = .ok r)
    (hload : loadHistory ord r.entries (installRecord r (execAll (appendLocked ord) pre s).2) =
      .ok ⟨⟩ t)
    (hmid : ∀ e ∈ mid, RefusedAlike r (execAll (appendLocked ord) pre s).2 t e) :
    Sequential ord bytes s (execAll (Section.exec ord r) (interleaving pre mid post) s).1
      (execAll (Section.exec ord r) (interleaving pre mid post) s).2 := by
  -- The calls of the interleaving in a sequential order: of the appends in between, those that the
  -- ledger before the load refuses alike go before the load, the others after it.
  rw [execAll_interleaving (fun e he => (hmid e he).1) hload]
  generalize hbefore : (execAll (appendLocked ord) pre s).2 = before at *
  obtain ⟨early, late, hsplit, hearly, hlate⟩ := exists_split fun e he => (hmid e he).2
  let withStatus (e : LedgerEntry) : LedgerEntry × Status := (e, refusal (installRecord r before) e)
  let calls (trace : List (LedgerEntry × Status)) : List (Call × Status) :=
    trace.map fun x => (Call.append x.1, x.2)
  have hcalls (es : List LedgerEntry) (s : EfficiencyLedger) :
      execAll (Call.exec ord) (es.map .append) s =
        (calls (execAll (appendLocked ord) es s).1, (execAll (appendLocked ord) es s).2) :=
    execAll_map Call.append es
  have hcall : Call.exec ord (.loadFromString bytes) before = .ok ⟨⟩ t := by
    unfold Call.exec
    simp only [loadFromString_of_parseRecord ord before hparse, hload]
  have hearlyrun : execAll (appendLocked ord) early before = (early.map withStatus, before) :=
    execAll_refused fun e he => by
      rw [← (hearly e he).2]
      exact (appendLocked_of_not_admits ord (hearly e he).1).1
  have hlaterun : execAll (appendLocked ord) late t = (late.map withStatus, t) :=
    execAll_refused fun e he => by
      rw [← (hlate e he).2]
      exact (appendLocked_of_not_admits ord (hlate e he).1).1
  refine ⟨pre.map .append ++ (early.map .append ++
    .loadFromString bytes :: (late.map .append ++ post.map .append)), ?_⟩
  simp only [execAll_append, execAll, hcalls, hbefore, hearlyrun, hcall, Result.state, hlaterun,
    statusOf]
  refine ⟨?_, trivial⟩
  have hreturns : returns bytes ((execAll (appendLocked ord) pre s).1.map
      (fun x => (Section.append x.1, x.2)) ++ (Section.install, Status.success) ::
        (mid.map (fun e => (Section.append e, refusal (installRecord r before) e)) ++
          (Section.replay, Status.success) ::
            (execAll (appendLocked ord) post t).1.map fun x => (Section.append x.1, x.2))) =
      calls (execAll (appendLocked ord) pre s).1 ++ (calls (mid.map withStatus) ++
        (Call.loadFromString bytes, Status.success) ::
          calls (execAll (appendLocked ord) post t).1) := by
    have hmap : mid.map (fun e => (Section.append e, refusal (installRecord r before) e)) =
        (mid.map withStatus).map fun x => (Section.append x.1, x.2) := by
      rw [List.map_map]
      rfl
    rw [hmap]
    exact returns_interleaving bytes _ _ _
  rw [hreturns]
  apply List.Perm.append_left _
  have hmids : (calls (mid.map withStatus)).Perm
      (calls (early.map withStatus) ++ calls (late.map withStatus)) := by
    rw [← List.map_append, ← List.map_append]
    exact (hsplit.map _).map _
  refine List.Perm.trans ?_ (hmids.symm.append_right _)
  rw [List.append_assoc]
  exact List.Perm.append_left _ List.perm_middle.symm

theorem nothingLost_of_refused
    (hmid : ∀ e ∈ mid, ¬ (installRecord r (execAll (appendLocked ord) pre s).2).Admits e)
    (hload : loadHistory ord r.entries (installRecord r (execAll (appendLocked ord) pre s).2) =
      .ok ⟨⟩ t) :
    NothingLost (execAll (Section.exec ord r) (interleaving pre mid post) s).1
      (execAll (Section.exec ord r) (interleaving pre mid post) s).2 := by
  rw [execAll_interleaving hmid hload]
  intro before st after hsplit e he
  have hafter := mem_of_split (by
    intro x hx
    obtain ⟨y, -, rfl⟩ := List.mem_map.mp hx
    exact fun h => (by cases h)) hsplit he
  rcases List.mem_append.mp hafter with hrefused | hpost
  · obtain ⟨x, hx, heq⟩ := List.mem_map.mp hrefused
    obtain ⟨-, hstatus⟩ := Prod.mk.inj heq
    have hok := (appendLocked_of_not_admits ord (hmid x hx)).2.1
    rw [hstatus] at hok
    cases hok
  · rcases List.mem_cons.mp hpost with hreplay | hpost
    · cases hreplay
    · obtain ⟨x, hx, heq⟩ := List.mem_map.mp hpost
      obtain ⟨happend, hstatus⟩ := Prod.mk.inj heq
      obtain rfl := Section.append.inj happend
      apply (mem_history_execAll ord post t).2 x.1
      rw [← hstatus]
      exact hx

/-- **No append is lost by a concurrent load**, where every append that runs between the two sections
is refused there as the ledger before or after the load refuses it. -/
theorem load_sequential (ord : IterationOrder) (s t : EfficiencyLedger) (bytes : Bytes) (r : Record)
    (pre mid post : List LedgerEntry) (hparse : parseRecord bytes = .ok r)
    (hload : loadHistory ord r.entries (installRecord r (execAll (appendLocked ord) pre s).2) =
      .ok ⟨⟩ t)
    (hmid : ∀ e ∈ mid, RefusedAlike r (execAll (appendLocked ord) pre s).2 t e) :
    let result := execAll (Section.exec ord r) (interleaving pre mid post) s
    Sequential ord bytes s result.1 result.2 ∧ NothingLost result.1 result.2 := by
  exact ⟨sequential_of_refusedAlike hparse hload hmid,
    nothingLost_of_refused (fun e he => (hmid e he).1) hload⟩

end Load

/-- A ledger without entries in its second epoch. -/
def secondEpoch : EfficiencyLedger := run default (.fresh kDefaultLedgerId) [.advanceEpoch]

theorem parseRecord_secondEpoch : parseRecord secondEpoch.saveToString = .ok secondEpoch.record := by
  have hhistory : secondEpoch.history = [] := by decide +kernel
  refine parseRecord_saveToString ⟨?_, ?_⟩
  · rw [hhistory]
    decide
  · rw [hhistory]
    exact fun e he => (by cases he)

theorem load_sequential_stale :
    let s := EfficiencyLedger.fresh kDefaultLedgerId
    let sections := interleaving [fencedEntry 1 ⟨1⟩] [fencedEntry 1 ⟨3⟩] [fencedEntry 1 ⟨2⟩]
    let result := execAll (Section.exec default secondEpoch.record) sections s
    Sequential default secondEpoch.saveToString s result.1 result.2 ∧
      NothingLost result.1 result.2 := by
  intro s sections result
  let before := (execAll (appendLocked default) [fencedEntry 1 ⟨1⟩] s).2
  let loaded := loadHistory default secondEpoch.record.entries
    (installRecord secondEpoch.record before)
  refine load_sequential default s loaded.state secondEpoch.saveToString secondEpoch.record
    [fencedEntry 1 ⟨1⟩] [fencedEntry 1 ⟨3⟩] [fencedEntry 1 ⟨2⟩] parseRecord_secondEpoch
    (Result.eq_ok_of_isOk (by decide +kernel)) fun e he => ?_
  rw [List.mem_singleton.mp he]
  have hhalf : (installRecord secondEpoch.record before).epoch = ⟨2⟩ := by decide +kernel
  have hloaded : loaded.state.epoch = ⟨2⟩ := by decide +kernel
  refine ⟨fun hadm => ?_, .inr ⟨fun hadm => ?_, by decide +kernel⟩⟩
  · have hepoch := hadm.fences.epoch (by decide)
    rw [hhalf] at hepoch
    cases hepoch
  · have hepoch := hadm.fences.epoch (by decide)
    rw [hloaded] at hepoch
    cases hepoch

/-- An entry that names the loaded epoch is accepted between the two sections and then lost. -/
theorem load_loses_append :
    ¬ ∀ (ord : IterationOrder) (id : LedgerId) (ops : List Op) (bytes : Bytes) (r : Record)
      (pre mid post : List LedgerEntry), parseRecord bytes = .ok r →
      let s := run ord (.fresh id) ops
      let result := execAll (Section.exec ord r) (interleaving pre mid post) s
      (Section.replay, Status.success) ∈ result.1 →
        Sequential ord bytes s result.1 result.2 ∧ NothingLost result.1 result.2 := by
  intro h
  let sections := interleaving [] [fencedEntry 1 ⟨2⟩] []
  let result := execAll (Section.exec default secondEpoch.record) sections (.fresh kDefaultLedgerId)
  have htrace : result.1 = [(.install, .success), (.append (fencedEntry 1 ⟨2⟩), .success),
      (.replay, .success)] := by decide +kernel
  have hhistory : result.2.history = [] := by decide +kernel
  have hlost := (h default kDefaultLedgerId [] secondEpoch.saveToString secondEpoch.record []
    [fencedEntry 1 ⟨2⟩] [] parseRecord_secondEpoch (htrace ▸ by simp)).2
  have hmem := hlost [] .success _ htrace (fencedEntry 1 ⟨2⟩) (by simp)
  have hmem' : fencedEntry 1 ⟨2⟩ ∈ result.2.history := hmem
  rw [hhistory] at hmem'
  cases hmem'

end El
