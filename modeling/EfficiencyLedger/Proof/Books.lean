import EfficiencyLedger.Proof.Run
import Mathlib.Order.Interval.Finset.Nat

/-!
# Well-formed books

In every reachable state the index is the inverse of the history, and every account with a share of
an ordinary entry of the history is on the ledger. So a revision finds its target by id in the
history, and moves the whole usage of it (`movable_target`).
-/

namespace El

open CheckedU64 Counters CounterStore

theorem physical_eq_zero {e : LedgerEntry} (h : e.usage.isZero) {sh : AttributionShare}
    (hsh : sh ∈ (computeAttribution e).shares) (d : Dimension) : sh.physical d = 0 := by
  have hsum := sum_field e .physical d
  have hle := List.single_le_sum (fun _ _ => Nat.zero_le _) _
    (List.mem_map_of_mem (f := fun sh : AttributionShare => (sh.field .physical d).toNat) hsh)
  have hquantity : e.quantity .physical d = 0 := h d
  rw [hsum, hquantity] at hle
  rw [← UInt64.toNat_inj]
  exact Nat.le_zero.mp hle

theorem attributed_physical_eq_zero {e : LedgerEntry} (h : e.usage.isZero) (a : AccountId)
    (d : Dimension) : attributed e a .physical d = 0 := by
  have hle := attributed_le e a .physical d
  have hquantity : e.quantity .physical d = 0 := h d
  rw [show Bucket.physical.quantity = .physical from rfl, hquantity] at hle
  exact Nat.le_zero.mp hle

namespace Books

structure Wf (b : Books) : Prop where
  /-- The index is the inverse of the history. -/
  index : ∀ id i, b.index.lookup id = some i ↔ ∃ e, b.history[i]? = some e ∧ e.id = id
  /-- The accounts of the shares are there, but for those of revisions, which have no usage. -/
  covered : ∀ e ∈ b.history, e.event = EventType.kReclassify ∧ e.usage.isZero ∨
    ∀ a ∈ accountsOf e, a ∈ b.accounts

theorem wf_empty : ({} : Books).Wf := by
  refine ⟨fun id i => ?_, fun e he => ?_⟩
  · simp
  · simp at he

section

variable {b : Books} (h : b.Wf)
include h

theorem Wf.mem_index {id : AccountingEntryId} : id ∈ b.index ↔ ∃ e ∈ b.history, e.id = id := by
  rw [Finmap.mem_iff]
  constructor
  · rintro ⟨i, hi⟩
    obtain ⟨e, he, hid⟩ := (h.index id i).mp hi
    exact ⟨e, List.mem_of_getElem? he, hid⟩
  · rintro ⟨e, he, hid⟩
    obtain ⟨i, hi⟩ := List.mem_iff_getElem?.mp he
    exact ⟨i, (h.index id i).mpr ⟨e, hi, hid⟩⟩

theorem Wf.id_injective {e e' : LedgerEntry} (he : e ∈ b.history) (he' : e' ∈ b.history)
    (hid : e.id = e'.id) : e = e' := by
  obtain ⟨i, hi⟩ := List.mem_iff_getElem?.mp he
  obtain ⟨j, hj⟩ := List.mem_iff_getElem?.mp he'
  have hlookup := (h.index e.id i).mpr ⟨e, hi, rfl⟩
  rw [(h.index e.id j).mpr ⟨e', hj, hid.symm⟩, Option.some.injEq] at hlookup
  rw [hlookup, hi, Option.some.injEq] at hj
  exact hj

theorem Wf.nodup : b.history.Nodup := by
  apply List.nodup_iff_injective_get.mpr
  intro i j hij
  have hlookup (k : Fin b.history.length) : b.index.lookup (b.history.get k).id = some k.val :=
    (h.index _ _).mpr ⟨_, List.getElem?_eq_getElem k.isLt, rfl⟩
  have hi := hlookup i
  rw [hij, hlookup j, Option.some.injEq] at hi
  exact Fin.ext hi.symm

theorem Wf.target_eq_some {e t : LedgerEntry} :
    b.target e = some t ↔ t ∈ b.history ∧ e.revisionTarget = some t.id := by
  unfold target
  rw [Option.bind_eq_some_iff]
  constructor
  · rintro ⟨id, hid, hmap⟩
    obtain ⟨i, hi, rfl⟩ := Option.map_eq_some_iff.mp hmap
    obtain ⟨t, ht, htid⟩ := (h.index id i).mp hi
    have hget : b.history.getD i {} = t := by
      rw [List.getD_eq_getElem?_getD, ht, Option.getD_some]
    rw [hget, htid]
    exact ⟨List.mem_of_getElem? ht, hid⟩
  · rintro ⟨hmem, hid⟩
    obtain ⟨i, hi⟩ := List.mem_iff_getElem?.mp hmem
    refine ⟨t.id, hid, Option.map_eq_some_iff.mpr ⟨i, (h.index t.id i).mpr ⟨t, hi, rfl⟩, ?_⟩⟩
    rw [List.getD_eq_getElem?_getD, hi, Option.getD_some]

theorem Wf.movable_target {e t : LedgerEntry} (ht : b.target e = some t) :
    Movable b.accounts (computeAttribution t).shares := by
  obtain ⟨hmem, -⟩ := h.target_eq_some.mp ht
  intro sh hsh
  rcases h.covered t hmem with ⟨-, hzero⟩ | hacc
  · exact .inr fun d => physical_eq_zero hzero hsh d
  · exact .inl (hacc sh.account (List.mem_map_of_mem hsh))

theorem Wf.of_accounts {accounts : Accounts} (hsub : ∀ a ∈ b.accounts, a ∈ accounts) :
    (b.withAccounts accounts).Wf :=
  ⟨h.index, fun e he => (h.covered e he).imp_right fun hacc a ha => hsub a (hacc a ha)⟩

theorem Wf.record {e : LedgerEntry} (hfresh : e.id ∉ b.index)
    (hcov : e.event = EventType.kReclassify ∧ e.usage.isZero ∨
      ∀ a ∈ accountsOf e, a ∈ b.accounts) : (b.record e).Wf := by
  refine ⟨fun id i => ?_, fun x hx => ?_⟩
  · rw [record_index, record_history]
    by_cases hid : id = e.id
    · subst hid
      rw [Finmap.lookup_insert, Option.some.injEq]
      constructor
      · rintro rfl
        exact ⟨e, by simp, rfl⟩
      · rintro ⟨x, hx, hxid⟩
        by_contra hne
        have hlt : i < b.history.length := by
          have := (List.getElem?_eq_some_iff.mp hx).1
          rw [List.length_append, List.length_singleton] at this
          omega
        rw [List.getElem?_append_left hlt] at hx
        exact hfresh (h.mem_index.mpr ⟨x, List.mem_of_getElem? hx, hxid⟩)
    · rw [Finmap.lookup_insert_of_ne _ hid, h.index]
      constructor
      · rintro ⟨x, hx, hxid⟩
        have hlt := (List.getElem?_eq_some_iff.mp hx).1
        exact ⟨x, by rw [List.getElem?_append_left hlt, hx], hxid⟩
      · rintro ⟨x, hx, hxid⟩
        by_cases hlt : i < b.history.length
        · rw [List.getElem?_append_left hlt] at hx
          exact ⟨x, hx, hxid⟩
        · rw [List.getElem?_append_right (Nat.not_lt.mp hlt),
            List.getElem?_singleton] at hx
          split at hx
          · rw [Option.some.injEq] at hx
            rw [← hxid, ← hx] at hid
            exact absurd rfl hid
          · cases hx
  · rw [record_history] at hx
    rw [record_accounts]
    rcases List.mem_append.mp hx with hmem | hnew
    · exact h.covered x hmem
    · rw [List.mem_singleton.mp hnew]
      exact hcov

theorem Wf.commit {ord : IterationOrder} {e : LedgerEntry} (hadm : b.Admits e) {accounts : Accounts}
    (hpost : postAll (postings ord b e) b.accounts = .ok ⟨⟩ accounts) :
    ((b.withAccounts accounts).record e).Wf := by
  have hmem := mem_of_postAll_ok hpost
  have hwf := h.of_accounts fun a ha => (hmem a).mpr (.inl ha)
  apply hwf.record hadm.fresh
  by_cases hevent : e.event = EventType.kReclassify
  · exact .inl ⟨hevent, (hadm.revision hevent).usage⟩
  · refine .inr fun a ha => (hmem a).mpr (.inr ?_)
    rw [postings_of_ordinary ord b hevent]
    exact ⟨_, (mem_appendPostings ord e).mpr ⟨a, ha, .physical, 0, rfl⟩, rfl⟩

end

end Books

theorem wf_appendLocked (ord : IterationOrder) (s : EfficiencyLedger) (e : LedgerEntry)
    (h : s.toBooks.Wf) : (appendLocked ord e s).state.toBooks.Wf := by
  refine books_appendLocked ord h (fun ps accounts hpost => ?_) fun hadm accounts hpost => ?_
  · exact h.of_accounts fun a ha => (mem_of_postAll_ok hpost a).mpr (.inl ha)
  · exact h.commit hadm.books hpost

/-- **The books are well formed in every reachable state.** -/
theorem wf_run (ord : IterationOrder) (id : LedgerId) (ops : List Op) :
    (run ord (.fresh id) ops).toBooks.Wf :=
  books_invariant Books.wf_empty (wf_appendLocked ord) Books.wf_empty ops

/-! ### Every entry of the history was valid -/

/-- What `validate` checks. -/
structure LedgerEntry.Valid (e : LedgerEntry) : Prop where
  id : e.id.valid
  event : e.event.toBits ≤ (EventType.kReclassify : ByteEnum EventType).toBits
  classification :
    e.classification.toBits ≤ (EfficiencyClass.kUnknown : ByteEnum EfficiencyClass).toBits
  provenance : e.provenance.toBits ≤ (Provenance.kUnknown : ByteEnum Provenance).toBits
  freshness : e.freshness.toBits ≤ (Freshness.kUnknown : ByteEnum Freshness).toBits
  attemptOutcome :
    e.attemptOutcome.toBits ≤ (AttemptOutcome.kSuperseded : ByteEnum AttemptOutcome).toBits
  shared : ∀ sh ∈ e.shared, sh.valid = true
  attempt : e.hasOutcome → e.attempt.id.valid
  account : e.account.valid ∨ e.shared ≠ none

theorem validate_eq_true_iff {e : LedgerEntry} : e.validate = true ↔ e.Valid := by
  have hcheck {c : Prop} [Decidable c] {b : Bool} :
      (if c then false else b) = true ↔ ¬ c ∧ b = true := by
    by_cases h : c <;> simp [h]
  have hshared : ¬ e.shared.any (fun sh => !sh.valid) = true ↔ ∀ sh ∈ e.shared, sh.valid = true := by
    cases e.shared <;> simp
  unfold LedgerEntry.validate
  simp only [hcheck, hshared, gt_iff_lt, BitVec.not_lt]
  constructor
  · rintro ⟨hid, hevent, hclass, hprovenance, hfreshness, houtcome, hsh, hattempt, haccount, -⟩
    refine ⟨not_not.mp hid, hevent, hclass, hprovenance, hfreshness, houtcome, hsh, fun ho => ?_, ?_⟩
    · exact not_not.mp fun hno => hattempt ⟨ho, hno⟩
    · exact or_iff_not_imp_left.mpr fun hno hnone => haccount ⟨hno, hnone⟩
  · intro h
    refine ⟨not_not.mpr h.id, h.event, h.classification, h.provenance, h.freshness,
      h.attemptOutcome, h.shared, fun hno => hno.2 (h.attempt hno.1), fun hno => ?_, trivial⟩
    rcases h.account with hacc | hshare
    · exact hno.1 hacc
    · exact hshare hno.2

theorem validate_appendLocked (ord : IterationOrder) (s : EfficiencyLedger) (e : LedgerEntry)
    (h : ∀ x ∈ s.history, x.validate = true) :
    ∀ x ∈ (appendLocked ord e s).state.history, x.validate = true := by
  refine books_appendLocked ord (P := fun b => ∀ x ∈ b.history, x.validate = true) h
    (fun _ accounts _ => ?_) fun hadm accounts _ => ?_
  · exact h
  · intro x hx
    rw [Books.record_history] at hx
    rcases List.mem_append.mp hx with hold | hnew
    · exact h x hold
    · rw [List.mem_singleton.mp hnew]
      exact hadm.books.valid

theorem validate_run (ord : IterationOrder) (id : LedgerId) (ops : List Op) :
    ∀ e ∈ (run ord (.fresh id) ops).history, e.validate = true :=
  books_invariant (P := fun b => ∀ e ∈ b.history, e.validate = true) (fun _ he => (by cases he))
    (validate_appendLocked ord) (s := .fresh id) (fun _ he => (by cases he)) ops

theorem participants_of_validate {e : LedgerEntry} (h : e.validate = true) :
    ∀ sh ∈ e.shared, sh.participants.length ≤ kMaxSharedParticipants := by
  intro sh hsh
  have hvalid := (validate_eq_true_iff.mp h).shared sh hsh
  by_contra hlong
  have hmore : sh.participants.length > kMaxSharedParticipants := Nat.not_le.mp hlong
  have hne : sh.participants ≠ [] := List.ne_nil_of_length_pos (Nat.zero_lt_of_lt hmore)
  unfold SharedRef.valid at hvalid
  rw [if_neg hne, if_pos hmore] at hvalid
  cases hvalid

theorem Books.Wf.length_history_lt {b : Books} (h : b.Wf)
    (hvalid : ∀ e ∈ b.history, e.validate = true) : b.history.length < 2 ^ 64 := by
  have hnodup : (b.history.map fun e => e.id.value.toNat).Nodup := by
    apply (List.nodup_map_iff_inj_on h.nodup).mpr
    intro x hx y hy heq
    have hid : x.id.value = y.id.value := UInt64.toNat_inj.mp heq
    exact h.id_injective hx hy (congrArg Identity.mk hid)
  have hsub : (b.history.map fun e => e.id.value.toNat).toFinset ⊆ Finset.Ico 1 (2 ^ 64) := by
    intro n hn
    obtain ⟨e, he, rfl⟩ := List.mem_map.mp (List.mem_toFinset.mp hn)
    have hpos := (validate_eq_true_iff.mp (hvalid e he)).id
    have hlt := e.id.value.toNat_lt
    rw [Finset.mem_Ico]
    refine ⟨Nat.one_le_iff_ne_zero.mpr fun hzero => hpos ?_, hlt⟩
    exact UInt64.toNat_inj.mp hzero
  have hcard := Finset.card_le_card hsub
  rw [List.toFinset_card_of_nodup hnodup, List.length_map, Nat.card_Ico] at hcard
  omega

end El
