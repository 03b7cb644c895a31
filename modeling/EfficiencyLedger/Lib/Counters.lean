import EfficiencyLedger.Lib.CheckedU64
import EfficiencyLedger.Lib.Effect
import Mathlib.Algebra.BigOperators.Group.List.Basic
import Mathlib.Algebra.Order.BigOperators.Group.List
import Mathlib.Data.Int.Basic
import Mathlib.Tactic.Ring

/-!
# Stores of checked counters

A store holds one 64-bit counter for each key. A `Posting` adds to a counter (`credit`) or takes
from it (`debit`), and fails without effect where the exact result does not fit; `postAll` runs a
list of postings and stops at the first that fails, with the earlier ones in place.

* `read_of_postAll_ok`: after a whole run every counter has moved by the exact net of the list.
* `postAll_error_iff`: a run stops at the first posting that does not fit, after exactly the
  postings before it; `StopsAt` says which one that is by arithmetic on the counters before the run.
* `postAll_agree_of_filter`: stores that read the same go alike through the same postings, and
  postings of nothing do not count.
* `postAll_credits_ok_iff`: credits alone all go through iff every counter has room for its total.
-/

open CheckedU64

universe u

/-- A store of 64-bit counters with keys `κ`. -/
class CounterStore (σ : Type u) (κ : outParam (Type u)) where
  read : σ → κ → UInt64
  write : σ → κ → UInt64 → σ
  read_write_self : ∀ s k v, read (write s k v) k = v
  read_write_of_ne : ∀ s v {k k'}, k' ≠ k → read (write s k v) k' = read s k'

namespace Counters

open CounterStore

inductive Side where
  | credit | debit
  deriving DecidableEq

/-- One movement of a counter, and the error to return where it does not fit. -/
structure Posting (κ ε : Type u) where
  key : κ
  side : Side
  amount : UInt64
  onFail : ε

variable {σ κ ε : Type u} [CounterStore σ κ]

/-- The movement as an exact integer. -/
def Posting.signed (p : Posting κ ε) : Int :=
  match p.side with
  | .credit => p.amount.toNat
  | .debit => -p.amount.toNat

/-- The counter has room for a credit, or holds enough for a debit. -/
def Posting.Fits (s : σ) (p : Posting κ ε) : Prop :=
  match p.side with
  | .credit => (read s p.key).toNat + p.amount.toNat < u64Limit
  | .debit => p.amount.toNat ≤ (read s p.key).toNat

instance (s : σ) (p : Posting κ ε) : Decidable (p.Fits s) := by
  unfold Posting.Fits
  cases p.side <;> exact inferInstance

/-- The counter's value after the posting, where it fits. -/
def Posting.updated (s : σ) (p : Posting κ ε) : Option UInt64 :=
  match p.side with
  | .credit => checkedAdd (read s p.key) p.amount
  | .debit => checkedSub (read s p.key) p.amount

/-- The checked update of one counter. -/
def post (p : Posting κ ε) : EStateM ε σ PUnit := fun s =>
  match p.updated s with
  | none => .error p.onFail s
  | some v => .ok ⟨⟩ (write s p.key v)

def postAll (ps : List (Posting κ ε)) : EStateM ε σ PUnit := ps.forM post

theorem updated_of_not_fits {s : σ} {p : Posting κ ε} (h : ¬ p.Fits s) : p.updated s = none := by
  obtain ⟨key, side, amount, onFail⟩ := p
  cases side with
  | credit => exact checkedAdd_eq_none.mpr (Nat.not_lt.mp h)
  | debit => exact checkedSub_eq_none.mpr (Nat.not_le.mp h)

theorem updated_of_fits {s : σ} {p : Posting κ ε} (h : p.Fits s) :
    ∃ v, p.updated s = some v ∧ (v.toNat : Int) = (read s p.key).toNat + p.signed := by
  obtain ⟨key, side, amount, onFail⟩ := p
  cases side with
  | credit =>
    obtain ⟨v, hv⟩ := exists_checkedAdd h
    refine ⟨v, hv, ?_⟩
    have hadd : v.toNat = (read s key).toNat + amount.toNat := checkedAdd_eq_some.mp hv
    change (v.toNat : Int) = (read s key).toNat + amount.toNat
    omega
  | debit =>
    obtain ⟨v, hv⟩ := exists_checkedSub h
    refine ⟨v, hv, ?_⟩
    have hsub : (read s key).toNat = v.toNat + amount.toNat := checkedSub_eq_some.mp hv
    change (v.toNat : Int) = (read s key).toNat + -amount.toNat
    omega

theorem post_of_not_fits {s : σ} {p : Posting κ ε} (h : ¬ p.Fits s) :
    post p s = .error p.onFail s := by
  rw [post, updated_of_not_fits h]

theorem post_of_fits {s : σ} {p : Posting κ ε} (h : p.Fits s) :
    ∃ v : UInt64, (v.toNat : Int) = (read s p.key).toNat + p.signed ∧
      post p s = .ok ⟨⟩ (write s p.key v) := by
  obtain ⟨v, hv, hval⟩ := updated_of_fits h
  exact ⟨v, hval, by rw [post, hv]⟩

theorem fits_of_post_ok {s s' : σ} {p : Posting κ ε} (h : post p s = .ok ⟨⟩ s') : p.Fits s := by
  by_contra hfits
  rw [post_of_not_fits hfits] at h
  cases h

/-! ### Runs of postings -/

@[simp] theorem postAll_nil (s : σ) : postAll ([] : List (Posting κ ε)) s = .ok ⟨⟩ s := rfl

theorem postAll_cons (p : Posting κ ε) (ps : List (Posting κ ε)) :
    (postAll (p :: ps) : EStateM ε σ PUnit) = post p >>= fun _ => postAll ps := rfl

theorem postAll_append (ps qs : List (Posting κ ε)) :
    (postAll (ps ++ qs) : EStateM ε σ PUnit) = postAll ps >>= fun _ => postAll qs := by
  simp [postAll]

theorem postAll_flatMap {ι : Type u} (l : List ι) (f : ι → List (Posting κ ε)) :
    (postAll (l.flatMap f) : EStateM ε σ PUnit) = l.forM fun x => postAll (f x) := by
  induction l with
  | nil => rfl
  | cons x l ih =>
    rw [List.flatMap_cons, postAll_append, ih]
    rfl

theorem postAll_append_ok {ps qs : List (Posting κ ε)} {s s' : σ} (h : postAll ps s = .ok ⟨⟩ s') :
    postAll (ps ++ qs) s = postAll qs s' := by
  rw [postAll_append, EStateM.bind_of_ok h]

theorem postAll_error_iff {ps : List (Posting κ ε)} {s s' : σ} {e : ε} :
    postAll ps s = .error e s' ↔
      ∃ pre p suf, ps = pre ++ p :: suf ∧ postAll pre s = .ok ⟨⟩ s' ∧ ¬ p.Fits s' ∧
        e = p.onFail := by
  constructor
  · intro h
    induction ps generalizing s with
    | nil => cases h
    | cons p ps ih =>
      rw [postAll_cons, EStateM.bind_apply] at h
      by_cases hfits : p.Fits s
      · obtain ⟨v, -, hpost⟩ := post_of_fits hfits
        rw [hpost] at h
        obtain ⟨pre, q, suf, rfl, hpre, hq, he⟩ := ih h
        exact ⟨p :: pre, q, suf, rfl, by rw [postAll_cons, EStateM.bind_of_ok hpost, hpre], hq, he⟩
      · rw [post_of_not_fits hfits] at h
        cases h
        exact ⟨[], p, ps, rfl, rfl, hfits, rfl⟩
  · rintro ⟨pre, p, suf, rfl, hpre, hp, rfl⟩
    rw [postAll_append_ok hpre, postAll_cons, EStateM.bind_of_error (post_of_not_fits hp)]

/-- A list of credits only. -/
def Credits (ps : List (Posting κ ε)) : Prop := ∀ p ∈ ps, p.side = .credit

theorem Credits.signed {ps : List (Posting κ ε)} (h : Credits ps) {p : Posting κ ε} (hp : p ∈ ps) :
    p.signed = p.amount.toNat := by
  rw [Posting.signed, h p hp]

theorem Credits.append {ps qs : List (Posting κ ε)} :
    Credits (ps ++ qs) ↔ Credits ps ∧ Credits qs := by
  simp only [Credits, List.mem_append]
  exact ⟨fun h => ⟨fun p hp => h p (.inl hp), fun p hp => h p (.inr hp)⟩,
    fun h p hp => hp.elim (h.1 p) (h.2 p)⟩

/-! ### Runs that agree -/

/-- Two runs end alike: both go through or both fail with the same error, and the stores they end in
read the same. -/
inductive Agree : EStateM.Result ε σ PUnit → EStateM.Result ε σ PUnit → Prop
  | ok {s t : σ} (h : ∀ k, read s k = read t k) : Agree (.ok ⟨⟩ s) (.ok ⟨⟩ t)
  | error {e : ε} {s t : σ} (h : ∀ k, read s k = read t k) : Agree (.error e s) (.error e t)

theorem Agree.trans {r₁ r₂ r₃ : EStateM.Result ε σ PUnit} (h₁ : Agree r₁ r₂) (h₂ : Agree r₂ r₃) :
    Agree r₁ r₃ := by
  cases h₁ with
  | ok h => cases h₂ with | ok h' => exact .ok fun k => (h k).trans (h' k)
  | error h => cases h₂ with | error h' => exact .error fun k => (h k).trans (h' k)

theorem Agree.symm {r₁ r₂ : EStateM.Result ε σ PUnit} (h : Agree r₁ r₂) : Agree r₂ r₁ := by
  cases h with
  | ok h => exact .ok fun k => (h k).symm
  | error h => exact .error fun k => (h k).symm

theorem post_agree (p : Posting κ ε) {s t : σ} (h : ∀ k, read s k = read t k) :
    Agree (post p s) (post p t) := by
  have hupd : p.updated s = p.updated t := by
    unfold Posting.updated
    rw [h]
  unfold post
  rw [hupd]
  cases p.updated t with
  | none => exact .error h
  | some v =>
    refine .ok fun k => ?_
    by_cases hk : k = p.key
    · rw [hk, read_write_self, read_write_self]
    · rw [read_write_of_ne _ _ hk, read_write_of_ne _ _ hk, h]

theorem postAll_agree {ps : List (Posting κ ε)} :
    ∀ {s t : σ}, (∀ k, read s k = read t k) → Agree (postAll ps s) (postAll ps t) := by
  induction ps with
  | nil => exact fun h => .ok h
  | cons p ps ih =>
    intro s t h
    have hp := post_agree p h
    rw [postAll_cons, EStateM.bind_apply, EStateM.bind_apply]
    cases hs : post p s with
    | ok u s' =>
      rw [hs] at hp
      cases ht : post p t with
      | ok u t' =>
        rw [ht] at hp
        cases hp with | ok h' => exact ih h'
      | error e t' =>
        rw [ht] at hp
        cases hp
    | error e s' =>
      rw [hs] at hp
      cases ht : post p t with
      | ok u t' =>
        rw [ht] at hp
        cases hp
      | error e' t' =>
        rw [ht] at hp
        cases hp with | error h' => exact .error h'

/-! ### Net movements -/

variable [DecidableEq κ]

theorem read_of_post_ok {s s' : σ} {p : Posting κ ε} (h : post p s = .ok ⟨⟩ s') (k : κ) :
    ((read s' k).toNat : Int) = (read s k).toNat + if p.key = k then p.signed else 0 := by
  obtain ⟨v, hv, hpost⟩ := post_of_fits (fits_of_post_ok h)
  rw [hpost] at h
  cases h
  split
  · rename_i hk
    rw [← hk, read_write_self, hv]
  · rename_i hk
    rw [read_write_of_ne _ _ (Ne.symm hk), Int.add_zero]

/-- The exact movement of the counter `k` over a list of postings. -/
def net (ps : List (Posting κ ε)) (k : κ) : Int :=
  (ps.map fun p => if p.key = k then p.signed else 0).sum

@[simp] theorem net_nil (k : κ) : net ([] : List (Posting κ ε)) k = 0 := rfl

@[simp] theorem net_cons (p : Posting κ ε) (ps : List (Posting κ ε)) (k : κ) :
    net (p :: ps) k = (if p.key = k then p.signed else 0) + net ps k := by
  simp [net]

@[simp] theorem net_append (ps qs : List (Posting κ ε)) (k : κ) :
    net (ps ++ qs) k = net ps k + net qs k := by
  simp [net]

theorem net_flatMap {ι : Type*} (l : List ι) (f : ι → List (Posting κ ε)) (k : κ) :
    net (l.flatMap f) k = (l.map fun x => net (f x) k).sum := by
  induction l with
  | nil => rfl
  | cons x l ih => simp [ih]

theorem net_eq_zero {ps : List (Posting κ ε)} {k : κ} (h : ∀ p ∈ ps, p.key = k → p.amount = 0) :
    net ps k = 0 := by
  apply List.sum_eq_zero
  intro x hx
  obtain ⟨p, hp, rfl⟩ := List.mem_map.mp hx
  split
  · rename_i hk
    rw [Posting.signed, h p hp hk]
    cases p.side <;> rfl
  · rfl

theorem net_nonneg {ps : List (Posting κ ε)} {k : κ} (h : ∀ p ∈ ps, p.key = k → p.side = .credit) :
    0 ≤ net ps k := by
  apply List.sum_nonneg
  intro x hx
  obtain ⟨p, hp, rfl⟩ := List.mem_map.mp hx
  split
  · rename_i hk
    rw [Posting.signed, h p hp hk]
    exact Int.natCast_nonneg _
  · exact Int.le_refl 0

theorem net_of_mem {ps : List (Posting κ ε)} (hps : (ps.map Posting.key).Nodup) {p : Posting κ ε}
    (hp : p ∈ ps) : net ps p.key = p.signed := by
  induction ps with
  | nil => simp at hp
  | cons q ps ih =>
    rw [List.map_cons, List.nodup_cons] at hps
    rcases List.mem_cons.mp hp with rfl | hmem
    · have hzero : net ps p.key = 0 :=
        net_eq_zero fun r hr hk => absurd (List.mem_map.mpr ⟨r, hr, hk⟩) hps.1
      rw [net_cons, if_pos rfl, hzero, Int.add_zero]
    · have hne : q.key ≠ p.key := fun hk => hps.1 (hk ▸ List.mem_map_of_mem hmem)
      rw [net_cons, if_neg hne, ih hps.2 hmem, Int.zero_add]

theorem net_map_of_mem {ι : Type*} {l : List ι} {f : ι → Posting κ ε}
    (hf : Function.Injective fun x => (f x).key) (hl : l.Nodup) {x : ι} (hx : x ∈ l) :
    net (l.map f) (f x).key = (f x).signed := by
  apply net_of_mem
  · rw [List.map_map]
    exact hl.map hf
  · exact List.mem_map_of_mem hx

theorem read_of_postAll_ok {ps : List (Posting κ ε)} {s s' : σ} (h : postAll ps s = .ok ⟨⟩ s')
    (k : κ) : ((read s' k).toNat : Int) = (read s k).toNat + net ps k := by
  induction ps generalizing s with
  | nil => cases h; simp
  | cons p ps ih =>
    rw [postAll_cons, EStateM.bind_apply] at h
    cases hp : post p s with
    | ok u s₁ =>
      rw [hp] at h
      rw [ih h, read_of_post_ok hp, net_cons]
      ring
    | error e s₁ => rw [hp] at h; cases h

/-! ### Where a run stops -/

/-- The posting has no room once the postings `pre` have been made: arithmetic on the counters as
they were before the run. -/
def Posting.Blocked (s : σ) (pre : List (Posting κ ε)) (p : Posting κ ε) : Prop :=
  match p.side with
  | .credit => (u64Limit : Int) ≤ (read s p.key).toNat + net pre p.key + p.amount.toNat
  | .debit => (read s p.key).toNat + net pre p.key < p.amount.toNat

/-- `p` is the first of the postings `ps` without room; `pre` are those before it. -/
structure StopsAt (s : σ) (ps pre : List (Posting κ ε)) (p : Posting κ ε) : Prop where
  split : ∃ suf, ps = pre ++ p :: suf
  through : ∀ pre' q suf', pre = pre' ++ q :: suf' → ¬ q.Blocked s pre'
  blocked : p.Blocked s pre

theorem not_fits_iff_blocked {s s' : σ} {pre : List (Posting κ ε)} (p : Posting κ ε)
    (h : postAll pre s = .ok ⟨⟩ s') : ¬ p.Fits s' ↔ p.Blocked s pre := by
  have hread := read_of_postAll_ok h p.key
  unfold Posting.Fits Posting.Blocked
  cases p.side with
  | credit => simp only; omega
  | debit => simp only; omega

theorem postAll_ok_iff {ps : List (Posting κ ε)} {s : σ} :
    (∃ s', postAll ps s = .ok ⟨⟩ s') ↔ ∀ pre p suf, ps = pre ++ p :: suf → ¬ p.Blocked s pre := by
  constructor
  · rintro ⟨s', h⟩ pre p suf rfl hblocked
    cases hpre : postAll pre s with
    | ok u s₁ =>
      rw [postAll_append_ok hpre, postAll_cons,
        EStateM.bind_of_error (post_of_not_fits ((not_fits_iff_blocked p hpre).mpr hblocked))] at h
      cases h
    | error e s₁ =>
      rw [postAll_append, EStateM.bind_of_error hpre] at h
      cases h
  · intro hthrough
    cases h : postAll ps s with
    | ok u s' => exact ⟨s', rfl⟩
    | error e s' =>
      obtain ⟨pre, p, suf, hsplit, hpre, hfits, -⟩ := postAll_error_iff.mp h
      exact absurd ((not_fits_iff_blocked p hpre).mp hfits) (hthrough pre p suf hsplit)

theorem stopsAt_of_postAll_error {ps : List (Posting κ ε)} {s s' : σ} {e : ε}
    (h : postAll ps s = .error e s') :
    ∃ pre p, StopsAt s ps pre p ∧ postAll pre s = .ok ⟨⟩ s' ∧ e = p.onFail := by
  obtain ⟨pre, p, suf, hsplit, hpre, hfits, he⟩ := postAll_error_iff.mp h
  exact ⟨pre, p, ⟨⟨suf, hsplit⟩, postAll_ok_iff.mp ⟨s', hpre⟩, (not_fits_iff_blocked p hpre).mp hfits⟩,
    hpre, he⟩

theorem StopsAt.postAll_error {ps pre : List (Posting κ ε)} {s : σ} {p : Posting κ ε}
    (h : StopsAt s ps pre p) :
    ∃ s', postAll pre s = .ok ⟨⟩ s' ∧ postAll ps s = .error p.onFail s' := by
  obtain ⟨⟨suf, hsplit⟩, hthrough, hblocked⟩ := h
  obtain ⟨s', hpre⟩ := postAll_ok_iff.mpr hthrough
  exact ⟨s', hpre, postAll_error_iff.mpr
    ⟨pre, p, suf, hsplit, hpre, (not_fits_iff_blocked p hpre).mpr hblocked, rfl⟩⟩

/-! ### Postings of nothing -/

theorem post_zero {p : Posting κ ε} (hp : p.amount = 0) (s : σ) :
    ∃ s', post p s = .ok ⟨⟩ s' ∧ ∀ k, read s' k = read s k := by
  have hfits : p.Fits s := by
    have hlt := toNat_lt_limit (read s p.key)
    unfold Posting.Fits
    rw [hp, UInt64.toNat_zero]
    cases p.side with
    | credit => exact hlt
    | debit => exact Nat.zero_le _
  have hsigned : p.signed = 0 := by
    rw [Posting.signed, hp]
    cases p.side <;> rfl
  obtain ⟨v, -, hpost⟩ := post_of_fits hfits
  refine ⟨_, hpost, fun k => ?_⟩
  have hread := read_of_post_ok hpost k
  rw [hsigned, ite_self, Int.add_zero] at hread
  rw [← UInt64.toNat_inj]
  omega

theorem postAll_filter_nonzero (ps : List (Posting κ ε)) :
    ∀ s : σ, Agree (postAll ps s) (postAll (ps.filter (·.amount ≠ 0)) s) := by
  induction ps with
  | nil => exact fun s => .ok fun k => rfl
  | cons p ps ih =>
    intro s
    rw [postAll_cons, EStateM.bind_apply]
    by_cases hp : p.amount = 0
    · obtain ⟨s', hpost, hread⟩ := post_zero hp s
      rw [List.filter_cons_of_neg (by simpa using hp), hpost]
      exact (ih s').trans (postAll_agree hread)
    · rw [List.filter_cons_of_pos (by simpa using hp), postAll_cons, EStateM.bind_apply]
      cases post p s with
      | ok u s' => exact ih s'
      | error e s' => exact .error fun k => rfl

theorem postAll_agree_of_filter {ps qs : List (Posting κ ε)}
    (hfilter : ps.filter (·.amount ≠ 0) = qs.filter (·.amount ≠ 0)) {s t : σ}
    (h : ∀ k, read s k = read t k) : Agree (postAll ps s) (postAll qs t) := by
  have hqs := (postAll_filter_nonzero qs t).symm
  rw [← hfilter] at hqs
  exact ((postAll_filter_nonzero ps s).trans (postAll_agree h)).trans hqs

/-! ### Credits alone -/

theorem Credits.net_nonneg {ps : List (Posting κ ε)} (h : Credits ps) (k : κ) : 0 ≤ net ps k := by
  apply List.sum_nonneg
  intro x hx
  obtain ⟨p, hp, rfl⟩ := List.mem_map.mp hx
  rw [h.signed hp]
  split <;> simp

theorem postAll_credits_ok_iff {ps : List (Posting κ ε)} (hps : Credits ps) (s : σ) :
    (∃ s', postAll ps s = .ok ⟨⟩ s') ↔ ∀ k, ((read s k).toNat : Int) + net ps k < u64Limit := by
  constructor
  · rintro ⟨s', h⟩ k
    rw [← read_of_postAll_ok h]
    have := toNat_lt_limit (read s' k)
    omega
  · intro hroom
    cases h : postAll ps s with
    | ok u s' => exact ⟨s', rfl⟩
    | error e s' =>
      obtain ⟨pre, p, suf, rfl, hpre, hfits, -⟩ := postAll_error_iff.mp h
      have hside := hps p (by simp)
      have hsuf : Credits suf := fun q hq => hps q (by simp [hq])
      have hk := hroom p.key
      rw [net_append, net_cons, if_pos rfl, hps.signed (by simp)] at hk
      have hread := read_of_postAll_ok hpre p.key
      have := hsuf.net_nonneg p.key
      refine absurd ?_ hfits
      simp only [Posting.Fits, hside]
      omega

end Counters
