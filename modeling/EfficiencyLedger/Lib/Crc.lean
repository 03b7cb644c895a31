import EfficiencyLedger.Lib.Wire
import Mathlib.Logic.Function.Iterate

/-!
# Cyclic redundancy checks

The reflected check of `w` bits: a register that is shifted right, one bit of the message at a time,
and takes the polynomial in whenever a one falls out. `shift` is linear in exclusive or and, where
the polynomial keeps its top bit, injective, so the register after a message determines the register
before it (`run_inj`). As long as no more bytes are fed than fit the register, they determine it too
(`run_eq`): a window of `w` bits that differs cannot leave the check unchanged (`window_eq`).
-/

namespace Crc

open Wire

variable {w : Nat} (poly : BitVec w)

/-! ### One bit -/

def shift (c : BitVec w) : BitVec w := if c.getLsbD 0 then poly ^^^ (c >>> 1) else c >>> 1

theorem shift_xor (a b : BitVec w) : shift poly (a ^^^ b) = shift poly a ^^^ shift poly b := by
  have hself (x y z : BitVec w) : x ^^^ y ^^^ (x ^^^ z) = y ^^^ z := by
    rw [BitVec.xor_comm x y, BitVec.xor_assoc, ← BitVec.xor_assoc x x z, BitVec.xor_self,
      BitVec.zero_xor]
  unfold shift
  rw [BitVec.getLsbD_xor, BitVec.ushiftRight_xor_distrib]
  cases ha : a.getLsbD 0 <;> cases hb : b.getLsbD 0
  · rfl
  · show poly ^^^ _ = a >>> 1 ^^^ (poly ^^^ b >>> 1)
    rw [← BitVec.xor_assoc, ← BitVec.xor_assoc, BitVec.xor_comm poly]
  · show poly ^^^ _ = poly ^^^ a >>> 1 ^^^ b >>> 1
    rw [BitVec.xor_assoc]
  · exact (hself poly _ _).symm

theorem iterate_shift_xor (n : Nat) (a b : BitVec w) :
    (shift poly)^[n] (a ^^^ b) = (shift poly)^[n] a ^^^ (shift poly)^[n] b := by
  induction n generalizing a b with
  | zero => rfl
  | succ n ih => rw [Function.iterate_succ_apply, shift_xor, ih]; rfl

theorem shift_eq_zero (hpoly : poly.msb = true) {c : BitVec w} (h : shift poly c = 0#w) :
    c = 0#w := by
  unfold shift at h
  by_cases hlow : c.getLsbD 0 = true
  · -- the bit that falls out would leave the top bit of the polynomial behind
    rw [if_pos hlow] at h
    have hmsb := congrArg BitVec.msb h
    rw [BitVec.msb_xor, hpoly, BitVec.msb_ushiftRight] at hmsb
    simp at hmsb
  · rw [if_neg hlow] at h
    apply BitVec.eq_of_getLsbD_eq
    intro i hi
    rw [BitVec.getLsbD_zero]
    by_cases hi0 : i = 0
    · subst hi0
      simpa using hlow
    · have hbit := congrArg (BitVec.getLsbD · (i - 1)) h
      have hsub : 1 + (i - 1) = i := by omega
      simpa [BitVec.getLsbD_ushiftRight, hsub] using hbit

theorem shift_inj (hpoly : poly.msb = true) {a b : BitVec w} (h : shift poly a = shift poly b) :
    a = b := by
  apply BitVec.xor_eq_zero_iff.mp
  apply shift_eq_zero poly hpoly
  rw [shift_xor, h, BitVec.xor_self]

theorem iterate_shift_inj (hpoly : poly.msb = true) (n : Nat) {a b : BitVec w}
    (h : (shift poly)^[n] a = (shift poly)^[n] b) : a = b :=
  Function.Injective.iterate (fun _ _ => shift_inj poly hpoly) n h

theorem iterate_shift_of_low (n : Nat) {c : BitVec w} (h : ∀ i < n, c.getLsbD i = false) :
    (shift poly)^[n] c = c >>> n := by
  induction n generalizing c with
  | zero => exact (BitVec.ushiftRight_zero c).symm
  | succ n ih =>
    have hshift : shift poly c = c >>> 1 := by
      rw [shift, if_neg (by simp [h 0 (by omega)])]
    rw [Function.iterate_succ_apply, hshift, ih, ← BitVec.shiftRight_add, Nat.add_comm]
    intro i hi
    rw [BitVec.getLsbD_ushiftRight]
    exact h (1 + i) (by omega)

theorem iterate_shift_shiftLeft (n : Nat) {c : BitVec w}
    (h : ∀ i, w ≤ n + i → c.getLsbD i = false) : (shift poly)^[n] (c <<< n) = c := by
  rw [iterate_shift_of_low]
  · apply BitVec.eq_of_getLsbD_eq
    intro i hi
    rw [BitVec.getLsbD_ushiftRight, BitVec.getLsbD_shiftLeft]
    by_cases hiw : n + i < w
    · simp [hiw]
    · simp [hiw, h i (by omega)]
  · intro i hi
    simp [BitVec.getLsbD_shiftLeft, hi]

/-! ### One byte -/

def feed (c : BitVec w) (b : UInt8) : BitVec w := (shift poly)^[8] (c ^^^ BitVec.ofNat w b.toNat)

theorem testBit_byte (b : UInt8) {i : Nat} (hi : 8 ≤ i) : b.toNat.testBit i = false :=
  Nat.testBit_lt_two_pow (Nat.lt_of_lt_of_le b.toNat_lt (Nat.pow_le_pow_right (by omega) hi))

theorem feed_eq_table (c : BitVec w) (b : UInt8) :
    feed poly c b =
      (shift poly)^[8] ((c ^^^ BitVec.ofNat w b.toNat) &&& BitVec.ofNat w 0xFF) ^^^ (c >>> 8) := by
  -- A byte can be taken in by a table look-up: the low byte of the register falls out, the others
  -- move down.
  have hhigh : (c ^^^ BitVec.ofNat w b.toNat) >>> 8 = c >>> 8 := by
    apply BitVec.eq_of_getLsbD_eq
    intro i _
    simp [BitVec.getLsbD_ushiftRight, BitVec.getLsbD_ofNat, testBit_byte b (i := 8 + i) (by omega)]
  unfold feed
  generalize c ^^^ BitVec.ofNat w b.toNat = x at hhigh ⊢
  have hsplit : (x &&& BitVec.ofNat w 0xFF) ^^^ (x >>> 8) <<< 8 = x := by
    apply BitVec.eq_of_getLsbD_eq
    intro i hi
    have hmask : Nat.testBit 0xFF i = decide (i < 8) := Nat.testBit_two_pow_sub_one 8 i
    rw [BitVec.getLsbD_xor, BitVec.getLsbD_and, BitVec.getLsbD_ofNat, BitVec.getLsbD_shiftLeft,
      BitVec.getLsbD_ushiftRight, hmask]
    by_cases hi8 : i < 8
    · simp [hi, hi8]
    · have hback : 8 + (i - 8) = i := by omega
      simp [hi, hi8, hback]
  calc (shift poly)^[8] x
      = (shift poly)^[8] (x &&& BitVec.ofNat w 0xFF) ^^^ (shift poly)^[8] ((x >>> 8) <<< 8) := by
        rw [← iterate_shift_xor, hsplit]
    _ = (shift poly)^[8] (x &&& BitVec.ofNat w 0xFF) ^^^ (c >>> 8) := by
        rw [iterate_shift_shiftLeft, hhigh]
        intro i hi
        rw [BitVec.getLsbD_ushiftRight, BitVec.getLsbD_of_ge x _ hi]

/-! ### A message -/

/-- The register after a message. -/
def run (c : BitVec w) (bs : List UInt8) : BitVec w := bs.foldl (feed poly) c

theorem run_append (c : BitVec w) (as bs : List UInt8) :
    run poly c (as ++ bs) = run poly (run poly c as) bs := List.foldl_append

theorem run_inj (hpoly : poly.msb = true) (bs : List UInt8) {a b : BitVec w}
    (h : run poly a bs = run poly b bs) : a = b := by
  induction bs generalizing a b with
  | nil => exact h
  | cons x bs ih =>
    have hfeed : feed poly a x = feed poly b x := ih h
    have hxor := iterate_shift_inj poly hpoly 8 hfeed
    exact (BitVec.xor_left_inj _).mp hxor

theorem ofNat_getLE_cons (b : UInt8) (bs : List UInt8) :
    BitVec.ofNat w (getLE (b :: bs)) =
      BitVec.ofNat w b.toNat ^^^ BitVec.ofNat w (getLE bs) <<< 8 := by
  apply BitVec.eq_of_getLsbD_eq
  intro i hi
  simp only [getLE, BitVec.getLsbD_ofNat, BitVec.getLsbD_xor, BitVec.getLsbD_shiftLeft,
    Nat.testBit_or, Nat.testBit_shiftLeft, hi, decide_true, Bool.true_and]
  by_cases hi8 : i < 8
  · have hge : ¬ i ≥ 8 := by omega
    simp [hi8, hge]
  · have hsub : i - 8 < w := by omega
    simp [hi8, testBit_byte b (Nat.le_of_not_lt hi8), hsub, Nat.le_of_not_lt hi8]

theorem run_eq {bs : List UInt8} (hlen : 8 * bs.length ≤ w) (c : BitVec w) :
    run poly c bs = (shift poly)^[8 * bs.length] (c ^^^ BitVec.ofNat w (getLE bs)) := by
  -- As long as the bytes fit the register, they are all taken in before the first of them falls
  -- out.
  induction bs generalizing c with
  | nil => simp [run, getLE]
  | cons b bs ih =>
    rw [List.length_cons] at hlen
    have hrest : (shift poly)^[8] (BitVec.ofNat w (getLE bs) <<< 8) = BitVec.ofNat w (getLE bs) := by
      apply iterate_shift_shiftLeft
      intro i hi
      rw [BitVec.getLsbD_ofNat, Nat.testBit_lt_two_pow, Bool.and_false]
      exact Nat.lt_of_lt_of_le (getLE_lt bs) (Nat.pow_le_pow_right (by omega) (by omega))
    calc run poly c (b :: bs) = run poly (feed poly c b) bs := rfl
      _ = (shift poly)^[8 * bs.length] (feed poly c b ^^^ BitVec.ofNat w (getLE bs)) :=
        ih (by omega) _
      _ = (shift poly)^[8 * bs.length]
            ((shift poly)^[8] (c ^^^ BitVec.ofNat w (getLE (b :: bs)))) := by
        rw [ofNat_getLE_cons, ← BitVec.xor_assoc, iterate_shift_xor poly 8 (c ^^^ _), hrest]
        rfl
      _ = (shift poly)^[8 * (b :: bs).length] (c ^^^ BitVec.ofNat w (getLE (b :: bs))) := by
        rw [← Function.iterate_add_apply, List.length_cons, Nat.mul_succ]

/-! ### Bursts -/

theorem ofNat_getLE_inj {x y : List UInt8} (hlen : x.length = y.length) (hw : 8 * x.length ≤ w)
    (h : BitVec.ofNat w (getLE x) = BitVec.ofNat w (getLE y)) : x = y := by
  have hfits (z : List UInt8) (hz : 8 * z.length ≤ w) :
      (BitVec.ofNat w (getLE z)).toNat = getLE z := by
    rw [BitVec.toNat_ofNat]
    exact Nat.mod_eq_of_lt (Nat.lt_of_lt_of_le (getLE_lt z)
      (Nat.pow_le_pow_right (by omega) hz))
  have hword : getLE x = getLE y := by
    rw [← hfits x hw, ← hfits y (hlen ▸ hw), h]
  rw [← putLE_getLE x, ← putLE_getLE y, hword, hlen]

theorem window_eq (hpoly : poly.msb = true) (c : BitVec w) (before after : List UInt8)
    {x y : List UInt8} (hlen : x.length = y.length) (hw : 8 * x.length ≤ w)
    (h : run poly c (before ++ x ++ after) = run poly c (before ++ y ++ after)) : x = y := by
  rw [run_append, run_append, run_append, run_append] at h
  have hw' : 8 * y.length ≤ w := hlen ▸ hw
  have hmid := run_inj poly hpoly after h
  rw [run_eq poly hw, run_eq poly hw', hlen] at hmid
  have hxor := iterate_shift_inj poly hpoly _ hmid
  exact ofNat_getLE_inj hlen hw ((BitVec.xor_right_inj _).mp hxor)

theorem exists_window {as bs : List UInt8} (hlen : as.length = bs.length) {i k : Nat}
    (h : ∀ j, as[j]? ≠ bs[j]? → i ≤ j ∧ j < i + k) :
    ∃ before x y after, as = before ++ x ++ after ∧ bs = before ++ y ++ after ∧
      x.length = y.length ∧ x.length ≤ k := by
  have hbefore : as.take i = bs.take i := by
    apply List.ext_getElem?
    intro j
    by_cases hj : j < i
    · rw [List.getElem?_take_of_lt hj, List.getElem?_take_of_lt hj]
      exact not_not.mp fun hne => absurd (h j hne).1 (by omega)
    · rw [List.getElem?_take_eq_none (by omega), List.getElem?_take_eq_none (by omega)]
  have hafter : as.drop (i + k) = bs.drop (i + k) := by
    apply List.ext_getElem?
    intro j
    rw [List.getElem?_drop, List.getElem?_drop]
    exact not_not.mp fun hne => absurd (h _ hne).2 (by omega)
  have hcut (l : List UInt8) : l = l.take i ++ (l.drop i).take k ++ l.drop (i + k) := by
    rw [List.append_assoc, ← List.drop_drop, List.take_append_drop, List.take_append_drop]
  refine ⟨as.take i, (as.drop i).take k, (bs.drop i).take k, as.drop (i + k), hcut as, ?_, ?_, ?_⟩
  · rw [hbefore, hafter]
    exact hcut bs
  · rw [List.length_take, List.length_take, List.length_drop, List.length_drop, hlen]
  · rw [List.length_take]
    omega

theorem eq_of_burst (hpoly : poly.msb = true) (c : BitVec w) {as bs : List UInt8}
    (hlen : as.length = bs.length) {i k : Nat} (hk : 8 * k ≤ w)
    (h : ∀ j, as[j]? ≠ bs[j]? → i ≤ j ∧ j < i + k) (hrun : run poly c as = run poly c bs) :
    as = bs := by
  obtain ⟨before, x, y, after, rfl, rfl, hxy, hx⟩ := exists_window hlen h
  rw [window_eq poly hpoly c before after hxy (by omega) hrun]

/-! ### The appended check -/

theorem run_check_iff (hpoly : poly.msb = true) (c : BitVec w) (m : List UInt8) {t : List UInt8}
    (ht : 8 * t.length = w) :
    run poly c (m ++ t) = (shift poly)^[w] (BitVec.allOnes w) ↔
      BitVec.ofNat w (getLE t) = ~~~run poly c m := by
  rw [run_append, run_eq poly (by omega), ht]
  have hself : run poly c m ^^^ ~~~run poly c m = BitVec.allOnes w := by
    rw [← BitVec.xor_allOnes, ← BitVec.xor_assoc, BitVec.xor_self, BitVec.zero_xor]
  constructor
  · intro h
    have hxor := iterate_shift_inj poly hpoly _ h
    rw [← hself] at hxor
    exact (BitVec.xor_right_inj _).mp hxor
  · intro h
    rw [h, hself]

end Crc
