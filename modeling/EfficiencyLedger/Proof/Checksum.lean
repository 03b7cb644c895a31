import EfficiencyLedger.Lib.Crc
import EfficiencyLedger.Model.Persistence

/-!
# The checksum as a division

`crc32c` takes the bytes in through a table of 256 words; it is the bit by bit division `Crc.run` by
the polynomial, started from and returned through a complement.
-/

namespace El

open Wire

/-! ### The table -/

theorem toBitVec_crcShift (c : UInt32) :
    (crcShift c).toBitVec = Crc.shift kPolynomial.toBitVec c.toBitVec := by
  have hlow : c &&& 1 ≠ 0 ↔ c.toBitVec.getLsbD 0 = true := by
    rw [ne_eq, ← UInt32.toBitVec_inj, UInt32.toBitVec_and]
    show ¬c.toBitVec &&& 1#32 = 0#32 ↔ _
    rw [BitVec.and_one_eq_setWidth_ofBool_getLsbD]
    cases c.toBitVec.getLsbD 0 <;> simp
  unfold crcShift Crc.shift
  by_cases h : c &&& 1 ≠ 0
  · rw [if_pos h, if_pos (hlow.mp h), UInt32.toBitVec_xor, UInt32.toBitVec_shiftRight]
    rfl
  · rw [if_neg h, if_neg (fun hbit => h (hlow.mpr hbit)), UInt32.toBitVec_shiftRight]
    rfl

theorem toBitVec_iterate_crcShift (n : Nat) (c : UInt32) :
    (crcShift^[n] c).toBitVec = (Crc.shift kPolynomial.toBitVec)^[n] c.toBitVec := by
  induction n generalizing c with
  | zero => rfl
  | succ n ih => rw [Function.iterate_succ_apply, Function.iterate_succ_apply, ih, toBitVec_crcShift]

theorem crcTable_getD {i : Nat} (hi : i < 256) :
    crcTable.getD i 0 = crcShift^[8] (UInt32.ofNat i) := by
  unfold crcTable
  rw [Array.getD_eq_getD_getElem?, Array.getElem?_map, Array.getElem?_range, if_pos hi]
  rfl

theorem toBitVec_crcByte (crc : UInt32) (b : UInt8) :
    (crcTable.getD ((crc ^^^ b.toUInt32) &&& 0xFF).toNat 0 ^^^ (crc >>> 8)).toBitVec =
      Crc.feed kPolynomial.toBitVec crc.toBitVec b := by
  have hbyte : b.toUInt32.toBitVec = BitVec.ofNat 32 b.toNat := by
    apply BitVec.eq_of_toNat_eq
    rw [BitVec.toNat_ofNat, Nat.mod_eq_of_lt (Nat.lt_trans b.toNat_lt (by omega))]
    exact UInt8.toNat_toUInt32 b
  have hindex : ((crc ^^^ b.toUInt32) &&& 0xFF).toNat < 256 := by
    rw [UInt32.toNat_and]
    exact Nat.lt_succ_of_le Nat.and_le_right
  rw [crcTable_getD hindex, UInt32.ofNat_toNat, UInt32.toBitVec_xor, toBitVec_iterate_crcShift,
    Crc.feed_eq_table, UInt32.toBitVec_and, UInt32.toBitVec_xor, hbyte, UInt32.toBitVec_shiftRight]
  rfl

theorem toBitVec_crc32c (data : Bytes) :
    (crc32c data).toBitVec =
      ~~~Crc.run kPolynomial.toBitVec (BitVec.allOnes 32) data := by
  have hfold (crc : UInt32) :
      (data.foldl (fun (crc : UInt32) b =>
        crcTable.getD ((crc ^^^ b.toUInt32) &&& 0xFF).toNat 0 ^^^ (crc >>> 8)) crc).toBitVec =
        Crc.run kPolynomial.toBitVec crc.toBitVec data := by
    induction data generalizing crc with
    | nil => rfl
    | cons b data ih =>
      rw [List.foldl_cons, ih, toBitVec_crcByte]
      rfl
  unfold crc32c
  rw [UInt32.toBitVec_not, hfold]
  rfl

/-! ### Bursts -/

theorem msb_kPolynomial : kPolynomial.toBitVec.msb = true := by decide

theorem crc32c_eq_iff (m : Bytes) {t : Bytes} (ht : t.length = 4) :
    getLE t = (crc32c m).toNat ↔
      Crc.run kPolynomial.toBitVec (BitVec.allOnes 32) (m ++ t) =
        (Crc.shift kPolynomial.toBitVec)^[32] (BitVec.allOnes 32) := by
  have hfits : getLE t < 2 ^ 32 := by
    have h := getLE_lt t
    rwa [ht] at h
  rw [Crc.run_check_iff _ msb_kPolynomial _ m (by omega : 8 * t.length = 32), ← toBitVec_crc32c,
    ← BitVec.toNat_inj, BitVec.toNat_ofNat, Nat.mod_eq_of_lt hfits]
  rfl

theorem eq_of_checksums {m m' t t' : Bytes} (ht : t.length = 4) (ht' : t'.length = 4)
    (hcheck : getLE t = (crc32c m).toNat) (hcheck' : getLE t' = (crc32c m').toNat)
    (hlen : (m' ++ t').length = (m ++ t).length) {i : Nat}
    (hburst : ∀ j, (m' ++ t')[j]? ≠ (m ++ t)[j]? → i ≤ j ∧ j < i + 4) : m' ++ t' = m ++ t := by
  apply Crc.eq_of_burst kPolynomial.toBitVec msb_kPolynomial (BitVec.allOnes 32) hlen (by omega)
    hburst
  rw [(crc32c_eq_iff m' ht').mp hcheck', (crc32c_eq_iff m ht).mp hcheck]

end El
