import EfficiencyLedger.Lib.Mixing
import EfficiencyLedger.Model.Run
import EfficiencyLedger.Proof.Codec

/-!
# The digest

The bytes fed to the digest determine the history (`digestStream_injective`), and the digest tells
streams apart that differ in one byte (`digest_detects`).
-/

namespace El

open Wire Mixing

/-! ### The stream -/

theorem encodeEntry_ne_nil (e : LedgerEntry) : encodeEntry e ≠ [] := by
  intro hnil
  have hlen := congrArg List.length hnil
  rw [encodeEntry, List.length_append, length_putU32, List.length_nil] at hlen
  omega

/-- **The digest stream is faithful.** -/
theorem digestStream_injective (es hs : List LedgerEntry) (hes : ∀ e ∈ es, Encodable e)
    (hhs : ∀ h ∈ hs, Encodable h) (heq : digestStream es = digestStream hs) : es = hs := by
  have hentries : es.flatMap encodeEntry = hs.flatMap encodeEntry := by
    refine List.append_inj_right heq ?_
    simp only [List.length_append, length_putU64]
  exact exact_decodeEntry.flatMap_cancel encodeEntry_ne_nil hes hhs hentries

/-- An entry whose note looks like the start of another one. -/
def notedEntry (id : UInt64) : LedgerEntry :=
  { id := ⟨id⟩, event := EventType.kExecutionProgress, account := ⟨7⟩, note := [0x0A, 0, 0, 0] }

theorem digestStream_injective_noted :
    (run default (.fresh kDefaultLedgerId)
      [.append (notedEntry 1), .append (notedEntry 2)]).history =
      (run default (.fresh kDefaultLedgerId)
        [.appendAll [notedEntry 1, notedEntry 2]]).history := by
  have hnoted : ∀ e ∈ [notedEntry 1, notedEntry 2], Encodable e := by
    intro e he
    rcases List.mem_pair.mp he with rfl | rfl
    · exact ⟨fun sh hsh => (by cases hsh), by decide⟩
    · exact ⟨fun sh hsh => (by cases hsh), by decide⟩
  refine digestStream_injective _ _ ?_ ?_ (by decide +kernel)
  · rw [show (run default (.fresh kDefaultLedgerId)
      [.append (notedEntry 1), .append (notedEntry 2)]).history = [notedEntry 1, notedEntry 2] by
        decide +kernel]
    exact hnoted
  · rw [show (run default (.fresh kDefaultLedgerId)
      [.appendAll [notedEntry 1, notedEntry 2]]).history = [notedEntry 1, notedEntry 2] by
        decide +kernel]
    exact hnoted

/-! ### The hash -/

theorem kFnvPrime_inverse : kFnvPrime * 14886173955864302971 = 1 := by decide

theorem mixes_fnv : Mixes fun (state : UInt64) (b : UInt8) => (state ^^^ b.toUInt64) * kFnvPrime := by
  -- The step of the hash can be undone for the state and for the byte.
  have hprime {x y : UInt64} (h : x * kFnvPrime = y * kFnvPrime) : x = y := by
    have hundo := congrArg (· * 14886173955864302971) h
    simpa only [UInt64.mul_assoc, kFnvPrime_inverse, UInt64.mul_one] using hundo
  refine ⟨fun b s t h => ?_, fun s b c h => ?_⟩
  · have hundo := congrArg (· ^^^ b.toUInt64) (hprime h)
    simpa only [UInt64.xor_assoc, UInt64.xor_self, UInt64.xor_zero] using hundo
  · have hundo := congrArg (s ^^^ ·) (hprime h)
    simp only [← UInt64.xor_assoc, UInt64.xor_self, UInt64.zero_xor] at hundo
    have hbyte := congrArg UInt64.toUInt8 hundo
    simpa only [UInt8.toUInt8_toUInt64] using hbyte

/-- **The digest detects a changed byte**, wherever it is and whatever follows it. -/
theorem digest_detects (s t : EfficiencyLedger)
    (h : DifferOnce (digestStream s.history) (digestStream t.history)) : s.digest ≠ t.digest :=
  mixes_fnv.foldl_ne h kFnvOffset

/-- A ledger with one entry, of the given class. -/
def oneEntry (c : EfficiencyClass) : EfficiencyLedger :=
  run default (.fresh kDefaultLedgerId)
    [.append { id := ⟨1⟩, event := EventType.kExecutionProgress, classification := c, account := ⟨7⟩ }]

theorem digest_detects_class :
    (oneEntry .kAvoidableWaste).digest ≠ (oneEntry .kNecessaryOverhead).digest := by
  apply digest_detects
  let stream := digestStream (oneEntry .kAvoidableWaste).history
  have hwaste : digestStream (oneEntry .kAvoidableWaste).history =
      stream.take 33 ++ 2 :: stream.drop 34 := by
    decide +kernel
  have hoverhead : digestStream (oneEntry .kNecessaryOverhead).history =
      stream.take 33 ++ 1 :: stream.drop 34 := by
    decide +kernel
  rw [hwaste, hoverhead]
  exact differOnce_split (by decide)

end El
