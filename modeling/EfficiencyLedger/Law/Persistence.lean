import EfficiencyLedger.Proof.Persistence
import EfficiencyLedger.Proof.Replay

/-!
# The binary forms

The entry codec is a bijection between the entries within the format's limits and the strings the
decoder accepts (`decode_encode`, `encode_decode`). The record is its own canonical form: what a
load accepts is what a save writes (`save_load`), and no cut or extension of a saved record is ever
accepted, even where its checksum happens to match (`cut_or_extended_rejected`).
-/

namespace El

open Wire

/-! ### Entries -/

/-- The bytes of a buffer between two offsets. -/
def consumed (buf : Bytes) (start stop : Nat) : Bytes := (buf.drop start).take (stop - start)

/-- **Round trip of an entry**, anywhere in a buffer. -/
theorem decode_encode (e : LedgerEntry) (h : Encodable e) (pre suf : Bytes) :
    decodeEntryBytes (pre ++ encodeEntry e ++ suf) pre.length {} =
      some (e, (pre ++ encodeEntry e).length) := by
  refine decodeEntryBytes_eq_some.mpr ⟨h, suf, ?_, ?_⟩
  · rw [List.append_assoc, List.drop_left]
  · have hlen : (pre ++ encodeEntry e ++ suf).length = (pre ++ encodeEntry e).length + suf.length :=
      List.length_append
    rw [hlen, Nat.add_sub_cancel]

theorem consumed_of_decode {buf : Bytes} {offset offset' : Nat} {e : LedgerEntry}
    (h : decodeEntryBytes buf offset {} = some (e, offset')) :
    consumed buf offset offset' = encodeEntry e ∧ offset' = offset + (encodeEntry e).length ∧
      offset' ≤ buf.length := by
  obtain ⟨-, rest, hbytes, rfl⟩ := decodeEntryBytes_eq_some.mp h
  have hlen := congrArg List.length hbytes
  rw [List.length_append, List.length_drop] at hlen
  have hpos : 0 < (encodeEntry e).length := by
    unfold encodeEntry
    rw [List.length_append, length_putU32]
    omega
  have hwidth : buf.length - rest.length - offset = (encodeEntry e).length := by omega
  refine ⟨?_, by omega, by omega⟩
  rw [consumed, hwidth, ← hbytes, List.take_left]

/-- **An accepted entry has one encoding**, the bytes that were consumed. -/
theorem encode_decode (buf : Bytes) (offset offset' : Nat) (e : LedgerEntry)
    (h : decodeEntryBytes buf offset {} = some (e, offset')) :
    (consumed buf offset offset' = encodeEntry e ∧ offset' = offset + (encodeEntry e).length ∧
      offset' ≤ buf.length) ∧
    ∀ buf₂ offset₂ offset₂', decodeEntryBytes buf₂ offset₂ {} = some (e, offset₂') →
      consumed buf₂ offset₂ offset₂' = consumed buf offset offset' := by
  refine ⟨consumed_of_decode h, fun buf₂ offset₂ offset₂' h₂ => ?_⟩
  rw [(consumed_of_decode h).1, (consumed_of_decode h₂).1]

/-- An entry with two participants and a note. -/
def annotatedEntry : LedgerEntry :=
  { id := ⟨1⟩
    shared := some { participants := [⟨⟨7⟩, 1⟩, ⟨⟨8⟩, 2⟩] }
    revisionTarget := some ⟨5⟩
    note := [104, 105] }

theorem encodable_annotatedEntry : Encodable annotatedEntry := by
  refine ⟨fun sh hsh => ?_, by decide⟩
  cases hsh
  decide

theorem decode_encode_annotatedEntry :
    decodeEntryBytes ([0] ++ encodeEntry annotatedEntry ++ [1, 2]) 1 {} =
      some (annotatedEntry, ([0] ++ encodeEntry annotatedEntry).length) :=
  decode_encode annotatedEntry encodable_annotatedEntry [0] [1, 2]

theorem encode_decode_annotatedEntry :
    (consumed (encodeEntry annotatedEntry ++ [1, 2]) 0 (encodeEntry annotatedEntry).length =
        encodeEntry annotatedEntry ∧
      (encodeEntry annotatedEntry).length = 0 + (encodeEntry annotatedEntry).length ∧
      (encodeEntry annotatedEntry).length ≤ (encodeEntry annotatedEntry ++ [1, 2]).length) ∧
    ∀ buf₂ offset₂ offset₂', decodeEntryBytes buf₂ offset₂ {} = some (annotatedEntry, offset₂') →
      consumed buf₂ offset₂ offset₂' =
        consumed (encodeEntry annotatedEntry ++ [1, 2]) 0 (encodeEntry annotatedEntry).length :=
  encode_decode _ 0 _ annotatedEntry (decodeEntryBytes_eq_some.mpr
    ⟨encodable_annotatedEntry, [1, 2], List.drop_zero.symm, by
      rw [List.length_append, Nat.add_sub_cancel]⟩)

/-! ### Records -/

/-- An entry of the account 7 without usage. -/
def plainEntry (id : UInt64) : LedgerEntry :=
  { id := ⟨id⟩, event := EventType.kExecutionProgress, account := ⟨7⟩ }

/-- **Load, then save, is the identity on bytes.** -/
theorem save_load (ord : IterationOrder) (bytes : Bytes) (s s' : EfficiencyLedger)
    (h : loadFromString ord bytes s = .ok ⟨⟩ s') : s'.saveToString = bytes := by
  cases hparse : parseRecord bytes with
  | error f =>
    rw [loadFromString_of_error ord s hparse] at h
    cases h
  | ok r =>
    rw [loadFromString_of_parseRecord ord s hparse] at h
    cases hload : loadHistory ord r.entries (installRecord r s) with
    | error st t =>
      rw [hload] at h
      cases h
    | ok u t =>
      rw [hload] at h
      cases h
      obtain ⟨b, hb, rfl⟩ := rebuilt_of_loadHistory ord hload
      have hrecord : (((installRecord r s).withBooks b).setReplaying false).record = r := by
        obtain ⟨ledgerId, epoch, ledgerGeneration, accountGeneration, entries⟩ := r
        have hhistory : b.history = entries := hb.history
        unfold EfficiencyLedger.record
        rw [← hhistory]
        rfl
      obtain ⟨-, -, hbytes⟩ := parseRecord_ok hparse
      rw [EfficiencyLedger.saveToString, ← payload_record, hrecord]
      exact hbytes

theorem save_load_plain :
    let saved := run default (.fresh kDefaultLedgerId) [.append (plainEntry 1)]
    (loadFromString default saved.saveToString (.fresh ⟨9⟩)).state.saveToString =
      saved.saveToString := by
  intro saved
  refine save_load default saved.saveToString (.fresh ⟨9⟩) _ (EStateM.Result.eq_ok_of_isOk ?_)
  have hhistory : saved.history = [plainEntry 1] := by decide +kernel
  have henc : saved.Encodable := by
    refine ⟨by rw [hhistory]; decide, fun e he => ?_⟩
    rw [hhistory, List.mem_singleton] at he
    rw [he]
    exact ⟨fun sh hsh => (by cases hsh), by decide⟩
  rw [loadFromString_of_parseRecord default _ (parseRecord_saveToString henc)]
  decide +kernel

/-- The structure of the bytes alone has a load turn them away, and it leaves the ledger alone. -/
def Rejected (ord : IterationOrder) (s : EfficiencyLedger) (bytes : Bytes) : Prop :=
  (∃ f, parseUnchecked bytes = .error f) ∧ ∃ f, loadFromString ord bytes s = .error f s

theorem rejected_of_parseUnchecked (ord : IterationOrder) (s : EfficiencyLedger) {bytes : Bytes}
    (h : ∀ r, parseUnchecked bytes ≠ .ok r) : Rejected ord s bytes := by
  have hunchecked : ∃ f, parseUnchecked bytes = .error f := by
    cases hparse : parseUnchecked bytes with
    | error f => exact ⟨f, rfl⟩
    | ok r => exact absurd hparse (h r)
  refine ⟨hunchecked, ?_⟩
  have hparse := parseRecord_eq bytes
  split at hparse
  · exact ⟨_, loadFromString_of_error ord s hparse⟩
  · obtain ⟨f, hf⟩ := hunchecked
    exact ⟨f, loadFromString_of_error ord s (hparse.trans hf)⟩

/-- **A saved record has no accepted cut and no accepted extension**, on any ledger. -/
theorem cut_or_extended_rejected (ord : IterationOrder) (id : LedgerId) (ops : List Op)
    (hnote : ∀ e ∈ (run ord (.fresh id) ops).history, e.note.length < 2 ^ 32)
    (ord' : IterationOrder) (s : EfficiencyLedger) :
    let record := (run ord (.fresh id) ops).saveToString
    (∀ n < record.length, Rejected ord' s (record.take n)) ∧
      ∀ g ≠ [], Rejected ord' s (record ++ g) := by
  intro record
  have hvalid := validate_run ord id ops
  have hwritable : ∀ e ∈ (run ord (.fresh id) ops).record.entries, Writable e :=
    fun e he => ⟨participants_of_validate (hvalid e he), hnote e he⟩
  have hlen := (wf_run ord id ops).length_history_lt hvalid
  have hsame {bytes x y : Bytes} {r : Record} (hparse : parseUnchecked bytes = .ok r)
      (heq : bytes ++ x = record ++ y) : x.length = y.length := by
    obtain ⟨henc, hcount, footer, hfooter, rfl⟩ := parseUnchecked_ok hparse
    have hlt : r.entries.length < 2 ^ 64 := by
      unfold kMaxEntryCount at hcount
      omega
    have hsplit : r.payload ++ (footer ++ x) = (run ord (.fresh id) ops).record.payload ++
        (putU32 (crc32c (run ord (.fresh id) ops).payload) ++ y) := by
      rw [← List.append_assoc, heq, ← List.append_assoc]
      rfl
    have htail := congrArg List.length (payload_inj henc hlt hwritable hlen hsplit).2
    rw [List.length_append, List.length_append, hfooter, length_putU32] at htail
    unfold kFooterLen at htail
    omega
  refine ⟨fun n hn => ?_, fun g hg => ?_⟩
  · apply rejected_of_parseUnchecked ord' s
    intro r hparse
    have hdrop := hsame (x := record.drop n) (y := []) hparse (by simp)
    rw [List.length_drop, List.length_nil] at hdrop
    omega
  · apply rejected_of_parseUnchecked ord' s
    intro r hparse
    have hext := hsame (x := []) (y := g) hparse (List.append_nil _)
    exact hg (List.length_eq_zero_iff.mp hext.symm)

theorem cut_or_extended_rejected_plain :
    let record := (run default (.fresh kDefaultLedgerId) [.append (plainEntry 1)]).saveToString
    (∀ n < record.length, Rejected default (.fresh ⟨9⟩) (record.take n)) ∧
      ∀ g ≠ [], Rejected default (.fresh ⟨9⟩) (record ++ g) :=
  cut_or_extended_rejected default kDefaultLedgerId [.append (plainEntry 1)] (by decide +kernel)
    default (.fresh ⟨9⟩)

end El
