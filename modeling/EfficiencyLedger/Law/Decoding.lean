import EfficiencyLedger.Proof.Codec

/-!
# Decoding into an entry that was used before

The decoder writes into the entry it is given. It overwrites every field that is always written, but
where the bytes leave out an optional field, or the note is empty, what was there stays
(`decodeEntryBytes_over`). So two outcomes of decoding the same bytes are the same exactly where the
entries decoded into agree on what the bytes leave out (`decodesAlike_iff`).
-/

namespace El

open Wire

/-- The entry that comes out where the bytes of `x` are decoded into `old`. -/
def LedgerEntry.over (x old : LedgerEntry) : LedgerEntry :=
  { x with
    avoidedWork := x.avoidedWork.or old.avoidedWork
    strandedCapacity := x.strandedCapacity.or old.strandedCapacity
    shared := x.shared.or old.shared
    revisionTarget := x.revisionTarget.or old.revisionTarget
    note := if x.note = [] then old.note else x.note }

/-- The two entries agree on each field that `x` does not have. -/
structure AgreeWhereAbsent (x e₁ e₂ : LedgerEntry) : Prop where
  avoidedWork : x.avoidedWork = none → e₁.avoidedWork = e₂.avoidedWork
  strandedCapacity : x.strandedCapacity = none → e₁.strandedCapacity = e₂.strandedCapacity
  shared : x.shared = none → e₁.shared = e₂.shared
  revisionTarget : x.revisionTarget = none → e₁.revisionTarget = e₂.revisionTarget
  note : x.note = [] → e₁.note = e₂.note

/-- Both decode, to the same entry, or neither does. -/
def DecodesAlike (buf : Bytes) (offset : Nat) (e₁ e₂ : LedgerEntry) : Prop :=
  (decodeEntryBytes buf offset e₁).map Prod.fst = (decodeEntryBytes buf offset e₂).map Prod.fst

theorem or_eq_or_iff {α : Type} (o a b : Option α) : o.or a = o.or b ↔ (o = none → a = b) := by
  cases o with
  | none => simp
  | some x => simp

theorem over_eq_over_iff (x e₁ e₂ : LedgerEntry) :
    x.over e₁ = x.over e₂ ↔ AgreeWhereAbsent x e₁ e₂ := by
  have hnote : (if x.note = [] then e₁.note else x.note) = (if x.note = [] then e₂.note else x.note) ↔
      (x.note = [] → e₁.note = e₂.note) := by
    by_cases hnil : x.note = []
    · simp [hnil]
    · simp [hnil]
  unfold LedgerEntry.over
  simp only [LedgerEntry.mk.injEq, true_and, or_eq_or_iff, hnote]
  constructor
  · rintro ⟨havoided, hstranded, hshared, htarget, hnote⟩
    exact ⟨havoided, hstranded, hshared, htarget, hnote⟩
  · rintro ⟨havoided, hstranded, hshared, htarget, hnote⟩
    exact ⟨havoided, hstranded, hshared, htarget, hnote⟩

/-! ### What stays of the entry decoded into -/

theorem readNote_over (old : Bytes) :
    readNote old = (fun note => if note = [] then old else note) <$> readNote [] := by
  unfold readNote
  rw [map_bind]
  congr 1
  funext len
  rw [map_bind]
  congr 1
  funext rest
  by_cases hmax : len.toNat > kMaxNoteLength
  · rw [if_pos hmax, if_pos hmax]
    rfl
  rw [if_neg hmax, if_neg hmax]
  by_cases hlen : rest.length ≠ len.toNat
  · rw [if_pos hlen, if_pos hlen]
    rfl
  rw [if_neg hlen, if_neg hlen]
  by_cases hpos : len.toNat > 0
  · have hne : rest ≠ [] := by
      apply List.ne_nil_of_length_pos
      omega
    rw [if_pos hpos, if_pos hpos, map_bind, map_pure, if_neg hne]
  · rw [if_neg hpos, if_neg hpos, map_pure, if_pos rfl]

theorem decodeBody_over (old : LedgerEntry) : decodeBody old = (·.over old) <$> decodeBody {} := by
  unfold decodeBody
  simp only [optional_eq_map readUsage old.avoidedWork, optional_eq_map readUsage old.strandedCapacity,
    optional_eq_map readSharedRef old.shared, optional_eq_map (Identity.mk <$> u64) old.revisionTarget,
    readNote_over old.note, bind_map_left, map_bind, map_pure]
  rfl

theorem decodeEntry_over (old : LedgerEntry) : decodeEntry old = (·.over old) <$> decodeEntry {} := by
  unfold decodeEntry
  rw [map_bind]
  congr 1
  funext len
  rw [map_bind]
  congr 1
  funext rest
  by_cases hmax : len.toNat > kMaxBodyLength
  · rw [if_pos hmax, if_pos hmax]
    rfl
  rw [if_neg hmax, if_neg hmax]
  by_cases hshort : rest.length < len.toNat
  · rw [if_pos hshort, if_pos hshort]
    rfl
  rw [if_neg hshort, if_neg hshort, map_bind, decodeBody_over old, map_apply]
  congr 1
  funext u
  cases decodeBody {} (rest.take len.toNat) with
  | none => rfl
  | some x => rfl

/-- **What decoding leaves**: the entry of the bytes, over the one decoded into. -/
theorem decodeEntryBytes_over (buf : Bytes) (offset : Nat) (old : LedgerEntry) :
    decodeEntryBytes buf offset old =
      (decodeEntryBytes buf offset {}).map fun (x, offset') => (x.over old, offset') := by
  unfold decodeEntryBytes
  rw [decodeEntry_over old, map_apply]
  cases decodeEntry {} (buf.drop offset) <;> rfl

theorem decodesAlike_of_encoded {buf rest : Bytes} {offset : Nat} {x : LedgerEntry}
    (henc : Encodable x) (hbytes : encodeEntry x ++ rest = buf.drop offset) (e₁ e₂ : LedgerEntry) :
    DecodesAlike buf offset e₁ e₂ ↔ AgreeWhereAbsent x e₁ e₂ := by
  have hdecode := decodeEntryBytes_eq_some.mpr ⟨henc, rest, hbytes, rfl⟩
  unfold DecodesAlike
  rw [decodeEntryBytes_over buf offset e₁, decodeEntryBytes_over buf offset e₂, hdecode,
    ← over_eq_over_iff]
  simp only [Option.map_some, Option.some.injEq]

/-- **When the outcome of decoding depends on nothing but the bytes**: exactly where they encode no
entry, or the two entries decoded into agree on what the entry they encode does not have. -/
theorem decodesAlike_iff (buf : Bytes) (offset : Nat) (e₁ e₂ : LedgerEntry) :
    DecodesAlike buf offset e₁ e₂ ↔
      ∀ x rest, Encodable x → encodeEntry x ++ rest = buf.drop offset → AgreeWhereAbsent x e₁ e₂ := by
  constructor
  · intro halike x rest henc hbytes
    exact (decodesAlike_of_encoded henc hbytes e₁ e₂).mp halike
  · intro hagree
    cases hdecode : decodeEntryBytes buf offset {} with
    | none =>
      unfold DecodesAlike
      rw [decodeEntryBytes_over buf offset e₁, decodeEntryBytes_over buf offset e₂, hdecode]
      rfl
    | some y =>
      obtain ⟨x, offset'⟩ := y
      obtain ⟨henc, rest, hbytes, -⟩ := decodeEntryBytes_eq_some.mp hdecode
      exact (decodesAlike_of_encoded henc hbytes e₁ e₂).mpr (hagree x rest henc hbytes)

/-- The note of an entry decoded before stays, where the next one has none. -/
theorem note_left_behind :
    ¬ ∀ (buf : Bytes) (offset : Nat) (e₁ e₂ : LedgerEntry), DecodesAlike buf offset e₁ e₂ := by
  intro h
  let x : LedgerEntry := { id := ⟨1⟩, account := ⟨7⟩ }
  have henc : Encodable x := ⟨fun sh hsh => (by cases hsh), by decide⟩
  have hbytes : encodeEntry x ++ [] = (encodeEntry x).drop 0 := by
    rw [List.append_nil, List.drop_zero]
  have hagree := (decodesAlike_of_encoded henc hbytes {} { note := [0x78] }).mp (h _ _ _ _)
  have hnote : ([] : Bytes) = [0x78] := hagree.note rfl
  cases hnote

end El
