import EfficiencyLedger.Model.Codec

/-!
# The entry codec is exact

`exact_decodeEntry`: into a default entry, the decoder accepts exactly the encodings of the entries
within the format's limits (`Encodable`) and reads back the entry that was written.
-/

namespace El

open Wire

section Bytes

variable {ε : Type} [Enumerators 8 ε]

@[simp] theorem ofByte_toByte (x : ByteEnum ε) : ofByte (toByte x) = x := OpenEnum.ofBits_toBits x

@[simp] theorem toByte_ofByte (b : UInt8) : toByte (ofByte b : ByteEnum ε) = b := by
  unfold toByte ofByte
  rw [OpenEnum.toBits_ofBits]

end Bytes

theorem exact_readUsage : Exact readUsage putUsage fun _ => True := by
  have hmap := (exact_u64.many kDimensionCount).map
    (fun vs => (⟨fun d => vs.getD d 0⟩ : ResourceUsage)) (fun u => List.ofFn u.data) ?_ ?_
  · apply Reads.congr hmap (fun u => rfl)
    intro u _
    simp
  · rintro vs ⟨hlen, -⟩
    apply List.ext_getElem (by rw [List.length_ofFn, hlen])
    intro i hi hi'
    rw [List.getElem_ofFn]
    show vs.getD i 0 = vs[i]
    rw [List.getD_eq_getElem?_getD, List.getElem?_eq_getElem hi',
      Option.getD_some]
  · rintro ⟨data⟩
    refine congrArg ResourceUsage.mk (funext fun d => ?_)
    rw [List.getD_eq_getElem?_getD, List.getElem?_ofFn, dif_pos d.isLt, Option.getD_some]

theorem exact_readParticipant :
    Exact readParticipant (fun p => putU64 p.account.value ++ putU64 p.weight) fun _ => True := by
  intro bs p rest
  simp only [readParticipant, bind_eq_some, u64_eq_some, pure_eq_some, Prod.mk.injEq, true_and]
  constructor
  · rintro ⟨acc, bs₁, rfl, w, bs₂, rfl, rfl, rfl⟩
    simp
  · rintro rfl
    exact ⟨_, _, (List.append_assoc _ _ _).symm, _, _, rfl, rfl, rfl⟩

theorem exact_readSharedRef : Exact readSharedRef putSharedRef
    fun sh => sh.participants.length ≤ kMaxSharedParticipants := by
  intro bs sh rest
  simp only [readSharedRef, bind_eq_some, u8_eq_some, u32_eq_some]
  constructor
  · rintro ⟨pol, bs₁, rfl, n, bs₂, rfl, hrun⟩
    by_cases hn : n.toNat > kMaxSharedParticipants
    · rw [if_pos hn] at hrun
      cases hrun
    · rw [if_neg hn] at hrun
      simp only [bind_eq_some, (exact_readParticipant.many n.toNat).eq_some, pure_eq_some,
        Prod.mk.injEq] at hrun
      obtain ⟨ps, bs₃, ⟨⟨hlen, -⟩, rfl⟩, rfl, rfl⟩ := hrun
      refine ⟨by simp only [hlen]; omega, ?_⟩
      simp [putSharedRef, hlen]
  · rintro ⟨hlen, rfl⟩
    have hlt : sh.participants.length < 2 ^ 32 := by
      unfold kMaxSharedParticipants at hlen
      omega
    have hn : (UInt32.ofNat sh.participants.length).toNat = sh.participants.length :=
      UInt32.toNat_ofNat_of_lt' hlt
    simp only [putSharedRef, List.append_assoc]
    refine ⟨_, _, rfl, _, _, rfl, ?_⟩
    rw [hn, if_neg (by omega)]
    simp only [bind_eq_some, (exact_readParticipant.many _).eq_some, pure_eq_some, Prod.mk.injEq]
    exact ⟨sh.participants, rest, ⟨⟨rfl, fun _ _ => trivial⟩, rfl⟩, by simp, rfl⟩

theorem exact_readFences : Exact readFences putFences fun _ => True := by
  unfold readFences
  refine Reads.congr (.start <| exact_u64.field (fun f : AuthorityFences => f.epoch.value) fun _ =>
    exact_u64.field (fun f : AuthorityFences => f.workerBoot.value) fun _ =>
    exact_u64.field (fun f : AuthorityFences => f.ledgerGeneration.value) fun _ =>
    exact_u64.field (fun f : AuthorityFences => f.accountGeneration.value) fun _ =>
    exact_u64.field (fun f : AuthorityFences => f.workloadGeneration.value) fun _ =>
    exact_u64.field (fun f : AuthorityFences => f.resourceGeneration.value) fun _ =>
    exact_u64.field (fun f : AuthorityFences => f.reservationGeneration.value) fun _ =>
    exact_u64.field (fun f : AuthorityFences => f.allocationGeneration.value) fun _ =>
    exact_u64.field (fun f : AuthorityFences => f.transferGeneration.value) fun _ =>
    exact_u64.field (fun f : AuthorityFences => f.recoveryGeneration.value) fun _ =>
    exact_u64.field (fun f : AuthorityFences => f.cacheGeneration.value) fun _ =>
    exact_u64.field (fun f : AuthorityFences => f.evidenceGeneration.value) fun _ =>
    exact_u64.field (fun f : AuthorityFences => f.accountingGeneration.value) fun _ =>
    exact_u64.field (fun f : AuthorityFences => f.publication.value) fun _ => .done fun f => ⟨?_, ?_⟩) ?_ ?_
  · rintro ⟨⟨⟨⟨⟨⟨⟨⟨⟨⟨⟨⟨⟨⟨-, rfl⟩, rfl⟩, rfl⟩, rfl⟩, rfl⟩, rfl⟩, rfl⟩, rfl⟩, rfl⟩, rfl⟩, rfl⟩, rfl⟩, rfl⟩,
      rfl⟩
    rfl
  · rintro rfl
    simp only [and_self]
  · intro f
    unfold putFences
    simp only [List.append_assoc, List.append_nil]
  · intro f rest
    simp only [and_self]

theorem exact_readOwners : Exact readOwners putOwners fun _ => True := by
  unfold readOwners
  refine Reads.congr (.start <| exact_u64.field (fun o : Owners => o.resource.value) fun _ =>
    exact_u64.field (fun o : Owners => o.transfer.value) fun _ =>
    exact_u64.field (fun o : Owners => o.reservation.value) fun _ =>
    exact_u64.field (fun o : Owners => o.allocation.value) fun _ =>
    exact_u64.field (fun o : Owners => o.recovery.value) fun _ =>
    exact_u64.field (fun o : Owners => o.cacheObject.value) fun _ =>
    exact_u64.field (fun o : Owners => o.device.value) fun _ =>
    exact_u64.field (fun o : Owners => o.request.value) fun _ =>
    exact_u64.field (fun o : Owners => o.workload.value) fun _ =>
    exact_u64.field (fun o : Owners => o.job.value) fun _ =>
    exact_u64.field (fun o : Owners => o.service.value) fun _ => .done fun o => ⟨?_, ?_⟩) ?_ ?_
  · rintro ⟨⟨⟨⟨⟨⟨⟨⟨⟨⟨⟨-, rfl⟩, rfl⟩, rfl⟩, rfl⟩, rfl⟩, rfl⟩, rfl⟩, rfl⟩, rfl⟩, rfl⟩, rfl⟩
    rfl
  · rintro rfl
    simp only [and_self]
  · intro o
    unfold putOwners
    simp only [List.append_assoc, List.append_nil]
  · intro o rest
    simp only [and_self]

theorem exact_readTarget :
    Exact (Identity.mk <$> u64 : Reader AccountingEntryId) (fun t => putU64 t.value) fun _ => True :=
  exact_u64.map Identity.mk Identity.value (fun _ _ => rfl) fun _ => rfl

theorem reads_readNote : Reads (readNote [])
    (fun note => putU32 (UInt32.ofNat note.length) ++ note)
    fun note rest => note.length ≤ kMaxNoteLength ∧ rest = [] := by
  intro bs note rest
  simp only [readNote, bind_eq_some, u32_eq_some, get_eq_some, Prod.mk.injEq]
  constructor
  · rintro ⟨len, bs₁, rfl, bs₂, bs₃, ⟨rfl, rfl⟩, hrun⟩
    by_cases hmax : len.toNat > kMaxNoteLength
    · rw [if_pos hmax] at hrun
      cases hrun
    rw [if_neg hmax] at hrun
    by_cases hlen : bs₁.length = len.toNat
    swap
    · rw [if_pos hlen] at hrun
      cases hrun
    rw [if_neg (not_not.mpr hlen)] at hrun
    by_cases hpos : len.toNat > 0
    · rw [if_pos hpos] at hrun
      simp only [bind_eq_some, set_eq_some, pure_eq_some, Prod.mk.injEq] at hrun
      obtain ⟨u, bs₄, ⟨-, rfl⟩, rfl, rfl⟩ := hrun
      refine ⟨⟨by omega, rfl⟩, ?_⟩
      rw [hlen, UInt32.ofNat_toNat, List.append_nil]
    · rw [if_neg hpos] at hrun
      simp only [pure_eq_some, Prod.mk.injEq] at hrun
      obtain ⟨rfl, rfl⟩ := hrun
      have hzero : len.toNat = 0 := by omega
      have hnil : bs₁ = [] := List.length_eq_zero_iff.mp (hlen.trans hzero)
      refine ⟨⟨Nat.zero_le _, hnil⟩, ?_⟩
      rw [hnil, List.length_nil, ← hzero, UInt32.ofNat_toNat, List.append_nil]
  · rintro ⟨⟨hmax, rfl⟩, rfl⟩
    have hlen : (UInt32.ofNat note.length).toNat = note.length := by
      refine UInt32.toNat_ofNat_of_lt' (lt_of_le_of_lt hmax ?_)
      unfold kMaxNoteLength
      decide
    refine ⟨_, note, (List.append_nil _).symm, note, note, ⟨rfl, rfl⟩, ?_⟩
    rw [hlen, if_neg (by omega), if_neg (not_not.mpr rfl)]
    by_cases hpos : note.length > 0
    · rw [if_pos hpos]
      simp only [bind_eq_some, set_eq_some, pure_eq_some, Prod.mk.injEq]
      exact ⟨⟨⟩, [], ⟨trivial, rfl⟩, trivial, rfl⟩
    · have hnil : note = [] := List.length_eq_zero_iff.mp (by omega)
      rw [if_neg hpos]
      simp [hnil]

/-- The entry is within the limits of the binary form. -/
structure Encodable (e : LedgerEntry) : Prop where
  participants : ∀ sh ∈ e.shared, sh.participants.length ≤ kMaxSharedParticipants
  note : e.note.length ≤ kMaxNoteLength

theorem reads_decodeBody :
    Reads (decodeBody {}) encodeBody fun e rest => Encodable e ∧ rest = [] := by
  unfold decodeBody
  refine Reads.congr (.start <| exact_u64.field (fun e : LedgerEntry => e.id.value) fun _ =>
    exact_u8.field (fun e : LedgerEntry => toByte e.event) fun _ =>
    exact_u8.field (fun e : LedgerEntry => toByte e.classification) fun _ =>
    exact_u8.field (fun e : LedgerEntry => toByte e.subcategory.useful) fun _ =>
    exact_u8.field (fun e : LedgerEntry => toByte e.subcategory.overhead) fun _ =>
    exact_u8.field (fun e : LedgerEntry => toByte e.subcategory.waste) fun _ =>
    exact_u8.field (fun e : LedgerEntry => toByte e.subcategory.avoided) fun _ =>
    exact_u8.field (fun e : LedgerEntry => toByte e.subcategory.stranded) fun _ =>
    exact_readUsage.field (fun e : LedgerEntry => e.usage) fun _ =>
    exact_readUsage.optional.field (fun e : LedgerEntry => e.avoidedWork) fun _ =>
    exact_readUsage.optional.field (fun e : LedgerEntry => e.strandedCapacity) fun _ =>
    exact_u8.field (fun e : LedgerEntry => toByte e.provenance) fun _ =>
    exact_u8.field (fun e : LedgerEntry => toByte e.freshness) fun _ =>
    exact_u64.field (fun e : LedgerEntry => e.account.value) fun _ =>
    exact_readSharedRef.optional.field (fun e : LedgerEntry => e.shared) fun _ =>
    exact_readFences.field (fun e : LedgerEntry => e.fences) fun _ =>
    exact_readOwners.field (fun e : LedgerEntry => e.owners) fun _ =>
    exact_u64.field (fun e : LedgerEntry => e.attempt.id.value) fun _ =>
    exact_u64.field (fun e : LedgerEntry => e.attempt.generation.value) fun _ =>
    exact_u8.field (fun e : LedgerEntry => toByte e.attemptOutcome) fun _ =>
    exact_readTarget.optional.field (fun e : LedgerEntry => e.revisionTarget) fun _ =>
    reads_readNote.field (fun e : LedgerEntry => e.note) fun _ => .done fun e => ⟨?_, ?_⟩) ?_ ?_
  · rintro ⟨⟨⟨⟨⟨⟨⟨⟨⟨⟨⟨⟨⟨⟨⟨⟨⟨⟨⟨⟨⟨⟨-, rfl⟩, rfl⟩, rfl⟩, rfl⟩, rfl⟩, rfl⟩, rfl⟩, rfl⟩, rfl⟩, rfl⟩, rfl⟩, rfl⟩,
      rfl⟩, rfl⟩, rfl⟩, rfl⟩, rfl⟩, rfl⟩, rfl⟩, rfl⟩, rfl⟩, rfl⟩
    simp only [ofByte_toByte]
  · rintro rfl
    simp only [toByte_ofByte, and_self]
  · intro e
    unfold encodeBody
    simp only [List.append_assoc, List.append_nil]
  · intro e rest
    simp only [implies_true, true_and, and_true, List.nil_append]
    exact ⟨fun h => ⟨⟨h.1, h.2.1⟩, h.2.2⟩, fun h => ⟨h.1.participants, h.1.note, h.2⟩⟩

/-! ### The length prefix -/

theorem length_flatMap_const {α : Type} {f : α → Bytes} {n : Nat} (h : ∀ a, (f a).length = n)
    (l : List α) : (l.flatMap f).length = l.length * n := by
  induction l with
  | nil => simp
  | cons a l ih => rw [List.flatMap_cons, List.length_append, ih, h, List.length_cons, Nat.succ_mul,
      Nat.add_comm]

theorem length_putUsage (u : ResourceUsage) : (putUsage u).length = 128 := by
  rw [putUsage, length_flatMap_const length_putU64, List.length_ofFn, kDimensionCount]

theorem length_putOptional_le {α : Type} {put : α → Bytes} {n : Nat} {o : Option α}
    (h : ∀ a ∈ o, (put a).length ≤ n) : (putOptional put o).length ≤ n + 1 := by
  cases o with
  | none =>
    rw [putOptional, length_putU8]
    omega
  | some a =>
    have := h a rfl
    rw [putOptional, List.length_append, length_putU8]
    omega

theorem length_putSharedRef (sh : SharedRef) :
    (putSharedRef sh).length = 5 + sh.participants.length * 16 := by
  have hpair (p : SharedParticipant) :
      (putU64 p.account.value ++ putU64 p.weight).length = 16 := by
    rw [List.length_append, length_putU64, length_putU64]
  rw [putSharedRef, List.length_append, List.length_append, length_putU8, length_putU32,
    length_flatMap_const hpair]

theorem length_encodeBody_le_note {e : LedgerEntry} (h : Encodable e) :
    (encodeBody e).length ≤ 2 ^ 17 + e.note.length := by
  have havoided : (putOptional putUsage e.avoidedWork).length ≤ 129 :=
    length_putOptional_le fun u _ => le_of_eq (length_putUsage u)
  have hstranded : (putOptional putUsage e.strandedCapacity).length ≤ 129 :=
    length_putOptional_le fun u _ => le_of_eq (length_putUsage u)
  have hshared : (putOptional putSharedRef e.shared).length ≤ 65542 := by
    apply length_putOptional_le
    intro sh hsh
    have := h.participants sh hsh
    unfold kMaxSharedParticipants at this
    rw [length_putSharedRef]
    omega
  have htarget : (putOptional (fun t => putU64 t.value) e.revisionTarget).length ≤ 9 :=
    length_putOptional_le fun t _ => le_of_eq (length_putU64 _)
  unfold encodeBody putFences putOwners
  simp only [List.length_append, length_putU8, length_putU32, length_putU64, length_putUsage]
  omega

theorem length_encodeBody_le {e : LedgerEntry} (h : Encodable e) :
    (encodeBody e).length ≤ kMaxBodyLength := by
  have hbody := length_encodeBody_le_note h
  have hnote := h.note
  unfold kMaxNoteLength at hnote
  unfold kMaxBodyLength
  omega

/-- **The entry codec is exact**: the decoder accepts the encodings of the entries within the
limits, and nothing else. -/
theorem exact_decodeEntry : Exact (decodeEntry {}) encodeEntry Encodable := by
  intro bs e rest
  simp only [decodeEntry, bind_eq_some, u32_eq_some, get_eq_some, Prod.mk.injEq]
  constructor
  · rintro ⟨len, bs₁, rfl, bs₂, bs₃, ⟨rfl, rfl⟩, hrun⟩
    by_cases hmax : len.toNat > kMaxBodyLength
    · rw [if_pos hmax] at hrun
      cases hrun
    rw [if_neg hmax] at hrun
    by_cases hshort : bs₁.length < len.toNat
    · rw [if_pos hshort] at hrun
      cases hrun
    rw [if_neg hshort] at hrun
    simp only [bind_eq_some, set_eq_some, Prod.mk.injEq] at hrun
    obtain ⟨u, bs₄, ⟨-, rfl⟩, hrun⟩ := hrun
    cases hbody : decodeBody {} (bs₁.take len.toNat) with
    | none =>
      rw [hbody] at hrun
      cases hrun
    | some x =>
      obtain ⟨e', tail⟩ := x
      rw [hbody] at hrun
      simp only [pure_eq_some, Prod.mk.injEq] at hrun
      obtain ⟨rfl, rfl⟩ := hrun
      obtain ⟨⟨henc, rfl⟩, hbytes⟩ := (reads_decodeBody _ _ _).mp hbody
      rw [List.append_nil] at hbytes
      have hlen : (encodeBody e').length = len.toNat := by
        rw [hbytes, List.length_take]
        omega
      refine ⟨henc, ?_⟩
      rw [encodeEntry, List.append_assoc, hlen, UInt32.ofNat_toNat, hbytes,
        List.take_append_drop]
  · rintro ⟨henc, rfl⟩
    have hle := length_encodeBody_le henc
    have hlen : (UInt32.ofNat (encodeBody e).length).toNat = (encodeBody e).length := by
      refine UInt32.toNat_ofNat_of_lt' (lt_of_le_of_lt hle ?_)
      unfold kMaxBodyLength
      decide
    refine ⟨_, encodeBody e ++ rest, (List.append_assoc _ _ _).symm, _, _, ⟨rfl, rfl⟩, ?_⟩
    rw [hlen, if_neg (by omega), if_neg (by simp)]
    simp only [bind_eq_some, set_eq_some, Prod.mk.injEq]
    refine ⟨⟨⟩, _, ⟨trivial, rfl⟩, ?_⟩
    rw [List.take_left, (reads_decodeBody _ _ _).mpr ⟨⟨henc, rfl⟩, List.append_nil _⟩, List.drop_left]
    rfl

/-! ### Where an encoding ends -/

/-- The lengths of participants and note fit their fields; the note may be longer than the decoder
accepts. -/
structure Writable (e : LedgerEntry) : Prop where
  participants : ∀ sh ∈ e.shared, sh.participants.length ≤ kMaxSharedParticipants
  note : e.note.length < 2 ^ 32

theorem Encodable.writable {e : LedgerEntry} (h : Encodable e) : Writable e := by
  refine ⟨h.participants, lt_of_le_of_lt h.note ?_⟩
  unfold kMaxNoteLength
  decide

theorem encodeBody_note {e h : LedgerEntry} (he : Writable e) (hh : Writable h) {x y : Bytes}
    (heq : encodeBody e ++ x = encodeBody h ++ y) : e.note.length = h.note.length := by
  unfold encodeBody at heq
  simp only [List.append_assoc] at heq
  replace heq := (exact_u64.cancel trivial trivial heq).2
  replace heq := (exact_u8.cancel trivial trivial heq).2
  replace heq := (exact_u8.cancel trivial trivial heq).2
  replace heq := (exact_u8.cancel trivial trivial heq).2
  replace heq := (exact_u8.cancel trivial trivial heq).2
  replace heq := (exact_u8.cancel trivial trivial heq).2
  replace heq := (exact_u8.cancel trivial trivial heq).2
  replace heq := (exact_u8.cancel trivial trivial heq).2
  replace heq := (exact_readUsage.cancel trivial trivial heq).2
  replace heq := (exact_readUsage.optional.cancel (fun _ _ => trivial) (fun _ _ => trivial) heq).2
  replace heq := (exact_readUsage.optional.cancel (fun _ _ => trivial) (fun _ _ => trivial) heq).2
  replace heq := (exact_u8.cancel trivial trivial heq).2
  replace heq := (exact_u8.cancel trivial trivial heq).2
  replace heq := (exact_u64.cancel trivial trivial heq).2
  replace heq := (exact_readSharedRef.optional.cancel he.participants hh.participants heq).2
  replace heq := (exact_readFences.cancel trivial trivial heq).2
  replace heq := (exact_readOwners.cancel trivial trivial heq).2
  replace heq := (exact_u64.cancel trivial trivial heq).2
  replace heq := (exact_u64.cancel trivial trivial heq).2
  replace heq := (exact_u8.cancel trivial trivial heq).2
  replace heq := (exact_readTarget.optional.cancel (fun _ _ => trivial) (fun _ _ => trivial) heq).2
  have hlen := congrArg UInt32.toNat (exact_u32.cancel trivial trivial heq).1
  rwa [UInt32.toNat_ofNat_of_lt' he.note, UInt32.toNat_ofNat_of_lt' hh.note] at hlen

theorem encodeEntry_inj {e h : LedgerEntry} (he : Encodable e) (hh : Writable h) {x y : Bytes}
    (heq : encodeEntry e ++ x = encodeEntry h ++ y) : e = h ∧ x = y := by
  have hbody : encodeBody e ++ x = encodeBody h ++ y := by
    unfold encodeEntry at heq
    simp only [List.append_assoc] at heq
    exact (exact_u32.cancel trivial trivial heq).2
  have hnote := encodeBody_note he.writable hh hbody
  exact exact_decodeEntry.cancel he ⟨hh.participants, hnote ▸ he.note⟩ heq

theorem flatMap_encodeEntry_inj {es : List LedgerEntry} (hes : ∀ e ∈ es, Encodable e) :
    ∀ {hs : List LedgerEntry}, (∀ h ∈ hs, Writable h) → es.length = hs.length → ∀ {x y : Bytes},
      es.flatMap encodeEntry ++ x = hs.flatMap encodeEntry ++ y → es = hs ∧ x = y := by
  induction es with
  | nil =>
    intro hs _ hlen x y heq
    obtain rfl := List.length_eq_zero_iff.mp hlen.symm
    exact ⟨rfl, heq⟩
  | cons e es ih =>
    intro hs hhs hlen x y heq
    obtain ⟨h, hs, rfl⟩ := List.exists_cons_of_length_eq_add_one hlen.symm
    simp only [List.flatMap_cons, List.append_assoc] at heq
    obtain ⟨rfl, htail⟩ := encodeEntry_inj (hes e (by simp)) (hhs h (by simp)) heq
    obtain ⟨rfl, hxy⟩ := ih (fun x hx => hes x (by simp [hx])) (fun x hx => hhs x (by simp [hx]))
      (by simpa using hlen) htail
    exact ⟨rfl, hxy⟩

theorem decodeEntryBytes_eq_some {buf : Bytes} {offset offset' : Nat} {e : LedgerEntry} :
    decodeEntryBytes buf offset {} = some (e, offset') ↔
      Encodable e ∧ ∃ rest, encodeEntry e ++ rest = buf.drop offset ∧
        offset' = buf.length - rest.length := by
  unfold decodeEntryBytes
  rw [Option.map_eq_some_iff]
  constructor
  · rintro ⟨⟨e', rest⟩, hdecode, hpair⟩
    cases hpair
    obtain ⟨henc, hbytes⟩ := exact_decodeEntry.eq_some.mp hdecode
    exact ⟨henc, rest, hbytes, rfl⟩
  · rintro ⟨henc, rest, hbytes, rfl⟩
    exact ⟨(e, rest), exact_decodeEntry.eq_some.mpr ⟨henc, hbytes⟩, rfl⟩

end El
