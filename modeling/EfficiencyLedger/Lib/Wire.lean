import Mathlib.Data.List.Basic
import Mathlib.Data.Nat.Bitwise

/-!
# Exact readers of byte strings

Little-endian words (`putLE`, `getLE`) and readers that take a value off the front of a byte string
or fail. `Exact r put Fits` is the whole contract of a format: `r` accepts exactly the strings that
start with `put a` for a value `a` that fits the format, and takes exactly that prefix. It gives the
round trip and the uniqueness of the encoding at once, and has one rule for each way of composing
readers.
-/

universe u

namespace Wire

/-! ### Little-endian words -/

/-- The low `n` bytes of a word, least significant first. -/
def putLE : Nat → Nat → List UInt8
  | 0, _ => []
  | n + 1, v => UInt8.ofNat v :: putLE n (v >>> 8)

def getLE : List UInt8 → Nat
  | [] => 0
  | b :: bs => b.toNat ||| getLE bs <<< 8

@[simp] theorem length_putLE (n v : Nat) : (putLE n v).length = n := by
  induction n generalizing v with
  | zero => rfl
  | succ n ih => rw [putLE, List.length_cons, ih]

theorem getLE_cons (b : UInt8) (bs : List UInt8) :
    getLE (b :: bs) = 2 ^ 8 * getLE bs + b.toNat := by
  have hor := Nat.shiftLeft_add_eq_or_of_lt b.toNat_lt (getLE bs)
  rw [getLE, Nat.or_comm, ← hor, Nat.shiftLeft_eq, Nat.mul_comm]

theorem getLE_lt (bs : List UInt8) : getLE bs < 2 ^ (8 * bs.length) := by
  induction bs with
  | nil => simp [getLE]
  | cons b bs ih =>
    have hb := b.toNat_lt
    rw [getLE_cons, List.length_cons, Nat.mul_succ, Nat.pow_add, Nat.mul_comm (2 ^ (8 * bs.length))]
    calc 2 ^ 8 * getLE bs + b.toNat < 2 ^ 8 * getLE bs + 2 ^ 8 := Nat.add_lt_add_left hb _
      _ = 2 ^ 8 * (getLE bs + 1) := by rw [Nat.mul_succ]
      _ ≤ 2 ^ 8 * 2 ^ (8 * bs.length) := Nat.mul_le_mul_left _ ih

theorem getLE_putLE {n : Nat} : ∀ {v : Nat}, v < 2 ^ (8 * n) → getLE (putLE n v) = v := by
  induction n with
  | zero =>
    intro v h
    have hv : v = 0 := by simpa using h
    simp [putLE, getLE, hv]
  | succ n ih =>
    intro v h
    have hshift : v >>> 8 < 2 ^ (8 * n) := by
      rw [Nat.shiftRight_eq_div_pow]
      apply Nat.div_lt_of_lt_mul
      rwa [← Nat.pow_add, Nat.add_comm, ← Nat.mul_succ]
    have hbyte : (UInt8.ofNat v).toNat = v % 2 ^ 8 := UInt8.toNat_ofNat'
    rw [putLE, getLE_cons, ih hshift, hbyte, Nat.shiftRight_eq_div_pow]
    exact Nat.div_add_mod v (2 ^ 8)

theorem putLE_getLE (bs : List UInt8) : putLE bs.length (getLE bs) = bs := by
  induction bs with
  | nil => rfl
  | cons b bs ih =>
    have hlow : UInt8.ofNat (getLE (b :: bs)) = b := by
      rw [← UInt8.toNat_inj, UInt8.toNat_ofNat', getLE_cons, Nat.mul_add_mod,
        Nat.mod_eq_of_lt b.toNat_lt]
    have hhigh : getLE (b :: bs) >>> 8 = getLE bs := by
      rw [Nat.shiftRight_eq_div_pow, getLE_cons, Nat.mul_add_div (by omega),
        Nat.div_eq_of_lt b.toNat_lt, Nat.add_zero]
    rw [List.length_cons, putLE, hlow, hhigh, ih]

/-! ### Readers -/

/-- A reader takes a value off the front of a byte string, or fails. -/
abbrev Reader := StateT (List UInt8) Option

variable {α β : Type}

/-- `r` accepts exactly the strings `put a ++ rest` for `a` and `rest` that fit, and leaves `rest`. -/
def Reads (r : Reader α) (put : α → List UInt8) (Fits : α → List UInt8 → Prop) : Prop :=
  ∀ bs a rest, r bs = some (a, rest) ↔ Fits a rest ∧ put a ++ rest = bs

/-- `r` accepts exactly the strings that start with `put a` for some `a` that fits, and takes
exactly that prefix. -/
def Exact (r : Reader α) (put : α → List UInt8) (Fits : α → Prop) : Prop :=
  Reads r put fun a _ => Fits a

theorem Exact.eq_some {r : Reader α} {put : α → List UInt8} {Fits : α → Prop} (h : Exact r put Fits)
    {bs rest : List UInt8} {a : α} : r bs = some (a, rest) ↔ Fits a ∧ put a ++ rest = bs :=
  h bs a rest

theorem Exact.cancel {r : Reader α} {put : α → List UInt8} {Fits : α → Prop} (h : Exact r put Fits)
    {a b : α} (ha : Fits a) (hb : Fits b) {x y : List UInt8} (heq : put a ++ x = put b ++ y) :
    a = b ∧ x = y := by
  have hread := h.eq_some.mpr ⟨ha, heq⟩
  rw [h.eq_some.mpr ⟨hb, rfl⟩, Option.some.injEq, Prod.mk.injEq] at hread
  exact ⟨hread.1.symm, hread.2.symm⟩

theorem bind_eq_some {r : Reader α} {f : α → Reader β} {bs : List UInt8} {x : β × List UInt8} :
    (r >>= f) bs = some x ↔ ∃ a rest, r bs = some (a, rest) ∧ f a rest = some x := by
  show Option.bind (r bs) (fun y => f y.1 y.2) = some x ↔ _
  rw [Option.bind_eq_some_iff, Prod.exists]

@[simp] theorem pure_eq_some {a : α} {bs : List UInt8} {x : α × List UInt8} :
    (pure a : Reader α) bs = some x ↔ (a, bs) = x := by
  show some (a, bs) = some x ↔ _
  rw [Option.some.injEq]

@[simp] theorem failure_apply (bs : List UInt8) : (failure : Reader α) bs = none := rfl

@[simp] theorem get_eq_some {bs : List UInt8} {x : List UInt8 × List UInt8} :
    (get : Reader (List UInt8)) bs = some x ↔ (bs, bs) = x := by
  show some (bs, bs) = some x ↔ _
  rw [Option.some.injEq]

@[simp] theorem set_eq_some {bs bs' : List UInt8} {x : PUnit × List UInt8} :
    (set bs' : Reader PUnit) bs = some x ↔ (⟨⟩, bs') = x := by
  show some (_, bs') = some x ↔ _
  rw [Option.some.injEq]

theorem Reads.congr {r : Reader α} {put put' : α → List UInt8} {Fits Fits' : α → List UInt8 → Prop}
    (h : Reads r put Fits) (hput : ∀ a, put a = put' a)
    (hfits : ∀ a rest, Fits a rest ↔ Fits' a rest) : Reads r put' Fits' := by
  intro bs a rest
  rw [h, hput, hfits]

theorem Exact.map {r : Reader α} {put : α → List UInt8} {Fits : α → Prop} (h : Exact r put Fits)
    (f : α → β) (g : β → α) (hgf : ∀ a, Fits a → g (f a) = a) (hfg : ∀ b, f (g b) = b) :
    Exact (f <$> r) (fun b => put (g b)) (fun b => Fits (g b)) := by
  intro bs b rest
  show (r >>= fun a => pure (f a)) bs = some (b, rest) ↔ _
  simp only [bind_eq_some, h.eq_some, pure_eq_some, Prod.mk.injEq]
  constructor
  · rintro ⟨a, rest', ⟨hfits, hbs⟩, rfl, rfl⟩
    rw [hgf a hfits]
    exact ⟨hfits, hbs⟩
  · rintro ⟨hfits, hbs⟩
    exact ⟨g b, rest, ⟨hfits, hbs⟩, hfg b, rfl⟩

/-- A word of `n` bytes. -/
def word (n : Nat) : Reader Nat := fun bs =>
  if bs.length < n then none else some (getLE (bs.take n), bs.drop n)

theorem exact_word (n : Nat) : Exact (word n) (putLE n) (· < 2 ^ (8 * n)) := by
  intro bs v rest
  unfold word
  constructor
  · intro h
    split at h
    · cases h
    · rename_i hlen
      cases h
      have htake : (bs.take n).length = n := by
        rw [List.length_take]
        omega
      refine ⟨?_, ?_⟩
      · have hlt := getLE_lt (bs.take n)
        rwa [htake] at hlt
      · have hput := putLE_getLE (bs.take n)
        rw [htake] at hput
        rw [hput, List.take_append_drop]
  · rintro ⟨hv, rfl⟩
    have htake : (putLE n v ++ rest).take n = putLE n v := by
      rw [List.take_append_of_le_length (by simp), List.take_of_length_le (by simp)]
    have hdrop : (putLE n v ++ rest).drop n = rest := by
      rw [List.drop_append_of_le_length (by simp), List.drop_of_length_le (by simp),
        List.nil_append]
    rw [if_neg (by simp), htake, hdrop, getLE_putLE hv]

def u8 : Reader UInt8 := UInt8.ofNat <$> word 1
def u32 : Reader UInt32 := UInt32.ofNat <$> word 4
def u64 : Reader UInt64 := UInt64.ofNat <$> word 8

def putU8 (v : UInt8) : List UInt8 := putLE 1 v.toNat
def putU32 (v : UInt32) : List UInt8 := putLE 4 v.toNat
def putU64 (v : UInt64) : List UInt8 := putLE 8 v.toNat

theorem u8_eq_some {bs rest : List UInt8} {v : UInt8} :
    u8 bs = some (v, rest) ↔ putU8 v ++ rest = bs := by
  have h := (exact_word 1).map UInt8.ofNat UInt8.toNat (fun n hn => UInt8.toNat_ofNat_of_lt' hn)
    (fun v => UInt8.ofNat_toNat) bs v rest
  exact h.trans (and_iff_right v.toNat_lt)

theorem u32_eq_some {bs rest : List UInt8} {v : UInt32} :
    u32 bs = some (v, rest) ↔ putU32 v ++ rest = bs := by
  have h := (exact_word 4).map UInt32.ofNat UInt32.toNat (fun n hn => UInt32.toNat_ofNat_of_lt' hn)
    (fun v => UInt32.ofNat_toNat) bs v rest
  exact h.trans (and_iff_right v.toNat_lt)

theorem u64_eq_some {bs rest : List UInt8} {v : UInt64} :
    u64 bs = some (v, rest) ↔ putU64 v ++ rest = bs := by
  have h := (exact_word 8).map UInt64.ofNat UInt64.toNat (fun n hn => UInt64.toNat_ofNat_of_lt' hn)
    (fun v => UInt64.ofNat_toNat) bs v rest
  exact h.trans (and_iff_right v.toNat_lt)

theorem length_putU8 (v : UInt8) : (putU8 v).length = 1 := length_putLE 1 _
theorem length_putU32 (v : UInt32) : (putU32 v).length = 4 := length_putLE 4 _
theorem length_putU64 (v : UInt64) : (putU64 v).length = 8 := length_putLE 8 _

theorem exact_u8 : Exact u8 putU8 fun _ => True := by
  intro bs v rest
  rw [u8_eq_some, true_and]

theorem exact_u32 : Exact u32 putU32 fun _ => True := by
  intro bs v rest
  rw [u32_eq_some, true_and]

theorem exact_u64 : Exact u64 putU64 fun _ => True := by
  intro bs v rest
  rw [u64_eq_some, true_and]

/-! ### Records

A record is read field by field. `C` collects what the fields read so far say of the record that
comes out: `Reads.start` begins with nothing, `Reads.field` reads a field, `Reads.done` returns the
record that the fields determine. -/

theorem Reads.start {r : Reader α} {put : α → List UInt8} {Fits : α → List UInt8 → Prop}
    (h : Reads r put fun a rest => True ∧ Fits a rest) : Reads r put Fits := by
  intro bs a rest
  simp only [h bs a rest, true_and]

theorem Reads.field {r : Reader α} {f : α → Reader β} {put₁ : α → List UInt8}
    {put₂ : β → List UInt8} {Fits₁ : α → List UInt8 → Prop} {Fits₂ : β → List UInt8 → Prop}
    {C : β → Prop} (h : Reads r put₁ Fits₁) (proj : β → α)
    (hf : ∀ a, Reads (f a) put₂ fun b rest => (C b ∧ proj b = a) ∧ Fits₂ b rest) :
    Reads (r >>= f) (fun b => put₁ (proj b) ++ put₂ b) fun b rest =>
      C b ∧ Fits₁ (proj b) (put₂ b ++ rest) ∧ Fits₂ b rest := by
  intro bs b rest
  rw [bind_eq_some]
  constructor
  · rintro ⟨a, mid, hr, hrun⟩
    obtain ⟨hfits₁, rfl⟩ := (h bs a mid).mp hr
    obtain ⟨⟨⟨hC, rfl⟩, hfits₂⟩, rfl⟩ := (hf a mid b rest).mp hrun
    exact ⟨⟨hC, hfits₁, hfits₂⟩, List.append_assoc _ _ _⟩
  · rintro ⟨⟨hC, hfits₁, hfits₂⟩, rfl⟩
    refine ⟨proj b, put₂ b ++ rest, ?_, ?_⟩
    · exact (h _ _ _).mpr ⟨hfits₁, (List.append_assoc _ _ _).symm⟩
    · exact (hf _ _ _ _).mpr ⟨⟨⟨hC, rfl⟩, hfits₂⟩, rfl⟩

theorem Reads.done {b : β} {C : β → Prop} (h : ∀ b', C b' ↔ b = b') :
    Reads (pure b) (fun _ => []) fun b' _ => C b' ∧ True := by
  intro bs b' rest
  simp only [pure_eq_some, Prod.mk.injEq, h, and_true, List.nil_append]
  exact and_congr_right fun _ => eq_comm

/-! ### Composition -/

/-- `n` values, one after the other. -/
def many (r : Reader α) : Nat → Reader (List α)
  | 0 => pure []
  | n + 1 => do
    let a ← r
    let as ← many r n
    pure (a :: as)

theorem Exact.many {r : Reader α} {put : α → List UInt8} {Fits : α → Prop} (h : Exact r put Fits)
    (n : Nat) :
    Exact (many r n) (fun l => l.flatMap put) (fun l => l.length = n ∧ ∀ a ∈ l, Fits a) := by
  induction n with
  | zero =>
    intro bs l rest
    simp only [Wire.many, pure_eq_some, Prod.mk.injEq]
    constructor
    · rintro ⟨rfl, rfl⟩
      simp
    · rintro ⟨⟨hlen, -⟩, rfl⟩
      rw [List.length_eq_zero_iff] at hlen
      simp [hlen]
  | succ n ih =>
    intro bs l rest
    simp only [Wire.many, bind_eq_some, h.eq_some, ih.eq_some, pure_eq_some, Prod.mk.injEq]
    constructor
    · rintro ⟨a, bs', ⟨ha, rfl⟩, as, bs'', ⟨⟨hlen, has⟩, rfl⟩, rfl, rfl⟩
      refine ⟨⟨by simp [hlen], ?_⟩, by simp⟩
      intro x hx
      rcases List.mem_cons.mp hx with rfl | hx
      · exact ha
      · exact has x hx
    · rintro ⟨⟨hlen, hall⟩, rfl⟩
      obtain ⟨a, as, rfl⟩ := List.exists_cons_of_length_eq_add_one hlen
      refine ⟨a, as.flatMap put ++ rest, ⟨hall a (by simp), by simp⟩, as, rest,
        ⟨⟨by simpa using hlen, fun x hx => hall x (by simp [hx])⟩, rfl⟩, rfl, rfl⟩

theorem Exact.flatMap_cancel {r : Reader α} {put : α → List UInt8} {Fits : α → Prop}
    (h : Exact r put Fits) (hput : ∀ a, put a ≠ []) {as : List α} (has : ∀ a ∈ as, Fits a) :
    ∀ {bs : List α}, (∀ b ∈ bs, Fits b) → as.flatMap put = bs.flatMap put → as = bs := by
  induction as with
  | nil =>
    intro bs _ heq
    cases bs with
    | nil => rfl
    | cons b bs =>
      rw [List.flatMap_nil, List.flatMap_cons] at heq
      exact absurd (List.append_eq_nil_iff.mp heq.symm).1 (hput b)
  | cons a as ih =>
    intro bs hbs heq
    cases bs with
    | nil =>
      rw [List.flatMap_nil, List.flatMap_cons] at heq
      exact absurd (List.append_eq_nil_iff.mp heq).1 (hput a)
    | cons b bs =>
      rw [List.flatMap_cons, List.flatMap_cons] at heq
      obtain ⟨rfl, htail⟩ := h.cancel (has a (by simp)) (hbs b (by simp)) heq
      rw [ih (fun x hx => has x (by simp [hx])) (fun x hx => hbs x (by simp [hx])) htail]

/-- A presence byte, then the value if it is one; `old` where the byte is zero. -/
def optional (r : Reader α) (old : Option α) : Reader (Option α) := do
  let b ← u8
  if b = 1 then some <$> r
  else if b ≠ 0 then failure
  else pure old

def putOptional (put : α → List UInt8) : Option α → List UInt8
  | none => putU8 0
  | some a => putU8 1 ++ put a

theorem Exact.optional {r : Reader α} {put : α → List UInt8} {Fits : α → Prop}
    (h : Exact r put Fits) :
    Exact (optional r none) (putOptional put) (fun o => ∀ a ∈ o, Fits a) := by
  intro bs o rest
  have hsome (bs' : List UInt8) : (some <$> r) bs' = some (o, rest) ↔
      ∃ a, o = some a ∧ Fits a ∧ put a ++ rest = bs' := by
    show (r >>= fun a => pure (some a)) bs' = some (o, rest) ↔ _
    simp only [bind_eq_some, h.eq_some, pure_eq_some, Prod.mk.injEq]
    constructor
    · rintro ⟨a, rest', hr, rfl, rfl⟩
      exact ⟨a, rfl, hr⟩
    · rintro ⟨a, rfl, hr⟩
      exact ⟨a, rest, hr, rfl, rfl⟩
  simp only [Wire.optional, bind_eq_some, u8_eq_some]
  constructor
  · rintro ⟨b, bs', rfl, hrun⟩
    by_cases hone : b = 1
    · rw [if_pos hone] at hrun
      obtain ⟨a, rfl, hfits, rfl⟩ := (hsome bs').mp hrun
      refine ⟨fun x hx => ?_, by simp [putOptional, hone]⟩
      rwa [← Option.some.inj hx]
    · rw [if_neg hone] at hrun
      by_cases hzero : b = 0
      · rw [if_neg (not_not.mpr hzero), pure_eq_some, Prod.mk.injEq] at hrun
        obtain ⟨rfl, rfl⟩ := hrun
        exact ⟨fun x hx => (by cases hx), by simp [putOptional, hzero]⟩
      · rw [if_pos hzero, failure_apply] at hrun
        cases hrun
  · rintro ⟨hfits, rfl⟩
    cases o with
    | none => exact ⟨0, rest, rfl, by simp⟩
    | some a =>
      refine ⟨1, put a ++ rest, by simp [putOptional], ?_⟩
      rw [if_pos rfl, hsome]
      exact ⟨a, rfl, hfits a rfl, rfl⟩

theorem optional_eq_map (r : Reader α) (old : Option α) :
    optional r old = (fun o => o.or old) <$> optional r none := by
  unfold optional
  rw [map_bind]
  congr 1
  funext b
  by_cases hone : b = 1
  · rw [if_pos hone, if_pos hone, Functor.map_map]
    rfl
  · rw [if_neg hone, if_neg hone]
    by_cases hzero : b = 0
    · rw [if_neg (not_not.mpr hzero), if_neg (not_not.mpr hzero), map_pure, Option.none_or]
    · rw [if_pos hzero, if_pos hzero]
      rfl

theorem map_apply (f : α → β) (r : Reader α) (bs : List UInt8) :
    (f <$> r) bs = (r bs).map fun x => (f x.1, x.2) := by
  show Option.bind (r bs) (fun x => some (f x.1, x.2)) = _
  cases r bs <;> rfl

end Wire
