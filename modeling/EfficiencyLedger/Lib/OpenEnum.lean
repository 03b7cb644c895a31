import Mathlib.Algebra.Group.Nat.Defs
import Mathlib.Data.List.Basic

/-!
# Enumerations with a fixed underlying integer type

A scoped enumeration whose underlying type is a `w`-bit integer has `2 ^ w` values: the named
enumerators and every other bit pattern, which a cast from a decoded integer can produce.
`OpenEnum w ε` is that type, `ε` being the plain enumeration of the names, numbered from `0`;
`toBits` and `ofBits` are the two casts and are inverse to each other.
-/

/-- The names of an enumeration in the order of their values, which start at `0` and fit in
`w` bits. -/
class Enumerators (w : outParam Nat) (ε : Type) where
  all : List ε
  index : ε → Nat
  all_index : ∀ x, all[index x]? = some x
  map_index : all.map index = List.range all.length
  length_le : all.length ≤ 2 ^ w

/-- A value of the enumeration: a named one, or a bit pattern above the last name. -/
inductive OpenEnum (w : Nat) (ε : Type) [Enumerators w ε] where
  | named (x : ε)
  | unnamed (v : BitVec w) (h : (Enumerators.all (w := w) (ε := ε)).length ≤ v.toNat)
  deriving DecidableEq

namespace OpenEnum

open Enumerators

variable {w : Nat} {ε : Type} [Enumerators w ε]

instance : Coe ε (OpenEnum w ε) := ⟨.named⟩

theorem index_lt (x : ε) : index x < (all (ε := ε)).length := by
  by_contra h
  have hx := all_index x
  rw [List.getElem?_eq_none (by omega)] at hx
  cases hx

theorem index_of_all {i : Nat} {x : ε} (h : (all (ε := ε))[i]? = some x) : index x = i := by
  have hmap := congrArg (·[i]?) (map_index (ε := ε))
  obtain ⟨hi, hx⟩ := List.getElem?_eq_some_iff.mp h
  simpa [hi, hx] using hmap

/-- The cast to the underlying integer. -/
def toBits : OpenEnum w ε → BitVec w
  | .named x => BitVec.ofNat w (index x)
  | .unnamed v _ => v

/-- The cast from the underlying integer. -/
def ofBits (v : BitVec w) : OpenEnum w ε :=
  match h : (all (ε := ε))[v.toNat]? with
  | some x => .named x
  | none => .unnamed v (by simpa using h)

theorem toNat_toBits_named (x : ε) : (toBits (.named x : OpenEnum w ε)).toNat = index x := by
  have := length_le (ε := ε)
  have := index_lt x
  simp only [toBits, BitVec.toNat_ofNat]
  exact Nat.mod_eq_of_lt (by omega)

@[simp] theorem toBits_ofBits (v : BitVec w) : toBits (ofBits v : OpenEnum w ε) = v := by
  unfold ofBits
  split
  · rename_i x h
    apply BitVec.eq_of_toNat_eq
    rw [toNat_toBits_named, index_of_all h]
  · rfl

@[simp] theorem ofBits_toBits (e : OpenEnum w ε) : ofBits e.toBits = e := by
  cases e with
  | named x =>
    unfold ofBits
    split
    · rename_i y h
      rw [toNat_toBits_named, all_index] at h
      cases h
      rfl
    · rename_i h
      rw [toNat_toBits_named, all_index] at h
      cases h
  | unnamed v hv =>
    unfold ofBits
    split
    · rename_i x h
      obtain ⟨hlt, _⟩ := List.getElem?_eq_some_iff.mp h
      simp only [toBits] at hlt
      omega
    · rfl

theorem named_of_toBits_le {e : OpenEnum w ε} {last : ε}
    (hlast : index last + 1 = (all (ε := ε)).length)
    (h : e.toBits ≤ toBits (.named last : OpenEnum w ε)) : ∃ x, e = .named x := by
  cases e with
  | named x => exact ⟨x, rfl⟩
  | unnamed v hv =>
    rw [BitVec.le_def, toNat_toBits_named] at h
    simp only [toBits] at h
    omega

end OpenEnum
