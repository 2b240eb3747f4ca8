/-
Integers of the C program (`c_src/common.h`, `align_up` of `c_src/immix.h`): `Address` is a `uintptr_t` of 64 bits, and
sizes, alignments and line numbers are `int`s.

A `uintptr_t` is a natural number and an `int` an integer. `uintptr` and `toInt` are the conversions; an expression with
a `uintptr_t` in it is computed on the integers and converted.
- `alignUp_eq`: the signed mask of `align_up`, sign-extended, is the unsigned one of `Address::align_up`.
-/
import Immix.Common

namespace Immix.C

/-- an `int` converted to `uintptr_t` -/
def uintptr (z : ℤ) : ℕ := (z % 2 ^ 64).toNat

/-- a `uint64_t` converted to `int` -/
def toInt (n : ℕ) : ℤ := ((n : ℤ) + 2 ^ 31) % 2 ^ 32 - 2 ^ 31

theorem uintptr_of_lt {z : ℤ} (h0 : 0 ≤ z) (h1 : z < 2 ^ 64) : uintptr z = z.toNat := by
  rw [uintptr, Int.emod_eq_of_lt h0 h1]

theorem uintptr_natCast {n : ℕ} (h : n < 2 ^ 64) : uintptr n = n := by
  rw [uintptr_of_lt (Int.natCast_nonneg n) (by exact_mod_cast h), Int.toNat_natCast]

theorem toInt_of_lt {n : ℕ} (h : n < 2 ^ 31) : toInt n = n := by
  unfold toInt
  rw [Int.emod_eq_of_lt (by omega) (by omega)]
  omega

def alignUp (region : ℕ) (align : ℤ) : ℕ := uintptr (region + align - 1) &&& uintptr (~~~(align - 1))

theorem uintptr_not {k : ℕ} (hk : k < 31) : uintptr (~~~((2 ^ k : ℕ) - 1 : ℤ)) = usizeNot (2 ^ k - 1) := by
  have hpow : (2 : ℕ) ^ k < 2 ^ 31 := Nat.pow_lt_pow_right (by norm_num) hk
  have hpos : 0 < (2 : ℕ) ^ k := by positivity
  have hnot : (~~~((2 ^ k : ℕ) - 1 : ℤ)) = -((2 ^ k : ℕ) : ℤ) := by
    obtain ⟨m, hm⟩ : ∃ m, (2 : ℕ) ^ k = m + 1 := Nat.exists_eq_succ_of_ne_zero (Nat.ne_of_gt hpos)
    have hsub : ((m + 1 : ℕ) : ℤ) - 1 = m := by
      push_cast
      ring
    rw [hm, hsub]
    show Int.negSucc m = _
    rw [Int.negSucc_eq]
    push_cast
    rfl
  rw [hnot]
  unfold uintptr usizeNot usize
  generalize (2 : ℕ) ^ k = n at *
  omega

/-- **The two roundings agree**, for alignments an `int` can hold. -/
theorem alignUp_eq {region k : ℕ} (hk : k < 31) (h : region + 2 ^ k ≤ 2 ^ 64) :
    alignUp region (2 ^ k : ℕ) = Address.alignUp region (2 ^ k) := by
  have hpos : 0 < (2 : ℕ) ^ k := by positivity
  have hsum : uintptr ((region : ℤ) + (2 ^ k : ℕ) - 1) = region + 2 ^ k - 1 := by
    rw [uintptr_of_lt (by omega) (by omega)]
    omega
  rw [alignUp, Address.alignUp, hsum, uintptr_not hk]

end Immix.C
