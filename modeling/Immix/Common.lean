/-
Machine words, addresses and layouts (`src/common/mod.rs`, `std::alloc::Layout`, the constants of `heap/immix/mod.rs`).

An address is a natural number. `plus` and `alignUp` are the plain sums of the source: `Layout.fits` and the bound on
a space's end (`Space.user`) keep every sum the allocator forms below 2^64 (`alloc_sums_fit`), so the wraparound of a
`usize` is never reached there. The one subtraction that does wrap, in `SafeAddressMap::get`, is modelled as it wraps.
-/
import Mathlib

namespace Immix

/-- the number of values of a `usize` -/
@[irreducible] def usize : ℕ := 2 ^ 64

/-- bitwise complement of a `usize` -/
@[irreducible] def usizeNot (x : ℕ) : ℕ := usize - 1 - x

def logPointerSize : ℕ := 3
/-- `size_of::<*mut ()>()` -/
def pointerSize : ℕ := 8
def logBytesInLine : ℕ := 8
def bytesInLine : ℕ := 1 <<< logBytesInLine
def logBytesInBlock : ℕ := 16
def bytesInBlock : ℕ := 1 <<< logBytesInBlock
def linesInBlock : ℕ := 1 <<< (logBytesInBlock - logBytesInLine)
def spaceAlign : ℕ := 1 <<< 19

@[simp] theorem pointerSize_eq : pointerSize = 8 := rfl
@[simp] theorem bytesInLine_eq : bytesInLine = 256 := rfl
@[simp] theorem bytesInBlock_eq : bytesInBlock = 65536 := rfl
@[simp] theorem linesInBlock_eq : linesInBlock = 256 := rfl
@[simp] theorem spaceAlign_eq : spaceAlign = 524288 := rfl

/-- `x >> LOG_POINTER_SIZE` -/
theorem shiftRight_pointer (x : ℕ) : x >>> logPointerSize = x / 8 := by
  simp [logPointerSize, Nat.shiftRight_eq_div_pow]

theorem shiftRight_line (x : ℕ) : x >>> logBytesInLine = x / 256 := by
  simp [logBytesInLine, Nat.shiftRight_eq_div_pow]

theorem shiftLeft_line (x : ℕ) : x <<< logBytesInLine = x * 256 := by
  simp [logBytesInLine, Nat.shiftLeft_eq]

def Address.plus (a bytes : ℕ) : ℕ := a + bytes

/-- `a.diff(b)`; the source asserts `b <= a` -/
def Address.diff (a b : ℕ) : ℕ := a - b

def Address.alignUp (a align : ℕ) : ℕ := (a + align - 1) &&& usizeNot (align - 1)

/-- a memory layout as `Layout::from_size_align` accepts it -/
structure Layout where
  size : ℕ
  align : ℕ
  pow : ∃ k, align = 2 ^ k
  /-- the size rounded up to the alignment does not exceed `isize::MAX` -/
  fits : size + align ≤ 2 ^ 63
deriving DecidableEq

theorem Layout.align_pos (l : Layout) : 0 < l.align := by
  obtain ⟨k, hk⟩ := l.pow
  rw [hk]; positivity

/-! ## Rounding up -/

/-- on words of `bits` bits, the mask of an alignment rounds down to a multiple of it -/
theorem and_mask {bits x k : ℕ} (hx : x < 2 ^ bits) (hk : k < bits) :
    x &&& (2 ^ bits - 1 - (2 ^ k - 1)) = x / 2 ^ k * 2 ^ k := by
  have hpow : (2 : ℕ) ^ k < 2 ^ bits := Nat.pow_lt_pow_right (by norm_num) hk
  have hpos : 0 < (2 : ℕ) ^ k := by positivity
  have hnot : 2 ^ bits - 1 - (2 ^ k - 1) = 2 ^ bits - ((2 ^ k - 1) + 1) := by omega
  rw [hnot]
  refine Nat.eq_of_testBit_eq fun i => ?_
  rw [Nat.testBit_and, Nat.testBit_two_pow_sub_succ (by omega), Nat.testBit_two_pow_sub_one, Nat.testBit_mul_two_pow,
    Nat.testBit_div_two_pow]
  by_cases hki : k ≤ i
  · by_cases hi : i < bits
    · have : ¬ i < k := by omega
      simp [hki, hi, this]
    · have hxi : x < 2 ^ i := lt_of_lt_of_le hx (Nat.pow_le_pow_right (by norm_num) (by omega))
      simp [hi, hki, Nat.testBit_lt_two_pow hxi]
  · have : i < k := by omega
    simp [hki, this]

theorem and_usizeNot {x k : ℕ} (hx : x < usize) (hk : k < 64) : x &&& usizeNot (2 ^ k - 1) = x / 2 ^ k * 2 ^ k := by
  unfold usizeNot usize at *
  exact and_mask hx hk

/-- `align_up` rounds up to the next multiple of the alignment -/
theorem alignUp_eq {a k : ℕ} (hk : k < 64) (ha : a + 2 ^ k ≤ usize) :
    Address.alignUp a (2 ^ k) = (a + 2 ^ k - 1) / 2 ^ k * 2 ^ k := by
  have hpos : 0 < (2 : ℕ) ^ k := by positivity
  exact and_usizeNot (by omega) hk

theorem alignUp_bounds {a k : ℕ} (hk : k < 64) (ha : a + 2 ^ k ≤ usize) :
    a ≤ Address.alignUp a (2 ^ k) ∧ Address.alignUp a (2 ^ k) < a + 2 ^ k ∧ 2 ^ k ∣ Address.alignUp a (2 ^ k) := by
  have hpos : 0 < (2 : ℕ) ^ k := by positivity
  rw [alignUp_eq hk ha]
  have hdiv := Nat.div_add_mod' (a + 2 ^ k - 1) (2 ^ k)
  have hmod := Nat.mod_lt (a + 2 ^ k - 1) hpos
  refine ⟨by omega, by omega, Dvd.intro_left _ rfl⟩

theorem Layout.log_lt (l : Layout) {k : ℕ} (hk : l.align = 2 ^ k) : k < 64 := by
  have h := l.fits
  rw [hk] at h
  by_contra hge
  have : (2 : ℕ) ^ 64 ≤ 2 ^ k := Nat.pow_le_pow_right (by norm_num) (by omega)
  omega

/-- for an address in the lower half of the address space, rounding up for a layout behaves as on the integers -/
theorem Layout.alignUp_bounds (l : Layout) {a : ℕ} (ha : a ≤ 2 ^ 63) :
    a ≤ Address.alignUp a l.align ∧ Address.alignUp a l.align < a + l.align ∧ l.align ∣ Address.alignUp a l.align := by
  obtain ⟨k, hk⟩ := l.pow
  have hfits := l.fits
  have hlt := l.log_lt hk
  rw [hk] at hfits ⊢
  refine Immix.alignUp_bounds hlt ?_
  unfold usize
  omega

/-- rounding up leaves an aligned address as it is -/
theorem Layout.alignUp_of_dvd (l : Layout) {a : ℕ} (ha : a ≤ 2 ^ 63) (hdvd : l.align ∣ a) :
    Address.alignUp a l.align = a := by
  obtain ⟨h1, h2, h3⟩ := l.alignUp_bounds ha
  obtain ⟨d, hd⟩ := (Nat.dvd_sub h3 hdvd)
  have hzero : d = 0 := by
    by_contra hne
    have := Nat.le_mul_of_pos_right l.align (Nat.pos_of_ne_zero hne)
    omega
  rw [hzero, Nat.mul_zero] at hd
  omega

/-- **No sum of the allocation fast path wraps** when the cursor is in the lower half of the address space. -/
theorem alloc_sums_fit (l : Layout) {a : ℕ} (ha : a ≤ 2 ^ 63) :
    a + l.align - 1 < usize ∧ Address.plus (Address.alignUp a l.align) l.size < usize := by
  have h := l.alignUp_bounds ha
  have hfits := l.fits
  have hpos := l.align_pos
  unfold usize Address.plus
  omega

example : Address.alignUp 1000 8 = 1000 ∧ Address.alignUp 1001 256 = 1024 := by decide +kernel

end Immix
