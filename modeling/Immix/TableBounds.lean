/-
The indexes into the side tables (`src/common/address_map.rs`, `src/objectmodel.rs`, `src/heap/immix/line_mark.rs`),
against the number of entries each table is made with.

The three tables of a space of `size` bytes have `size >> 3`, `ceil(size / 8)` and `size / 256` entries; the addresses that
index them pass only a test on bytes, `start <= a < start + size`.
- `scan_in_bounds_iff`, `tracer_in_bounds_iff`: for which sizes no address that passes the test is out of bounds.
- `side_tables_in_bounds`: both readers, for every size.
- `past_the_tables`: a space with a part of a granule at its end.

The writer and the tracer divide by the size of a pointer, `AddressMap` shifts by `LOG_POINTER_SIZE`, which is 3 on every
target. `PtrWidth` is the target's pointer size, for the two sizes that `stack_scan` has code for.
- `writer_readers_agree`: when the three compute the same index.
- `readers_disagree`: two objects on a target with pointers of 4 bytes.
-/
import Immix.Space

namespace Immix

/-! ## The sizes of the tables -/

/-- the index that `AddressMap::get` and `set` compute -/
def AddressMap.index (m : AddressMap) (addr : ℕ) : ℕ := Address.diff addr m.start >>> logPointerSize

theorem AddressMap.get_index (m : AddressMap) (addr : ℕ) : m.get addr = m.ptr (m.index addr) := rfl

@[simp] theorem AddressMap.index_new (start stop addr : ℕ) : (AddressMap.new start stop).index addr = (addr - start) / 8 :=
  shiftRight_pointer _

@[simp] theorem AddressMap.len_new (start size : ℕ) : (AddressMap.new start (start + size)).len = size / 8 := by
  rw [AddressMap.len, shiftRight_pointer]
  show (start + size - start) / 8 = size / 8
  rw [Nat.add_sub_cancel_left]

@[simp] theorem TraceMap.len_new (start size : ℕ) : (TraceMap.new start (start + size)).len = (size + 7) / 8 := by
  show (start + size - start + 8 - 1) / 8 = (size + 7) / 8
  rw [Nat.add_sub_cancel_left, Nat.add_sub_assoc (by norm_num)]

/-- `is_valid_object` on a word inside the range reads an entry of the map -/
def ScanInBounds (start stop w : ℕ) : Prop := (AddressMap.new start stop).index w < (AddressMap.new start stop).len

/-- the accesses of the tracer for an object at `a`: `mark_as_traced`, `get_ref_byte`, the two stores of
`mark_line_live` -/
structure TracerInBounds (start stop a : ℕ) : Prop where
  traceMap : (a - (TraceMap.new start stop).offset) / pointerSize < (TraceMap.new start stop).len
  allocMap : Address.diff a start / pointerSize < (AddressMap.new start stop).len
  line : (LineMarkTable.new start stop).lineOf a < (LineMarkTable.new start stop).len
  nextLine : (LineMarkTable.new start stop).lineOf a < (LineMarkTable.new start stop).len - 1 →
    (LineMarkTable.new start stop).lineOf a + 1 < (LineMarkTable.new start stop).len

/-- units of `n` bytes: the last byte lies in a whole one exactly when there is no part of one -/
theorem div_lt_iff_dvd {n : ℕ} (hn : 0 < n) (size : ℕ) : (∀ d < size, d / n < size / n) ↔ n ∣ size := by
  constructor
  · intro h
    by_contra hdvd
    have hpos : 0 < size := Nat.pos_of_ne_zero fun h0 => hdvd (by rw [h0]; exact dvd_zero n)
    have hmod : 0 < size % n := Nat.pos_of_ne_zero fun h0 => hdvd (Nat.dvd_of_mod_eq_zero h0)
    have hlast := h (size / n * n) (by have := Nat.div_add_mod' size n; omega)
    rw [Nat.mul_div_cancel _ hn] at hlast
    exact lt_irrefl _ hlast
  · rintro ⟨q, rfl⟩ d hd
    rw [Nat.mul_div_cancel_left q hn]
    exact Nat.div_lt_of_lt_mul hd

theorem scan_in_bounds_iff (start size : ℕ) :
    (∀ w, start ≤ w → w < Address.plus start size → ScanInBounds start (Address.plus start size) w) ↔ 8 ∣ size := by
  rw [← div_lt_iff_dvd (by norm_num)]
  unfold ScanInBounds Address.plus
  simp only [AddressMap.index_new, AddressMap.len_new]
  constructor
  · intro h d hd
    have hw := h (start + d) (Nat.le_add_right _ _) (Nat.add_lt_add_left hd _)
    rwa [Nat.add_sub_cancel_left] at hw
  · intro h w h1 h2
    exact h (w - start) (by omega)

theorem tracer_in_bounds_iff (start size : ℕ) :
    (∀ a, start ≤ a → a < Address.plus start size → TracerInBounds start (Address.plus start size) a) ↔ 256 ∣ size := by
  constructor
  · intro h
    rw [← div_lt_iff_dvd (by norm_num)]
    intro d hd
    have hline := (h (start + d) (Nat.le_add_right _ _) (Nat.add_lt_add_left hd _)).line
    rwa [Address.plus, LineMarkTable.lineOf_new, LineMarkTable.len_new, Nat.add_sub_cancel_left] at hline
  · intro hdvd a h1 h2
    have h8 : 8 ∣ size := Nat.dvd_trans (by norm_num) hdvd
    have hlt : a - start < size := by
      unfold Address.plus at h2
      omega
    have hline := (div_lt_iff_dvd (by norm_num) size).2 hdvd _ hlt
    have halloc := (div_lt_iff_dvd (by norm_num) size).2 h8 _ hlt
    unfold Address.plus
    refine ⟨?_, ?_, ?_, ?_⟩
    · show (a - start) / 8 < _
      rw [TraceMap.len_new]
      omega
    · rw [AddressMap.len_new]
      exact halloc
    · rw [LineMarkTable.lineOf_new, LineMarkTable.len_new]
      exact hline
    · intro hnext
      omega

/-- **Side-table accesses stay in bounds exactly for whole lines.** For every space size: every word that passes the range
test of `is_valid_object` and every address that passes the tracer's assertion index the tables below their lengths, if
and only if the size is a multiple of a line. -/
theorem side_tables_in_bounds (start size : ℕ) :
    ((∀ w, start ≤ w → w < Address.plus start size → ScanInBounds start (Address.plus start size) w) ∧
      ∀ a, start ≤ a → a < Address.plus start size → TracerInBounds start (Address.plus start size) a) ↔
      bytesInLine ∣ size := by
  rw [scan_in_bounds_iff, tracer_in_bounds_iff, bytesInLine_eq, and_iff_right_iff_imp]
  exact Nat.dvd_trans (by norm_num)

/-- a block and four bytes: the first word after the block passes both tests -/
theorem past_the_tables :
    spaceAlign ≤ 589824 ∧ 589824 < Address.plus spaceAlign 65540 ∧
      ¬ ScanInBounds spaceAlign (Address.plus spaceAlign 65540) 589824 ∧
      ¬ TracerInBounds spaceAlign (Address.plus spaceAlign 65540) 589824 := by
  refine ⟨by decide, by decide, ?_, fun h => ?_⟩
  · unfold ScanInBounds
    decide +kernel
  · exact absurd h.line (by decide +kernel)

/-! ## Pointer widths -/

/-- the targets with stack-scanning code: x86_64 and aarch64; x86, arm and riscv32 -/
inductive PtrWidth where
  | eight
  | four
deriving DecidableEq

namespace PtrWidth

/-- `size_of::<*mut ()>()` -/
def pointerSize : PtrWidth → ℕ
  | eight => 8
  | four => 4

/-- `init_object` on the target -/
def initObject (p : PtrWidth) (allocMap : ℕ → UInt8) (spaceStart addr : ℕ) (encode : UInt8) : ℕ → UInt8 :=
  Function.update allocMap (Address.diff addr spaceStart / p.pointerSize) encode

/-- `get_ref_byte` on the target -/
def getRefByte (p : PtrWidth) (allocMap : ℕ → UInt8) (spaceStart obj : ℕ) : UInt8 :=
  allocMap (Address.diff obj spaceStart / p.pointerSize)

theorem initObject_eight : eight.initObject = Immix.initObject := rfl

theorem getRefByte_eight : eight.getRefByte = Immix.getRefByte := rfl

/-- the writer and the two readers on an object at `a`, with another object at `b`, whatever the map holds -/
structure Agree (p : PtrWidth) (start stop a b : ℕ) : Prop where
  inside : Address.diff a start / p.pointerSize < (AddressMap.new start stop).len
  refByte : ∀ m e, p.getRefByte (p.initObject m start a e) start a = e
  get : ∀ m e, (AddressMap.mk start stop (p.initObject m start a e)).get a = e
  other : ∀ m e, p.getRefByte (p.initObject m start b e) start a = p.getRefByte m start a ∧
    (AddressMap.mk start stop (p.initObject m start b e)).get a = (AddressMap.mk start stop m).get a

/-- an object of at least two pointers, aligned to one, inside the space -/
structure Placed (p : PtrWidth) (start stop a len : ℕ) : Prop where
  aligned : p.pointerSize ∣ a
  two : 2 * p.pointerSize ≤ len
  lower : start ≤ a
  upper : a + len ≤ stop

variable {p : PtrWidth} {start stop a b : ℕ}

/-- what `get` reads after a store of `init_object` -/
theorem get_initObject (m : ℕ → UInt8) (c : ℕ) (e : UInt8) :
    (AddressMap.mk start stop (p.initObject m start c e)).get a =
      if (a - start) / 8 = (c - start) / p.pointerSize then e else (AddressMap.mk start stop m).get a := by
  rw [AddressMap.get, AddressMap.get, shiftRight_pointer]
  exact Function.update_apply ..

theorem getRefByte_initObject (m : ℕ → UInt8) (c : ℕ) (e : UInt8) :
    p.getRefByte (p.initObject m start c e) start a =
      if (a - start) / p.pointerSize = (c - start) / p.pointerSize then e else p.getRefByte m start a :=
  Function.update_apply ..

/-- `get` finds what was stored exactly where the two index computations meet -/
theorem get_iff : (∀ m e, (AddressMap.mk start stop (p.initObject m start a e)).get a = e) ↔
    (a - start) / 8 = (a - start) / p.pointerSize := by
  constructor
  · intro h
    by_contra hne
    have hget := h (fun _ => 0) 1
    rw [get_initObject, if_neg hne] at hget
    exact UInt8.zero_ne_one hget
  · intro h m e
    rw [get_initObject, if_pos h]

/-- **Writer and readers agree on 64-bit targets.** For each pointer width, every space and every two objects of at least
two pointers that do not overlap: the byte of one object lies in the map, both readers return it, and `init_object` on
the other changes neither reading, if and only if pointers have 8 bytes or the object is the first of the space. -/
theorem writer_readers_agree (p : PtrWidth) (start size : ℕ) (hstart : spaceAlign ∣ start) (a b la lb : ℕ)
    (ha : p.Placed start (Address.plus start size) a la) (hb : p.Placed start (Address.plus start size) b lb)
    (hab : a + la ≤ b ∨ b + lb ≤ a) :
    p.Agree start (Address.plus start size) a b ↔ p = eight ∨ a = start := by
  rw [spaceAlign_eq] at hstart
  obtain ⟨ha1, ha2, ha3, ha4⟩ := ha
  obtain ⟨hb1, hb2, hb3, hb4⟩ := hb
  unfold Address.plus at ha4 hb4 ⊢
  have hlen : (AddressMap.new start (start + size)).len = size / 8 := AddressMap.len_new start size
  cases p with
  | eight =>
    simp only [pointerSize] at ha1 ha2 hb1 hb2
    refine iff_of_true ⟨?_, fun m e => ?_, get_iff.2 rfl, fun m e => ⟨?_, ?_⟩⟩ (.inl rfl)
    · rw [hlen]
      show (a - start) / 8 < size / 8
      omega
    · rw [getRefByte_initObject, if_pos rfl]
    · rw [getRefByte_initObject, if_neg (by simp only [pointerSize]; omega)]
    · rw [get_initObject, if_neg (by simp only [pointerSize]; omega)]
  | four =>
    simp only [pointerSize] at ha1 ha2 hb1 hb2
    constructor
    · intro h
      have hindex := get_iff.1 h.get
      simp only [pointerSize] at hindex
      exact .inr (by omega)
    · rintro (h | rfl)
      · cases h
      refine ⟨?_, fun m e => ?_, get_iff.2 (by simp), fun m e => ⟨?_, ?_⟩⟩
      · rw [hlen]
        show (a - a) / 4 < size / 8
        omega
      · rw [getRefByte_initObject, if_pos rfl]
      · rw [getRefByte_initObject, if_neg (by simp only [pointerSize]; omega)]
      · rw [get_initObject, if_neg (by simp only [pointerSize]; omega)]

/-- two objects of two words each, on a 64-bit target -/
theorem writer_readers_agree_pair : eight.Agree spaceAlign (Address.plus spaceAlign 65536) 524304 524288 :=
  (writer_readers_agree eight spaceAlign 65536 (dvd_refl _) 524304 524288 16 16
    ⟨by decide, by decide, by decide, by decide⟩ ⟨by decide, by decide, by decide, by decide⟩ (.inr (by decide))).2
    (.inl rfl)

/-- **Pointers of 4 bytes.** The object at offset 8 has its byte at index 2, and the root test reads index 1; an object in
the second half of the space is written past the map. -/
theorem readers_disagree :
    four.Placed spaceAlign (Address.plus spaceAlign 65536) 524296 8 ∧
      four.Placed spaceAlign (Address.plus spaceAlign 65536) 524288 8 ∧
      ¬ four.Agree spaceAlign (Address.plus spaceAlign 65536) 524296 524288 ∧
      (AddressMap.mk spaceAlign (Address.plus spaceAlign 65536)
        (four.initObject (fun _ => 0) spaceAlign 524296 0xC1)).get 524296 = 0 ∧
      ¬ Address.diff 589816 spaceAlign / four.pointerSize <
        (AddressMap.new spaceAlign (Address.plus spaceAlign 65536)).len := by
  refine ⟨⟨by decide, by decide, by decide, by decide⟩, ⟨by decide, by decide, by decide, by decide⟩, fun h => ?_,
    by decide +kernel, by decide +kernel⟩
  have hindex := get_iff.1 h.get
  exact absurd hindex (by decide +kernel)

end PtrWidth

end Immix
