/-
The side tables of a space and the object encoding (`src/common/address_map.rs`, `src/objectmodel.rs`,
`is_valid_object` of `src/heap/gc/mod.rs`).

- `AddressMap`: one byte for each 8-byte granule, behind an unchecked pointer. `initObject` (the mutator), `getRefByte`
  (the tracer) and `AddressMap.get` (the root test) compute the index of an address in three places; each is its
  `granule`.
- `TraceMap`: one byte for each granule, compared with `markState`. `get` subtracts with wraparound;
  `isUntracedAndValid_iff` says what the test means for every 64-bit word.
- `refOffsets`: the slots the tracer scans, for the three patterns it supports.
-/
import Immix.Common

namespace Immix

/-! ## The object encoding -/

def refBitsLen : UInt8 := 6
def objStartBit : UInt8 := 6
def shortEncodeBit : UInt8 := 7

def refBits (value : UInt8) : UInt8 := value &&& ((1 <<< refBitsLen) - 1)
def shortEncode (value : UInt8) : Bool := value &&& (1 <<< shortEncodeBit) != 0
def objStart (value : UInt8) : Bool := value &&& (1 <<< objStartBit) != 0

/-- the offsets of the slots `steal_process_edge!` is given; `none` is the arm that panics -/
def refOffsets (refBits : UInt8) : Option (List ℕ) :=
  if refBits = 0b00000001 then some [0]
  else if refBits = 0b00000011 then some [0, 8]
  else if refBits = 0b00001111 then some [0, 8, 16, 24]
  else none

/-- the tracer gets through an object with this encoding -/
def Supported (value : UInt8) : Prop := (refOffsets (refBits value)).isSome = true ∧ shortEncode value = true

instance (value : UInt8) : Decidable (Supported value) := by unfold Supported; infer_instance

/-- the offsets of the slots an encoding names -/
def slots (value : UInt8) : List ℕ := (refOffsets (refBits value)).getD []

theorem Supported.refOffsets_eq {value : UInt8} (h : Supported value) :
    refOffsets (refBits value) = some (slots value) := by
  obtain ⟨l, hl⟩ := Option.isSome_iff_exists.1 h.1
  simp [slots, hl]

theorem slots_aligned {value : UInt8} {o : ℕ} (h : o ∈ slots value) : 8 ∣ o ∧ o ≤ 24 := by
  unfold slots refOffsets at h
  split_ifs at h <;> simp at h <;> omega

/-! ## The allocation map -/

/-- `AddressMap<u8>`: `ptr` stands for the bytes behind the pointer; those from `len` on are not part of the map -/
structure AddressMap where
  start : ℕ
  stop : ℕ
  ptr : ℕ → UInt8

namespace AddressMap

def new (start stop : ℕ) : AddressMap := ⟨start, stop, fun _ => 0⟩

def len (m : AddressMap) : ℕ := Address.diff m.stop m.start >>> logPointerSize

def set (m : AddressMap) (addr : ℕ) (value : UInt8) : AddressMap :=
  { m with ptr := Function.update m.ptr (Address.diff addr m.start >>> logPointerSize) value }

def get (m : AddressMap) (addr : ℕ) : UInt8 := m.ptr (Address.diff addr m.start >>> logPointerSize)

end AddressMap

/-- `get_ref_byte(alloc_map, space_start, obj)` -/
def getRefByte (allocMap : ℕ → UInt8) (spaceStart obj : ℕ) : UInt8 :=
  allocMap (Address.diff obj spaceStart / pointerSize)

/-- `ImmixMutatorLocal::init_object`, on the mutator's copy of the map's pointer -/
def initObject (allocMap : ℕ → UInt8) (spaceStart addr : ℕ) (encode : UInt8) : ℕ → UInt8 :=
  Function.update allocMap (Address.diff addr spaceStart / pointerSize) encode

def isValidObject (addr start stop : ℕ) (liveMap : AddressMap) : Bool :=
  if stop ≤ addr ∨ addr < start then false else objStart (liveMap.get addr)

/-- the granule an address lies in, counted from `start` -/
def granule (start addr : ℕ) : ℕ := (addr - start) / 8

theorem AddressMap.get_eq (m : AddressMap) (addr : ℕ) : m.get addr = m.ptr (granule m.start addr) := by
  rw [get, shiftRight_pointer]; rfl

/-- what the writer stores is what both readers find, in its granule and nowhere else -/
theorem initObject_apply (m : ℕ → UInt8) (start a : ℕ) (e : UInt8) (g : ℕ) :
    initObject m start a e g = if g = granule start a then e else m g := by
  simp only [initObject, Function.update_apply]; rfl

theorem isValidObject_iff {addr start stop : ℕ} {m : AddressMap} :
    isValidObject addr start stop m = true ↔
      start ≤ addr ∧ addr < stop ∧ objStart (m.ptr (granule m.start addr)) = true := by
  unfold isValidObject
  split_ifs with h
  · simp; omega
  · rw [AddressMap.get_eq]
    have : start ≤ addr ∧ addr < stop := by omega
    simp [this]

/-- two 8-aligned addresses from an 8-aligned start on that lie in one granule are equal -/
theorem granule_inj {start a b : ℕ} (hs : 8 ∣ start) (ha : 8 ∣ a) (hb : 8 ∣ b) (hla : start ≤ a) (hlb : start ≤ b)
    (h : granule start a = granule start b) : a = b := by
  unfold granule at h; omega

/-! ## The trace map -/

/-- `overflowing_sub(..).0` on a `usize` -/
def wrappingSub (a b : ℕ) : ℕ := if b ≤ a then a - b else usize - (b - a)

structure TraceMap where
  offset : ℕ
  len : ℕ
  entries : ℕ → UInt8
  markState : UInt8

namespace TraceMap

/-- `TraceMap::new`: every entry `AtomicU8::default()`, `mark_state` 0 -/
def new (start stop : ℕ) : TraceMap := ⟨start, (stop - start + pointerSize - 1) / pointerSize, fun _ => 0, 0⟩

def normalized (m : TraceMap) (index : ℕ) : ℕ := wrappingSub index m.offset / pointerSize

/-- `SafeAddressMap::get` -/
def get (m : TraceMap) (index : ℕ) : Option UInt8 :=
  if m.normalized index < m.len then some (m.entries (m.normalized index)) else none

def flipMarkState (m : TraceMap) : TraceMap := { m with markState := m.markState ^^^ 1 }

def isTraced (m : TraceMap) (ptr : ℕ) : Bool := m.entries ((ptr - m.offset) / pointerSize) == m.markState

def isUntracedAndValid (m : TraceMap) (ptr : ℕ) : Bool :=
  match m.get ptr with
  | some v => v != m.markState
  | none => false

/-- `IndexMut` of the map, then the store -/
def markAsTraced (m : TraceMap) (ptr : ℕ) : TraceMap :=
  { m with entries := Function.update m.entries ((ptr - m.offset) / pointerSize) m.markState }

/-- the addresses the map has an entry for -/
def InRange (m : TraceMap) (addr : ℕ) : Prop := m.offset ≤ addr ∧ addr < m.offset + 8 * m.len

/-- the map lies inside the 64-bit address space -/
def Fits (m : TraceMap) : Prop := m.offset + 8 * m.len ≤ usize

@[simp] theorem markAsTraced_markState (m : TraceMap) (p : ℕ) : (m.markAsTraced p).markState = m.markState := rfl
@[simp] theorem markAsTraced_offset (m : TraceMap) (p : ℕ) : (m.markAsTraced p).offset = m.offset := rfl
@[simp] theorem markAsTraced_len (m : TraceMap) (p : ℕ) : (m.markAsTraced p).len = m.len := rfl

theorem markAsTraced_entries (m : TraceMap) (p g : ℕ) :
    (m.markAsTraced p).entries g = if g = granule m.offset p then m.markState else m.entries g := by
  simp only [markAsTraced, Function.update_apply]; rfl

@[simp] theorem flipMarkState_entries (m : TraceMap) : m.flipMarkState.entries = m.entries := rfl
@[simp] theorem flipMarkState_offset (m : TraceMap) : m.flipMarkState.offset = m.offset := rfl
@[simp] theorem flipMarkState_len (m : TraceMap) : m.flipMarkState.len = m.len := rfl

/-- a word below the map wraps to an index past its end -/
theorem normalized_lt {m : TraceMap} (hm : m.Fits) {index : ℕ} (hi : index < usize) :
    (m.normalized index < m.len ↔ m.InRange index) ∧ (m.InRange index → m.normalized index = granule m.offset index) := by
  unfold Fits usize at hm
  unfold usize at hi
  unfold InRange granule normalized wrappingSub usize pointerSize
  split_ifs with hlo
  · exact ⟨by omega, fun _ => rfl⟩
  · exact ⟨by omega, by omega⟩

theorem get_eq_some {m : TraceMap} (hm : m.Fits) {index : ℕ} (hi : index < usize) {v : UInt8} :
    m.get index = some v ↔ m.InRange index ∧ m.entries (granule m.offset index) = v := by
  obtain ⟨h1, h2⟩ := normalized_lt hm hi
  unfold get
  by_cases h : m.normalized index < m.len
  · rw [if_pos h, h2 (h1.1 h), Option.some_inj, and_iff_right (h1.1 h)]
  · rw [if_neg h]
    exact iff_of_false nofun fun hr => h (h1.2 hr.1)

/-- **The test the tracer makes on a slot.** It answers true exactly for the words inside the map whose entry differs
from the mark state. -/
theorem isUntracedAndValid_iff {m : TraceMap} (hm : m.Fits) {ptr : ℕ} (hp : ptr < usize) :
    m.isUntracedAndValid ptr = true ↔ m.InRange ptr ∧ m.entries (granule m.offset ptr) ≠ m.markState := by
  unfold isUntracedAndValid
  cases hg : m.get ptr with
  | some v =>
    obtain ⟨h1, h2⟩ := (get_eq_some hm hp).1 hg
    rw [h2, and_iff_right h1]
    exact bne_iff_ne
  | none =>
    refine iff_of_false nofun fun hr => ?_
    have := (get_eq_some hm hp).2 ⟨hr.1, rfl⟩
    rw [hg] at this
    cases this

end TraceMap

end Immix
