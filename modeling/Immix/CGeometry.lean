/-
Where the blocks of the C program lie (`init_blocks` and `ImmixSpace_new` of `c_src/immix_space.c`,
`ImmixMutatorLocal_try_alloc_from_local` of `c_src/immix_mutator.c`).

`mmap` maps whole pages: the mapped region is the length rounded up to 4096 bytes.
- `hole_in_block`, `allocs_in_hole`: the bytes a hole clears, the lines it marks and what is allocated in it stay inside
  its block, wherever the block lies.
- `in_bounds_iff`: the blocks stay inside the mapping, the space and the table if and only if both the mapping and its
  size are multiples of a block.
- `blocks_leave_mapping`: the default size on a page, and a size of no whole blocks.
-/
import Immix.CBlocks

namespace Immix.C

/-! ## A hole -/

/-- the bytes that `try_alloc_from_local` clears and makes its bump region, and the lines it marks -/
structure Hole where
  cursor : ℕ
  limit : ℕ
  first : ℤ
  last : ℤ

/-- the hole of `try_alloc_from_local`; `none` when it calls `alloc_from_global` -/
def hole (b : ImmixBlock) (t : ℕ → LineMark) (line : ℕ) : Option Hole :=
  let nextAvailableLine := b.getNextAvaiableLine t (toInt line)
  if nextAvailableLine ≠ -1 then
    let endLine := b.getNextUnavailableLine t nextAvailableLine
    some ⟨uintptr (b.start + nextAvailableLine <<< logBytesInLine), uintptr (b.start + endLine <<< logBytesInLine),
      nextAvailableLine, endLine⟩
  else none

/-- the slow path of `alloc` takes this hole -/
theorem alloc_hole {x : ImmixMutatorLocal} {b : ImmixBlock} {t : ℕ → LineMark} {size align : ℤ} {fuel : ℕ}
    (hbump : x.bump size align = none) (hline : x.line < linesInBlock) (hb : x.block = some b) :
    ImmixMutatorLocal.alloc size align (fuel + 1) (x, t) =
      match hole b t x.line with
      | some h => ImmixMutatorLocal.alloc size align fuel
          (⟨h.cursor, h.limit, uintptr h.last, some b⟩, ImmixMutatorLocal.freshen b t h.first h.last)
      | none => some (.allocFromGlobal (x, t)) := by
  rw [ImmixMutatorLocal.alloc, hbump]
  dsimp only
  rw [if_pos hline, hb]
  unfold hole
  dsimp only
  split_ifs <;> rfl

/-- the allocations that a bump region serves until one does not fit: addresses and sizes -/
def ImmixMutatorLocal.allocs : ImmixMutatorLocal → List Request → List (ℕ × ℕ)
  | _, [] => []
  | x, r :: requests =>
    match x.bump r.size r.align with
    | none => []
    | some (a, x) => (a, r.size) :: x.allocs requests

section Hole

variable {b : ImmixBlock} {t : ℕ → LineMark}

theorem nextAvailableFrom_bounds (fuel : ℕ) {i : ℤ} (h : b.nextAvailableFrom t fuel i ≠ -1) :
    i ≤ b.nextAvailableFrom t fuel i ∧ b.nextAvailableFrom t fuel i < b.lineMarkLen := by
  induction fuel generalizing i with
  | zero => exact absurd rfl h
  | succ fuel ih =>
    unfold ImmixBlock.nextAvailableFrom at h ⊢
    split_ifs at h ⊢ with hlt hfree
    · exact ⟨le_rfl, hlt⟩
    · obtain ⟨h1, h2⟩ := ih h
      exact ⟨by omega, h2⟩
    · exact absurd rfl h

theorem nextUnavailableFrom_bounds (fuel : ℕ) {i : ℤ} (h : i ≤ b.lineMarkLen) :
    i ≤ b.nextUnavailableFrom t fuel i ∧ b.nextUnavailableFrom t fuel i ≤ b.lineMarkLen := by
  induction fuel generalizing i with
  | zero => exact ⟨le_rfl, h⟩
  | succ fuel ih =>
    unfold ImmixBlock.nextUnavailableFrom
    split_ifs with hlt hfree
    · obtain ⟨h1, h2⟩ := ih (i := i + 1) (by omega)
      exact ⟨by omega, h2⟩
    · exact ⟨le_rfl, h⟩
    · exact ⟨le_rfl, h⟩

/-- a hole lies inside its block -/
theorem hole_in_block {line : ℕ} {x : Hole} (hlen : b.lineMarkLen = 256) (hfits : b.start + 65536 < 2 ^ 64)
    (hline : line < 256) (h : hole b t line = some x) :
    b.start ≤ x.cursor ∧ x.cursor ≤ x.limit ∧ x.limit ≤ b.start + 65536 ∧ 0 ≤ x.first ∧ x.first ≤ x.last ∧
      x.last ≤ 256 := by
  unfold hole at h
  dsimp only at h
  split_ifs at h with hne
  obtain ⟨h1, h2⟩ := nextAvailableFrom_bounds (b := b) (t := t) _ hne
  obtain ⟨h3, h4⟩ := nextUnavailableFrom_bounds (t := t)
    (b.lineMarkLen - b.getNextAvaiableLine t (toInt line)).toNat h2.le
  rw [toInt_of_lt (by omega)] at h h1 h2 h3 h4
  cases h
  change (line : ℤ) ≤ b.getNextAvaiableLine t line at h1
  change b.getNextAvaiableLine t line < b.lineMarkLen at h2
  change b.getNextAvaiableLine t line ≤ b.getNextUnavailableLine t (b.getNextAvaiableLine t line) at h3
  change b.getNextUnavailableLine t (b.getNextAvaiableLine t line) ≤ b.lineMarkLen at h4
  dsimp only
  generalize b.getNextUnavailableLine t (b.getNextAvaiableLine t line) = last at *
  generalize b.getNextAvaiableLine t line = first at *
  have haddr : ∀ n : ℤ, 0 ≤ n → n ≤ 256 → uintptr (b.start + n <<< logBytesInLine) = b.start + n.toNat * 256 := by
    intro n h0 h1
    have hshift : n <<< logBytesInLine = n * 256 := Int.shiftLeft_eq n 8
    rw [hshift, uintptr_of_lt (by omega) (by omega)]
    omega
  rw [haddr first (by omega) (by omega), haddr last (by omega) (by omega)]
  omega

/-- one allocation -/
theorem bump_in_region {x x' : ImmixMutatorLocal} {r : Request} {a : ℕ} (hcursor : x.cursor ≤ x.limit)
    (hlimit : x.limit < 2 ^ 63 + 2 ^ 32) (h : x.bump r.size r.align = some (a, x')) :
    x.cursor ≤ a ∧ a + r.size = x'.cursor ∧ x'.cursor ≤ x.limit ∧ x'.limit = x.limit := by
  obtain ⟨k, hk, halign⟩ := r.align_pow
  have hsize := r.size_lt
  have hpow : (2 : ℕ) ^ k < 2 ^ 31 := Nat.pow_lt_pow_right (by norm_num) hk
  have hround : alignUp x.cursor r.align = Address.alignUp x.cursor (2 ^ k) := by
    rw [halign]
    exact alignUp_eq hk (by omega)
  obtain ⟨h1, h2, -⟩ := Immix.alignUp_bounds (a := x.cursor) (k := k) (by omega) (by unfold usize; omega)
  unfold ImmixMutatorLocal.bump at h
  dsimp only at h
  rw [hround, ← Nat.cast_add, uintptr_natCast (by omega)] at h
  split_ifs at h with hgt
  cases h
  exact ⟨h1, rfl, not_lt.1 hgt, rfl⟩

/-- what is allocated in a bump region lies in it -/
theorem allocs_in_region (requests : List Request) {x : ImmixMutatorLocal} (hcursor : x.cursor ≤ x.limit)
    (hlimit : x.limit < 2 ^ 63 + 2 ^ 32) :
    ∀ o ∈ x.allocs requests, x.cursor ≤ o.1 ∧ o.1 + o.2 ≤ x.limit := by
  induction requests generalizing x with
  | nil =>
    intro o ho
    cases ho
  | cons r requests ih =>
    intro o ho
    unfold ImmixMutatorLocal.allocs at ho
    cases hb : x.bump r.size r.align with
    | none =>
      rw [hb] at ho
      cases ho
    | some p =>
      obtain ⟨a, x'⟩ := p
      obtain ⟨h1, h2, h3, h4⟩ := bump_in_region hcursor hlimit hb
      rw [hb] at ho
      rcases List.mem_cons.1 ho with rfl | ho
      · exact ⟨h1, by omega⟩
      · obtain ⟨h5, h6⟩ := ih (by omega) (by omega) o ho
        exact ⟨by omega, by omega⟩

end Hole

/-! ## The blocks of a space -/

namespace Blocks

section Bounds

variable (mmapStart : ℕ) (spaceSize : Int32) (s : ImmixSpace)

/-- the end of the mapped pages -/
def mappedEnd : ℕ := mmapStart + (spaceSize.toInt.toNat + 4095) / 4096 * 4096

/-- the bytes from `lo` to `hi` lie in the mapped region and in the space -/
def BytesInside (lo hi : ℕ) : Prop :=
  (mmapStart ≤ lo ∧ hi ≤ mappedEnd mmapStart spaceSize) ∧ s.start ≤ lo ∧ hi ≤ s.stop

/-- the marks of the lines from `first` to `last` of a block are entries of the table -/
def LinesInside (b : C.ImmixBlock) (first last : ℤ) : Prop :=
  ∀ i, first ≤ i → i < last → 0 ≤ b.lineMarkPtr + i ∧ b.lineMarkPtr + i < s.lineMarkTableLen

/-- **In bounds.** -/
structure InBounds : Prop where
  bytes : ∀ p ∈ s.blocks, BytesInside mmapStart spaceSize s (s.block p).start ((s.block p).start + bytesInBlock)
  marks : ∀ p ∈ s.blocks, LinesInside s (s.block p).toImmixBlock 0 (s.block p).lineMarkLen
  /-- the bytes that a hole clears, and the lines it marks -/
  cleared : ∀ p ∈ s.blocks, ∀ t line x, line < linesInBlock → hole (s.block p).toImmixBlock t line = some x →
    x.cursor ≤ x.limit ∧ BytesInside mmapStart spaceSize s x.cursor x.limit ∧
      LinesInside s (s.block p).toImmixBlock x.first x.last
  /-- the objects that are allocated in it -/
  allocated : ∀ p ∈ s.blocks, ∀ t line x, line < linesInBlock → hole (s.block p).toImmixBlock t line = some x →
    ∀ requests, ∀ o ∈ ImmixMutatorLocal.allocs ⟨x.cursor, x.limit, uintptr x.last, some (s.block p).toImmixBlock⟩ requests,
      BytesInside mmapStart spaceSize s o.1 (o.1 + o.2)

end Bounds

section Geometry

variable {malloc : ℕ → ℕ} {raw s : ImmixSpace} {mmapStart : ℕ} {spaceSize : Int32}

/-- the blocks of a new space, by their numbers -/
theorem Constructed.mem_blocks (h : Constructed malloc raw mmapStart spaceSize s) {p : ℕ} :
    p ∈ s.blocks ↔ ∃ i < numBlocks spaceSize, malloc i = p := by
  rw [h.blocks, List.mem_map]
  simp only [List.mem_range]

theorem Constructed.fields (h : Constructed malloc raw mmapStart spaceSize s) {i : ℕ} (hi : i < numBlocks spaceSize) :
    (s.block (malloc i)).start = s.start + 65536 * i ∧ (s.block (malloc i)).lineMarkPtr = 256 * i ∧
      (s.block (malloc i)).lineMarkLen = 256 := by
  rw [h.block i hi]
  exact ⟨rfl, rfl, rfl⟩

/-- with the blocks, their holes are in bounds, and what is allocated in these -/
theorem inBounds_of_blocks (h : Constructed malloc raw mmapStart spaceSize s) (hend : mmapStart ≤ 2 ^ 63)
    (hbytes : ∀ p ∈ s.blocks, BytesInside mmapStart spaceSize s (s.block p).start ((s.block p).start + bytesInBlock))
    (hmarks : ∀ p ∈ s.blocks, LinesInside s (s.block p).toImmixBlock 0 (s.block p).lineMarkLen) :
    InBounds mmapStart spaceSize s := by
  have hsmall : mappedEnd mmapStart spaceSize < 2 ^ 63 + 2 ^ 32 := by
    have hhigh := spaceSize.toInt_lt
    unfold mappedEnd
    omega
  have hhole : ∀ p ∈ s.blocks, ∀ t line x, line < linesInBlock → hole (s.block p).toImmixBlock t line = some x →
      (s.block p).start ≤ x.cursor ∧ x.cursor ≤ x.limit ∧ x.limit ≤ (s.block p).start + 65536 ∧ 0 ≤ x.first ∧
        x.first ≤ x.last ∧ x.last ≤ 256 := by
    intro p hp t line x hline hx
    obtain ⟨i, hi, rfl⟩ := h.mem_blocks.1 hp
    obtain ⟨⟨-, h1⟩, -⟩ := hbytes _ hp
    rw [bytesInBlock_eq] at h1
    exact hole_in_block (h.fields hi).2.2 (by omega) hline hx
  have hinside : ∀ p ∈ s.blocks, ∀ lo hi, (s.block p).start ≤ lo → hi ≤ (s.block p).start + 65536 →
      BytesInside mmapStart spaceSize s lo hi := by
    intro p hp lo hi hlo hhi
    obtain ⟨⟨h1, h2⟩, h3, h4⟩ := hbytes p hp
    rw [bytesInBlock_eq] at h2 h4
    exact ⟨⟨h1.trans hlo, hhi.trans h2⟩, h3.trans hlo, hhi.trans h4⟩
  refine ⟨hbytes, hmarks, fun p hp t line x hline hx => ?_, fun p hp t line x hline hx requests o ho => ?_⟩
  · obtain ⟨h1, h2, h3, h4, -, h6⟩ := hhole p hp t line x hline hx
    refine ⟨h2, hinside p hp _ _ h1 h3, fun j hj1 hj2 => hmarks p hp j (h4.trans hj1) ?_⟩
    obtain ⟨i, hi, rfl⟩ := h.mem_blocks.1 hp
    rw [(h.fields hi).2.2]
    omega
  · obtain ⟨h1, h2, h3, -⟩ := hhole p hp t line x hline hx
    obtain ⟨⟨-, h4⟩, -⟩ := hbytes p hp
    rw [bytesInBlock_eq] at h4
    obtain ⟨h5, h6⟩ := allocs_in_region requests (x := ⟨x.cursor, x.limit, uintptr x.last,
      some (s.block p).toImmixBlock⟩) h2 (lt_of_le_of_lt (h3.trans h4) hsmall) o ho
    exact hinside p hp _ _ (h1.trans h5) (h6.trans h3)

/-- **The geometry of the blocks.** For every `malloc` with different pointers, every content of its memory, every
positive size and every page that `mmap` returns: the blocks of the new space, their line marks, the holes in them and
the objects in these are inside the mapped region, the space and the line mark table, if and only if the mapping starts
at a multiple of a block and the size is a multiple of a block. -/
theorem in_bounds_iff (malloc : ℕ → ℕ) (hinj : malloc.Injective) (raw : ImmixSpace) (mmap : ℕ → Option ℕ)
    (hmmap : MmapSpec mmap) (spaceSize : Int32) (mmapStart : ℕ)
    (hp : mmap (uintptr spaceSize.toInt) = some mmapStart) :
    ∃ s, ImmixSpace.new malloc mmap raw spaceSize = some s ∧
      (InBounds mmapStart spaceSize s ↔ 65536 ∣ mmapStart ∧ (65536 : ℤ) ∣ spaceSize.toInt) := by
  obtain ⟨s, hnew, h⟩ := new_spec raw hmmap hinj hp
  refine ⟨s, hnew, ?_⟩
  obtain ⟨hpos, hsize⟩ := hmmap.size_pos hp
  obtain ⟨-, -, -, hend⟩ := hmmap.page _ _ hp
  rw [hsize] at hend
  have hstart := h.start
  have hstop := h.stop
  have hlen := h.lineMarkTableLen
  have hhigh := spaceSize.toInt_lt
  obtain ⟨size, hcast⟩ : ∃ size : ℕ, spaceSize.toInt = size := ⟨_, (Int.toNat_of_nonneg hpos.le).symm⟩
  have hnum : numBlocks spaceSize = (size + 65535) / 65536 := by rw [numBlocks, hcast, Int.toNat_natCast]
  have hmapped : mappedEnd mmapStart spaceSize = mmapStart + (size + 4095) / 4096 * 4096 := by
    rw [mappedEnd, hcast, Int.toNat_natCast]
  rw [hcast] at hpos hhigh
  rw [hcast, Int.toNat_natCast] at hend hstop hlen
  rw [hcast]
  constructor
  · intro hin
    -- the last block
    have hlast : numBlocks spaceSize - 1 < numBlocks spaceSize := by omega
    obtain ⟨⟨-, h1⟩, -, h2⟩ := hin.bytes _ (h.mem_blocks.2 ⟨_, hlast, rfl⟩)
    rw [(h.fields hlast).1, bytesInBlock_eq, hmapped] at h1
    rw [(h.fields hlast).1, bytesInBlock_eq, hstop] at h2
    rw [hnum] at h1 h2
    omega
  · rintro ⟨hbase, hwhole⟩
    have hblock : ∀ p ∈ s.blocks, ∃ i < size / 65536, (s.block p).start = s.start + 65536 * i ∧
        (s.block p).lineMarkPtr = 256 * i ∧ (s.block p).lineMarkLen = 256 := by
      intro p hp
      obtain ⟨i, hi, rfl⟩ := h.mem_blocks.1 hp
      exact ⟨i, by omega, h.fields hi⟩
    refine inBounds_of_blocks h (by omega) (fun p hp => ?_) fun p hp => ?_
    · obtain ⟨i, hi, hfirst, -⟩ := hblock p hp
      rw [BytesInside, hfirst, bytesInBlock_eq, hmapped, hstop]
      omega
    · obtain ⟨i, hi, -, hptr, hlines⟩ := hblock p hp
      intro j hj0 hj1
      rw [hlines] at hj1
      rw [hptr, hlen]
      push_cast
      omega

/-- two blocks at a multiple of a block -/
theorem in_bounds_iff_aligned :
    ∃ s, ImmixSpace.new blockPage (mmapAt 524288) (memory none) 131072 = some s ∧
      (InBounds 524288 131072 s ↔ 65536 ∣ 524288 ∧ (65536 : ℤ) ∣ Int32.toInt 131072) :=
  in_bounds_iff blockPage blockPage_injective (memory none) (mmapAt 524288)
    (mmapAt_spec (by norm_num) (by norm_num) (by norm_num)) 131072 524288 (by decide +kernel)

/-- **The blocks leave the mapping.** The default size on a page that is no multiple of a block: the last of the 6400
blocks ends 61440 bytes after the mapping. The size of a heap of 1 MB on a multiple of a block: the last of the 13
blocks ends 13108 bytes after the space, and its last mark is 52 entries after the table. -/
theorem blocks_leave_mapping :
    (∃ s, ImmixSpace.new blockPage (mmapAt 528384) (memory none) 419430400 = some s ∧
      (s.block (blockPage 6399)).start + bytesInBlock = mappedEnd 528384 419430400 + 61440 ∧
      ¬ InBounds 528384 419430400 s) ∧
    ∃ s, ImmixSpace.new blockPage (mmapAt 524288) (memory none) 838860 = some s ∧
      (s.block (blockPage 12)).start + bytesInBlock = s.stop + 13108 ∧
      (s.block (blockPage 12)).lineMarkPtr + (s.block (blockPage 12)).lineMarkLen = s.lineMarkTableLen + 52 ∧
      ¬ InBounds 524288 838860 s := by
  have hsize1 : (Int32.toInt 419430400).toNat = 419430400 := by decide
  have hsize2 : (Int32.toInt 838860).toNat = 838860 := by decide
  constructor
  · obtain ⟨s, hnew, h⟩ := new_spec (memory none)
      (mmapAt_spec (p := 528384) (by norm_num) (by norm_num) (by norm_num)) blockPage_injective
      (by decide +kernel : mmapAt 528384 (uintptr (Int32.toInt 419430400)) = some 528384)
    have hnum : 6399 < numBlocks 419430400 := by
      rw [numBlocks, hsize1]
      norm_num
    have hlast : (s.block (blockPage 6399)).start + bytesInBlock = mappedEnd 528384 419430400 + 61440 := by
      rw [(h.fields hnum).1, h.start, bytesInBlock_eq, mappedEnd, hsize1]
    refine ⟨s, hnew, hlast, fun hin => ?_⟩
    obtain ⟨⟨-, hle⟩, -⟩ := hin.bytes _ (h.mem_blocks.2 ⟨6399, hnum, rfl⟩)
    omega
  · obtain ⟨s, hnew, h⟩ := new_spec (memory none)
      (mmapAt_spec (p := 524288) (by norm_num) (by norm_num) (by norm_num)) blockPage_injective
      (by decide +kernel : mmapAt 524288 (uintptr (Int32.toInt 838860)) = some 524288)
    have hnum : 12 < numBlocks 838860 := by
      rw [numBlocks, hsize2]
      norm_num
    have hlast : (s.block (blockPage 12)).start + bytesInBlock = s.stop + 13108 := by
      rw [(h.fields hnum).1, h.stop, h.start, bytesInBlock_eq, hsize2]
    refine ⟨s, hnew, hlast, ?_, fun hin => ?_⟩
    · rw [(h.fields hnum).2.1, (h.fields hnum).2.2, h.lineMarkTableLen, hsize2]
      norm_num
    · obtain ⟨-, -, hle⟩ := hin.bytes _ (h.mem_blocks.2 ⟨12, hnum, rfl⟩)
      omega

end Geometry

end Blocks

end Immix.C
