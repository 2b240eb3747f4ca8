/-
`ImmixSpace::new` and `init_blocks` (`src/heap/immix/immix_space.rs`) on machine words: a `usize` has `bits` bits, and a
sum that does not fit panics (`overflowChecks`, a debug build) or wraps (a release build).

`initBlocks` is the loop with its fuel: `none` is a panic, or a loop that has not ended when the fuel is used up.
- `Partitioned`: what a client relies on, the line index of the tracer and that of the mutator included.
- `block_partition`: for every mapping whose length does not overflow, it is made exactly when the space does not reach
  into the last block of the address space.
- `wraps_past_the_end`: a mapping at the top of a 32-bit address space.
- `newSpace_mapping`: on a mapping in user memory, `make` gives the range and the blocks of `Mapping.space`.
-/
import Immix.Mutator

namespace Immix

/-! ## Model -/

/-- addition of two `usize` -/
def plusChecked (overflowChecks : Bool) (bits a b : ℕ) : Option ℕ :=
  if a + b < 2 ^ bits then some (a + b) else if overflowChecks then none else some ((a + b) % 2 ^ bits)

/-- `align_up` on a `usize` of `bits` bits: the sum may panic or wrap, and so may the subtraction of 1 when it wrapped -/
def alignUpChecked (overflowChecks : Bool) (bits a align : ℕ) : Option ℕ :=
  (plusChecked overflowChecks bits a align).map fun x =>
    (x + (2 ^ bits - 1)) % 2 ^ bits &&& (2 ^ bits - 1 - (align - 1))

structure NewSpace where
  start : ℕ
  stop : ℕ
  lineMarkTable : LineMarkTable
  usableBlocks : List ImmixBlock

namespace NewSpace

/-- the loop of `init_blocks` -/
def initBlocks (overflowChecks : Bool) (bits stop : ℕ) : ℕ → ℕ → ℕ → ℕ → Option (List ImmixBlock)
  | 0, _, _, _ => none
  | fuel + 1, id, blockStart, line =>
    match plusChecked overflowChecks bits blockStart bytesInBlock with
    | none => none
    | some blockEnd =>
      if blockEnd ≤ stop then
        (initBlocks overflowChecks bits stop fuel (id + 1) blockEnd (line + linesInBlock)).map
          (⟨id, blockStart, ⟨line, linesInBlock⟩⟩ :: ·)
      else some []

/-- `ImmixSpace::new(space_size)` when `mmap` returns `ptr` -/
def make (overflowChecks : Bool) (bits ptr spaceSize fuel : ℕ) : Option NewSpace := do
  let _ ← plusChecked overflowChecks bits spaceSize spaceAlign
  let start ← alignUpChecked overflowChecks bits ptr spaceAlign
  let stop ← plusChecked overflowChecks bits start spaceSize
  let blocks ← initBlocks overflowChecks bits stop fuel 0 start 0
  some ⟨start, stop, .new start stop, blocks⟩

/-! ## Sums that fit -/

variable {checks : Bool} {bits ptr size : ℕ}

theorem plusChecked_of_lt {a b : ℕ} (h : a + b < 2 ^ bits) : plusChecked checks bits a b = some (a + b) := if_pos h

/-- the block at index `k` of a space that starts at `start` -/
def blockAt (start k : ℕ) : ImmixBlock := ⟨k, start + k * 65536, ⟨k * 256, 256⟩⟩

theorem block_eq_blockAt (sp : Space) (k : ℕ) : sp.block k = blockAt sp.start k := rfl

/-! ## The loop -/

section Loop

variable {start : ℕ}

theorem initBlocks_succ {blockStart blockEnd stop : ℕ} (h : plusChecked checks bits blockStart bytesInBlock = some blockEnd)
    (fuel id line : ℕ) :
    initBlocks checks bits stop (fuel + 1) id blockStart line =
      if blockEnd ≤ stop then
        (initBlocks checks bits stop fuel (id + 1) blockEnd (line + linesInBlock)).map
          (⟨id, blockStart, ⟨line, linesInBlock⟩⟩ :: ·)
      else some [] := by
  rw [initBlocks, h]

/-- **The loop ends** when its last test does not overflow, with one block for each of the `n` whole blocks of the
space. -/
theorem initBlocks_eq (checks : Bool) {n fuel k : ℕ} (hfit : start + size + 65536 < 2 ^ bits) (hn : n * 65536 ≤ size)
    (hsize : size < (n + 1) * 65536) (hk : n < k + fuel) (hkn : k ≤ n) :
    initBlocks checks bits (start + size) fuel k (start + k * 65536) (k * 256) =
      some ((List.range' k (n - k)).map (blockAt start)) := by
  induction fuel generalizing k with
  | zero => omega
  | succ fuel ih =>
    have hsum : plusChecked checks bits (start + k * 65536) bytesInBlock = some (start + (k + 1) * 65536) := by
      rw [bytesInBlock_eq, plusChecked_of_lt (by omega), add_assoc, ← add_one_mul]
    have hline : k * 256 + linesInBlock = (k + 1) * 256 := by
      rw [linesInBlock_eq]
      ring
    rw [initBlocks_succ hsum, hline]
    split_ifs with hle
    · have hlen : n - k = n - (k + 1) + 1 := by omega
      rw [ih (by omega) (by omega), Option.map_some, hlen, List.range'_succ, List.map_cons, blockAt, linesInBlock_eq]
    · have hlen : n - k = 0 := by omega
      rw [hlen, List.range'_zero, List.map_nil]

theorem initBlocks_all (hfit : start + size + 65536 < 2 ^ bits) :
    initBlocks checks bits (start + size) (size / 65536 + 1) 0 start 0 =
      some ((List.range (size / 65536)).map (blockAt start)) := by
  have hn : size / 65536 * 65536 ≤ size := Nat.div_mul_le_self _ _
  have hsize : size < (size / 65536 + 1) * 65536 := Nat.lt_mul_of_div_lt (Nat.lt_succ_self _) (by norm_num)
  generalize size / 65536 = n at hn hsize
  have h := initBlocks_eq checks hfit hn hsize (show n < 0 + (n + 1) by omega) (Nat.zero_le _)
  simpa only [Nat.zero_mul, Nat.add_zero, Nat.sub_zero, ← List.range_eq_range'] using h

/-- **The loop does not end** when the space reaches into the last block of the address space: its last sum panics, or
wraps to an address that is below the end again. -/
theorem initBlocks_none {stop blockStart : ℕ} (hbits : 16 ≤ bits) (hstop : 2 ^ bits ≤ stop + 65536)
    (hdvd : 65536 ∣ blockStart) (hlt : blockStart < 2 ^ bits) (fuel id line : ℕ) :
    initBlocks checks bits stop fuel id blockStart line = none := by
  induction fuel generalizing id blockStart line with
  | zero => rfl
  | succ fuel ih =>
    have hpow : 65536 ∣ 2 ^ bits := by
      have h := pow_dvd_pow 2 hbits
      norm_num at h
      exact h
    by_cases hsum : blockStart + 65536 < 2 ^ bits
    · have hle : blockStart + 65536 ≤ stop := by omega
      rw [initBlocks_succ (plusChecked_of_lt hsum), bytesInBlock_eq, if_pos hle, ih (by omega) hsum, Option.map_none]
    · have hend : blockStart + 65536 = 2 ^ bits := by omega
      cases checks with
      | true =>
        have hpanic : plusChecked true bits blockStart bytesInBlock = none := by
          rw [plusChecked, bytesInBlock_eq, if_neg hsum, if_pos rfl]
        rw [initBlocks, hpanic]
      | false =>
        have hwrap : plusChecked false bits blockStart bytesInBlock = some 0 := by
          rw [plusChecked, bytesInBlock_eq, if_neg hsum, if_neg Bool.false_ne_true, hend, Nat.mod_self]
        rw [initBlocks_succ hwrap, if_pos (Nat.zero_le _), ih (dvd_zero _) (Nat.two_pow_pos bits), Option.map_none]

end Loop

/-! ## The space -/

/-- the start of the space: the mapping's, rounded up -/
def startOf (ptr : ℕ) : ℕ := (ptr + 524287) / 524288 * 524288

theorem bits_of_fits (hfit : ptr + size + spaceAlign < 2 ^ bits) : 19 < bits := by
  by_contra hle
  have hpow : (2 : ℕ) ^ bits ≤ 2 ^ 19 := Nat.pow_le_pow_right (by norm_num) (by omega)
  rw [spaceAlign_eq] at hfit
  omega

theorem startOf_bounds (ptr : ℕ) : ptr ≤ startOf ptr ∧ startOf ptr < ptr + 524288 ∧ 524288 ∣ startOf ptr := by
  unfold startOf
  exact ⟨by omega, by omega, Dvd.intro_left _ rfl⟩

theorem two_pow_19 : (2 : ℕ) ^ 19 = 524288 := by norm_num

theorem alignUpChecked_eq (hfit : ptr + 524288 < 2 ^ bits) (hbits : 19 < bits) :
    alignUpChecked checks bits ptr 524288 = some (startOf ptr) := by
  have hminus : (ptr + 524288 + (2 ^ bits - 1)) % 2 ^ bits = ptr + 524287 := by
    have hsum : ptr + 524288 + (2 ^ bits - 1) = ptr + 524287 + 2 ^ bits := by omega
    rw [hsum, Nat.add_mod_right, Nat.mod_eq_of_lt (by omega)]
  have hmask := and_mask (x := ptr + 524287) (by omega) hbits
  rw [two_pow_19] at hmask
  rw [alignUpChecked, plusChecked_of_lt hfit, Option.map_some, hminus, hmask]
  rfl

/-- everything before the loop fits -/
theorem make_eq (hfit : ptr + size + spaceAlign < 2 ^ bits) (fuel : ℕ) :
    make checks bits ptr size fuel =
      (initBlocks checks bits (startOf ptr + size) fuel 0 (startOf ptr) 0).map fun blocks =>
        ⟨startOf ptr, startOf ptr + size, .new (startOf ptr) (startOf ptr + size), blocks⟩ := by
  have hbits := bits_of_fits hfit
  have hstart := startOf_bounds ptr
  rw [spaceAlign_eq] at hfit
  unfold make
  rw [spaceAlign_eq, plusChecked_of_lt (by omega), alignUpChecked_eq (by omega) hbits]
  dsimp only [Option.bind_eq_bind]
  rw [Option.bind_some, Option.bind_some, plusChecked_of_lt (by omega), Option.bind_some]
  cases initBlocks checks bits (startOf ptr + size) fuel 0 (startOf ptr) 0 <;> rfl

/-- **A partitioned space**: what `ImmixSpace::new` is to make of a mapping at `ptr` for `size` bytes. -/
structure Partitioned (ptr size : ℕ) (s : NewSpace) : Prop where
  count : s.usableBlocks.length = size / bytesInBlock
  ids : s.usableBlocks.map ImmixBlock.id = List.range (size / bytesInBlock)
  aligned : ∀ b ∈ s.usableBlocks, bytesInBlock ∣ b.start
  /-- no two blocks have a byte in common, and they come in the order of their addresses -/
  disjoint : s.usableBlocks.Pairwise fun b c => b.start + bytesInBlock ≤ c.start
  inSpace : ∀ b ∈ s.usableBlocks, s.start ≤ b.start ∧ b.start + bytesInBlock ≤ s.stop
  inMapping : ∀ b ∈ s.usableBlocks, ptr ≤ b.start ∧ b.start + bytesInBlock ≤ ptr + size + spaceAlign
  slices : s.usableBlocks.Pairwise fun b c =>
    b.lineMarkTable.ptr + b.lineMarkTable.len ≤ c.lineMarkTable.ptr
  inTable : ∀ b ∈ s.usableBlocks, b.lineMarkTable.ptr + b.lineMarkTable.len ≤ s.lineMarkTable.len
  /-- the tracer's index of an address and the one of the mutator that holds the block -/
  index : ∀ b ∈ s.usableBlocks, ∀ a, b.start ≤ a → a < b.start + bytesInBlock →
    s.lineMarkTable.lineOf a = b.lineMarkTable.ptr + Address.diff a b.start >>> logBytesInLine
  /-- what `mark_line_live` writes is what the slice reads, whatever the marks are -/
  readsLive : ∀ b ∈ s.usableBlocks, ∀ a, b.start ≤ a → a < b.start + bytesInBlock → ∀ marks,
    b.lineMarkTable.get ({ s.lineMarkTable with get := marks }.markLineLive a)
      (Address.diff a b.start >>> logBytesInLine) = .live

theorem partitioned_blocks {start : ℕ} (h1 : ptr ≤ start) (h2 : start < ptr + 524288) (h3 : 524288 ∣ start) :
    Partitioned ptr size ⟨start, start + size, .new start (start + size),
      (List.range (size / 65536)).map (blockAt start)⟩ := by
  have hlen := LineMarkTable.len_new start size
  have hline : ∀ k a, start + k * 65536 ≤ a → a < start + k * 65536 + 65536 →
      (LineMarkTable.new start (start + size)).lineOf a =
        k * 256 + Address.diff a (start + k * 65536) >>> logBytesInLine := by
    intro k a ha1 ha2
    rw [LineMarkTable.lineOf_new, shiftRight_line]
    show (a - start) / 256 = k * 256 + (a - (start + k * 65536)) / 256
    omega
  have hmem : ∀ {P : ImmixBlock → Prop}, (∀ k < size / 65536, P (blockAt (start) k)) →
      ∀ b ∈ (List.range (size / 65536)).map (blockAt (start)), P b := by
    intro P hP b hb
    obtain ⟨k, hk, rfl⟩ := List.mem_map.1 hb
    exact hP k (List.mem_range.1 hk)
  have hpair : ∀ {R : ImmixBlock → ImmixBlock → Prop}, (∀ i j, i < j → R (blockAt (start) i) (blockAt (start) j)) →
      ((List.range (size / 65536)).map (blockAt (start))).Pairwise R := by
    intro R hR
    rw [List.pairwise_map]
    exact List.pairwise_lt_range.imp fun hij => hR _ _ hij
  refine ⟨?_, ?_, hmem fun k hk => ?_, hpair fun i j hij => ?_, hmem fun k hk => ?_, hmem fun k hk => ?_,
    hpair fun i j hij => ?_, hmem fun k hk => ?_, hmem fun k hk a ha1 ha2 => hline k a ha1 ha2,
    hmem fun k hk a ha1 ha2 marks => ?_⟩
  · rw [List.length_map, List.length_range, bytesInBlock_eq]
  · rw [List.map_map, bytesInBlock_eq]
    exact List.map_id _
  · rw [bytesInBlock_eq]
    show 65536 ∣ start + k * 65536
    omega
  · rw [bytesInBlock_eq]
    show start + i * 65536 + 65536 ≤ start + j * 65536
    omega
  · rw [bytesInBlock_eq]
    show start ≤ start + k * 65536 ∧ start + k * 65536 + 65536 ≤ start + size
    omega
  · rw [bytesInBlock_eq, spaceAlign_eq]
    show ptr ≤ start + k * 65536 ∧ start + k * 65536 + 65536 ≤ ptr + size + 524288
    omega
  · show i * 256 + 256 ≤ j * 256
    omega
  · show k * 256 + 256 ≤ (LineMarkTable.new (start) (start + size)).len
    omega
  · have hindex := hline k a ha1 ha2
    have hlt : (LineMarkTable.new (start) (start + size)).lineOf a < size / 256 := by
      rw [LineMarkTable.lineOf_new]
      rw [bytesInBlock_eq] at ha2
      change a < start + k * 65536 + 65536 at ha2
      omega
    rw [← hlen] at hlt
    rw [LineMarkTableSlice.get]
    show LineMarkTable.get _ (k * 256 + Address.diff a (start + k * 65536) >>> logBytesInLine) = _
    rw [← hindex, ← LineMarkTable.lineOf_with _ marks a]
    exact LineMarkTable.get_markLineLive_lineOf _ a (by rwa [LineMarkTable.lineOf_with])

/-- **Blocks partition the space, unless it reaches into the last block of the address space.** For every width of a
`usize`, every address that `mmap` returns and every size whose mapping does not overflow, in debug and release builds. -/
theorem block_partition (checks : Bool) (bits ptr size : ℕ) (hfit : ptr + size + spaceAlign < 2 ^ bits) :
    (∃ fuel s, make checks bits ptr size fuel = some s ∧ Partitioned ptr size s) ↔
      startOf ptr + size + bytesInBlock < 2 ^ bits := by
  have hbits := bits_of_fits hfit
  have hstart := startOf_bounds ptr
  rw [bytesInBlock_eq]
  constructor
  · rintro ⟨fuel, s, hs, -⟩
    by_contra hend
    have hlt : startOf ptr < 2 ^ bits := by
      rw [spaceAlign_eq] at hfit
      omega
    have hdvd : 65536 ∣ startOf ptr := Nat.dvd_trans (by norm_num) hstart.2.2
    rw [make_eq hfit, initBlocks_none (by omega) (by omega) hdvd hlt] at hs
    cases hs
  · intro hend
    refine ⟨size / 65536 + 1, _, ?_, partitioned_blocks hstart.1 hstart.2.1 hstart.2.2⟩
    rw [make_eq hfit, initBlocks_all hend]
    rfl

/-- two blocks and half of another, in a mapping that is aligned to a page only -/
theorem block_partition_halves : ∃ fuel s,
    make true 64 528384 163840 fuel = some s ∧ Partitioned 528384 163840 s :=
  (block_partition true 64 528384 163840 (by decide)).2 (by decide)

/-- **A space that reaches into the last block of the address space**: on a target with 32-bit addresses, the loop of
`init_blocks` panics in a debug build and never ends in a release build. -/
theorem wraps_past_the_end :
    4293922816 + 512000 + spaceAlign < 2 ^ 32 ∧ ∀ checks fuel, make checks 32 4293922816 512000 fuel = none := by
  have hfit : 4293922816 + 512000 + spaceAlign < 2 ^ 32 := by decide
  have hstart : startOf 4293922816 = 4294443008 := rfl
  refine ⟨hfit, fun checks fuel => ?_⟩
  rw [make_eq hfit, hstart, initBlocks_none (by norm_num) (by norm_num) (by norm_num) (by norm_num)]
  rfl

/-- **The same space**: on a mapping in user memory, `make` gives the range and the blocks of `Mapping.space`. -/
theorem newSpace_mapping (m : Mapping) (checks : Bool) :
    ∃ fuel, make checks 64 m.ptr m.spaceSize fuel =
      some ⟨m.space.start, m.space.stop, m.space.lineTable fun _ => .free, m.space.initBlocks⟩ := by
  have hu := m.user
  rw [spaceAlign_eq] at hu
  have hfit : m.ptr + m.spaceSize + spaceAlign < 2 ^ 64 := by
    rw [spaceAlign_eq]
    omega
  have hstart : m.space.start = startOf m.ptr := by
    have h := Immix.alignUp_eq (a := m.ptr) (k := 19) (by norm_num) (by unfold usize; omega)
    rw [two_pow_19, Nat.add_sub_assoc (by norm_num)] at h
    exact h
  have hbounds := startOf_bounds m.ptr
  refine ⟨m.spaceSize / 65536 + 1, ?_⟩
  rw [make_eq hfit, initBlocks_all (by omega), Immix.initBlocks_eq, Space.lineTable, Space.stop_eq, hstart]
  have hblocks : m.space.block = blockAt (startOf m.ptr) := by
    funext k
    rw [block_eq_blockAt, hstart]
  rw [hblocks]
  generalize startOf m.ptr = start
  rfl

end NewSpace

end Immix
