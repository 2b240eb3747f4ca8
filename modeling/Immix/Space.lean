/-
The space, its blocks and the sweep (`src/heap/immix/immix_space.rs`).

`Space` is the address range of an `ImmixSpace`, with what `ImmixSpace::new` makes of the mapping it gets
(`Mapping.space`). A block's `state` is left out: `set_state` writes it and nothing reads it.
- `initBlocks_eq`: `init_blocks` makes the blocks `sp.block 0, sp.block 1, ..` and no others.
- `sweep_spec`: the line marks after a sweep, and where each block goes.
-/
import Immix.LineMark
import Immix.SideTables

namespace Immix

/-- the range of a space -/
structure Space where
  start : ℕ
  size : ℕ
  aligned : spaceAlign ∣ start
  pos : 0 < start
  /-- the mapping lies in the lower half of the address space, as user memory does on x86_64 -/
  user : start + size ≤ 2 ^ 63

def Space.stop (sp : Space) : ℕ := Address.plus sp.start sp.size

/-- a space of one block -/
def Space.oneBlock : Space := ⟨spaceAlign, bytesInBlock, dvd_rfl, by simp, by simp⟩

/-- an anonymous mapping of `space_size + SPACE_ALIGN` bytes at `ptr` -/
structure Mapping where
  ptr : ℕ
  spaceSize : ℕ
  pos : 0 < ptr
  user : ptr + spaceSize + spaceAlign ≤ 2 ^ 63

theorem Mapping.alignUp_bounds (m : Mapping) :
    m.ptr ≤ Address.alignUp m.ptr spaceAlign ∧ Address.alignUp m.ptr spaceAlign < m.ptr + spaceAlign ∧
      spaceAlign ∣ Address.alignUp m.ptr spaceAlign := by
  have hu := m.user
  have h := Immix.alignUp_bounds (a := m.ptr) (k := 19) (by norm_num) (by simp at hu; unfold usize; omega)
  have hpow : (2 : ℕ) ^ 19 = spaceAlign := rfl
  rwa [hpow] at h

/-- the range `ImmixSpace::new` takes in a mapping -/
def Mapping.space (m : Mapping) : Space where
  start := Address.alignUp m.ptr spaceAlign
  size := m.spaceSize
  aligned := m.alignUp_bounds.2.2
  pos := lt_of_lt_of_le m.pos m.alignUp_bounds.1
  user := by have := m.alignUp_bounds; have := m.user; omega

theorem Space.dvd_start (sp : Space) : 65536 ∣ sp.start ∧ 256 ∣ sp.start ∧ 8 ∣ sp.start := by
  have h := sp.aligned
  simp only [spaceAlign_eq] at h
  omega

@[simp] theorem Space.stop_eq (sp : Space) : sp.stop = sp.start + sp.size := rfl

/-- the trace map of a space with other entries and another mark state -/
def Space.traceMap (sp : Space) (entries : ℕ → UInt8) (markState : UInt8) : TraceMap :=
  { TraceMap.new sp.start sp.stop with entries := entries, markState := markState }

@[simp] theorem Space.traceMap_offset (sp : Space) (f : ℕ → UInt8) (m : UInt8) : (sp.traceMap f m).offset = sp.start := rfl
@[simp] theorem Space.traceMap_entries (sp : Space) (f : ℕ → UInt8) (m : UInt8) : (sp.traceMap f m).entries = f := rfl
@[simp] theorem Space.traceMap_markState (sp : Space) (f : ℕ → UInt8) (m : UInt8) : (sp.traceMap f m).markState = m := rfl

theorem Space.traceMap_fits (sp : Space) (f : ℕ → UInt8) (m : UInt8) : (sp.traceMap f m).Fits := by
  have hu := sp.user
  unfold TraceMap.Fits Space.traceMap TraceMap.new usize
  simp only [Space.stop_eq, pointerSize_eq]
  omega

/-- every address of the space has an entry in its trace map -/
theorem Space.inRange (sp : Space) (f : ℕ → UInt8) (m : UInt8) {a : ℕ} (h1 : sp.start ≤ a) (h2 : a < sp.stop) :
    (sp.traceMap f m).InRange a := by
  unfold TraceMap.InRange Space.traceMap TraceMap.new
  simp only [Space.stop_eq, pointerSize_eq] at *
  omega

/-- the line table of a space with other marks -/
def Space.lineTable (sp : Space) (marks : ℕ → LineMark) : LineMarkTable :=
  { LineMarkTable.new sp.start sp.stop with get := marks }

@[simp] theorem Space.lineTable_get (sp : Space) (f : ℕ → LineMark) : (sp.lineTable f).get = f := rfl
@[simp] theorem Space.lineTable_spaceStart (sp : Space) (f : ℕ → LineMark) : (sp.lineTable f).spaceStart = sp.start := rfl
@[simp] theorem Space.lineTable_len (sp : Space) (f : ℕ → LineMark) : (sp.lineTable f).len = sp.size / 256 := by
  simp [Space.lineTable, LineMarkTable.new, Address.diff]

/-! ## Blocks -/

structure ImmixBlock where
  id : ℕ
  start : ℕ
  lineMarkTable : LineMarkTableSlice
deriving DecidableEq, Repr

/-- the loop of `init_blocks`; the fuel bounds the number of rounds -/
def initBlocksFrom (stop : ℕ) : ℕ → ℕ → ℕ → ℕ → List ImmixBlock
  | 0, _, _, _ => []
  | fuel + 1, id, blockStart, line =>
    if Address.plus blockStart bytesInBlock ≤ stop then
      ⟨id, blockStart, ⟨line, linesInBlock⟩⟩ ::
        initBlocksFrom stop fuel (id + 1) (Address.plus blockStart bytesInBlock) (line + linesInBlock)
    else []

def Space.initBlocks (sp : Space) : List ImmixBlock := initBlocksFrom sp.stop (sp.size / bytesInBlock + 1) 0 sp.start 0

/-- block number `k` of a space -/
def Space.block (sp : Space) (k : ℕ) : ImmixBlock := ⟨k, sp.start + k * 65536, ⟨k * 256, 256⟩⟩

def Space.totalBlocks (sp : Space) : ℕ := sp.initBlocks.length

theorem initBlocksFrom_eq (sp : Space) (fuel k : ℕ) (hk : sp.size / 65536 < k + fuel) :
    initBlocksFrom sp.stop fuel k (sp.start + k * 65536) (k * 256) =
      (List.range' k (sp.size / 65536 - k)).map sp.block := by
  induction fuel generalizing k with
  | zero =>
    have : sp.size / 65536 - k = 0 := by omega
    simp [initBlocksFrom, this]
  | succ fuel ih =>
    have hstep : initBlocksFrom sp.stop (fuel + 1) k (sp.start + k * 65536) (k * 256) =
        if sp.start + k * 65536 + 65536 ≤ sp.start + sp.size then
          sp.block k :: initBlocksFrom sp.stop fuel (k + 1) (sp.start + k * 65536 + 65536) (k * 256 + 256)
        else [] := rfl
    have haddr : sp.start + k * 65536 + 65536 = sp.start + (k + 1) * 65536 := by ring
    have hline : k * 256 + 256 = (k + 1) * 256 := by ring
    rw [hstep]
    split_ifs with h
    · have hlen : sp.size / 65536 - k = (sp.size / 65536 - (k + 1)) + 1 := by omega
      rw [haddr, hline, ih (k + 1) (by omega), hlen, List.range'_succ, List.map_cons]
    · have : sp.size / 65536 - k = 0 := by omega
      simp [this]

theorem initBlocks_eq (sp : Space) : sp.initBlocks = (List.range (sp.size / 65536)).map sp.block := by
  have h := initBlocksFrom_eq sp (sp.size / 65536 + 1) 0 (by omega)
  simp only [Nat.zero_mul, Nat.add_zero, Nat.sub_zero] at h
  rw [Space.initBlocks, bytesInBlock_eq, h, List.range_eq_range']

@[simp] theorem totalBlocks_eq (sp : Space) : sp.totalBlocks = sp.size / 65536 := by
  simp [Space.totalBlocks, initBlocks_eq]

theorem mem_initBlocks {sp : Space} {b : ImmixBlock} : b ∈ sp.initBlocks ↔ ∃ k < sp.size / 65536, b = sp.block k := by
  rw [initBlocks_eq]
  simp [eq_comm]

theorem Space.block_inj {sp : Space} {i j : ℕ} (h : sp.block i = sp.block j) : i = j := congrArg ImmixBlock.id h

theorem initBlocks_nodup (sp : Space) : sp.initBlocks.Nodup := by
  rw [initBlocks_eq]
  exact List.nodup_range.map fun i j h => sp.block_inj h

/-- the block's slice lies in the line table -/
theorem slice_in_table {sp : Space} {k : ℕ} (hk : k < sp.size / 65536) : k * 256 + 256 ≤ sp.size / 256 := by omega

/-! ## Sweep -/

/-- what `sweep` works on: the line marks, the usable queue, `live_blocks` and its two counters -/
structure Sweep where
  lines : LineMarkTable
  usable : List ImmixBlock
  liveBlocks : List ImmixBlock
  usableBlocks : ℕ
  fullBlocks : ℕ

/-- one block stolen from `used_blocks` -/
def sweepBlock (sw : Sweep) (b : ImmixBlock) : Sweep :=
  match b.lineMarkTable.sweepSlice sw.lines with
  | (t, true) => { sw with lines := t, usable := sw.usable ++ [b], usableBlocks := sw.usableBlocks + 1 }
  | (t, false) => { sw with lines := t, liveBlocks := b :: sw.liveBlocks, fullBlocks := sw.fullBlocks + 1 }

/-- `sweep` up to its out-of-memory test; `live_blocks` is then pushed back on `used_blocks` in its order -/
def sweep (lines : LineMarkTable) (usable used : List ImmixBlock) : Sweep :=
  used.foldl sweepBlock ⟨lines, usable, [], 0, 0⟩

/-- `j` is a line of a block in `bs` -/
def LineIn (bs : List ImmixBlock) (j : ℕ) : Prop :=
  ∃ b ∈ bs, b.lineMarkTable.ptr ≤ j ∧ j < b.lineMarkTable.ptr + b.lineMarkTable.len

/-- the block has a line that is neither Live nor ConservLive -/
def HasFree (lines : LineMarkTable) (b : ImmixBlock) : Prop :=
  ∃ i < b.lineMarkTable.len, ¬ (b.lineMarkTable.get lines i).isLive

/-- what one swept block does to the tables and the queues -/
theorem sweepBlock_cases (sw : Sweep) (b : ImmixBlock)
    (hb : b.lineMarkTable.ptr + b.lineMarkTable.len ≤ sw.lines.len) :
    (sweepBlock sw b).lines = (b.lineMarkTable.sweepSlice sw.lines).1 ∧
      ((HasFree sw.lines b ∧ (sweepBlock sw b).usable = sw.usable ++ [b] ∧
          (sweepBlock sw b).liveBlocks = sw.liveBlocks ∧ (sweepBlock sw b).fullBlocks = sw.fullBlocks) ∨
        (¬ HasFree sw.lines b ∧ (sweepBlock sw b).usable = sw.usable ∧
          (sweepBlock sw b).liveBlocks = b :: sw.liveBlocks ∧ (sweepBlock sw b).fullBlocks = sw.fullBlocks + 1)) := by
  have hfree := b.lineMarkTable.sweepSlice_hasFree sw.lines hb
  unfold sweepBlock HasFree
  rcases h : b.lineMarkTable.sweepSlice sw.lines with ⟨t, _ | _⟩
  · rw [h] at hfree
    exact ⟨rfl, .inr ⟨fun hf => Bool.false_ne_true (hfree.2 hf), rfl, rfl, rfl⟩⟩
  · rw [h] at hfree
    exact ⟨rfl, .inl ⟨hfree.1 rfl, rfl, rfl, rfl⟩⟩

/-- the state of a sweep after the blocks `bs`, from the marks `t0` and the queues it started with -/
structure Swept (t0 : LineMarkTable) (sw0 : Sweep) (bs : List ImmixBlock) (sw : Sweep) : Prop where
  len : sw.lines.len = t0.len
  spaceStart : sw.lines.spaceStart = t0.spaceStart
  get_in : ∀ j, LineIn bs j → ¬ (t0.get j).isLive → sw.lines.get j = .free
  get_live : ∀ j, (t0.get j).isLive → sw.lines.get j = t0.get j
  get_out : ∀ j, ¬ LineIn bs j → sw.lines.get j = t0.get j
  perm : (sw.usable ++ sw.liveBlocks).Perm (sw0.usable ++ sw0.liveBlocks ++ bs)
  usable : ∀ b, b ∈ sw.usable ↔ b ∈ sw0.usable ∨ b ∈ bs ∧ HasFree t0 b
  live : ∀ b, b ∈ sw.liveBlocks ↔ b ∈ sw0.liveBlocks ∨ b ∈ bs ∧ ¬ HasFree t0 b
  full : sw.fullBlocks + sw0.liveBlocks.length = sw.liveBlocks.length + sw0.fullBlocks

/-- a line's mark is live at some point of a sweep exactly when it was at its start -/
theorem Swept.isLive {t0 : LineMarkTable} {sw0 sw : Sweep} {bs : List ImmixBlock} (h : Swept t0 sw0 bs sw) (j : ℕ) :
    (sw.lines.get j).isLive ↔ (t0.get j).isLive := by
  by_cases hl : (t0.get j).isLive
  · rw [h.get_live j hl]
  · by_cases hj : LineIn bs j
    · rw [h.get_in j hj hl]; simp [hl]
    · rw [h.get_out j hj]

theorem Swept.hasFree {t0 : LineMarkTable} {sw0 sw : Sweep} {bs : List ImmixBlock} (h : Swept t0 sw0 bs sw)
    (b : ImmixBlock) : HasFree sw.lines b ↔ HasFree t0 b := by
  unfold HasFree LineMarkTableSlice.get
  simp only [h.isLive]

/-- the sweep of one more block -/
theorem Swept.step {t0 : LineMarkTable} {sw0 sw : Sweep} {bs : List ImmixBlock} (h : Swept t0 sw0 bs sw) {b : ImmixBlock}
    (hb : b.lineMarkTable.ptr + b.lineMarkTable.len ≤ t0.len) : Swept t0 sw0 (bs ++ [b]) (sweepBlock sw b) := by
  have hb' : b.lineMarkTable.ptr + b.lineMarkTable.len ≤ sw.lines.len := by rw [h.len]; exact hb
  obtain ⟨hlines, hcases⟩ := sweepBlock_cases sw b hb'
  have hget : ∀ j, (sweepBlock sw b).lines.get j =
      if (b.lineMarkTable.ptr ≤ j ∧ j < b.lineMarkTable.ptr + b.lineMarkTable.len) ∧ ¬ (t0.get j).isLive then .free
      else sw.lines.get j := fun j => by
    rw [hlines, b.lineMarkTable.get_sweepSlice sw.lines hb' j]
    simp only [h.isLive]
  have hin : ∀ j, LineIn (bs ++ [b]) j ↔
      LineIn bs j ∨ (b.lineMarkTable.ptr ≤ j ∧ j < b.lineMarkTable.ptr + b.lineMarkTable.len) := fun j => by
    simp [LineIn, or_and_right, exists_or]
  obtain ⟨hlen, hstart⟩ := b.lineMarkTable.sweepSlice_table sw.lines hb'
  rw [← hlines] at hlen hstart
  refine ⟨hlen.trans h.len, hstart.trans h.spaceStart, fun j hj hl => ?_, fun j hl => ?_, fun j hj => ?_, ?_, ?_, ?_, ?_⟩
  · rw [hget j]
    split_ifs with hif
    · rfl
    · refine h.get_in j ?_ hl
      rcases (hin j).1 hj with hj | hj
      · exact hj
      · exact absurd ⟨hj, hl⟩ hif
  · rw [hget j, if_neg (by tauto), h.get_live j hl]
  · rw [hin] at hj
    rw [hget j, if_neg (by tauto), h.get_out j (by tauto)]
  · rcases hcases with ⟨-, h1, h2, -⟩ | ⟨-, h1, h2, -⟩
    · rw [h1, h2, ← List.append_assoc, List.append_assoc]
      have : ([b] ++ sw.liveBlocks).Perm (sw.liveBlocks ++ [b]) := List.perm_append_comm
      refine (this.append_left sw.usable).trans ?_
      rw [← List.append_assoc]
      exact h.perm.append_right [b]
    · rw [h1, h2, ← List.append_assoc]
      have : (b :: sw.liveBlocks).Perm (sw.liveBlocks ++ [b]) := (List.perm_append_singleton b _).symm
      refine (this.append_left sw.usable).trans ?_
      rw [← List.append_assoc]
      exact h.perm.append_right [b]
  · intro c
    rcases hcases with ⟨hf, h1, -, -⟩ | ⟨hf, h1, -, -⟩ <;> rw [h.hasFree] at hf <;> rw [h1] <;>
      simp only [List.mem_append, List.mem_singleton, h.usable c]
    · constructor
      · rintro ((hc | hc) | rfl) <;> tauto
      · rintro (hc | ⟨hc | rfl, hc'⟩) <;> tauto
    · constructor
      · rintro (hc | hc) <;> tauto
      · rintro (hc | ⟨hc | rfl, hc'⟩) <;> tauto
  · intro c
    rcases hcases with ⟨hf, -, h2, -⟩ | ⟨hf, -, h2, -⟩ <;> rw [h.hasFree] at hf <;> rw [h2] <;>
      simp only [List.mem_append, List.mem_cons, List.not_mem_nil, or_false, h.live c]
    · constructor
      · rintro (hc | hc) <;> tauto
      · rintro (hc | ⟨hc | rfl, hc'⟩) <;> tauto
    · constructor
      · rintro (rfl | hc | hc) <;> tauto
      · rintro (hc | ⟨hc | rfl, hc'⟩) <;> tauto
  · have := h.full
    rcases hcases with ⟨-, -, h2, h3⟩ | ⟨-, -, h2, h3⟩
    · rw [h2, h3]; exact this
    · rw [h2, h3, List.length_cons]; omega

theorem swept_foldl {t0 : LineMarkTable} {sw0 sw : Sweep} {bs : List ImmixBlock} (h : Swept t0 sw0 bs sw)
    (more : List ImmixBlock) (hb : ∀ b ∈ more, b.lineMarkTable.ptr + b.lineMarkTable.len ≤ t0.len) :
    Swept t0 sw0 (bs ++ more) (more.foldl sweepBlock sw) := by
  induction more generalizing bs sw with
  | nil => simpa using h
  | cons b more ih =>
    have := ih (h.step (hb b List.mem_cons_self)) fun c hc => hb c (List.mem_cons_of_mem b hc)
    simpa using this

/-- **Sweep.** Every line of a used block that is not Live or ConservLive becomes Free and no other line changes; a used
block goes to the usable queue exactly when it has such a line and is kept in `live_blocks` otherwise; no block is lost
or duplicated; `full_blocks` counts the kept ones. -/
theorem sweep_spec (t : LineMarkTable) (usable used : List ImmixBlock)
    (hb : ∀ b ∈ used, b.lineMarkTable.ptr + b.lineMarkTable.len ≤ t.len) :
    Swept t ⟨t, usable, [], 0, 0⟩ used (sweep t usable used) := by
  have h0 : Swept t ⟨t, usable, [], 0, 0⟩ [] ⟨t, usable, [], 0, 0⟩ := by
    refine ⟨rfl, rfl, fun j hj => ?_, fun j _ => rfl, fun j _ => rfl, ?_, ?_, ?_, rfl⟩
    · obtain ⟨b, hb, -⟩ := hj; cases hb
    · simp
    · simp
    · simp
  exact swept_foldl h0 used hb

end Immix
