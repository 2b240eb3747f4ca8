/-
The mutator's side of allocation (`src/heap/immix/immix_mutator.rs`): the bump region, the hole search in the block the
mutator holds, and the geometry that the three allocation functions keep.

`ImmixMutatorLocal` has the fields allocation reads and writes; `alloc_map` and `space_start` are those of the space, and
the mutator's index and its shared flags belong to the barrier.
- `Shape`: the bump region lies in the block, below the mutator's line, and its lines are FreshAlloc.
- `bump_spec`, `tryAllocFromLocal_hole`, `shape_useBlock`, `shape_reset`: what each function does to it.
-/
import Immix.Space

namespace Immix

structure ImmixMutatorLocal where
  cursor : ℕ
  limit : ℕ
  line : ℕ
  block : Option ImmixBlock

/-- the answer of `try_alloc_from_local` -/
inductive LocalAlloc where
  /-- a hole was taken: `alloc` is called again -/
  | hole (x : ImmixMutatorLocal) (lines : LineMarkTable)
  /-- on to `alloc_from_global` -/
  | none
  /-- `block()` unwrapped a missing block -/
  | panicked

namespace ImmixMutatorLocal

def new : ImmixMutatorLocal := ⟨0, 0, linesInBlock, none⟩

def reset (_ : ImmixMutatorLocal) : ImmixMutatorLocal := ⟨0, 0, linesInBlock, none⟩

/-- the fast path of `alloc`: the address returned, or `none` where it calls `try_alloc_from_local` -/
def bump (x : ImmixMutatorLocal) (layout : Layout) : Option (ℕ × ImmixMutatorLocal) :=
  let start := Address.alignUp x.cursor layout.align
  let stop := Address.plus start layout.size
  if stop ≤ x.limit then some (start, { x with cursor := stop }) else none

def tryAllocFromLocal (x : ImmixMutatorLocal) (t : LineMarkTable) : LocalAlloc :=
  if x.line < linesInBlock then
    match x.block with
    | none => .panicked
    | some b =>
      match b.lineMarkTable.getNextAvailableLine t x.line with
      | some nextAvailableLine =>
        let endLine := b.lineMarkTable.getNextUnavailableLine t nextAvailableLine
        .hole ⟨Address.plus b.start (nextAvailableLine <<< logBytesInLine),
          Address.plus b.start (endLine <<< logBytesInLine), endLine, some b⟩
          (b.lineMarkTable.freshen t nextAvailableLine endLine)
      | none => .none
  else .none

/-- `alloc_from_global` with the block it stole -/
def useBlock (_ : ImmixMutatorLocal) (b : ImmixBlock) : ImmixMutatorLocal := ⟨b.start, b.start, 0, some b⟩

/-- `return_block`: the mutator without its block, and what is pushed on `used_blocks` -/
def returnBlock (x : ImmixMutatorLocal) (used : List ImmixBlock) : ImmixMutatorLocal × List ImmixBlock :=
  match x.block with
  | some b => ({ x with block := none }, used ++ [b])
  | none => (x, used)

@[simp] theorem returnBlock_block (x : ImmixMutatorLocal) (used : List ImmixBlock) :
    (x.returnBlock used).1.block = none := by
  unfold returnBlock
  cases h : x.block <;> simp [h]

theorem returnBlock_used (x : ImmixMutatorLocal) (used : List ImmixBlock) :
    (x.returnBlock used).2 = used ++ x.block.toList := by
  unfold returnBlock
  cases h : x.block <;> simp

end ImmixMutatorLocal

open ImmixMutatorLocal

/-! ## Blocks and lines -/

section Geometry

variable {sp : Space} {t : LineMarkTable} (hstart : t.spaceStart = sp.start)

theorem lineOf_eq (t : LineMarkTable) (a : ℕ) : t.lineOf a = (a - t.spaceStart) / 256 := by
  rw [LineMarkTable.lineOf, shiftRight_line]; rfl

/-- the byte belongs to the block -/
def ImmixBlock.Has (b : ImmixBlock) (a : ℕ) : Prop := b.start ≤ a ∧ a < b.start + 65536

/-- two different blocks of a space have no byte in common -/
theorem block_eq_of_has {i j a : ℕ} (hi : (sp.block i).Has a) (hj : (sp.block j).Has a) : i = j := by
  unfold ImmixBlock.Has Space.block at *
  simp only at hi hj
  omega

include hstart in
/-- the line of a byte of block `k`, counted from the block's first line -/
theorem lineOf_block {k a : ℕ} (ha : (sp.block k).Has a) :
    t.lineOf a = k * 256 + (a - (sp.block k).start) / 256 ∧ (a - (sp.block k).start) / 256 < 256 := by
  unfold ImmixBlock.Has Space.block at *
  rw [lineOf_eq, hstart]
  simp only at ha ⊢
  omega

/-- a mutator's bump region and its block -/
structure Shape (t : LineMarkTable) (x : ImmixMutatorLocal) : Prop where
  empty : x.block = none → x.cursor = 0 ∧ x.limit = 0 ∧ x.line = 256
  region : ∀ b, x.block = some b →
    b.start ≤ x.cursor ∧ x.cursor ≤ x.limit ∧ x.limit ≤ b.start + x.line * 256 ∧ x.line ≤ 256
  fresh : ∀ a, x.cursor ≤ a → a < x.limit → t.get (t.lineOf a) = .freshAlloc

theorem shape_reset (t : LineMarkTable) (x : ImmixMutatorLocal) : Shape t x.reset :=
  ⟨fun _ => ⟨rfl, rfl, rfl⟩, nofun, fun a _ h => by simp [ImmixMutatorLocal.reset] at h⟩

theorem shape_useBlock (t : LineMarkTable) (x : ImmixMutatorLocal) (b : ImmixBlock) : Shape t (x.useBlock b) := by
  refine ⟨nofun, fun b' hb => ?_, fun a h1 h2 => ?_⟩
  · cases hb; simp [useBlock]
  · simp only [useBlock] at h1 h2; omega

/-- the bytes of the bump region are bytes of the block -/
theorem Shape.has {x : ImmixMutatorLocal} (h : Shape t x) {b : ImmixBlock} (hb : x.block = some b) {a : ℕ}
    (h1 : x.cursor ≤ a) (h2 : a < x.limit) : b.Has a := by
  have := h.region b hb
  unfold ImmixBlock.Has
  omega

/-- a mutator with bytes left in its bump region holds a block -/
theorem Shape.block_of_lt {x : ImmixMutatorLocal} (h : Shape t x) (hlt : x.cursor < x.limit) : ∃ b, x.block = some b := by
  cases hb : x.block with
  | some b => exact ⟨b, rfl⟩
  | none => have := h.empty hb; omega

/-- the range the fast path hands out is the first fitting part of the bump region -/
theorem bump_spec {x x' : ImmixMutatorLocal} {l : Layout} {a : ℕ} (hx : x.cursor ≤ 2 ^ 63)
    (h : x.bump l = some (a, x')) :
    x.cursor ≤ a ∧ a + l.size ≤ x.limit ∧ l.align ∣ a ∧ x' = { x with cursor := a + l.size } := by
  unfold bump at h
  simp only at h
  split_ifs at h with hle
  obtain ⟨h1, -, h3⟩ := l.alignUp_bounds hx
  simp only [Option.some.injEq, Prod.mk.injEq] at h
  obtain ⟨rfl, rfl⟩ := h
  exact ⟨h1, hle, h3, rfl⟩

theorem Shape.bump {x x' : ImmixMutatorLocal} {l : Layout} {a : ℕ} (h : Shape t x) (hx : x.cursor ≤ 2 ^ 63)
    (hb : x.bump l = some (a, x')) : Shape t x' := by
  obtain ⟨h1, h2, -, rfl⟩ := bump_spec hx hb
  refine ⟨fun hn => ?_, fun b hb => ?_, fun y hy1 hy2 => h.fresh y (by simp only at hy1; omega) hy2⟩
  · have := h.empty hn
    simp only
    omega
  · have := h.region b hb
    simp only
    omega

/-- **The hole search.** The hole is a run of Free lines of the block, at or after the mutator's line, and becomes
FreshAlloc; the bump region is the hole. -/
theorem tryAllocFromLocal_hole {x x' : ImmixMutatorLocal} {t' : LineMarkTable} {b : ImmixBlock} (hb : x.block = some b)
    (hlen : b.lineMarkTable.len = 256) (h : x.tryAllocFromLocal t = .hole x' t') :
    ∃ i j, x.line ≤ i ∧ i < j ∧ j ≤ 256 ∧ (∀ k, i ≤ k → k < j → b.lineMarkTable.get t k = .free) ∧
      x' = ⟨b.start + i * 256, b.start + j * 256, j, some b⟩ ∧ t' = b.lineMarkTable.freshen t i j := by
  unfold tryAllocFromLocal at h
  rw [hb] at h
  split_ifs at h with hline
  simp only at h
  cases hnext : b.lineMarkTable.getNextAvailableLine t x.line with
  | none => rw [hnext] at h; cases h
  | some i =>
    rw [hnext] at h
    simp only [LocalAlloc.hole.injEq, Address.plus, shiftLeft_line] at h
    obtain ⟨h1, h2, hf, -⟩ := b.lineMarkTable.nextAvailable_some t hnext
    obtain ⟨-, h4, h5, -⟩ := b.lineMarkTable.nextUnavailable_spec t h2.le
    refine ⟨i, b.lineMarkTable.getNextUnavailableLine t i, h1, b.lineMarkTable.nextUnavailable_gt t h2 hf,
      by omega, h5, h.1.symm, h.2.symm⟩

theorem tryAllocFromLocal_block {x x' : ImmixMutatorLocal} {t' : LineMarkTable} (h : x.tryAllocFromLocal t = .hole x' t') :
    ∃ b, x.block = some b := by
  cases hb : x.block with
  | some b => exact ⟨b, rfl⟩
  | none =>
    unfold tryAllocFromLocal at h
    rw [hb] at h
    split_ifs at h

/-- a mutator that holds its block, or has none and no line left, does not panic -/
theorem Shape.not_panicked {x : ImmixMutatorLocal} (h : Shape t x) : x.tryAllocFromLocal t ≠ .panicked := by
  unfold tryAllocFromLocal
  cases hb : x.block with
  | none =>
    have := (h.empty hb).2.2
    rw [if_neg (by simp; omega)]
    exact nofun
  | some b =>
    simp only
    split_ifs
    · cases b.lineMarkTable.getNextAvailableLine t x.line <;> simp
    · exact nofun

/-- the marks after the hole of lines `i .. j` of block `k` is taken -/
theorem get_freshen_block {k i j : ℕ} (hk : k < sp.size / 65536) (hlen : t.len = sp.size / 256) (hj : j ≤ 256) (n : ℕ) :
    ((sp.block k).lineMarkTable.freshen t i j).get n =
      if k * 256 + i ≤ n ∧ n < k * 256 + j then .freshAlloc else t.get n := by
  have hslice : k * 256 + 256 ≤ sp.size / 256 := slice_in_table hk
  rw [LineMarkTableSlice.get_freshen _ _ (by simp only [Space.block]; omega)]
  rfl

include hstart in
theorem Shape.hole {k i j : ℕ} (hk : k < sp.size / 65536) (hlen : t.len = sp.size / 256) (hij : i < j) (hj : j ≤ 256) :
    Shape ((sp.block k).lineMarkTable.freshen t i j)
      ⟨(sp.block k).start + i * 256, (sp.block k).start + j * 256, j, some (sp.block k)⟩ := by
  refine ⟨nofun, fun b hb => ?_, fun a h1 h2 => ?_⟩
  · cases hb
    simp only
    omega
  · have ha : (sp.block k).Has a := by unfold ImmixBlock.Has; simp only at h1 h2; omega
    have hline := lineOf_block (t := (sp.block k).lineMarkTable.freshen t i j) (by simpa using hstart) ha
    simp only at h1 h2
    rw [get_freshen_block hk hlen hj, if_pos (by omega)]

end Geometry

end Immix
