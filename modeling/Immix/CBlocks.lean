/-
The space of the C program (`init_blocks`, `ImmixSpace_new` and `ImmixSpace_get_next_usable_block` of
`c_src/immix_space.c`, the structures of `c_src/immix.h`).

Block pointers are numbers, with `none` for NULL; `malloc n` is the pointer to block `n` of the space. Memory that
`malloc` returns holds anything: `raw` is what the memory of the space and of its blocks holds before it is written. A
store through a pointer to no block is undefined behaviour. The contents of the maps and of the line mark table, all 0
in a new space, and the lock, held for the whole of a call, are left out.
- `Constructed`, `new_spec`: what `ImmixSpace_new` builds, for every size that `mmap` accepts.
- `block_lists_iff`: the two lists are well-formed in every state of every run if and only if the memory held NULL where
  the construction writes nothing.
- `last_next_is_unset`: a space of one block whose `next` is not NULL.
-/
import Immix.Lib.LinkedList
import Immix.Lib.Run
import Immix.CAlloc

namespace Immix.C.Blocks

open Immix.Lib

/-! ## Model -/

def immixBlockMarkUsable : UInt8 := 0

structure ImmixBlock extends C.ImmixBlock where
  next : Option ℕ
  prev : Option ℕ
  id : ℤ
  state : UInt8

structure ImmixSpace where
  start : ℕ
  stop : ℕ
  mapLen : ℤ
  lineMarkTableLen : ℤ
  totalBlocks : ℤ
  usableBlocks : Option ℕ
  usedBlocks : Option ℕ
  /-- the memory of the blocks -/
  block : ℕ → ImmixBlock
  /-- the blocks `init_blocks` has allocated, in order -/
  blocks : List ℕ

/-- `p->next = v` -/
def setNext (m : ℕ → ImmixBlock) (p : ℕ) (v : Option ℕ) : ℕ → ImmixBlock :=
  Function.update m p { m p with next := v }

/-- `p->prev = v` -/
def setPrev (m : ℕ → ImmixBlock) (p : ℕ) (v : Option ℕ) : ℕ → ImmixBlock :=
  Function.update m p { m p with prev := v }

/-- the variables of the loop of `init_blocks` -/
structure Loop where
  space : ImmixSpace
  cur : ℕ
  curLineMark : ℕ
  last : Option ℕ
  id : ℤ

section

variable (malloc : ℕ → ℕ)

/-- the body of the loop, and its increments -/
def Loop.body (l : Loop) : Loop :=
  let b := malloc l.space.blocks.length
  let m :=
    match l.last with
    | none => setPrev l.space.block b none
    | some last => setPrev (setNext l.space.block last (some b)) b (some last)
  let m := Function.update m b
    { m b with
      id := l.id, state := immixBlockMarkUsable, start := l.cur, lineMarkPtr := l.curLineMark,
      lineMarkLen := linesInBlock }
  { space := { l.space with
      usableBlocks := if l.last = none then some b else l.space.usableBlocks
      block := m
      blocks := l.space.blocks ++ [b] }
    cur := uintptr (l.cur + bytesInBlock)
    curLineMark := l.curLineMark + linesInBlock
    last := some b
    id := l.id + 1 }

/-- `none` when the fuel runs out -/
def initFrom : ℕ → Loop → Option ImmixSpace
  | 0, _ => none
  | fuel + 1, l =>
    if l.cur < l.space.stop then initFrom fuel (l.body malloc)
    else some { l.space with totalBlocks := l.id }

def initBlocks (space : ImmixSpace) : Option ImmixSpace :=
  initFrom malloc ((space.stop - space.start) / bytesInBlock + 2) ⟨space, space.start, 0, none, 0⟩

/-- `ImmixSpace_new`; `none` when `mmap` fails and the program exits -/
def ImmixSpace.new (mmap : ℕ → Option ℕ) (raw : ImmixSpace) (spaceSize : Int32) : Option ImmixSpace :=
  match mmap (uintptr spaceSize.toInt) with
  | none => none
  | some mmapStart =>
    let start := alignUp mmapStart bytesInBlock
    initBlocks malloc
      { raw with
        start := start
        stop := uintptr (start + spaceSize.toInt)
        lineMarkTableLen := spaceSize.toInt.tdiv bytesInLine
        mapLen := spaceSize.toInt >>> logPointerSize
        blocks := [] }

end

/-- how a call of `ImmixSpace_get_next_usable_block` ends: with a block, with `exit(1)`, or in undefined behaviour -/
inductive Taken where
  | block (p : ℕ) (space : ImmixSpace)
  | exhausted
  | wild

namespace ImmixSpace

variable (s : ImmixSpace)

def setNext (p : ℕ) (v : Option ℕ) : Option ImmixSpace :=
  if p ∈ s.blocks then some { s with block := Blocks.setNext s.block p v } else none

def setPrev (p : ℕ) (v : Option ℕ) : Option ImmixSpace :=
  if p ∈ s.blocks then some { s with block := Blocks.setPrev s.block p v } else none

/-- `if (p != NULL) p->prev = v` -/
def setPrevOf (p v : Option ℕ) : Option ImmixSpace :=
  match p with
  | none => some s
  | some p => s.setPrev p v

/-- the list operations, for the first usable block -/
def take (newBlock : ℕ) : Option ImmixSpace := do
  let next := (s.block newBlock).next
  let s ← { s with usableBlocks := next }.setPrevOf next none
  let s ← s.setPrev newBlock none
  let s ← s.setNext newBlock s.usedBlocks
  let s ← s.setPrevOf s.usedBlocks (some newBlock)
  return { s with usedBlocks := some newBlock }

def getNextUsableBlock : Taken :=
  match s.usableBlocks with
  | none => .exhausted
  | some newBlock =>
    match s.take newBlock with
    | none => .wild
    | some s' => .block newBlock s'

/-- **Well-formed lists.** Both end in NULL, and together they hold every block exactly once. -/
def WellFormed : Prop :=
  ∃ usable used,
    DoublyLinked (fun p => (s.block p).next) (fun p => (s.block p).prev) none s.usableBlocks usable ∧
    DoublyLinked (fun p => (s.block p).next) (fun p => (s.block p).prev) none s.usedBlocks used ∧
    (usable ++ used).Perm s.blocks ∧ s.blocks.Nodup ∧ (s.blocks.length : ℤ) = s.totalBlocks

end ImmixSpace

/-- the program after some calls: running, with the blocks returned; after `exit(1)`; or after undefined behaviour -/
inductive Program where
  | running (space : ImmixSpace) (returned : List ℕ)
  | exited (returned : List ℕ)
  | wild

/-- one call -/
def Program.call : Program → Program
  | .running space returned =>
    match space.getNextUsableBlock with
    | .block p space => .running space (returned ++ [p])
    | .exhausted => .exited returned
    | .wild => .wild
  | .exited returned => .exited returned
  | .wild => .wild

/-- the program after `n` calls -/
def calls (space : ImmixSpace) (n : ℕ) : Program := Program.call^[n] (.running space [])

/-- what is to hold of a new space -/
structure ListsHold (space : ImmixSpace) : Prop where
  /-- the lists are well-formed as long as there are blocks, and the blocks are returned in id order -/
  lists : ∀ n : ℕ, (n : ℤ) ≤ space.totalBlocks → ∃ s returned, calls space n = .running s returned ∧ s.WellFormed ∧
    returned.map (fun p => (s.block p).id) = (List.range n).map fun k : ℕ => (k : ℤ)
  /-- the next call finds the list empty and exits -/
  exhausted : ∀ n : ℕ, (n : ℤ) = space.totalBlocks → ∃ s returned, calls space n = .running s returned ∧
    s.usableBlocks = none ∧ calls space (n + 1) = .exited returned

/-- the documented behaviour of `mmap`: it fails for length 0, and returns a page of the user half of the address space
with the whole mapping behind it -/
structure MmapSpec (mmap : ℕ → Option ℕ) : Prop where
  page : ∀ len p, mmap len = some p → 0 < len ∧ 4096 ∣ p ∧ 0 < p ∧ p + len ≤ 2 ^ 63

/-- blocks that start before the end of a space -/
def numBlocks (spaceSize : Int32) : ℕ := (spaceSize.toInt.toNat + 65535) / 65536

/-- the memory held NULL in the fields that the construction does not write -/
structure Cleared (malloc : ℕ → ℕ) (raw : ImmixSpace) (spaceSize : Int32) : Prop where
  used : raw.usedBlocks = none
  next : ∀ k, numBlocks spaceSize = k + 1 → (raw.block (malloc k)).next = none

/-! ## Construction -/

section Construction

variable {malloc : ℕ → ℕ} {base : ImmixSpace} {l : Loop} {k : ℕ}

variable (malloc) in
/-- the block before block `i` -/
def link : ℕ → Option ℕ
  | 0 => none
  | i + 1 => some (malloc i)

variable (malloc base) in
/-- what `init_blocks` writes into block `i`, with the `next` it has -/
def built (i : ℕ) (next : Option ℕ) : ImmixBlock where
  start := base.start + 65536 * i
  lineMarkPtr := 256 * i
  lineMarkLen := 256
  next := next
  prev := link malloc i
  id := i
  state := immixBlockMarkUsable

variable (malloc base) in
/-- the loop after `k` rounds -/
structure Built (k : ℕ) (l : Loop) : Prop where
  space : l.space = { base with
    usableBlocks := l.space.usableBlocks, block := l.space.block, blocks := (List.range k).map malloc }
  cur : l.cur = base.start + 65536 * k
  curLineMark : l.curLineMark = 256 * k
  last : l.last = link malloc k
  id : l.id = k
  usable : 0 < k → l.space.usableBlocks = some (malloc 0)
  done : ∀ i < k, l.space.block (malloc i) =
    built malloc base i (if i + 1 < k then some (malloc (i + 1)) else (base.block (malloc i)).next)
  rest : ∀ i, k ≤ i → l.space.block (malloc i) = base.block (malloc i)

/-- the memory after a round: the block before the new one names it, and the new one is built -/
theorem Built.memory (hinj : malloc.Injective) (h : Built malloc base k l) (i : ℕ) :
    (l.body malloc).space.block (malloc i) =
      if i = k then built malloc base k (base.block (malloc k)).next
      else if i + 1 = k then built malloc base i (some (malloc k))
      else l.space.block (malloc i) := by
  have hb : malloc l.space.blocks.length = malloc k := by rw [h.space, List.length_map, List.length_range]
  have hne : ∀ {i j}, i ≠ j → malloc i ≠ malloc j := fun hij heq => hij (hinj heq)
  have hold := h.rest k le_rfl
  unfold Loop.body
  simp only [hb, h.last, h.id, h.cur, h.curLineMark]
  cases k with
  | zero =>
    by_cases hi : i = 0
    · subst hi
      simp [link, setPrev, built, hold]
    · simp [link, setPrev, hi, hne hi]
  | succ j =>
    have hdone := h.done j j.lt_succ_self
    by_cases hi : i = j + 1
    · subst hi
      simp [link, setPrev, setNext, built, hold, hne (Nat.succ_ne_self j)]
    · rw [if_neg hi, Function.update_of_ne (hne hi)]
      simp only [link, setPrev]
      rw [Function.update_of_ne (hne hi), setNext]
      by_cases hij : i = j
      · subst hij
        rw [Function.update_self, hdone, if_pos rfl]
        rfl
      · rw [Function.update_of_ne (hne hij), if_neg (by omega)]

/-- **A round.** -/
theorem Built.body (hinj : malloc.Injective) (h : Built malloc base k l)
    (hfits : base.start + 65536 * k + 65536 < 2 ^ 64) : Built malloc base (k + 1) (l.body malloc) := by
  have hblocks : l.space.blocks = (List.range k).map malloc := by rw [h.space]
  have hb : malloc l.space.blocks.length = malloc k := by rw [hblocks, List.length_map, List.length_range]
  have hmem := h.memory hinj
  refine ⟨?_, ?_, ?_, ?_, ?_, fun _ => ?_, fun i hi => ?_, fun i hi => ?_⟩
  · rw [List.range_succ, List.map_append, List.map_singleton, ← hblocks, ← hb]
    unfold Loop.body
    rw [h.space]
  · have hcur : (l.body malloc).cur = uintptr ((l.cur : ℤ) + (bytesInBlock : ℤ)) := rfl
    rw [hcur, ← Nat.cast_add, h.cur, bytesInBlock_eq]
    exact (uintptr_natCast hfits).trans (by omega)
  · have hmark : (l.body malloc).curLineMark = l.curLineMark + linesInBlock := rfl
    rw [hmark, h.curLineMark, linesInBlock_eq]
    omega
  · have hlast : (l.body malloc).last = some (malloc l.space.blocks.length) := rfl
    rw [hlast, hb]
    rfl
  · have hid : (l.body malloc).id = l.id + 1 := rfl
    rw [hid, h.id]
    push_cast
    rfl
  · have husable : (l.body malloc).space.usableBlocks =
        if l.last = none then some (malloc l.space.blocks.length) else l.space.usableBlocks := rfl
    rw [husable, h.last, hb]
    cases k with
    | zero => rfl
    | succ j => exact h.usable j.succ_pos
  · rw [hmem]
    by_cases hik : i = k
    · rw [if_pos hik, hik, if_neg (by omega)]
    rw [if_neg hik]
    by_cases hik1 : i + 1 = k
    · rw [if_pos hik1, if_pos (by omega), hik1]
    · rw [if_neg hik1, h.done i (by omega), if_pos (by omega), if_pos (by omega)]
  · rw [hmem, if_neg (by omega), if_neg (by omega)]
    exact h.rest i (by omega)

theorem built_zero (h : base.blocks = []) : Built malloc base 0 ⟨base, base.start, 0, none, 0⟩ where
  space := by
    cases base
    cases h
    rfl
  cur := by rw [Nat.mul_zero, Nat.add_zero]
  curLineMark := rfl
  last := rfl
  id := rfl
  usable := fun h => absurd h (Nat.lt_irrefl 0)
  done := fun i hi => absurd hi (Nat.not_lt_zero i)
  rest := fun _ _ => rfl

/-- the loop ends, after a round for each block that starts before the end -/
theorem initFrom_spec (n fuel : ℕ) (hinj : malloc.Injective)
    (hn : ∀ j, base.start + 65536 * j < base.stop ↔ j < n) (hfits : base.start + 65536 * n < 2 ^ 64)
    (h : Built malloc base k l) (hk : k ≤ n) (hfuel : n < k + fuel) :
    ∃ l', initFrom malloc fuel l = some { l'.space with totalBlocks := n } ∧ Built malloc base n l' := by
  induction fuel generalizing k l with
  | zero => omega
  | succ fuel ih =>
    have hstop : l.space.stop = base.stop := by rw [h.space]
    unfold initFrom
    rw [h.cur, hstop]
    by_cases hlt : k < n
    · rw [if_pos ((hn k).2 hlt)]
      have hle : 65536 * k + 65536 ≤ 65536 * n := Nat.mul_le_mul_left 65536 hlt
      exact ih (h.body hinj (by omega)) hlt (by omega)
    · obtain rfl : k = n := by omega
      rw [if_neg fun hcur => hlt ((hn k).1 hcur), h.id]
      exact ⟨l, rfl, h⟩

variable {raw : ImmixSpace} {mmap : ℕ → Option ℕ} {mmapStart : ℕ} {spaceSize : Int32} {s : ImmixSpace}

variable (malloc raw mmapStart spaceSize) in
/-- **A new space.** -/
structure Constructed (s : ImmixSpace) : Prop where
  start : s.start = (mmapStart + 65535) / 65536 * 65536
  stop : s.stop = s.start + spaceSize.toInt.toNat
  mapLen : s.mapLen = (spaceSize.toInt.toNat / 8 : ℕ)
  lineMarkTableLen : s.lineMarkTableLen = (spaceSize.toInt.toNat / 256 : ℕ)
  totalBlocks : s.totalBlocks = numBlocks spaceSize
  usable : s.usableBlocks = some (malloc 0)
  used : s.usedBlocks = raw.usedBlocks
  blocks : s.blocks = (List.range (numBlocks spaceSize)).map malloc
  block : ∀ i < numBlocks spaceSize, s.block (malloc i) = built malloc s i
    (if i + 1 < numBlocks spaceSize then some (malloc (i + 1)) else (raw.block (malloc i)).next)

/-- `mmap` accepts positive sizes only -/
theorem MmapSpec.size_pos (hmmap : MmapSpec mmap) (hp : mmap (uintptr spaceSize.toInt) = some mmapStart) :
    0 < spaceSize.toInt ∧ uintptr spaceSize.toInt = spaceSize.toInt.toNat := by
  obtain ⟨hlen, -, -, hend⟩ := hmmap.page _ _ hp
  have hlow := spaceSize.le_toInt
  have hhigh := spaceSize.toInt_lt
  unfold uintptr at *
  omega

theorem numBlocks_pos (h : 0 < spaceSize.toInt) : 0 < numBlocks spaceSize := by
  unfold numBlocks
  omega

theorem alignUp_block {a : ℕ} (ha : a ≤ 2 ^ 63) : alignUp a bytesInBlock = (a + 65535) / 65536 * 65536 := by
  have hrust : alignUp a (2 ^ 16 : ℕ) = Address.alignUp a (2 ^ 16) := C.alignUp_eq (by norm_num) (by omega)
  have hround : Address.alignUp a (2 ^ 16) = (a + 2 ^ 16 - 1) / 2 ^ 16 * 2 ^ 16 :=
    Immix.alignUp_eq (by norm_num) (by unfold usize; omega)
  exact hrust.trans hround

/-- the finished loop has built the space -/
theorem Built.constructed (h : Built malloc base (numBlocks spaceSize) l) (hpos : 0 < spaceSize.toInt)
    (hstart : base.start = (mmapStart + 65535) / 65536 * 65536)
    (hstop : base.stop = base.start + spaceSize.toInt.toNat)
    (hmapLen : base.mapLen = (spaceSize.toInt.toNat / 8 : ℕ))
    (hlineMarkTableLen : base.lineMarkTableLen = (spaceSize.toInt.toNat / 256 : ℕ))
    (hused : base.usedBlocks = raw.usedBlocks) (hblock : base.block = raw.block) :
    Constructed malloc raw mmapStart spaceSize { l.space with totalBlocks := numBlocks spaceSize } where
  start := by rw [h.space, ← hstart]
  stop := by rw [h.space, ← hstop]
  mapLen := by rw [h.space, ← hmapLen]
  lineMarkTableLen := by rw [h.space, ← hlineMarkTableLen]
  totalBlocks := rfl
  usable := h.usable (numBlocks_pos hpos)
  used := by rw [h.space, ← hused]
  blocks := by rw [h.space]
  block := fun i hi => by
    have hlstart : l.space.start = base.start := by rw [h.space]
    dsimp only
    rw [h.done i hi, hblock]
    unfold built
    rw [hlstart]

variable (raw) in
/-- **The constructor.** For every size that `mmap` accepts, `ImmixSpace_new` returns. -/
theorem new_spec (hmmap : MmapSpec mmap) (hinj : malloc.Injective)
    (hp : mmap (uintptr spaceSize.toInt) = some mmapStart) :
    ∃ s, ImmixSpace.new malloc mmap raw spaceSize = some s ∧ Constructed malloc raw mmapStart spaceSize s := by
  obtain ⟨hpos, hsize⟩ := hmmap.size_pos hp
  obtain ⟨-, -, -, hend⟩ := hmmap.page _ _ hp
  have hhigh := spaceSize.toInt_lt
  rw [hsize] at hend
  obtain ⟨size, hcast⟩ : ∃ size : ℕ, spaceSize.toInt = size := ⟨_, (Int.toNat_of_nonneg hpos.le).symm⟩
  have hsz : spaceSize.toInt.toNat = size := by rw [hcast, Int.toNat_natCast]
  rw [hsz] at hend
  have hstart := alignUp_block (a := mmapStart) (by omega)
  have hstop : uintptr ((alignUp mmapStart bytesInBlock : ℕ) + spaceSize.toInt) =
      alignUp mmapStart bytesInBlock + size := by
    rw [hcast, ← Nat.cast_add, uintptr_natCast (by omega)]
  unfold ImmixSpace.new
  rw [hp]
  dsimp only
  rw [hstop, hcast]
  obtain ⟨base, hbase⟩ : ∃ base : ImmixSpace, base = { raw with
      start := alignUp mmapStart bytesInBlock
      stop := alignUp mmapStart bytesInBlock + size
      lineMarkTableLen := (size : ℤ).tdiv bytesInLine
      mapLen := (size : ℤ) >>> logPointerSize
      blocks := [] } := ⟨_, rfl⟩
  rw [← hbase]
  have hbstart : base.start = (mmapStart + 65535) / 65536 * 65536 := by rw [hbase, hstart]
  have hbstop : base.stop = base.start + size := by rw [hbase]
  have hnum : numBlocks spaceSize = (size + 65535) / 65536 := by rw [numBlocks, hsz]
  -- the fuel covers every block that starts before the end
  obtain ⟨l, hrun, hbuilt⟩ := initFrom_spec (numBlocks spaceSize) ((base.stop - base.start) / bytesInBlock + 2) hinj
    (fun j => by rw [hbstop, hnum]; omega) (by rw [hbstart, hnum]; omega) (built_zero (by rw [hbase]))
    (Nat.zero_le _) (by rw [hbstop, hnum, bytesInBlock_eq]; omega)
  refine ⟨_, hrun, hbuilt.constructed hpos hbstart ?_ ?_ ?_ (by rw [hbase]) (by rw [hbase])⟩
  · rw [hbstop, hsz]
  · rw [hbase, hsz]
    exact Int.shiftRight_eq_div_pow size 3
  · rw [hbase, hsz]
    rfl

end Construction

/-! ## One call -/

section Call

variable {s : ImmixSpace} {newBlock : ℕ}

theorem setPrevOf_spec (s : ImmixSpace) {p : Option ℕ} (v : Option ℕ) (hp : ∀ q, p = some q → q ∈ s.blocks) :
    ∃ m, s.setPrevOf p v = some { s with block := m } ∧
      ∀ r, (m r).next = (s.block r).next ∧ (m r).id = (s.block r).id ∧
        (m r).prev = if p = some r then v else (s.block r).prev := by
  cases p with
  | none => exact ⟨s.block, rfl, fun r => ⟨rfl, rfl, rfl⟩⟩
  | some q =>
    refine ⟨Blocks.setPrev s.block q v, if_pos (hp q rfl), fun r => ?_⟩
    unfold Blocks.setPrev
    by_cases hr : r = q
    · subst hr
      simp
    · have hne : ¬ some q = some r := fun h => hr (Option.some.inj h).symm
      rw [Function.update_of_ne hr, if_neg hne]
      exact ⟨rfl, rfl, rfl⟩

theorem setNext_spec (s : ImmixSpace) {p : ℕ} (v : Option ℕ) (hp : p ∈ s.blocks) :
    ∃ m, s.setNext p v = some { s with block := m } ∧
      ∀ r, (m r).prev = (s.block r).prev ∧ (m r).id = (s.block r).id ∧
        (m r).next = if r = p then v else (s.block r).next := by
  refine ⟨Blocks.setNext s.block p v, if_pos hp, fun r => ?_⟩
  unfold Blocks.setNext
  by_cases hr : r = p
  · subst hr
    simp
  · rw [Function.update_of_ne hr, if_neg hr]
    exact ⟨rfl, rfl, rfl⟩

/-- the stores of a call, in a space whose pointers are blocks: the `next` of the new block, and every `prev` -/
theorem take_spec (hnew : newBlock ∈ s.blocks) (hnext : ∀ q, (s.block newBlock).next = some q → q ∈ s.blocks)
    (hused : ∀ q, s.usedBlocks = some q → q ∈ s.blocks) :
    ∃ m, s.take newBlock = some
        { s with usableBlocks := (s.block newBlock).next, usedBlocks := some newBlock, block := m } ∧
      ∀ r, (m r).id = (s.block r).id ∧ ((m r).next = if r = newBlock then s.usedBlocks else (s.block r).next) ∧
        (m r).prev = if s.usedBlocks = some r then some newBlock
          else if r = newBlock ∨ (s.block newBlock).next = some r then none else (s.block r).prev := by
  obtain ⟨m1, h1, hm1⟩ := setPrevOf_spec { s with usableBlocks := (s.block newBlock).next } none hnext
  obtain ⟨m2, h2, hm2⟩ := setPrevOf_spec { s with usableBlocks := (s.block newBlock).next, block := m1 }
    (p := some newBlock) none fun q hq => Option.some.inj hq ▸ hnew
  obtain ⟨m3, h3, hm3⟩ := setNext_spec { s with usableBlocks := (s.block newBlock).next, block := m2 } s.usedBlocks hnew
  obtain ⟨m4, h4, hm4⟩ := setPrevOf_spec { s with usableBlocks := (s.block newBlock).next, block := m3 }
    (some newBlock) hused
  refine ⟨m4, ?_, fun r => ?_⟩
  · unfold ImmixSpace.take
    dsimp only
    rw [h1]
    show ((_ : Option ImmixSpace).bind _) = _
    rw [Option.bind_some]
    show ((ImmixSpace.setPrevOf _ (some newBlock) none).bind _) = _
    rw [h2, Option.bind_some]
    show ((ImmixSpace.setNext _ newBlock s.usedBlocks).bind _) = _
    rw [h3, Option.bind_some]
    show ((ImmixSpace.setPrevOf _ s.usedBlocks (some newBlock)).bind _) = _
    rw [h4]
    rfl
  · obtain ⟨hn1, hi1, hp1⟩ := hm1 r
    obtain ⟨hn2, hi2, hp2⟩ := hm2 r
    obtain ⟨hp3, hi3, hn3⟩ := hm3 r
    obtain ⟨hn4, hi4, hp4⟩ := hm4 r
    dsimp only at hn1 hi1 hp1 hn2 hi2 hp2 hn3 hi3 hp3 hn4 hi4 hp4
    rw [hi4, hi3, hi2, hi1, hn4, hn3, hn2, hn1, hp4, hp3, hp2, hp1]
    refine ⟨rfl, rfl, ?_⟩
    by_cases hr : r = newBlock
    · simp [hr]
    · have hne : ¬ some newBlock = some r := fun h => hr (Option.some.inj h).symm
      simp only [hne, hr, if_false, false_or]

/-- **A call on a space with a usable block** moves the first of them to the front of the used ones. -/
theorem getNextUsableBlock_spec {q : ℕ} {usable used : List ℕ}
    (husable : DoublyLinked (fun p => (s.block p).next) (fun p => (s.block p).prev) none s.usableBlocks (q :: usable))
    (hused : DoublyLinked (fun p => (s.block p).next) (fun p => (s.block p).prev) none s.usedBlocks used)
    (hnodup : (q :: usable ++ used).Nodup) (hblocks : ∀ p ∈ q :: usable ++ used, p ∈ s.blocks) :
    ∃ s', s.getNextUsableBlock = .block q s' ∧ s'.blocks = s.blocks ∧ s'.totalBlocks = s.totalBlocks ∧
      (∀ p, (s'.block p).id = (s.block p).id) ∧
      DoublyLinked (fun p => (s'.block p).next) (fun p => (s'.block p).prev) none s'.usableBlocks usable ∧
      DoublyLinked (fun p => (s'.block p).next) (fun p => (s'.block p).prev) none s'.usedBlocks (q :: used) := by
  obtain ⟨hhead, -, hrest⟩ := husable
  have hnextmem : ∀ p, (s.block q).next = some p → p ∈ usable := fun p hp => hrest.chain.head_mem hp
  have husedmem : ∀ p, s.usedBlocks = some p → p ∈ used := fun p hp => hused.chain.head_mem hp
  rw [List.cons_append, List.nodup_cons, List.mem_append, not_or, List.nodup_append] at hnodup
  obtain ⟨⟨hq1, hq2⟩, -, -, hdisj⟩ := hnodup
  obtain ⟨m, htake, hm⟩ := take_spec (hblocks q (by simp))
    (fun p hp => hblocks p (by simp [hnextmem p hp])) fun p hp => hblocks p (by simp [husedmem p hp])
  have hcall : s.getNextUsableBlock = .block q
      { s with usableBlocks := (s.block q).next, usedBlocks := some q, block := m } := by
    rw [ImmixSpace.getNextUsableBlock, hhead]
    dsimp only
    rw [htake]
  refine ⟨_, hcall, rfl, rfl, fun p => (hm p).1, ?_, ?_⟩
  · -- the old second block is first now
    refine hrest.setPrev (fun p hp => ?_) fun p hp => ?_
    · obtain ⟨-, hn, hprev⟩ := hm p
      have hpq : p ≠ q := fun heq => hq1 (heq ▸ hp)
      have hpu : s.usedBlocks ≠ some p := fun heq => hdisj p hp p (husedmem p heq) rfl
      refine ⟨hn.trans (if_neg hpq), fun hne => hprev.trans ?_⟩
      rw [if_neg hpu, if_neg (not_or.2 ⟨hpq, hne⟩)]
    · obtain ⟨-, -, hprev⟩ := hm p
      have hpu : s.usedBlocks ≠ some p := fun heq => hdisj p (hnextmem p hp) p (husedmem p heq) rfl
      rw [hprev, if_neg hpu, if_pos (.inr hp)]
  · refine hused.push ?_ ?_ (fun p hp => ?_) fun p hp => ?_
    · exact (hm q).2.1.trans (if_pos rfl)
    · have hqu : s.usedBlocks ≠ some q := fun heq => hq2 (husedmem q heq)
      rw [(hm q).2.2, if_neg hqu, if_pos (.inl rfl)]
    · obtain ⟨-, hn, hprev⟩ := hm p
      have hpq : p ≠ q := fun heq => hq2 (heq ▸ hp)
      have hpn : (s.block q).next ≠ some p := fun heq => hdisj p (hnextmem p heq) p hp rfl
      refine ⟨hn.trans (if_neg hpq), fun hne => hprev.trans ?_⟩
      rw [if_neg hne, if_neg (not_or.2 ⟨hpq, hpn⟩)]
    · rw [(hm p).2.2, if_pos hp]

end Call

/-! ## Runs -/

section Runs

variable {malloc : ℕ → ℕ} {raw s0 s : ImmixSpace} {mmapStart : ℕ} {spaceSize : Int32} {n : ℕ}

/-- the lists after `n` calls on the new space `s0` -/
structure Lists (s0 : ImmixSpace) (n : ℕ) (s : ImmixSpace) : Prop where
  usable : DoublyLinked (fun p => (s.block p).next) (fun p => (s.block p).prev) none s.usableBlocks (s0.blocks.drop n)
  used : DoublyLinked (fun p => (s.block p).next) (fun p => (s.block p).prev) none s.usedBlocks
    (s0.blocks.take n).reverse
  blocks : s.blocks = s0.blocks
  totalBlocks : s.totalBlocks = s0.totalBlocks
  id : ∀ p, (s.block p).id = (s0.block p).id

theorem Lists.perm (h : Lists s0 n s) : (s0.blocks.drop n ++ (s0.blocks.take n).reverse).Perm s.blocks := by
  rw [h.blocks]
  refine List.perm_append_comm.trans ?_
  refine ((List.reverse_perm _).append_right _).trans ?_
  rw [List.take_append_drop]

theorem Lists.wellFormed (h : Lists s0 n s) (hnodup : s0.blocks.Nodup)
    (htotal : (s0.blocks.length : ℤ) = s0.totalBlocks) : s.WellFormed := by
  refine ⟨_, _, h.usable, h.used, h.perm, ?_, ?_⟩
  · rw [h.blocks]
    exact hnodup
  · rw [h.blocks, h.totalBlocks, htotal]

/-- **Step lemma.** -/
theorem Lists.step (h : Lists s0 n s) (hnodup : s0.blocks.Nodup) (hn : n < s0.blocks.length) :
    ∃ s', s.getNextUsableBlock = .block s0.blocks[n] s' ∧ Lists s0 (n + 1) s' := by
  have hdrop := List.drop_eq_getElem_cons hn
  have husable := h.usable
  have hperm := h.perm
  rw [hdrop] at husable hperm
  have hall : (s0.blocks[n] :: s0.blocks.drop (n + 1) ++ (s0.blocks.take n).reverse).Nodup :=
    hperm.nodup_iff.2 (by rw [h.blocks]; exact hnodup)
  obtain ⟨s', hcall, hblocks, htotal, hid, h1, h2⟩ :=
    getNextUsableBlock_spec husable h.used hall fun p hp => hperm.mem_iff.1 hp
  refine ⟨s', hcall, h1, ?_, hblocks.trans h.blocks, htotal.trans h.totalBlocks, fun p => (hid p).trans (h.id p)⟩
  rw [List.take_succ_eq_append_getElem hn, List.reverse_append]
  exact h2

/-- **Run lemma.** -/
theorem calls_spec (h0 : Lists s0 0 s0) (hnodup : s0.blocks.Nodup) (hn : n ≤ s0.blocks.length) :
    ∃ s, calls s0 n = .running s (s0.blocks.take n) ∧ Lists s0 n s := by
  induction n with
  | zero => exact ⟨s0, rfl, h0⟩
  | succ n ih =>
    obtain ⟨s, hs, hlists⟩ := ih (Nat.le_of_succ_le hn)
    obtain ⟨s', hcall, hlists'⟩ := hlists.step hnodup hn
    refine ⟨s', ?_, hlists'⟩
    rw [calls, Function.iterate_succ_apply', ← calls, hs, Program.call, hcall, List.take_succ_eq_append_getElem hn]

/-- the usable list of a new space, when its last `next` is NULL, and the empty used list -/
theorem Constructed.lists (h : Constructed malloc raw mmapStart spaceSize s0) (hpos : 0 < numBlocks spaceSize)
    (hclear : Cleared malloc raw spaceSize) : Lists s0 0 s0 := by
  refine ⟨?_, ?_, rfl, rfl, fun p => rfl⟩
  · have hhead : s0.usableBlocks = s0.blocks.head? := by
      rw [h.usable, h.blocks, List.head?_map, List.head?_range, if_neg (by omega)]
      rfl
    rw [List.drop_zero, hhead]
    apply DoublyLinked.of_getElem
    intro i q hq
    rw [h.blocks, List.getElem?_map] at hq
    obtain ⟨i', hi', rfl⟩ := Option.map_eq_some_iff.1 hq
    obtain ⟨hi, rfl⟩ := List.getElem?_eq_some_iff.1 hi'
    rw [List.length_range] at hi
    rw [List.getElem_range, h.block i hi, h.blocks]
    constructor
    · show (if i + 1 < numBlocks spaceSize then some (malloc (i + 1)) else (raw.block (malloc i)).next) = _
      split_ifs with hnext
      · rw [List.getElem?_map, List.getElem?_range hnext]
        rfl
      · rw [hclear.next i (by omega), List.getElem?_eq_none]
        rw [List.length_map, List.length_range]
        omega
    · show link malloc i = _
      cases i with
      | zero => rfl
      | succ i =>
        rw [if_neg (Nat.succ_ne_zero i), Nat.add_sub_cancel, List.getElem?_map, List.getElem?_range (by omega)]
        rfl
  · rw [h.used, hclear.used]
    rfl

/-- a well-formed new space: every block is usable, so nothing follows the last one and nothing is used -/
theorem Constructed.cleared (hinj : malloc.Injective) (h : Constructed malloc raw mmapStart spaceSize s0)
    (hwf : s0.WellFormed) : Cleared malloc raw spaceSize := by
  obtain ⟨usable, used, husable, hused, hperm, hnodup, -⟩ := hwf
  have hmem : ∀ i < numBlocks spaceSize, malloc i ∈ usable := by
    intro i hi
    induction i with
    | zero => exact husable.chain.head_mem h.usable
    | succ i ih =>
      refine husable.chain.next_mem (ih (by omega)) ?_
      rw [h.block i (by omega)]
      exact if_pos hi
  have hblocks : ∀ q, q ∈ s0.blocks ↔ ∃ i < numBlocks spaceSize, malloc i = q := by
    intro q
    rw [h.blocks, List.mem_map]
    simp only [List.mem_range]
  constructor
  · cases hu : raw.usedBlocks with
    | none => rfl
    | some q =>
      have hq : q ∈ used := hused.chain.head_mem (h.used.trans hu)
      obtain ⟨i, hi, rfl⟩ := (hblocks q).1 (hperm.mem_iff.1 (List.mem_append_right _ hq))
      exact absurd rfl ((List.nodup_append.1 (hperm.nodup_iff.2 hnodup)).2.2 _ (hmem i hi) _ hq)
  · intro k hk
    cases hn : (raw.block (malloc k)).next with
    | none => rfl
    | some q =>
      have hlast : (s0.block (malloc k)).next = some q := by
        rw [h.block k (by omega)]
        exact (if_neg (by omega)).trans hn
      have hq := husable.chain.next_mem (hmem k (by omega)) hlast
      obtain ⟨i, hi, rfl⟩ := (hblocks q).1 (hperm.mem_iff.1 (List.mem_append_left _ hq))
      -- the block after the last one is the block after the one before it
      have hprev := husable.prev_eq (hmem k (by omega)) hlast
      rw [h.block i hi] at hprev
      have hlink : link malloc i = some (malloc k) := hprev
      cases i with
      | zero => cases hlink
      | succ i =>
        have := hinj (Option.some.inj hlink)
        omega

/-- **The block lists.** For every `malloc` that returns different pointers for different blocks, every content of the
memory it returns, every space size and answer of `mmap`: `ImmixSpace_new` exits where `mmap` fails and returns a space
where it does not, and the lists are well-formed in every state of every run, hand the blocks out in id order and end in
the exhaustion branch, if and only if that memory holds NULL in `used_blocks` and in the `next` of the last block. -/
theorem block_lists_iff (malloc : ℕ → ℕ) (hinj : malloc.Injective) (raw : ImmixSpace) (mmap : ℕ → Option ℕ)
    (hmmap : MmapSpec mmap) (spaceSize : Int32) :
    match mmap (uintptr spaceSize.toInt) with
    | none => ImmixSpace.new malloc mmap raw spaceSize = none
    | some _ => ∃ s, ImmixSpace.new malloc mmap raw spaceSize = some s ∧
        (ListsHold s ↔ Cleared malloc raw spaceSize) := by
  cases hp : mmap (uintptr spaceSize.toInt) with
  | none =>
    dsimp only
    rw [ImmixSpace.new, hp]
  | some mmapStart =>
    dsimp only
    obtain ⟨s0, hnew, h⟩ := new_spec raw hmmap hinj hp
    have hpos := numBlocks_pos (hmmap.size_pos hp).1
    have hlen : s0.blocks.length = numBlocks spaceSize := by rw [h.blocks, List.length_map, List.length_range]
    have hnodup : s0.blocks.Nodup := by
      rw [h.blocks]
      exact List.nodup_range.map hinj
    have htotal : (s0.blocks.length : ℤ) = s0.totalBlocks := by rw [hlen, h.totalBlocks]
    refine ⟨s0, hnew, fun hhold => ?_, fun hclear => ?_⟩
    · obtain ⟨s, returned, hcalls, hwf, -⟩ := hhold.lists 0 (by omega)
      cases hcalls
      exact h.cleared hinj hwf
    · have h0 := h.lists hpos hclear
      refine ⟨fun n hn => ?_, fun n hn => ?_⟩
      · have hle : n ≤ s0.blocks.length := by omega
        obtain ⟨s, hcalls, hlists⟩ := calls_spec h0 hnodup hle
        refine ⟨s, _, hcalls, hlists.wellFormed hnodup htotal, ?_⟩
        rw [h.blocks, ← List.map_take, List.take_range, Nat.min_eq_left (by omega), List.map_map]
        apply List.map_congr_left
        intro i hi
        rw [List.mem_range] at hi
        show (s.block (malloc i)).id = i
        rw [hlists.id, h.block i (by omega)]
        rfl
      · have heq : n = s0.blocks.length := by omega
        obtain ⟨s, hcalls, hlists⟩ := calls_spec h0 hnodup heq.le
        have hempty : s.usableBlocks = none := by
          have husable := hlists.usable
          rwa [heq, List.drop_length] at husable
        refine ⟨s, _, hcalls, hempty, ?_⟩
        rw [calls, Function.iterate_succ_apply', ← calls, hcalls, Program.call, ImmixSpace.getNextUsableBlock, hempty]

/-! ## A space of one block -/

/-- an `mmap` that answers with one address -/
def mmapAt (p len : ℕ) : Option ℕ := if 0 < len ∧ len ≤ 2 ^ 32 then some p else none

theorem mmapAt_spec {p : ℕ} (hpage : 4096 ∣ p) (hpos : 0 < p) (hfits : p ≤ 2 ^ 62) : MmapSpec (mmapAt p) where
  page := fun len q h => by
    unfold mmapAt at h
    split_ifs at h with hlen
    cases h
    exact ⟨hlen.1, hpage, hpos, by omega⟩

/-- a page for each block -/
def blockPage (n : ℕ) : ℕ := 4096 * (n + 1)

theorem blockPage_injective : blockPage.Injective := by
  intro m n h
  unfold blockPage at h
  omega

/-- memory of zeros, but for the `next` of the blocks -/
def memory (next : Option ℕ) : ImmixSpace where
  start := 0
  stop := 0
  mapLen := 0
  lineMarkTableLen := 0
  totalBlocks := 0
  usableBlocks := none
  usedBlocks := none
  block := fun _ => ⟨⟨0, 0, 0⟩, next, none, 0, 0⟩
  blocks := []

/-- two blocks, on memory of zeros -/
theorem block_lists_iff_zeros :
    match mmapAt 528384 (uintptr (Int32.toInt 131072)) with
    | none => ImmixSpace.new blockPage (mmapAt 528384) (memory none) 131072 = none
    | some _ => ∃ s, ImmixSpace.new blockPage (mmapAt 528384) (memory none) 131072 = some s ∧
        (ListsHold s ↔ Cleared blockPage (memory none) 131072) :=
  block_lists_iff blockPage blockPage_injective (memory none) (mmapAt 528384)
    (mmapAt_spec (by norm_num) (by norm_num) (by norm_num)) 131072

/-- the call ended in undefined behaviour -/
def Program.isWild : Program → Bool
  | .wild => true
  | _ => false

/-- **The last `next` is unset.** One block, whose memory held 7 in `next`: the list from `usable_blocks` does not end
after it, and the first call stores through that pointer. -/
theorem last_next_is_unset :
    ∃ s, ImmixSpace.new blockPage (mmapAt 524288) (memory (some 7)) 65536 = some s ∧ s.totalBlocks = 1 ∧
      s.usableBlocks = some (blockPage 0) ∧ (s.block (blockPage 0)).next = some 7 ∧ calls s 1 = .wild ∧
      ¬ ListsHold s := by
  have hrun : (ImmixSpace.new blockPage (mmapAt 524288) (memory (some 7)) 65536).map (fun s =>
      (s.totalBlocks, s.usableBlocks, (s.block (blockPage 0)).next, (calls s 1).isWild)) =
      some (1, some (blockPage 0), some 7, true) := by
    decide +kernel
  obtain ⟨s, hs, hfields⟩ := Option.map_eq_some_iff.1 hrun
  simp only [Prod.mk.injEq] at hfields
  obtain ⟨htotal, husable, hnext, hwild⟩ := hfields
  have hcalls : calls s 1 = .wild := by
    cases hc : calls s 1 with
    | wild => rfl
    | running _ _ =>
      rw [hc] at hwild
      cases hwild
    | exited _ =>
      rw [hc] at hwild
      cases hwild
  refine ⟨s, hs, htotal, husable, hnext, hcalls, fun h => ?_⟩
  obtain ⟨s', returned, h1, -⟩ := h.lists 1 (by rw [htotal]; rfl)
  cases hcalls.symm.trans h1

end Runs

end Immix.C.Blocks
