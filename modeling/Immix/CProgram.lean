/-
The C program as a whole: any number of mutators on one space (`gc_init`, `ImmixMutatorLocal_new`, `_alloc`,
`_try_alloc_from_local` and `_alloc_from_global` of `c_src/immix_mutator.c` and `c_src/immix.h`, with
`ImmixSpace_get_next_usable_block` of `c_src/immix_space.c`).

A step is one step of one mutator: the bump, the hole, or a call of `get_next_usable_block` under the lock of the space;
`ImmixMutatorLocal_new` runs under `id_lock`. The bump region and the marks of a block belong to its mutator, and the
program stores only into what it has been given. A mutator's `take_yield` is never written: the reads of it, which C
leaves undefined, and the slow path of a yieldpoint, which only prints, are left out, like the alloc map. There is no
collection: after the last usable block the process exits. The requests are those of `Request`: a size of 1 to 2^31 - 1
and an alignment that is a power of two below 2^31.
- `Serves`: what is to hold in every state: what is given is apart, inside a block and the mapping, as it was asked for,
  zero when it is given, and the program's from then on.
- `serves_run`: it does, whatever memory held before, and nothing goes wrong up to 1024 mutators.
- `call_ends`: a call returns, or the process is no longer running, after five steps for each block and five more.
-/
import Immix.CGeometry

namespace Immix.C.Threads

open Immix.Lib Blocks

/-! ## Model -/

/-- program points of a mutator -/
inductive Pc where
  /-- between two calls -/
  | idle
  /-- before the bump of `ImmixMutatorLocal_alloc` -/
  | alloc (r : Request)
  | tryAllocFromLocal (r : Request)
  /-- in the loop of `alloc_from_global` -/
  | allocFromGlobal (r : Request)

def Pc.isIdle : Pc → Bool
  | .idle => true
  | _ => false

structure Mutator where
  loc : ImmixMutatorLocal
  pc : Pc

/-- the process is running, after `exit(1)`, or after undefined behaviour -/
inductive Status where
  | running
  | exited
  | wild
deriving DecidableEq

structure State where
  space : ImmixSpace
  /-- the line mark table -/
  marks : ℕ → LineMark
  memory : ℕ → UInt8
  nMutators : ℕ
  /-- the array `MUTATORS` -/
  mutators : ℕ → Mutator
  /-- the addresses and sizes that calls of `alloc` have returned, the last one first -/
  given : List (ℕ × ℕ)
  status : Status

inductive Op where
  | new
  | alloc (m : ℕ) (r : Request)
  /-- the next step of the call that mutator `m` is in -/
  | tick (m : ℕ)
  /-- the program stores a byte -/
  | write (addr : ℕ) (value : UInt8)

/-- the operation is a step of mutator `m` -/
def Op.ticks (m : ℕ) : Op → Bool
  | .tick m' => m' = m
  | _ => false

def maxMutators : ℕ := 1024

/-- `ImmixMutatorLocal_reset` -/
def reset : ImmixMutatorLocal := ⟨0, 0, linesInBlock, none⟩

def memset (memory : ℕ → UInt8) (start len : ℕ) : ℕ → UInt8 :=
  fun x => if start ≤ x ∧ x < start + len then 0 else memory x

theorem memset_of_mem {memory : ℕ → UInt8} {start len x : ℕ} (h1 : start ≤ x) (h2 : x < start + len) :
    memset memory start len x = 0 := if_pos ⟨h1, h2⟩

theorem memset_of_not_mem {memory : ℕ → UInt8} {start len x : ℕ} (h : ¬ (start ≤ x ∧ x < start + len)) :
    memset memory start len x = memory x := if_neg h

/-- the bytes of a range -/
def bytes (r : ℕ × ℕ) : Set ℕ := Set.Ico r.1 (r.1 + r.2)

/-- the program has been given the byte -/
def Given (given : List (ℕ × ℕ)) (x : ℕ) : Prop := ∃ r ∈ given, r.1 ≤ x ∧ x < r.1 + r.2

instance (given : List (ℕ × ℕ)) (x : ℕ) :
    Decidable (Given given x) := inferInstanceAs (Decidable (∃ r ∈ given, r.1 ≤ x ∧ x < r.1 + r.2))

namespace State

variable (s : State)

/-- `gc_init` on memory with any content: every line of a new space is Free -/
def init (space : ImmixSpace) (memory : ℕ → UInt8) : State where
  space := space
  marks := fun _ => .free
  memory := memory
  nMutators := 0
  mutators := fun _ => ⟨reset, .idle⟩
  given := []
  status := .running

def setMutator (m : ℕ) (loc : ImmixMutatorLocal) (pc : Pc) : State :=
  { s with mutators := Function.update s.mutators m ⟨loc, pc⟩ }

/-- `ImmixMutatorLocal_new`; `MUTATORS` has no entry for a mutator after the 1024th -/
def new : State :=
  if s.nMutators < maxMutators then { s.setMutator s.nMutators reset .idle with nMutators := s.nMutators + 1 }
  else { s with status := .wild }

def tryAllocFromLocal (m : ℕ) (r : Request) : State :=
  let x := (s.mutators m).loc
  if x.line < linesInBlock then
    match x.block with
    | none => { s with status := .wild }
    | some b =>
      match hole b s.marks x.line with
      | some h =>
        { s.setMutator m ⟨h.cursor, h.limit, uintptr h.last, some b⟩ (.alloc r) with
          memory := memset s.memory h.cursor (h.limit - h.cursor)
          marks := ImmixMutatorLocal.freshen b s.marks h.first h.last }
      | none => s.setMutator m x (.allocFromGlobal r)
  else s.setMutator m x (.allocFromGlobal r)

def allocFromGlobal (m : ℕ) (r : Request) : State :=
  match s.space.getNextUsableBlock with
  | .block p space =>
    { s.setMutator m ((s.mutators m).loc.useBlock (space.block p).toImmixBlock) (.alloc r) with space := space }
  | .exhausted => { s with status := .exited }
  | .wild => { s with status := .wild }

def tick (m : ℕ) : State :=
  match (s.mutators m).pc with
  | .idle => s
  | .alloc r =>
    match (s.mutators m).loc.bump r.size r.align with
    | some (a, x) => { s.setMutator m x .idle with given := (a, r.size) :: s.given }
    | none => s.setMutator m (s.mutators m).loc (.tryAllocFromLocal r)
  | .tryAllocFromLocal r => s.tryAllocFromLocal m r
  | .allocFromGlobal r => s.allocFromGlobal m r

/-- the range that a step returns from `alloc` -/
def returns : Op → Option (ℕ × ℕ)
  | .tick m =>
    if s.status = .running ∧ m < s.nMutators then
      match (s.mutators m).pc with
      | .alloc r => ((s.mutators m).loc.bump r.size r.align).map fun p => (p.1, r.size)
      | _ => none
    else none
  | _ => none

end State

def step (s : State) (o : Op) : State :=
  if s.status = .running then
    match o with
    | .new => s.new
    | .alloc m r =>
      if m < s.nMutators then
        match (s.mutators m).pc with
        | .idle => s.setMutator m (s.mutators m).loc (.alloc r)
        | _ => s
      else s
    | .tick m => if m < s.nMutators then s.tick m else s
    | .write addr value =>
      if Given s.given addr then { s with memory := Function.update s.memory addr value } else s
  else s

/-! ## A fresh block -/

/-- block `k` of the space, as a mutator reads it -/
def blockAt (space : ImmixSpace) (k : ℕ) : C.ImmixBlock := ⟨space.start + 65536 * k, 256 * k, 256⟩

section Hole

variable {space : ImmixSpace} {k : ℕ} {t : ℕ → LineMark}

theorem blockAt_entry (i : ℕ) : (blockAt space k).entry i = 256 * k + i := by
  show (((256 * k : ℕ) : ℤ) + i).toNat = 256 * k + i
  omega

theorem nextUnavailableFrom_free (hfree : ∀ i < 256, t (256 * k + i) = .free) (fuel : ℕ) {i : ℕ} (hi : i + fuel = 256) :
    (blockAt space k).nextUnavailableFrom t fuel i = 256 := by
  induction fuel generalizing i with
  | zero =>
    show (i : ℤ) = 256
    omega
  | succ fuel ih =>
    have hlt : (i : ℤ) < (blockAt space k).lineMarkLen := by
      show (i : ℤ) < 256
      omega
    rw [ImmixBlock.nextUnavailableFrom, if_pos hlt, blockAt_entry, if_pos (hfree i (by omega))]
    exact_mod_cast ih (i := i + 1) (by omega)

/-- the hole of a block whose lines are all Free is the block -/
theorem hole_free (hfits : (blockAt space k).start + 65536 < 2 ^ 64) (hfree : ∀ i < 256, t (256 * k + i) = .free) :
    hole (blockAt space k) t 0 = some ⟨(blockAt space k).start, (blockAt space k).start + 65536, 0, 256⟩ := by
  have hfirst : (blockAt space k).getNextAvaiableLine t 0 = 0 := by
    show (blockAt space k).nextAvailableFrom t (255 + 1) 0 = 0
    have hentry : (blockAt space k).entry 0 = 256 * k + 0 := blockAt_entry 0
    have hlt : (0 : ℤ) < (blockAt space k).lineMarkLen := by
      show (0 : ℤ) < 256
      norm_num
    rw [ImmixBlock.nextAvailableFrom, if_pos hlt, hentry, if_pos (hfree 0 (by decide))]
  have hlast : (blockAt space k).getNextUnavailableLine t 0 = 256 := nextUnavailableFrom_free hfree 256 rfl
  have hzero : toInt 0 = 0 := toInt_of_lt (by norm_num)
  unfold hole
  dsimp only
  rw [hzero, hfirst, if_pos (by decide : (0 : ℤ) ≠ -1), hlast]
  have h0 : ((blockAt space k).start : ℤ) + (0 : ℤ) <<< logBytesInLine = ((blockAt space k).start : ℕ) := by
    rw [Int.shiftLeft_eq]
    ring
  have h256 : ((blockAt space k).start : ℤ) + (256 : ℤ) <<< logBytesInLine = ((blockAt space k).start + 65536 : ℕ) := by
    rw [Int.shiftLeft_eq]
    push_cast
    rfl
  rw [h0, h256, uintptr_natCast (by omega), uintptr_natCast hfits]

end Hole

/-! ## The invariant -/

/-- a byte of the block that the mutator has not given yet -/
def Left (x : ImmixMutatorLocal) (a : ℕ) : Prop :=
  ∃ b, x.block = some b ∧ x.cursor ≤ a ∧ a < b.start + 65536

/-- the mutator before its first block, with a block just taken, or with its whole block as the bump region -/
inductive Shape (space : ImmixSpace) (n : ℕ) (x : ImmixMutatorLocal) : Prop where
  | noBlock (hblock : x.block = none) (hcursor : x.cursor = 0) (hlimit : x.limit = 0) (hline : x.line = 256)
  | taken (k : ℕ) (hk : k < n) (hblock : x.block = some (blockAt space k)) (hcursor : x.cursor = (blockAt space k).start)
      (hlimit : x.limit = (blockAt space k).start) (hline : x.line = 0)
  | entered (k : ℕ) (hk : k < n) (hblock : x.block = some (blockAt space k)) (hcursor : (blockAt space k).start ≤ x.cursor)
      (hle : x.cursor ≤ x.limit) (hlimit : x.limit = (blockAt space k).start + 65536) (hline : x.line = 256)

/-- what holds of a mutator after `n` blocks of `space` have been taken -/
structure LocInv (space : ImmixSpace) (n : ℕ) (s : State) (x : ImmixMutatorLocal) : Prop where
  shape : Shape space n x
  /-- the lines of a block that no hole has been made in -/
  untouched : x.line = 0 → ∀ b, x.block = some b → ∀ i < 256, s.marks (b.lineMarkPtr + i) = .free
  outside : ∀ r ∈ s.given, ∀ a ∈ bytes r, ¬ Left x a
  zero : ∀ a, x.cursor ≤ a → a < x.limit → s.memory a = 0

/-- **The invariant** after `n` blocks of `space` have been taken. -/
structure Inv (space : ImmixSpace) (n : ℕ) (s : State) : Prop where
  le : n ≤ space.blocks.length
  lists : Lists space n s.space
  blocks : ∀ p, (s.space.block p).toImmixBlock = (space.block p).toImmixBlock
  free : ∀ j, 256 * n ≤ j → s.marks j = .free
  taken : ∀ r ∈ s.given, ∃ k < n, (blockAt space k).start ≤ r.1 ∧ r.1 + r.2 ≤ (blockAt space k).start + 65536
  apart : s.given.Pairwise fun r r' => Disjoint (bytes r) (bytes r')
  loc : ∀ m < s.nMutators, LocInv space n s (s.mutators m).loc
  owner : ∀ m < s.nMutators, ∀ m' < s.nMutators, ∀ b, (s.mutators m).loc.block = some b →
    (s.mutators m').loc.block = some b → m = m'

/-- the blocks of a new space lie one after the other, at addresses that do not wrap -/
structure Placed (space : ImmixSpace) : Prop where
  nodup : space.blocks.Nodup
  fits : space.start + 65536 * space.blocks.length ≤ 2 ^ 63
  block : ∀ k (hk : k < space.blocks.length), (space.block space.blocks[k]).toImmixBlock = blockAt space k

section

variable {space : ImmixSpace} {n k : ℕ} {s : State} {m : ℕ} {x : ImmixMutatorLocal}

theorem blockAt_inj {i j : ℕ} (h : blockAt space i = blockAt space j) : i = j := by
  have hptr : 256 * i = 256 * j := congrArg ImmixBlock.lineMarkPtr h
  omega

theorem Shape.mono {n' : ℕ} (h : Shape space n x) (hn : n ≤ n') : Shape space n' x := by
  cases h with
  | noBlock hblock hcursor hlimit hline => exact .noBlock hblock hcursor hlimit hline
  | taken k hk hblock hcursor hlimit hline => exact .taken k (hk.trans_le hn) hblock hcursor hlimit hline
  | entered k hk hblock hcursor hle hlimit hline => exact .entered k (hk.trans_le hn) hblock hcursor hle hlimit hline

/-- the block is one of those taken, and the bump region lies in it -/
theorem Shape.of_block (h : Shape space n x) {b : C.ImmixBlock} (hb : x.block = some b) :
    ∃ k < n, b = blockAt space k ∧ b.start ≤ x.cursor ∧ x.cursor ≤ x.limit ∧ x.limit ≤ b.start + 65536 := by
  cases h with
  | noBlock hblock =>
    rw [hblock] at hb
    cases hb
  | taken k hk hblock hcursor hlimit =>
    obtain rfl := Option.some.inj (hblock.symm.trans hb)
    exact ⟨k, hk, rfl, by omega, by omega, by omega⟩
  | entered k hk hblock hcursor hle hlimit =>
    obtain rfl := Option.some.inj (hblock.symm.trans hb)
    exact ⟨k, hk, rfl, hcursor, hle, hlimit.le⟩

/-- the bump region is left to give -/
theorem Shape.left (h : Shape space n x) {a : ℕ} (h1 : x.cursor ≤ a) (h2 : a < x.limit) : Left x a := by
  cases hb : x.block with
  | none =>
    cases h with
    | noBlock hblock hcursor hlimit => omega
    | taken k hk hblock =>
      rw [hblock] at hb
      cases hb
    | entered k hk hblock =>
      rw [hblock] at hb
      cases hb
  | some b =>
    obtain ⟨k, -, -, -, -, h3⟩ := h.of_block hb
    exact ⟨b, hb, h1, h2.trans_le h3⟩

/-- two mutators have nothing left in common -/
theorem Inv.left_unique (h : Inv space n s) {m m' a : ℕ} (hm : m < s.nMutators) (hm' : m' < s.nMutators)
    (h1 : Left (s.mutators m).loc a) (h2 : Left (s.mutators m').loc a) : m = m' := by
  obtain ⟨b, hb, h3, h4⟩ := h1
  obtain ⟨b', hb', h5, h6⟩ := h2
  obtain ⟨k, -, rfl, h7, -⟩ := (h.loc m hm).shape.of_block hb
  obtain ⟨k', -, rfl, h8, -⟩ := (h.loc m' hm').shape.of_block hb'
  have hk : k = k' := by
    simp only [blockAt] at h4 h6 h7 h8
    omega
  subst hk
  exact h.owner m hm m' hm' _ hb hb'

/-- a bump region ends at 2^63 at most -/
theorem Shape.limit_le (hp : Placed space) (hn : n ≤ space.blocks.length) (h : Shape space n x) :
    x.cursor ≤ x.limit ∧ x.limit ≤ 2 ^ 63 := by
  have hfits := hp.fits
  have hstart : ∀ k < n, (blockAt space k).start + 65536 ≤ space.start + 65536 * space.blocks.length := by
    intro k hk
    have hmul : 65536 * (k + 1) ≤ 65536 * space.blocks.length := Nat.mul_le_mul_left 65536 (by omega)
    show space.start + 65536 * k + 65536 ≤ _
    omega
  cases h with
  | noBlock hblock hcursor hlimit hline => omega
  | taken k hk hblock hcursor hlimit hline =>
    have := hstart k hk
    omega
  | entered k hk hblock hcursor hle hlimit hline =>
    have := hstart k hk
    omega

theorem Placed.block_le (hp : Placed space) (hk : k < space.blocks.length) :
    (blockAt space k).start + 65536 ≤ 2 ^ 63 := by
  have hfits := hp.fits
  have hmul : 65536 * (k + 1) ≤ 65536 * space.blocks.length := Nat.mul_le_mul_left 65536 hk
  show space.start + 65536 * k + 65536 ≤ 2 ^ 63
  omega

/-! ## What a step does -/

theorem tryAllocFromLocal_of_hole {r : Request} {b : C.ImmixBlock} {h : Hole} (hline : (s.mutators m).loc.line < 256)
    (hblock : (s.mutators m).loc.block = some b) (hhole : hole b s.marks (s.mutators m).loc.line = some h) :
    s.tryAllocFromLocal m r =
      { s.setMutator m ⟨h.cursor, h.limit, uintptr h.last, some b⟩ (.alloc r) with
        memory := memset s.memory h.cursor (h.limit - h.cursor)
        marks := ImmixMutatorLocal.freshen b s.marks h.first h.last } := by
  unfold State.tryAllocFromLocal
  dsimp only
  rw [linesInBlock_eq, if_pos hline, hblock]
  dsimp only
  rw [hhole]

/-- the slow path in a state of a run: a mutator has one hole, its whole block, and takes it first -/
theorem Inv.tryAllocFromLocal_cases (hp : Placed space) (h : Inv space n s) (hm : m < s.nMutators) (r : Request) :
    (s.mutators m).loc.line = 256 ∧ s.tryAllocFromLocal m r = s.setMutator m (s.mutators m).loc (.allocFromGlobal r) ∨
      ∃ k < n, (s.mutators m).loc.block = some (blockAt space k) ∧
        (s.mutators m).loc.cursor = (blockAt space k).start ∧ (s.mutators m).loc.line = 0 ∧
        s.tryAllocFromLocal m r =
          { s.setMutator m ⟨(blockAt space k).start, (blockAt space k).start + 65536, 256, some (blockAt space k)⟩
              (.alloc r) with
            memory := memset s.memory (blockAt space k).start 65536
            marks := ImmixMutatorLocal.freshen (blockAt space k) s.marks 0 256 } := by
  have hloc := h.loc m hm
  have hfull : (s.mutators m).loc.line = 256 →
      s.tryAllocFromLocal m r = s.setMutator m (s.mutators m).loc (.allocFromGlobal r) := by
    intro hline
    unfold State.tryAllocFromLocal
    dsimp only
    rw [linesInBlock_eq, if_neg (by omega)]
  cases hloc.shape with
  | noBlock hblock hcursor hlimit hline => exact .inl ⟨hline, hfull hline⟩
  | entered k hk hblock hcursor hle hlimit hline => exact .inl ⟨hline, hfull hline⟩
  | taken k hk hblock hcursor hlimit hline =>
    refine .inr ⟨k, hk, hblock, hcursor, hline, ?_⟩
    have hlast : uintptr 256 = 256 := uintptr_natCast (by norm_num)
    have hsize : (blockAt space k).start + 65536 - (blockAt space k).start = 65536 := Nat.add_sub_cancel_left _ _
    have hlt := hp.block_le (hk.trans_le h.le)
    have hhole : hole (blockAt space k) s.marks (s.mutators m).loc.line =
        some ⟨(blockAt space k).start, (blockAt space k).start + 65536, 0, 256⟩ := by
      rw [hline]
      exact hole_free (by omega) (hloc.untouched hline _ hblock)
    rw [tryAllocFromLocal_of_hole (by omega) hblock hhole]
    dsimp only
    rw [hlast, hsize]

/-- the stores of `get_next_usable_block` go to the links of the blocks -/
theorem setNext_geometry {t t' : ImmixSpace} {p : ℕ} {v : Option ℕ} (h : t.setNext p v = some t') (q : ℕ) :
    (t'.block q).toImmixBlock = (t.block q).toImmixBlock := by
  unfold ImmixSpace.setNext at h
  split_ifs at h
  cases h
  dsimp only [Blocks.setNext]
  rw [Function.update_apply]
  split_ifs with hq
  · rw [hq]
  · rfl

theorem setPrev_geometry {t t' : ImmixSpace} {p : ℕ} {v : Option ℕ} (h : t.setPrev p v = some t') (q : ℕ) :
    (t'.block q).toImmixBlock = (t.block q).toImmixBlock := by
  unfold ImmixSpace.setPrev at h
  split_ifs at h
  cases h
  dsimp only [Blocks.setPrev]
  rw [Function.update_apply]
  split_ifs with hq
  · rw [hq]
  · rfl

theorem setPrevOf_geometry {t t' : ImmixSpace} {p v : Option ℕ} (h : t.setPrevOf p v = some t') (q : ℕ) :
    (t'.block q).toImmixBlock = (t.block q).toImmixBlock := by
  cases p with
  | none =>
    cases h
    rfl
  | some p => exact setPrev_geometry h q

theorem getNextUsableBlock_geometry {t t' : ImmixSpace} {p : ℕ} (h : t.getNextUsableBlock = .block p t') (q : ℕ) :
    (t'.block q).toImmixBlock = (t.block q).toImmixBlock := by
  unfold ImmixSpace.getNextUsableBlock at h
  cases hhead : t.usableBlocks with
  | none =>
    rw [hhead] at h
    cases h
  | some newBlock =>
    rw [hhead] at h
    dsimp only at h
    cases htake : t.take newBlock with
    | none =>
      rw [htake] at h
      cases h
    | some u =>
      rw [htake] at h
      cases h
      unfold ImmixSpace.take at htake
      simp only [Option.bind_eq_bind, Option.bind_eq_some_iff] at htake
      obtain ⟨t1, h1, t2, h2, t3, h3, t4, h4, h5⟩ := htake
      cases h5
      exact (setPrevOf_geometry h4 q).trans ((setNext_geometry h3 q).trans ((setPrev_geometry h2 q).trans
        (setPrevOf_geometry h1 q)))

/-- a call of `get_next_usable_block` in a run: the next block, or `exit(1)` after the last one -/
theorem Inv.next (hp : Placed space) (h : Inv space n s) :
    (n < space.blocks.length ∧ ∃ p t, s.space.getNextUsableBlock = .block p t ∧ Lists space (n + 1) t ∧
        (∀ q, (t.block q).toImmixBlock = (space.block q).toImmixBlock) ∧ (t.block p).toImmixBlock = blockAt space n) ∨
      n = space.blocks.length ∧ s.space.getNextUsableBlock = .exhausted := by
  rcases Nat.lt_or_eq_of_le h.le with hn | hn
  · obtain ⟨t, hcall, hlists⟩ := h.lists.step hp.nodup hn
    have hgeometry : ∀ q, (t.block q).toImmixBlock = (space.block q).toImmixBlock := fun q =>
      (getNextUsableBlock_geometry hcall q).trans (h.blocks q)
    exact .inl ⟨hn, _, t, hcall, hlists, hgeometry, (hgeometry _).trans (hp.block n hn)⟩
  · have husable := h.lists.usable
    rw [hn, List.drop_length] at husable
    have hnone : s.space.usableBlocks = none := husable
    exact .inr ⟨hn, by rw [ImmixSpace.getNextUsableBlock, hnone]⟩

/-- the mutator is in a call of `alloc`, and the process is running -/
def InCall (s : State) (m : ℕ) : Prop := s.status = .running ∧ m < s.nMutators ∧ (s.mutators m).pc.isIdle = false

instance (s : State) (m : ℕ) : Decidable (InCall s m) :=
  inferInstanceAs (Decidable (s.status = .running ∧ m < s.nMutators ∧ (s.mutators m).pc.isIdle = false))

/-- what a step does after `n` blocks have been taken, with the state and the number of blocks after it -/
inductive Stepped (space : ImmixSpace) (n : ℕ) (s : State) : Op → State → ℕ → Prop where
  | stays (o : Op) (hidle : ∀ m, o = .tick m → ¬ InCall s m) : Stepped space n s o s n
  | created (hroom : s.nMutators < maxMutators) :
      Stepped space n s .new { s.setMutator s.nMutators reset .idle with nMutators := s.nMutators + 1 } n
  | overflows (hroom : ¬ s.nMutators < maxMutators) : Stepped space n s .new { s with status := .wild } n
  | called (m : ℕ) (r : Request) (hm : m < s.nMutators) (hpc : (s.mutators m).pc = .idle) :
      Stepped space n s (.alloc m r) (s.setMutator m (s.mutators m).loc (.alloc r)) n
  | served (m : ℕ) (r : Request) (a : ℕ) (x : ImmixMutatorLocal) (hrun : s.status = .running) (hm : m < s.nMutators)
      (hpc : (s.mutators m).pc = .alloc r) (hb : (s.mutators m).loc.bump r.size r.align = some (a, x)) :
      Stepped space n s (.tick m) { s.setMutator m x .idle with given := (a, r.size) :: s.given } n
  | missed (m : ℕ) (r : Request) (hm : m < s.nMutators) (hpc : (s.mutators m).pc = .alloc r)
      (hb : (s.mutators m).loc.bump r.size r.align = none) :
      Stepped space n s (.tick m) (s.setMutator m (s.mutators m).loc (.tryAllocFromLocal r)) n
  | noHole (m : ℕ) (r : Request) (hm : m < s.nMutators) (hpc : (s.mutators m).pc = .tryAllocFromLocal r)
      (hline : (s.mutators m).loc.line = 256) :
      Stepped space n s (.tick m) (s.setMutator m (s.mutators m).loc (.allocFromGlobal r)) n
  | hole (m : ℕ) (r : Request) (k : ℕ) (hm : m < s.nMutators) (hpc : (s.mutators m).pc = .tryAllocFromLocal r) (hk : k < n)
      (hblock : (s.mutators m).loc.block = some (blockAt space k))
      (hcursor : (s.mutators m).loc.cursor = (blockAt space k).start) (hline : (s.mutators m).loc.line = 0) :
      Stepped space n s (.tick m)
        { s.setMutator m ⟨(blockAt space k).start, (blockAt space k).start + 65536, 256, some (blockAt space k)⟩
            (.alloc r) with
          memory := memset s.memory (blockAt space k).start 65536
          marks := ImmixMutatorLocal.freshen (blockAt space k) s.marks 0 256 } n
  | block (m : ℕ) (r : Request) (t : ImmixSpace) (hm : m < s.nMutators) (hpc : (s.mutators m).pc = .allocFromGlobal r)
      (hn : n < space.blocks.length) (hlists : Lists space (n + 1) t)
      (hblocks : ∀ q, (t.block q).toImmixBlock = (space.block q).toImmixBlock) :
      Stepped space n s (.tick m)
        { s.setMutator m ⟨(blockAt space n).start, (blockAt space n).start, 0, some (blockAt space n)⟩ (.alloc r) with
          space := t } (n + 1)
  | exits (m : ℕ) (r : Request) (hm : m < s.nMutators) (hpc : (s.mutators m).pc = .allocFromGlobal r) :
      Stepped space n s (.tick m) { s with status := .exited } n
  | wrote (addr : ℕ) (value : UInt8) (hgiven : Given s.given addr) :
      Stepped space n s (.write addr value) { s with memory := Function.update s.memory addr value } n

theorem Inv.step_cases (hp : Placed space) (h : Inv space n s) (o : Op) :
    ∃ n', Stepped space n s o (Threads.step s o) n' := by
  unfold Threads.step
  split_ifs with hrun
  swap
  · exact ⟨n, .stays o fun m _ hcall => hrun hcall.1⟩
  cases o with
  | new =>
    dsimp only
    unfold State.new
    split_ifs with hroom
    · exact ⟨n, .created hroom⟩
    · exact ⟨n, .overflows hroom⟩
  | alloc m r =>
    dsimp only
    split_ifs with hm
    · cases hpc : (s.mutators m).pc with
      | idle => exact ⟨n, .called m r hm hpc⟩
      | _ => exact ⟨n, .stays _ fun m' heq => by cases heq⟩
    · exact ⟨n, .stays _ fun m' heq => by cases heq⟩
  | tick m =>
    dsimp only
    split_ifs with hm
    swap
    · refine ⟨n, .stays _ ?_⟩
      rintro m' heq ⟨-, hm', -⟩
      cases heq
      exact hm hm'
    unfold State.tick
    cases hpc : (s.mutators m).pc with
    | idle =>
      refine ⟨n, .stays _ ?_⟩
      rintro m' heq ⟨-, -, hbusy⟩
      cases heq
      rw [hpc] at hbusy
      cases hbusy
    | alloc r =>
      dsimp only
      cases hb : (s.mutators m).loc.bump r.size r.align with
      | none => exact ⟨n, .missed m r hm hpc hb⟩
      | some p => exact ⟨n, .served m r p.1 p.2 hrun hm hpc hb⟩
    | tryAllocFromLocal r =>
      dsimp only
      rcases h.tryAllocFromLocal_cases hp hm r with ⟨hline, heq⟩ | ⟨k, hk, hblock, hcursor, hline, heq⟩
      · rw [heq]
        exact ⟨n, .noHole m r hm hpc hline⟩
      · rw [heq]
        exact ⟨n, .hole m r k hm hpc hk hblock hcursor hline⟩
    | allocFromGlobal r =>
      dsimp only
      unfold State.allocFromGlobal
      rcases h.next hp with ⟨hn, p, t, hcall, hlists, hblocks, hblock⟩ | ⟨-, hcall⟩
      · rw [hcall]
        dsimp only
        rw [hblock]
        exact ⟨n + 1, .block m r t hm hpc hn hlists hblocks⟩
      · rw [hcall]
        exact ⟨n, .exits m r hm hpc⟩
  | write addr value =>
    dsimp only
    split_ifs with hgiven
    · exact ⟨n, .wrote addr value hgiven⟩
    · exact ⟨n, .stays _ fun m heq => by cases heq⟩

/-! ## What a step keeps -/

/-- the frame of a step of mutator `m`, which becomes `x` -/
theorem Inv.frame (h : Inv space n s) {n' : ℕ} {s' : State} (x : ImmixMutatorLocal) (pc : Pc)
    (hcount : s'.nMutators = s.nMutators) (hmut : s'.mutators = Function.update s.mutators m ⟨x, pc⟩)
    (hle : n' ≤ space.blocks.length)
    (hlists : Lists space n' s'.space) (hblocks : ∀ p, (s'.space.block p).toImmixBlock = (space.block p).toImmixBlock)
    (hfree : ∀ j, 256 * n' ≤ j → s'.marks j = .free)
    (htaken : ∀ r ∈ s'.given, ∃ k < n', (blockAt space k).start ≤ r.1 ∧ r.1 + r.2 ≤ (blockAt space k).start + 65536)
    (hapart : s'.given.Pairwise fun r r' => Disjoint (bytes r) (bytes r')) (hloc : LocInv space n' s' x)
    (hothers : ∀ m' < s.nMutators, m' ≠ m → LocInv space n' s' (s.mutators m').loc)
    (hblock : ∀ b, x.block = some b → ∀ m' < s.nMutators, m' ≠ m → (s.mutators m').loc.block ≠ some b) :
    Inv space n' s' := by
  have hself : (s'.mutators m).loc = x := by rw [hmut, Function.update_self]
  have hother : ∀ m', m' ≠ m → (s'.mutators m').loc = (s.mutators m').loc := fun m' hne => by
    rw [hmut, Function.update_of_ne hne]
  refine ⟨hle, hlists, hblocks, hfree, htaken, hapart, fun m' hm' => ?_, fun i hi j hj b hbi hbj => ?_⟩
  · rw [hcount] at hm'
    by_cases hne : m' = m
    · rw [hne, hself]
      exact hloc
    · rw [hother m' hne]
      exact hothers m' hm' hne
  · rw [hcount] at hi hj
    by_cases hne : i = m <;> by_cases hne' : j = m
    · rw [hne, hne']
    · subst hne
      rw [hself] at hbi
      rw [hother j hne'] at hbj
      exact absurd hbj (hblock b hbi j hj hne')
    · subst hne'
      rw [hself] at hbj
      rw [hother i hne] at hbi
      exact absurd hbi (hblock b hbj i hi hne)
    · rw [hother i hne] at hbi
      rw [hother j hne'] at hbj
      exact h.owner i hi j hj b hbi hbj

/-- nobody else holds the block of a mutator -/
theorem Inv.block_ne (h : Inv space n s) (hm : m < s.nMutators) {b : C.ImmixBlock}
    (hb : (s.mutators m).loc.block = some b) (m' : ℕ) (hm' : m' < s.nMutators) (hne : m' ≠ m) :
    (s.mutators m').loc.block ≠ some b := fun hb' => hne (h.owner m' hm' m hm b hb' hb)

/-- a step that changes the program point only -/
theorem Inv.setPc (h : Inv space n s) (hm : m < s.nMutators) (pc : Pc) :
    Inv space n (s.setMutator m (s.mutators m).loc pc) :=
  have hloc : ∀ y, LocInv space n s y → LocInv space n (s.setMutator m (s.mutators m).loc pc) y := fun _ hy =>
    ⟨hy.shape, hy.untouched, hy.outside, hy.zero⟩
  h.frame _ pc rfl rfl h.le h.lists h.blocks h.free h.taken h.apart (hloc _ (h.loc m hm))
    (fun m' hm' _ => hloc _ (h.loc m' hm')) fun _ hb => h.block_ne hm hb

theorem Inv.setStatus (h : Inv space n s) (status : Status) : Inv space n { s with status := status } :=
  ⟨h.le, h.lists, h.blocks, h.free, h.taken, h.apart,
    fun m hm => ⟨(h.loc m hm).shape, (h.loc m hm).untouched, (h.loc m hm).outside, (h.loc m hm).zero⟩, h.owner⟩

theorem bump_aligned {r : Request} {a : ℕ} {y : ImmixMutatorLocal} (hcursor : x.cursor ≤ 2 ^ 63)
    (h : x.bump r.size r.align = some (a, y)) : r.align ∣ a := by
  obtain ⟨k, hk, halign⟩ := r.align_pow
  have hpow : (2 : ℕ) ^ k < 2 ^ 31 := Nat.pow_lt_pow_right (by norm_num) hk
  have hround : alignUp x.cursor r.align = Address.alignUp x.cursor (2 ^ k) := by
    rw [halign]
    exact alignUp_eq hk (by omega)
  obtain ⟨-, -, hdvd⟩ := Immix.alignUp_bounds (a := x.cursor) (k := k) (by omega) (by unfold usize; omega)
  unfold ImmixMutatorLocal.bump at h
  dsimp only at h
  split_ifs at h
  cases h
  rw [hround, halign]
  exact hdvd

/-- the fast path of `alloc` in a state of a run: the range is the front of what the mutator has left -/
theorem bump_spec (hp : Placed space) (h : Inv space n s) (hm : m < s.nMutators) {r : Request} {a : ℕ}
    (hb : (s.mutators m).loc.bump r.size r.align = some (a, x)) :
    ∃ k < n, (s.mutators m).loc.block = some (blockAt space k) ∧ x.block = some (blockAt space k) ∧
      (blockAt space k).start ≤ (s.mutators m).loc.cursor ∧ (s.mutators m).loc.cursor ≤ a ∧ a + r.size = x.cursor ∧
      x.cursor ≤ x.limit ∧ x.limit = (s.mutators m).loc.limit ∧ x.limit = (blockAt space k).start + 65536 ∧
      x.line = 256 := by
  have hshape := (h.loc m hm).shape
  obtain ⟨hle, hlt⟩ := hshape.limit_le hp h.le
  obtain ⟨h1, h2, h3, h4⟩ := bump_in_region hle (by omega) hb
  have hpos := r.size_pos
  have hsame : x.block = (s.mutators m).loc.block ∧ x.line = (s.mutators m).loc.line := by
    unfold ImmixMutatorLocal.bump at hb
    dsimp only at hb
    split_ifs at hb
    cases hb
    exact ⟨rfl, rfl⟩
  cases hshape with
  | noBlock hblock hcursor hlimit hline => omega
  | taken k hk hblock hcursor hlimit hline => omega
  | entered k hk hblock hcursor hle hlimit hline =>
    exact ⟨k, hk, hblock, hsame.1.trans hblock, hcursor, h1, h2, by omega, h4, h4.trans hlimit, hsame.2.trans hline⟩

theorem Inv.bump (hp : Placed space) (h : Inv space n s) (hm : m < s.nMutators) {r : Request} {a : ℕ}
    (hb : (s.mutators m).loc.bump r.size r.align = some (a, x)) :
    Inv space n { s.setMutator m x .idle with given := (a, r.size) :: s.given } := by
  obtain ⟨k, hk, hblock, hblock', h1, h2, h3, h4, h5, h6, h7⟩ := bump_spec hp h hm hb
  -- the new range is left to `m`
  have hleft : ∀ y ∈ bytes (a, r.size), Left (s.mutators m).loc y := by
    intro y hy
    have hlo : a ≤ y := hy.1
    have hhi : y < a + r.size := hy.2
    exact ⟨_, hblock, h2.trans hlo, by omega⟩
  have houtside : ∀ y, (∀ r ∈ s.given, ∀ c ∈ bytes r, ¬ Left y c) → (∀ c ∈ bytes (a, r.size), ¬ Left y c) →
      ∀ q ∈ (a, r.size) :: s.given, ∀ c ∈ bytes q, ¬ Left y c := by
    intro y hold hnew q hq
    rcases List.mem_cons.1 hq with rfl | hq
    · exact hnew
    · exact hold q hq
  refine h.frame x .idle rfl rfl h.le h.lists h.blocks h.free (fun q hq => ?_) ?_ ?_
    (fun m' hm' hne => ?_) fun b hb' => ?_
  · rcases List.mem_cons.1 hq with rfl | hq
    · exact ⟨k, hk, h1.trans h2, by simp only; omega⟩
    · exact h.taken q hq
  · refine List.pairwise_cons.2 ⟨fun q hq => ?_, h.apart⟩
    rw [Set.disjoint_left]
    intro c hc hc'
    exact (h.loc m hm).outside q hq c hc' (hleft c hc)
  · have hloc := h.loc m hm
    refine ⟨.entered k hk hblock' (by omega) h4 h6 h7, fun hline => by omega, houtside x (fun q hq c hc hl => ?_) ?_,
      fun c hc1 hc2 => hloc.zero c (by omega) (by omega)⟩
    · obtain ⟨b, hxb, hlo, hhi⟩ := hl
      rw [hblock'] at hxb
      cases hxb
      exact hloc.outside q hq c hc ⟨_, hblock, by omega, hhi⟩
    · rintro c hc ⟨b, hxb, hlo, hhi⟩
      have hc2 : c < a + r.size := hc.2
      omega
  · have hloc := h.loc m' hm'
    refine ⟨hloc.shape, hloc.untouched, houtside _ hloc.outside fun c hc hl => ?_, hloc.zero⟩
    exact hne (h.left_unique hm' hm hl (hleft c hc))
  · rw [hblock'] at hb'
    cases hb'
    exact h.block_ne hm hblock

/-- the loop that marks a hole writes the entries of its own block only -/
theorem freshen_other {t : ℕ → LineMark} {j : ℕ} (hj : j < 256 * k ∨ 256 * k + 256 ≤ j) :
    ImmixMutatorLocal.freshen (blockAt space k) t 0 256 j = t j := by
  have hfold : ∀ i ≤ 256, (List.range i).foldl (fun t (i : ℕ) =>
      Function.update t ((blockAt space k).entry (0 + i)) .freshAlloc) t j = t j := by
    intro i hi
    induction i with
    | zero => rfl
    | succ i ih =>
      have hentry : (blockAt space k).entry (0 + i) = 256 * k + i := by
        rw [zero_add, blockAt_entry]
      rw [List.range_succ, List.foldl_append, List.foldl_cons, List.foldl_nil, hentry,
        Function.update_of_ne (by omega), ih (by omega)]
  have hcount : ((256 : ℤ) - 0).toNat = 256 := by decide
  rw [ImmixMutatorLocal.freshen, hcount]
  exact hfold 256 le_rfl

theorem Inv.hole (h : Inv space n s) (hm : m < s.nMutators) (r : Request) (hk : k < n)
    (hblock : (s.mutators m).loc.block = some (blockAt space k))
    (hcursor : (s.mutators m).loc.cursor = (blockAt space k).start) :
    Inv space n
      { s.setMutator m ⟨(blockAt space k).start, (blockAt space k).start + 65536, 256, some (blockAt space k)⟩
          (.alloc r) with
        memory := memset s.memory (blockAt space k).start 65536
        marks := ImmixMutatorLocal.freshen (blockAt space k) s.marks 0 256 } := by
  have hloc := h.loc m hm
  have hmarks : ∀ j, j < 256 * k ∨ 256 * k + 256 ≤ j →
      ImmixMutatorLocal.freshen (blockAt space k) s.marks 0 256 j = s.marks j := fun j hj => freshen_other hj
  generalize ImmixMutatorLocal.freshen (blockAt space k) s.marks 0 256 = marks at hmarks ⊢
  refine h.frame ⟨(blockAt space k).start, (blockAt space k).start + 65536, 256, some (blockAt space k)⟩ (.alloc r)
    rfl rfl h.le h.lists h.blocks (fun j hj => ?_) h.taken h.apart ?_ (fun m' hm' hne => ?_) ?_
  · exact (hmarks j (.inr (by omega))).trans (h.free j hj)
  · refine ⟨.entered k hk rfl le_rfl (Nat.le_add_right _ _) rfl rfl, fun h0 => absurd h0 (by norm_num), ?_,
      fun c hc1 hc2 => memset_of_mem hc1 hc2⟩
    rintro q hq c hc ⟨b, hb, hlo, hhi⟩
    cases hb
    refine hloc.outside q hq c hc ⟨_, hblock, ?_, hhi⟩
    rw [hcursor]
    exact hlo
  · -- the other mutators' blocks and bytes are not touched
    have hother := h.loc m' hm'
    refine ⟨hother.shape, fun h0 b hb j hj => ?_, hother.outside, fun c hc1 hc2 => ?_⟩
    · obtain ⟨k', -, rfl, -⟩ := hother.shape.of_block hb
      have hkk : k' ≠ k := by
        rintro rfl
        exact h.block_ne hm hblock m' hm' hne hb
      have hentry : (blockAt space k').lineMarkPtr + j = 256 * k' + j := rfl
      rw [hentry]
      exact (hmarks _ (by omega)).trans (hother.untouched h0 _ hb j hj)
    · have hnot : ¬ ((blockAt space k).start ≤ c ∧ c < (blockAt space k).start + 65536) := by
        rintro ⟨hlo, hhi⟩
        refine hne (h.left_unique hm' hm (hother.shape.left hc1 hc2) ⟨_, hblock, ?_, hhi⟩)
        rw [hcursor]
        exact hlo
      exact (memset_of_not_mem hnot).trans (hother.zero c hc1 hc2)
  · rintro b hb
    cases hb
    exact h.block_ne hm hblock

theorem Inv.block (h : Inv space n s) (m : ℕ) (r : Request) {t : ImmixSpace} (hn : n < space.blocks.length)
    (hlists : Lists space (n + 1) t) (hblocks : ∀ q, (t.block q).toImmixBlock = (space.block q).toImmixBlock) :
    Inv space (n + 1)
      { s.setMutator m ⟨(blockAt space n).start, (blockAt space n).start, 0, some (blockAt space n)⟩ (.alloc r) with
        space := t } := by
  -- block `n` lies after the blocks before it
  have hfresh : ∀ k < n, ∀ a, (blockAt space k).start ≤ a → a < (blockAt space k).start + 65536 →
      ¬ (blockAt space n).start ≤ a := by
    intro k hk a h1 h2 h3
    have hmul : 65536 * (k + 1) ≤ 65536 * n := Nat.mul_le_mul_left 65536 hk
    simp only [blockAt] at h1 h2 h3
    omega
  refine h.frame ⟨(blockAt space n).start, (blockAt space n).start, 0, some (blockAt space n)⟩ (.alloc r)
    rfl rfl hn hlists hblocks (fun j hj => h.free j (by omega)) (fun q hq => ?_) h.apart ?_ (fun m' hm' _ => ?_) ?_
  · obtain ⟨k, hk, hin⟩ := h.taken q hq
    exact ⟨k, by omega, hin⟩
  · refine ⟨.taken n n.lt_succ_self rfl rfl rfl rfl, fun _ b hb j hj => ?_, ?_, fun c hc1 hc2 => ?_⟩
    · cases hb
      exact h.free _ (Nat.le_add_right _ _)
    · rintro q hq c hc ⟨b, hb, hlo, -⟩
      cases hb
      obtain ⟨k, hk, h1, h2⟩ := h.taken q hq
      exact hfresh k hk c (h1.trans hc.1) (hc.2.trans_le h2) hlo
    · exact absurd hc1 (not_le.2 hc2)
  · have hother := h.loc m' hm'
    exact ⟨hother.shape.mono n.le_succ, hother.untouched, hother.outside, hother.zero⟩
  · rintro b hb m' hm' - hb'
    cases hb
    obtain ⟨k, hk, heq, -⟩ := (h.loc m' hm').shape.of_block hb'
    exact absurd (blockAt_inj heq) (by omega)

theorem Inv.created (h : Inv space n s) :
    Inv space n { s.setMutator s.nMutators reset .idle with nMutators := s.nMutators + 1 } := by
  have hcases : ∀ i < s.nMutators + 1, i = s.nMutators ∨ i < s.nMutators := fun i hi => by omega
  have hself : (Function.update s.mutators s.nMutators ⟨reset, .idle⟩ s.nMutators).loc.block = none := by
    rw [Function.update_self]
    rfl
  refine ⟨h.le, h.lists, h.blocks, h.free, h.taken, h.apart, fun i hi => ?_, fun i hi j hj b hbi hbj => ?_⟩
  · change LocInv _ _ _ (Function.update s.mutators s.nMutators ⟨reset, .idle⟩ i).loc
    rcases hcases i hi with rfl | hi
    · rw [Function.update_self]
      refine ⟨.noBlock rfl rfl rfl rfl, fun h0 => (by cases h0), ?_, fun a _ ha => absurd ha (Nat.not_lt_zero a)⟩
      rintro q - c - ⟨b, hb, -⟩
      cases hb
    · rw [Function.update_of_ne hi.ne]
      have hloc := h.loc i hi
      exact ⟨hloc.shape, hloc.untouched, hloc.outside, hloc.zero⟩
  · change (Function.update s.mutators s.nMutators ⟨reset, .idle⟩ i).loc.block = some b at hbi
    change (Function.update s.mutators s.nMutators ⟨reset, .idle⟩ j).loc.block = some b at hbj
    rcases hcases i hi with rfl | hi
    · rw [hself] at hbi
      cases hbi
    rcases hcases j hj with rfl | hj
    · rw [hself] at hbj
      cases hbj
    rw [Function.update_of_ne hi.ne] at hbi
    rw [Function.update_of_ne hj.ne] at hbj
    exact h.owner i hi j hj b hbi hbj

/-- the program stores into what no bump region has left -/
theorem Inv.wrote (h : Inv space n s) {addr : ℕ} (hgiven : Given s.given addr) (value : UInt8) :
    Inv space n { s with memory := Function.update s.memory addr value } := by
  obtain ⟨q, hq, h1, h2⟩ := hgiven
  refine ⟨h.le, h.lists, h.blocks, h.free, h.taken, h.apart, fun m hm => ?_, h.owner⟩
  have hloc := h.loc m hm
  refine ⟨hloc.shape, hloc.untouched, hloc.outside, fun a ha1 ha2 => ?_⟩
  have hne : a ≠ addr := by
    rintro rfl
    exact hloc.outside q hq a ⟨h1, h2⟩ (hloc.shape.left ha1 ha2)
  exact (Function.update_of_ne hne _ _).trans (hloc.zero a ha1 ha2)

theorem Stepped.inv (hp : Placed space) (h : Inv space n s) {o : Op} {s' : State} {n' : ℕ}
    (hs : Stepped space n s o s' n') : n ≤ n' ∧ Inv space n' s' := by
  cases hs with
  | stays => exact ⟨le_rfl, h⟩
  | created => exact ⟨le_rfl, h.created⟩
  | overflows => exact ⟨le_rfl, h.setStatus .wild⟩
  | called m r hm => exact ⟨le_rfl, h.setPc hm _⟩
  | served m r a x hrun hm hpc hb => exact ⟨le_rfl, h.bump hp hm hb⟩
  | missed m r hm => exact ⟨le_rfl, h.setPc hm _⟩
  | noHole m r hm => exact ⟨le_rfl, h.setPc hm _⟩
  | hole m r k hm hpc hk hblock hcursor => exact ⟨le_rfl, h.hole hm r hk hblock hcursor⟩
  | block m r t hm hpc hn hlists hblocks => exact ⟨n.le_succ, h.block m r hn hlists hblocks⟩
  | exits => exact ⟨le_rfl, h.setStatus .exited⟩
  | wrote addr value hgiven => exact ⟨le_rfl, h.wrote hgiven value⟩

/-- **Step lemma.** -/
theorem Inv.step (hp : Placed space) (h : Inv space n s) (o : Op) : ∃ n', Inv space n' (step s o) := by
  obtain ⟨n', hs⟩ := h.step_cases hp o
  exact ⟨n', (hs.inv hp h).2⟩

/-! ## What a step gives, and what it leaves -/

/-- the bytes that a step returns are zero -/
theorem Inv.zero_of_returns (hp : Placed space) (h : Inv space n s) {o : Op} {r : ℕ × ℕ} (hr : s.returns o = some r) :
    ∀ c ∈ bytes r, s.memory c = 0 := by
  cases o with
  | tick m =>
    unfold State.returns at hr
    dsimp only at hr
    split_ifs at hr with hrun
    cases hpc : (s.mutators m).pc with
    | alloc q =>
      rw [hpc] at hr
      obtain ⟨⟨a, x⟩, hb, rfl⟩ := Option.map_eq_some_iff.1 hr
      obtain ⟨k, -, -, -, -, h1, h2, h3, h4, -⟩ := bump_spec hp h hrun.2 hb
      intro c hc
      have hlo : a ≤ c := hc.1
      have hhi : c < a + q.size := hc.2
      exact (h.loc m hrun.2).zero c (by omega) (by omega)
    | _ =>
      rw [hpc] at hr
      cases hr
  | _ => cases hr

theorem Inv.recorded (hp : Placed space) (h : Inv space n s) (o : Op) :
    (Threads.step s o).given = (s.returns o).toList ++ s.given := by
  obtain ⟨n', hs⟩ := h.step_cases hp o
  generalize Threads.step s o = s' at hs ⊢
  cases hs with
  | stays _ hidle =>
    cases o with
    | tick m =>
      have hnone : s.returns (.tick m) = none := by
        unfold State.returns
        dsimp only
        split_ifs with hrun
        · have hpc : ¬ (s.mutators m).pc.isIdle = false := fun hbusy => hidle m rfl ⟨hrun.1, hrun.2, hbusy⟩
          cases hq : (s.mutators m).pc with
          | idle => rfl
          | _ => exact absurd (by rw [hq]; rfl) hpc
        · rfl
      rw [hnone]
      rfl
    | _ => rfl
  | served m r a x hrun hm hpc hb => simp [State.returns, hrun, hm, hpc, hb]
  | missed m r hm hpc hb => simp [State.returns, hpc, hb, State.setMutator]
  | noHole m r hm hpc => simp [State.returns, hpc, State.setMutator]
  | hole m r k hm hpc => simp [State.returns, hpc, State.setMutator]
  | block m r t hm hpc => simp [State.returns, hpc, State.setMutator]
  | exits m r hm hpc => simp [State.returns, hpc]
  | _ => rfl

/-- nobody but the program stores into what it has been given -/
theorem Inv.memory_kept (hp : Placed space) (h : Inv space n s) (o : Op) {c : ℕ} (hc : Given s.given c)
    (hwrite : ∀ v, o ≠ .write c v) : (Threads.step s o).memory c = s.memory c := by
  obtain ⟨n', hs⟩ := h.step_cases hp o
  generalize Threads.step s o = s' at hs ⊢
  cases hs with
  | hole m r k hm hpc hk hblock hcursor =>
    refine memset_of_not_mem ?_
    rintro ⟨hlo, hhi⟩
    obtain ⟨q, hq, h1, h2⟩ := hc
    exact (h.loc m hm).outside q hq c ⟨h1, h2⟩ ⟨_, hblock, hcursor.trans_le hlo, hhi⟩
  | wrote addr value =>
    have hne : c ≠ addr := by
      rintro rfl
      exact hwrite value rfl
    exact Function.update_of_ne hne _ _
  | _ => rfl

/-- there is room in `MUTATORS` for a mutator that is created -/
def HasRoom (s : State) (o : Op) : Prop := o = .new → s.nMutators < maxMutators

instance (s : State) : (o : Op) → Decidable (HasRoom s o)
  | .new => decidable_of_iff (s.nMutators < maxMutators) ⟨fun h _ => h, fun h => h rfl⟩
  | .alloc _ _ => .isTrue fun h => by cases h
  | .tick _ => .isTrue fun h => by cases h
  | .write _ _ => .isTrue fun h => by cases h

/-- nothing undefined happens as long as there is room -/
theorem Inv.not_wild (hp : Placed space) (h : Inv space n s) {o : Op} (hroom : HasRoom s o) (hs : s.status ≠ .wild) :
    (Threads.step s o).status ≠ .wild := by
  obtain ⟨n', hstep⟩ := h.step_cases hp o
  generalize Threads.step s o = s' at hstep ⊢
  cases hstep with
  | overflows hfull => exact absurd (hroom rfl) hfull
  | exits => rintro ⟨⟩
  | _ => exact hs

/-! ## Steps of a call -/

/-- what is left of the call of a mutator, after `n` blocks: five steps for each block that can still be taken, and the
steps to the next call of `alloc_from_global` -/
def rank (space : ImmixSpace) (n : ℕ) (x : Mutator) : ℕ :=
  match x.pc with
  | .idle => 0
  | .allocFromGlobal _ => 5 * (space.blocks.length - n) + 1
  | .tryAllocFromLocal _ => 5 * (space.blocks.length - n) + if x.loc.line = 256 then 2 else 4
  | .alloc _ => 5 * (space.blocks.length - n) + if x.loc.line = 256 then 3 else 5

theorem rank_le (x : Mutator) : rank space n x ≤ 5 * space.blocks.length + 5 := by
  unfold rank
  cases x.pc with
  | idle => exact Nat.zero_le _
  | allocFromGlobal r =>
    dsimp only
    omega
  | _ =>
    dsimp only
    split_ifs <;> omega

theorem rank_mono {n' : ℕ} (hn : n ≤ n') (x : Mutator) : rank space n' x ≤ rank space n x := by
  unfold rank
  cases x.pc with
  | idle => exact le_rfl
  | allocFromGlobal r =>
    dsimp only
    omega
  | _ =>
    dsimp only
    split_ifs <;> omega

/-- the other steps leave a mutator that is in a call as it is -/
theorem Stepped.mutator_other {o : Op} {s' : State} {n' : ℕ} (hs : Stepped space n s o s' n') (hcall : InCall s m)
    (ho : o ≠ .tick m) : s'.mutators m = s.mutators m := by
  obtain ⟨-, hm, hbusy⟩ := hcall
  cases hs with
  | created => exact Function.update_of_ne hm.ne _ _
  | called m' r hm' hpc =>
    have hne : m ≠ m' := by
      rintro rfl
      rw [hpc] at hbusy
      cases hbusy
    exact Function.update_of_ne hne _ _
  | stays | overflows | exits | wrote => rfl
  | served m' | missed m' | noHole m' | hole m' | block m' =>
    have hne : m ≠ m' := by
      rintro rfl
      exact ho rfl
    exact Function.update_of_ne hne _ _

/-- a step of the mutator itself brings the end of its call nearer -/
theorem Stepped.rank_tick {s' : State} {n' : ℕ} (hs : Stepped space n s (.tick m) s' n') (hcall : InCall s m)
    (hafter : InCall s' m) : rank space n' (s'.mutators m) + 1 ≤ rank space n (s.mutators m) := by
  have hself : ∀ x, Function.update s.mutators m x m = x := fun x => Function.update_self m x s.mutators
  cases hs with
  | stays _ hidle => exact absurd hcall (hidle m rfl)
  | served _ r a x =>
    have hbusy : (Function.update s.mutators m ⟨x, .idle⟩ m).pc.isIdle = false := hafter.2.2
    rw [hself] at hbusy
    cases hbusy
  | missed _ r hm hpc =>
    change rank space n (Function.update s.mutators m ⟨_, .tryAllocFromLocal r⟩ m) + 1 ≤ _
    rw [hself]
    unfold rank
    rw [hpc]
    dsimp only
    split_ifs <;> omega
  | noHole _ r hm hpc hline =>
    change rank space n (Function.update s.mutators m ⟨_, .allocFromGlobal r⟩ m) + 1 ≤ _
    rw [hself]
    unfold rank
    rw [hpc]
    dsimp only
    rw [if_pos hline]
  | hole _ r k hm hpc hk hblock hcursor hline =>
    change rank space n (Function.update s.mutators m ⟨⟨_, _, 256, _⟩, .alloc r⟩ m) + 1 ≤ _
    rw [hself]
    unfold rank
    rw [hpc, hline]
    dsimp only
    rw [if_pos rfl, if_neg (by norm_num)]
  | block _ r t hm hpc hn =>
    change rank space (n + 1) (Function.update s.mutators m ⟨⟨_, _, 0, _⟩, .alloc r⟩ m) + 1 ≤ _
    rw [hself]
    unfold rank
    rw [hpc]
    dsimp only
    rw [if_neg (by norm_num)]
    omega
  | exits => cases hafter.1

theorem Op.ticks_iff {o : Op} : Op.ticks m o = true ↔ o = .tick m := by
  cases o <;> simp [Op.ticks]

/-- **Step lemma** for a call: its rank does not grow, and a step of its mutator lowers it. -/
theorem Inv.rank_step (hp : Placed space) (h : Inv space n s) (o : Op) (hcall : InCall s m)
    (hafter : InCall (Threads.step s o) m) :
    ∃ n', Inv space n' (Threads.step s o) ∧
      rank space n' ((Threads.step s o).mutators m) + (if Op.ticks m o = true then 1 else 0) ≤
        rank space n (s.mutators m) := by
  obtain ⟨n', hs⟩ := h.step_cases hp o
  obtain ⟨hn', hinv⟩ := hs.inv hp h
  refine ⟨n', hinv, ?_⟩
  by_cases ho : o = .tick m
  · rw [if_pos (Op.ticks_iff.2 ho)]
    subst ho
    exact hs.rank_tick hcall hafter
  · rw [hs.mutator_other hcall ho, if_neg fun ht => ho (Op.ticks_iff.1 ht)]
    exact rank_mono hn' _

/-! ## Runs -/

/-- a space built by `ImmixSpace_new` whose mapping is whole blocks from a block boundary on, where `malloc` has left NULL
at the ends of the lists -/
structure NewSpace where
  malloc : ℕ → ℕ
  mmap : ℕ → Option ℕ
  raw : ImmixSpace
  spaceSize : Int32
  mmapStart : ℕ
  space : ImmixSpace
  inj : malloc.Injective
  spec : MmapSpec mmap
  mapped : mmap (uintptr spaceSize.toInt) = some mmapStart
  aligned : 65536 ∣ mmapStart ∧ (65536 : ℤ) ∣ spaceSize.toInt
  cleared : Cleared malloc raw spaceSize
  built : ImmixSpace.new malloc mmap raw spaceSize = some space

/-- the state before operation `k` of a run -/
def NewSpace.before (u : NewSpace) (memory : ℕ → UInt8) (ops : List Op) (k : ℕ) : State :=
  stateAt step (.init u.space memory) ops k

/-- **What is to hold in every state.** -/
structure Serves (u : NewSpace) (s : State) : Prop where
  /-- no byte is given twice -/
  apart : s.given.Pairwise fun r r' => Disjoint (bytes r) (bytes r')
  /-- the list of what has been given grows by what a step returns -/
  recorded : ∀ o, (step s o).given = (s.returns o).toList ++ s.given
  /-- what is given lies in one block, in the mapping and in the space -/
  inside : ∀ r ∈ s.given, BytesInside u.mmapStart u.spaceSize u.space r.1 (r.1 + r.2) ∧
    ∃ p ∈ u.space.blocks, (u.space.block p).start ≤ r.1 ∧ r.1 + r.2 ≤ (u.space.block p).start + bytesInBlock
  /-- it has the size and the alignment asked for -/
  asked : ∀ m r, (s.mutators m).pc = .alloc r → ∀ q, s.returns (.tick m) = some q → q.2 = r.size ∧ r.align ∣ q.1
  /-- a range is zero when it is given -/
  zero : ∀ o r, s.returns o = some r → ∀ c ∈ bytes r, s.memory c = 0
  /-- from then on only the program stores into it -/
  kept : ∀ o c, Given s.given c → (∀ v, o ≠ .write c v) → (step s o).memory c = s.memory c

namespace NewSpace

variable (u : NewSpace)

theorem constructed : Constructed u.malloc u.raw u.mmapStart u.spaceSize u.space := by
  obtain ⟨s, hs, h⟩ := new_spec u.raw u.spec u.inj u.mapped
  obtain rfl := Option.some.inj (hs.symm.trans u.built)
  exact h

theorem blocks_length : u.space.blocks.length = numBlocks u.spaceSize := by
  rw [u.constructed.blocks, List.length_map, List.length_range]

/-- the blocks fill the space, which is the mapping -/
theorem extent : u.space.start = u.mmapStart ∧ u.space.stop = u.mmapStart + 65536 * u.space.blocks.length ∧
    mappedEnd u.mmapStart u.spaceSize = u.space.stop ∧ u.space.stop ≤ 2 ^ 63 := by
  obtain ⟨hpos, hsize⟩ := u.spec.size_pos u.mapped
  obtain ⟨-, -, -, hend⟩ := u.spec.page _ _ u.mapped
  have hstart := u.constructed.start
  have hstop := u.constructed.stop
  obtain ⟨h1, h2⟩ := u.aligned
  rw [hsize] at hend
  rw [u.blocks_length, numBlocks, mappedEnd]
  omega

theorem placed : Placed u.space where
  nodup := by
    rw [u.constructed.blocks]
    exact List.nodup_range.map u.inj
  fits := by
    obtain ⟨h1, h2, -, h4⟩ := u.extent
    omega
  block := by
    intro k hk
    have hnum : k < numBlocks u.spaceSize := by rwa [u.blocks_length] at hk
    have hget : u.space.blocks[k] = u.malloc k := by simp [u.constructed.blocks]
    rw [hget, u.constructed.block k hnum]
    rfl

theorem inv_init (memory : ℕ → UInt8) : Inv u.space 0 (.init u.space memory) where
  le := Nat.zero_le _
  lists := u.constructed.lists (numBlocks_pos (u.spec.size_pos u.mapped).1) u.cleared
  blocks := fun _ => rfl
  free := fun _ _ => rfl
  taken := by simp [State.init]
  apart := .nil
  loc := fun m hm => absurd hm (Nat.not_lt_zero m)
  owner := fun m hm => absurd hm (Nat.not_lt_zero m)

/-- **Run lemma.** -/
theorem inv_run (memory : ℕ → UInt8) (ops : List Op) (k : ℕ) : ∃ n, Inv u.space n (u.before memory ops k) :=
  stateAt_inv_all (I := fun s => ∃ n, Inv u.space n s) ops (fun _ o ⟨_, h⟩ => h.step u.placed o)
    ⟨0, u.inv_init memory⟩ k

theorem serves_of_inv {n : ℕ} {s : State} (h : Inv u.space n s) : Serves u s where
  apart := h.apart
  recorded := fun o => h.recorded u.placed o
  inside := by
    intro r hr
    obtain ⟨k, hk, h1, h2⟩ := h.taken r hr
    have hlt := hk.trans_le h.le
    refine ⟨?_, _, List.getElem_mem hlt, ?_⟩
    · obtain ⟨hstart, hstop, hend, -⟩ := u.extent
      have hmul : 65536 * (k + 1) ≤ 65536 * u.space.blocks.length := Nat.mul_le_mul_left 65536 hlt
      unfold BytesInside
      simp only [blockAt] at h1 h2
      omega
    · rw [u.placed.block k hlt, bytesInBlock_eq]
      exact ⟨h1, h2⟩
  asked := by
    intro m r hpc q hq
    unfold State.returns at hq
    dsimp only at hq
    split_ifs at hq with hrun
    rw [hpc] at hq
    obtain ⟨⟨a, x⟩, hb, rfl⟩ := Option.map_eq_some_iff.1 hq
    obtain ⟨hle, hlt⟩ := (h.loc m hrun.2).shape.limit_le u.placed h.le
    exact ⟨rfl, bump_aligned (by omega) hb⟩
  zero := fun _ _ hr => h.zero_of_returns u.placed hr
  kept := fun o _ hc => h.memory_kept u.placed o hc

end NewSpace

/-- **The C program serves.** For every new space and every content of the memory before it, in every state of every run
of any number of mutators: the ranges that have been given are pairwise disjoint, each in one block of the mapping and as
it was asked for, zero when it was given, and the program's from then on; and no step is undefined as long as at most 1024
mutators are created. -/
theorem serves_run (u : NewSpace) (memory : ℕ → UInt8) (ops : List Op) (k : ℕ) :
    Serves u (u.before memory ops k) ∧
      (LegalRun step HasRoom (.init u.space memory) ops → (u.before memory ops k).status ≠ .wild) := by
  obtain ⟨n, h⟩ := u.inv_run memory ops k
  refine ⟨u.serves_of_inv h, fun hops => ?_⟩
  have hstep : ∀ s o, HasRoom s o → (∃ n, Inv u.space n s) ∧ s.status ≠ .wild →
      (∃ n, Inv u.space n (Threads.step s o)) ∧ (Threads.step s o).status ≠ .wild := by
    rintro s o ho ⟨⟨n, hn⟩, hs⟩
    exact ⟨hn.step u.placed o, hn.not_wild u.placed ho hs⟩
  have hinit : (State.init u.space memory).status ≠ .wild := by
    rintro ⟨⟩
  exact (stateAt_inv hstep ⟨⟨0, u.inv_init memory⟩, hinit⟩ hops k).2

theorem twoBlocks_isSome : (ImmixSpace.new blockPage (mmapAt 524288) (Blocks.memory none) 131072).isSome = true := by
  decide +kernel

theorem twoBlocks_mapped : mmapAt 524288 (uintptr (Int32.toInt 131072)) = some 524288 := by decide +kernel

theorem twoBlocks_cleared : Cleared blockPage (Blocks.memory none) 131072 := ⟨rfl, fun _ _ => rfl⟩

theorem twoBlocks_spec : MmapSpec (mmapAt 524288) := mmapAt_spec (by norm_num) (by norm_num) (by norm_num)

theorem twoBlocks_aligned : 65536 ∣ 524288 ∧ (65536 : ℤ) ∣ Int32.toInt 131072 := by decide

/-- two blocks, on a multiple of a block and memory of zeros -/
def twoBlocks : NewSpace where
  malloc := blockPage
  mmap := mmapAt 524288
  raw := Blocks.memory none
  spaceSize := 131072
  mmapStart := 524288
  space := (ImmixSpace.new blockPage (mmapAt 524288) (Blocks.memory none) 131072).get twoBlocks_isSome
  inj := blockPage_injective
  spec := twoBlocks_spec
  mapped := twoBlocks_mapped
  aligned := twoBlocks_aligned
  cleared := twoBlocks_cleared
  built := (Option.some_get twoBlocks_isSome).symm

/-- a request for a line, aligned as objects are -/
def lineRequest : Request := ⟨256, 8, by decide, by decide, 3, by decide, rfl⟩

/-- two mutators that are in a call at the same time; the first returns -/
def twoCalls : List Op :=
  [.new, .new, .alloc 0 lineRequest, .alloc 1 lineRequest, .tick 1] ++ List.replicate 16 (.tick 0)

theorem serves_run_twoCalls :
    Serves twoBlocks (twoBlocks.before (fun _ => 7) twoCalls 21) ∧
      (twoBlocks.before (fun _ => 7) twoCalls 21).status ≠ .wild := by
  have hroom : LegalRun step HasRoom (.init twoBlocks.space fun _ => 7) twoCalls := by
    decide +kernel
  exact ⟨(serves_run twoBlocks (fun _ => 7) twoCalls 21).1, (serves_run twoBlocks (fun _ => 7) twoCalls 21).2 hroom⟩

/-- in a call, the steps of the mutator and the rank of what is left are bounded -/
theorem steps_rank_le (u : NewSpace) (memory : ℕ → UInt8) (ops : List Op) {i j m : ℕ} (hij : i ≤ j) (hj : j ≤ ops.length)
    (hcall : ∀ k, i ≤ k → k ≤ j → InCall (u.before memory ops k) m) :
    ∃ n, Inv u.space n (u.before memory ops j) ∧
      ((ops.take j).drop i).countP (Op.ticks m) + rank u.space n ((u.before memory ops j).mutators m) ≤
        5 * u.space.blocks.length + 5 := by
  induction j, hij using Nat.le_induction with
  | base =>
    obtain ⟨n, h⟩ := u.inv_run memory ops i
    refine ⟨n, h, ?_⟩
    rw [List.drop_of_length_le (by simp), List.countP_nil, Nat.zero_add]
    exact rank_le _
  | succ j hij ih =>
    obtain ⟨n, h, hle⟩ := ih (by omega) fun k h1 h2 => hcall k h1 (by omega)
    have hlt : j < ops.length := hj
    have hnext : u.before memory ops (j + 1) = step (u.before memory ops j) ops[j] :=
      stateAt_succ _ _ (List.getElem?_eq_getElem hlt)
    have hafter := hcall (j + 1) (by omega) le_rfl
    rw [hnext] at hafter
    obtain ⟨n', h', hrank⟩ := h.rank_step u.placed ops[j] (hcall j hij (by omega)) hafter
    rw [← hnext] at h' hrank
    refine ⟨n', h', ?_⟩
    rw [List.take_succ_eq_append_getElem hlt, List.drop_append_of_le_length (by simp; omega), List.countP_append,
      List.countP_singleton]
    omega

/-- **A call ends.** For every new space, in every run of any number of mutators: a mutator that is in a call of `alloc`
and takes more than five steps for each block of the space and five more returns from it, or the process is no longer
running. -/
theorem call_ends (u : NewSpace) (memory : ℕ → UInt8) (ops : List Op) (i m : ℕ)
    (hcall : InCall (u.before memory ops i) m)
    (hsteps : 5 * u.space.blocks.length + 5 < (ops.drop i).countP (Op.ticks m)) :
    ∃ j, i < j ∧ j ≤ ops.length ∧ ¬ InCall (u.before memory ops j) m := by
  by_contra hnone
  push Not at hnone
  have hi : i ≤ ops.length := by
    by_contra hlt
    rw [List.drop_of_length_le (by omega), List.countP_nil] at hsteps
    omega
  obtain ⟨n, -, hle⟩ := steps_rank_le u memory ops hi le_rfl fun k h1 h2 => by
    rcases Nat.eq_or_lt_of_le h1 with rfl | hlt
    · exact hcall
    · exact hnone k hlt h2
  rw [List.take_length] at hle
  omega

theorem call_ends_twoCalls : ∃ j, 3 < j ∧ j ≤ 21 ∧ ¬ InCall (twoBlocks.before (fun _ => 7) twoCalls j) 0 :=
  call_ends twoBlocks (fun _ => 7) twoCalls 3 0 (by decide +kernel) (by decide +kernel)

end

end Immix.C.Threads
