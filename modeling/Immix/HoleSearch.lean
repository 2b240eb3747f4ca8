/-
The holes that `alloc`, `try_alloc_from_local` and `alloc_from_global` enter (`src/heap/immix/immix_mutator.rs`).

The three functions call each other; `Search.alloc` follows them, with the calls of `alloc` counted by the fuel and each
range `[cursor, limit)` that `try_alloc_from_local` sets recorded. What `get_next_usable_block` answers in the loop of
`alloc_from_global` is given with the marks found then: a collection may have run in between.
- `tryAllocFromLocal_cases`: the first run of Free lines at or after the mutator's line is taken, or there is none.
- `line_requests_served`: a request of at most a line is served at the first place that has room, with one hole at most.
- `hole_enumeration`: from a new block on, requests of any size visit the maximal runs of Free lines, in order.
-/
import Immix.Heap
import Immix.Lib.Runs

namespace Immix

open Lib

/-- the line at index `i` of the block is Free -/
def ImmixBlock.FreeLine (b : ImmixBlock) (t : LineMarkTable) (i : ℕ) : Prop := b.lineMarkTable.get t i = .free

/-- the address of the first byte of line `i` -/
def ImmixBlock.lineStart (b : ImmixBlock) (i : ℕ) : ℕ := Address.plus b.start (i <<< logBytesInLine)

/-- a mutator, the marks of its space, and the ranges `try_alloc_from_local` has set so far -/
structure Search where
  loc : ImmixMutatorLocal
  lines : LineMarkTable
  holes : List (ℕ × ℕ)

/-- one answer of `get_next_usable_block`, and the marks at that time -/
structure Answer where
  block : Option ImmixBlock
  lines : LineMarkTable

/-- how a call stands -/
inductive Ended where
  | address (a : ℕ) (s : Search) (rest : List Answer)
  /-- in the loop of `alloc_from_global`, after the answers given -/
  | waiting (s : Search)
  | noBlock

/-- the loop of `alloc_from_global` -/
def nextBlock : List Answer → Option (ImmixBlock × LineMarkTable × List Answer)
  | [] => none
  | ⟨some b, t⟩ :: rest => some (b, t, rest)
  | ⟨none, _⟩ :: rest => nextBlock rest

namespace Search

/-- `alloc`; `none` when the fuel runs out -/
def alloc (layout : Layout) : ℕ → List Answer → Search → Option Ended
  | 0, _, _ => none
  | fuel + 1, answers, s =>
    match s.loc.bump layout with
    | some (a, x) => some (.address a { s with loc := x } answers)
    | none =>
      match s.loc.tryAllocFromLocal s.lines with
      | .hole x t => alloc layout fuel answers ⟨x, t, s.holes ++ [(x.cursor, x.limit)]⟩
      | .panicked => some .noBlock
      | .none =>
        match nextBlock answers with
        | some (b, t, rest) => alloc layout fuel rest ⟨s.loc.useBlock b, t, s.holes⟩
        | none => some (.waiting { s with loc := (s.loc.returnBlock []).1 })

/-- a list of requests, up to the first that gets to `alloc_from_global`: whether there is one, and what is left -/
def drive : List Layout → Search → Option (Bool × Search)
  | [], s => some (false, s)
  | layout :: layouts, s =>
    match s.alloc layout (linesInBlock + 1) [] with
    | some (.address _ s' _) => drive layouts s'
    | some (.waiting s') => some (true, s')
    | _ => none

end Search

/-! ## The hole search -/

section Hole

variable {b : ImmixBlock} {t : LineMarkTable} {x : ImmixMutatorLocal}

/-- **`try_alloc_from_local`** takes the first run of Free lines at or after the mutator's line; without one it goes on
to `alloc_from_global`. -/
theorem tryAllocFromLocal_cases (hb : x.block = some b) (hlen : b.lineMarkTable.len = 256) :
    (∃ i j, FirstRun (b.FreeLine t) 256 x.line i j ∧
      x.tryAllocFromLocal t = .hole ⟨b.lineStart i, b.lineStart j, j, some b⟩ (b.lineMarkTable.freshen t i j)) ∨
    ((∀ i, x.line ≤ i → i < 256 → ¬ b.FreeLine t i) ∧ x.tryAllocFromLocal t = .none) := by
  unfold ImmixMutatorLocal.tryAllocFromLocal
  rw [hb]
  by_cases hline : x.line < linesInBlock
  · rw [if_pos hline]
    dsimp only
    cases hnext : b.lineMarkTable.getNextAvailableLine t x.line with
    | none =>
      have hnone := b.lineMarkTable.nextAvailable_none t hnext
      rw [hlen] at hnone
      exact .inr ⟨hnone, rfl⟩
    | some i =>
      obtain ⟨h1, h2, h3, h4⟩ := b.lineMarkTable.nextAvailable_some t hnext
      obtain ⟨-, h5, h6, h7⟩ := b.lineMarkTable.nextUnavailable_spec t h2.le
      have hlt := b.lineMarkTable.nextUnavailable_gt t h2 h3
      rw [hlen] at h5 h7
      exact .inl ⟨i, _, ⟨h1, hlt, h5, h4, h6, h7⟩, rfl⟩
  · rw [if_neg hline]
    rw [linesInBlock_eq] at hline
    exact .inr ⟨fun i h1 h2 => by omega, rfl⟩

theorem lineStart_eq (b : ImmixBlock) (i : ℕ) : b.lineStart i = b.start + i * 256 := by
  rw [ImmixBlock.lineStart, shiftLeft_line, Address.plus]

end Hole

/-! ## Requests of at most a line -/

/-- a request that the bump region has room for -/
def ImmixMutatorLocal.Fits (x : ImmixMutatorLocal) (layout : Layout) : Prop :=
  Address.plus (Address.alignUp x.cursor layout.align) layout.size ≤ x.limit

/-- the state after a hole is entered and a request of `size` bytes is served at its start -/
def Search.enter (s : Search) (b : ImmixBlock) (t : LineMarkTable) (i j size : ℕ) : Search :=
  ⟨⟨b.lineStart i + size, b.lineStart j, j, some b⟩, b.lineMarkTable.freshen t i j,
    s.holes ++ [(b.lineStart i, b.lineStart j)]⟩

/-- nothing is left in the block that the mutator holds -/
def Search.Exhausted (s : Search) : Prop :=
  ∀ b, s.loc.block = some b → ∀ i, s.loc.line ≤ i → i < 256 → ¬ b.FreeLine s.lines i

/-- an answer that no hole can be found in: no block, or one without a Free line -/
def Answer.Full (r : Answer) : Prop := ∀ b, r.block = some b → ∀ i < 256, ¬ b.FreeLine r.lines i

/-- where a request is served -/
inductive Serves (layout : Layout) (answers : List Answer) (s : Search) : Ended → Prop where
  | bumpRegion (hfits : s.loc.Fits layout) :
    Serves layout answers s (.address (Address.alignUp s.loc.cursor layout.align)
      { s with loc := { s.loc with
          cursor := Address.plus (Address.alignUp s.loc.cursor layout.align) layout.size } } answers)
  | ownBlock {b : ImmixBlock} {i j : ℕ} (hfits : ¬ s.loc.Fits layout) (hb : s.loc.block = some b)
    (hole : FirstRun (b.FreeLine s.lines) 256 s.loc.line i j) :
    Serves layout answers s (.address (b.lineStart i) (s.enter b s.lines i j layout.size) answers)
  | queue {before rest : List Answer} {b : ImmixBlock} {t : LineMarkTable} {i j : ℕ} (hfits : ¬ s.loc.Fits layout)
    (hown : s.Exhausted) (hanswers : answers = before ++ ⟨some b, t⟩ :: rest) (hbefore : ∀ r ∈ before, r.Full)
    (hole : FirstRun (b.FreeLine t) 256 0 i j) :
    Serves layout answers s (.address (b.lineStart i) (s.enter b t i j layout.size) rest)
  | waiting {s' : Search} (hfits : ¬ s.loc.Fits layout) (hown : s.Exhausted) (hfull : ∀ r ∈ answers, r.Full)
    (hholes : s'.holes = s.holes) (hblock : s'.loc.block = none) :
    Serves layout answers s (.waiting s')

/-- an alignment of at most a line divides a line -/
theorem Layout.align_dvd_line (l : Layout) (h : l.align ≤ 256) : l.align ∣ 256 := by
  obtain ⟨k, hk⟩ := l.pow
  have hk8 : k ≤ 8 := by
    by_contra hlt
    have : (2 : ℕ) ^ 9 ≤ 2 ^ k := Nat.pow_le_pow_right (by norm_num) (by omega)
    omega
  rw [hk]
  exact Nat.pow_dvd_pow 2 hk8

section Requests

variable {sp : Space} {layout : Layout} {b : ImmixBlock} {s : Search}

theorem bump_of_fits (h : s.loc.Fits layout) :
    s.loc.bump layout = some (Address.alignUp s.loc.cursor layout.align,
      { s.loc with cursor := Address.plus (Address.alignUp s.loc.cursor layout.align) layout.size }) := if_pos h

theorem bump_of_not_fits (h : ¬ s.loc.Fits layout) : s.loc.bump layout = none := if_neg h

/-- a block of a space: its start is a multiple of a line, and its bytes lie in user memory -/
theorem block_placed (hb : b ∈ sp.initBlocks) : 256 ∣ b.start ∧ b.start + 65536 ≤ 2 ^ 63 ∧ b.lineMarkTable.len = 256 := by
  obtain ⟨k, hk, rfl⟩ := mem_initBlocks.1 hb
  have hstart := sp.dvd_start.2.1
  have huser := sp.user
  refine ⟨?_, ?_, rfl⟩
  · show 256 ∣ sp.start + k * 65536
    omega
  · show sp.start + k * 65536 + 65536 ≤ 2 ^ 63
    omega

/-- a request of at most a line is served at the start of a hole -/
theorem alloc_in_hole (hb : b ∈ sp.initBlocks) (hsize : layout.size ≤ 256) (halign : layout.align ≤ 256) {i j : ℕ}
    (hij : i < j) (hj : j ≤ 256) (fuel : ℕ) (answers : List Answer) (t : LineMarkTable) (holes : List (ℕ × ℕ)) :
    Search.alloc layout (fuel + 1) answers ⟨⟨b.lineStart i, b.lineStart j, j, some b⟩, t, holes⟩ =
      some (.address (b.lineStart i) ⟨⟨b.lineStart i + layout.size, b.lineStart j, j, some b⟩, t, holes⟩ answers) := by
  obtain ⟨h1, h2, -⟩ := block_placed hb
  have hdvd : layout.align ∣ b.lineStart i := by
    rw [lineStart_eq]
    exact Nat.dvd_trans (layout.align_dvd_line halign) (Nat.dvd_add h1 (Dvd.intro_left i rfl))
  have hround : Address.alignUp (b.lineStart i) layout.align = b.lineStart i := by
    refine layout.alignUp_of_dvd ?_ hdvd
    rw [lineStart_eq]
    omega
  have hfits : Address.plus (b.lineStart i) layout.size ≤ b.lineStart j := by
    rw [lineStart_eq, lineStart_eq, Address.plus]
    omega
  have hbump : (ImmixMutatorLocal.mk (b.lineStart i) (b.lineStart j) j (some b)).bump layout =
      some (b.lineStart i, ⟨b.lineStart i + layout.size, b.lineStart j, j, some b⟩) := by
    unfold ImmixMutatorLocal.bump
    dsimp only
    rw [hround, if_pos hfits]
    rfl
  rw [Search.alloc, hbump]

/-- a new block has no room before its first hole -/
theorem not_fits_useBlock (hb : b ∈ sp.initBlocks) (hpos : 1 ≤ layout.size) (x : ImmixMutatorLocal) :
    ¬ (x.useBlock b).Fits layout := by
  obtain ⟨-, h2, -⟩ := block_placed hb
  have hround := (layout.alignUp_bounds (a := b.start) (by omega)).1
  unfold ImmixMutatorLocal.Fits ImmixMutatorLocal.useBlock Address.plus
  dsimp only
  omega

/-- an answer without a block is passed over -/
theorem alloc_skip (hfits : ¬ s.loc.Fits layout) (hnone : s.loc.tryAllocFromLocal s.lines = .none) (fuel : ℕ)
    (t : LineMarkTable) (answers : List Answer) :
    s.alloc layout fuel (⟨none, t⟩ :: answers) = s.alloc layout fuel answers := by
  cases fuel with
  | zero => rfl
  | succ fuel =>
    rw [Search.alloc, Search.alloc, bump_of_not_fits hfits, hnone]
    rfl

/-- **From the queue.** A request that nothing in the mutator's own block serves goes to the first answer with a Free
line. -/
theorem alloc_from_queue (hpos : 1 ≤ layout.size) (hsize : layout.size ≤ 256) (halign : layout.align ≤ 256)
    (answers : List Answer) (hanswers : ∀ r ∈ answers, ∀ b, r.block = some b → b ∈ sp.initBlocks) (fuel : ℕ)
    (hfuel : answers.length + 2 ≤ fuel) (hfits : ¬ s.loc.Fits layout)
    (hnone : s.loc.tryAllocFromLocal s.lines = .none) :
    (∃ before b t rest i j, answers = before ++ ⟨some b, t⟩ :: rest ∧ (∀ r ∈ before, r.Full) ∧
      FirstRun (b.FreeLine t) 256 0 i j ∧
      s.alloc layout fuel answers = some (.address (b.lineStart i) (s.enter b t i j layout.size) rest)) ∨
    ((∀ r ∈ answers, r.Full) ∧ ∃ s', s.alloc layout fuel answers = some (.waiting s') ∧ s'.holes = s.holes ∧
      s'.loc.block = none) := by
  induction answers generalizing fuel s with
  | nil =>
    obtain ⟨fuel, rfl⟩ : ∃ f, fuel = f + 1 := ⟨fuel - 1, by omega⟩
    have hwait : s.alloc layout (fuel + 1) [] = some (.waiting { s with loc := (s.loc.returnBlock []).1 }) := by
      rw [Search.alloc, bump_of_not_fits hfits, hnone]
      rfl
    exact .inr ⟨fun r hr => absurd hr List.not_mem_nil, _, hwait, rfl, ImmixMutatorLocal.returnBlock_block s.loc []⟩
  | cons r answers ih =>
    have hrest : ∀ r ∈ answers, ∀ b, r.block = some b → b ∈ sp.initBlocks :=
      fun r hr => hanswers r (List.mem_cons_of_mem _ hr)
    rw [List.length_cons] at hfuel
    obtain ⟨block, t⟩ := r
    cases block with
    | none =>
      have hfull : Answer.Full ⟨none, t⟩ := fun b hb => by cases hb
      rw [alloc_skip hfits hnone]
      obtain ⟨before, b, t', rest, i, j, h1, h2, h3⟩ | ⟨h1, h2⟩ := ih hrest fuel (by omega) hfits hnone
      · exact .inl ⟨⟨none, t⟩ :: before, b, t', rest, i, j, by rw [h1]; rfl,
          List.forall_mem_cons.2 ⟨hfull, h2⟩, h3⟩
      · exact .inr ⟨List.forall_mem_cons.2 ⟨hfull, h1⟩, h2⟩
    | some b =>
      have hb : b ∈ sp.initBlocks := hanswers _ List.mem_cons_self b rfl
      obtain ⟨fuel, rfl⟩ : ∃ f, fuel = f + 1 + 1 := ⟨fuel - 2, by omega⟩
      have hnew := not_fits_useBlock hb hpos s.loc
      have hcall : s.alloc layout (fuel + 1 + 1) (⟨some b, t⟩ :: answers) =
          Search.alloc layout (fuel + 1) answers ⟨s.loc.useBlock b, t, s.holes⟩ := by
        rw [Search.alloc, bump_of_not_fits hfits, hnone]
        rfl
      rw [hcall]
      obtain ⟨i, j, hrun, htry⟩ | ⟨hfree, htry⟩ :=
        tryAllocFromLocal_cases (x := s.loc.useBlock b) (t := t) rfl (block_placed hb).2.2
      · -- the block has a hole, and the request is served at its start
        refine .inl ⟨[], b, t, answers, i, j, rfl, fun r hr => absurd hr List.not_mem_nil, hrun, ?_⟩
        obtain ⟨fuel, rfl⟩ : ∃ f, fuel = f + 1 := ⟨fuel - 1, by omega⟩
        rw [Search.alloc, bump_of_not_fits (s := ⟨s.loc.useBlock b, t, s.holes⟩) hnew]
        dsimp only
        rw [htry]
        exact alloc_in_hole hb hsize halign hrun.lt hrun.le fuel answers _ _
      · -- the block is full, and is given back at the next call of `alloc_from_global`
        have hfull : Answer.Full ⟨some b, t⟩ := by
          intro b' hb' i hi
          cases hb'
          exact hfree i (Nat.zero_le i) hi
        obtain ⟨before, b', t', rest, i, j, h1, h2, h3⟩ | ⟨h1, h2⟩ :=
          ih (s := ⟨s.loc.useBlock b, t, s.holes⟩) hrest (fuel + 1) (by omega) hnew htry
        · exact .inl ⟨⟨some b, t⟩ :: before, b', t', rest, i, j, by rw [h1]; rfl,
            List.forall_mem_cons.2 ⟨hfull, h2⟩, h3⟩
        · exact .inr ⟨List.forall_mem_cons.2 ⟨hfull, h1⟩, h2⟩

/-- the hole search of a mutator that has no line left when it holds no block -/
theorem local_cases (hempty : s.loc.block = none → s.loc.line = linesInBlock)
    (hlen : ∀ b, s.loc.block = some b → b.lineMarkTable.len = 256) :
    (∃ b i j, s.loc.block = some b ∧ FirstRun (b.FreeLine s.lines) 256 s.loc.line i j ∧
      s.loc.tryAllocFromLocal s.lines =
        .hole ⟨b.lineStart i, b.lineStart j, j, some b⟩ (b.lineMarkTable.freshen s.lines i j)) ∨
    (s.Exhausted ∧ s.loc.tryAllocFromLocal s.lines = .none) := by
  unfold Search.Exhausted
  cases hblock : s.loc.block with
  | none =>
    have hline := hempty hblock
    refine .inr ⟨fun b hb => (by cases hb), ?_⟩
    rw [ImmixMutatorLocal.tryAllocFromLocal, if_neg (by omega)]
  | some b =>
    obtain ⟨i, j, hrun, htry⟩ | ⟨hfree, htry⟩ := tryAllocFromLocal_cases (t := s.lines) hblock (hlen b hblock)
    · exact .inl ⟨b, i, j, rfl, hrun, htry⟩
    · refine .inr ⟨fun b' hb' => ?_, htry⟩
      cases hb'
      exact hfree

/-- **Line-sized requests are served at the first place that has room**, and the recursion ends. For every mutator that
has no line left when it holds no block, all marks, every request of at most a line, and every list of answers of the
usable queue: one call of `alloc` for each answer and two more are enough; the request is served from the bump region,
else from the first Free line of the mutator's block, else from the first Free line of the first block taken that has
one, with one hole entered at most; and it is served whenever such a block is obtained. -/
theorem line_requests_served (sp : Space) (layout : Layout) (hpos : 1 ≤ layout.size) (hsize : layout.size ≤ 256)
    (halign : layout.align ≤ 256) (s : Search) (hempty : s.loc.block = none → s.loc.line = linesInBlock)
    (hheld : ∀ b, s.loc.block = some b → b ∈ sp.initBlocks) (answers : List Answer)
    (hanswers : ∀ r ∈ answers, ∀ b, r.block = some b → b ∈ sp.initBlocks) (fuel : ℕ)
    (hfuel : answers.length + 2 ≤ fuel) :
    ∃ e, s.alloc layout fuel answers = some e ∧ Serves layout answers s e ∧
      (∀ a s' rest, e = .address a s' rest → s'.holes.length ≤ s.holes.length + 1) ∧
      ((∃ r ∈ answers, ¬ r.Full) → ∃ a s' rest, e = .address a s' rest) := by
  obtain ⟨fuel, rfl⟩ : ∃ f, fuel = f + 1 + 1 := ⟨fuel - 2, by omega⟩
  by_cases hfits : s.loc.Fits layout
  · refine ⟨_, ?_, .bumpRegion hfits, ?_, fun _ => ⟨_, _, _, rfl⟩⟩
    · rw [Search.alloc, bump_of_fits hfits]
    · intro a s' rest h
      cases h
      exact Nat.le_succ _
  obtain ⟨b, i, j, hblock, hrun, htry⟩ | ⟨hown, htry⟩ := local_cases hempty fun b hb => (block_placed (hheld b hb)).2.2
  · refine ⟨_, ?_, .ownBlock hfits hblock hrun, ?_, fun _ => ⟨_, _, _, rfl⟩⟩
    · rw [Search.alloc, bump_of_not_fits hfits, htry]
      exact alloc_in_hole (hheld b hblock) hsize halign hrun.lt hrun.le fuel answers _ _
    · intro a s' rest h
      cases h
      exact (List.length_append).le
  obtain ⟨before, b, t, rest, i, j, h1, h2, hrun, hcall⟩ | ⟨hfull, s', hcall, hholes, hnone⟩ :=
    alloc_from_queue hpos hsize halign answers hanswers (fuel + 1 + 1) hfuel hfits htry
  · refine ⟨_, hcall, .queue hfits hown h1 h2 hrun, ?_, fun _ => ⟨_, _, _, rfl⟩⟩
    intro a s' rest h
    cases h
    exact (List.length_append).le
  · refine ⟨_, hcall, .waiting hfits hown hfull hholes hnone, ?_, ?_⟩
    · intro a s' rest h
      cases h
    · rintro ⟨r, hr, hne⟩
      exact absurd (hfull r hr) hne

end Requests

/-- a new mutator of a new space of one block -/
def newSearch : Search := ⟨.new, Space.oneBlock.lineTable fun _ => .free, []⟩

/-- an empty queue once, then the block -/
def twoAnswers : List Answer :=
  [⟨none, Space.oneBlock.lineTable fun _ => .free⟩,
    ⟨some (Space.oneBlock.block 0), Space.oneBlock.lineTable fun _ => .free⟩]

/-- the first request of a mutator -/
theorem line_requests_served_newSearch : ∃ e, newSearch.alloc Heap.lineLayout 4 twoAnswers = some e ∧
    Serves Heap.lineLayout twoAnswers newSearch e ∧ ∃ a s' rest, e = .address a s' rest := by
  have hblock : Space.oneBlock.block 0 ∈ Space.oneBlock.initBlocks := mem_initBlocks.2 ⟨0, by decide, rfl⟩
  have hanswers : ∀ r ∈ twoAnswers, ∀ b, r.block = some b → b ∈ Space.oneBlock.initBlocks := by
    intro r hr b hb
    rw [twoAnswers, List.mem_pair] at hr
    obtain rfl | rfl := hr
    · cases hb
    · cases hb
      exact hblock
  have hfree : ∃ r ∈ twoAnswers, ¬ r.Full := by
    refine ⟨_, List.mem_cons_of_mem _ List.mem_cons_self, fun hfull => ?_⟩
    exact hfull _ rfl 0 (by norm_num) rfl
  obtain ⟨e, h1, h2, -, h4⟩ := line_requests_served Space.oneBlock Heap.lineLayout (by decide) (by decide) (by decide)
    newSearch (fun _ => rfl) (fun b hb => by cases hb) twoAnswers hanswers 4 (by decide)
  exact ⟨e, h1, h2, h4 hfree⟩

/-! ## Requests of any size -/

/-- the bytes of the lines `r.1 .. r.2` -/
def ImmixBlock.lineRange (b : ImmixBlock) (r : ℕ × ℕ) : ℕ × ℕ := (b.lineStart r.1, b.lineStart r.2)

/-- the search in block `b`, which had the marks `t0` when it was taken, up to the mutator's line -/
structure Scanned (b : ImmixBlock) (t0 : LineMarkTable) (s : Search) : Prop where
  block : s.loc.block = some b
  line_le : s.loc.line ≤ 256
  len : s.lines.len = t0.len
  holes : ∃ runs, RunsTo (b.FreeLine t0) 256 s.loc.line runs ∧ s.holes = runs.map b.lineRange
  marks : ∀ n, s.lines.get n =
    if (b.lineMarkTable.ptr ≤ n ∧ n < b.lineMarkTable.ptr + s.loc.line) ∧ t0.get n = .free then .freshAlloc else t0.get n

/-- **A whole enumeration** of the holes of block `b`, which had the marks `t0` when it was taken -/
structure Enumerated (b : ImmixBlock) (t0 : LineMarkTable) (s : Search) : Prop where
  /-- the ranges are those of the maximal runs of Free lines -/
  runs : ∀ h, h ∈ s.holes ↔ ∃ i j, MaximalRun (b.FreeLine t0) 256 i j ∧ h = (b.lineStart i, b.lineStart j)
  /-- they come in increasing order, and no two meet -/
  increasing : s.holes.Pairwise fun h g => h.2 < g.1
  nonempty : ∀ h ∈ s.holes, h.1 < h.2
  /-- their bytes are those of the lines that were Free -/
  cover : ∀ a, b.Has a → ((∃ h ∈ s.holes, h.1 ≤ a ∧ a < h.2) ↔ b.FreeLine t0 ((a - b.start) / 256))
  /-- these lines are FreshAlloc, all others keep their mark -/
  marks : ∀ n, s.lines.get n =
    if (b.lineMarkTable.ptr ≤ n ∧ n < b.lineMarkTable.ptr + 256) ∧ t0.get n = .free then .freshAlloc else t0.get n

section Enumeration

variable {b : ImmixBlock} {t0 : LineMarkTable} {s : Search}

theorem scanned_useBlock (b : ImmixBlock) (t0 : LineMarkTable) (x : ImmixMutatorLocal) :
    Scanned b t0 ⟨x.useBlock b, t0, []⟩ where
  block := rfl
  line_le := Nat.zero_le _
  len := rfl
  holes := ⟨[], .nil, rfl⟩
  marks := by
    intro n
    have hline : (x.useBlock b).line = 0 := rfl
    rw [hline, if_neg (by omega)]

/-- the fast path moves the cursor only -/
theorem Scanned.bump (h : Scanned b t0 s) {layout : Layout} {a : ℕ} {x : ImmixMutatorLocal}
    (hb : s.loc.bump layout = some (a, x)) : Scanned b t0 { s with loc := x } := by
  have hx : x.block = s.loc.block ∧ x.line = s.loc.line := by
    unfold ImmixMutatorLocal.bump at hb
    dsimp only at hb
    split_ifs at hb
    cases hb
    exact ⟨rfl, rfl⟩
  obtain ⟨h1, h2⟩ := hx
  exact ⟨h1.trans h.block, h2 ▸ h.line_le, h.len, h2 ▸ h.holes, h2 ▸ h.marks⟩

/-- behind the mutator's line the marks are those of the start -/
theorem Scanned.freeLine (h : Scanned b t0 s) {k : ℕ} (hk : s.loc.line ≤ k) : b.FreeLine s.lines k ↔ b.FreeLine t0 k := by
  unfold ImmixBlock.FreeLine LineMarkTableSlice.get
  rw [h.marks, if_neg (by omega)]

/-- **One hole.** The next hole is the next maximal run. -/
theorem Scanned.hole (h : Scanned b t0 s) (hlen : b.lineMarkTable.ptr + 256 ≤ t0.len) {i j : ℕ}
    (hrun : FirstRun (b.FreeLine s.lines) 256 s.loc.line i j) :
    Scanned b t0 ⟨⟨b.lineStart i, b.lineStart j, j, some b⟩, b.lineMarkTable.freshen s.lines i j,
      s.holes ++ [(b.lineStart i, b.lineStart j)]⟩ := by
  have hrun0 := hrun.congr fun k hk _ => h.freeLine hk
  obtain ⟨runs, hruns, hholes⟩ := h.holes
  have hge := hrun.ge
  have hlt := hrun.lt
  have hle := hrun.le
  refine ⟨rfl, hle, ?_, ⟨_, hruns.next hrun0, ?_⟩, fun n => ?_⟩
  · rw [LineMarkTableSlice.freshen_len, h.len]
  · rw [List.map_append, hholes]
    rfl
  · show (b.lineMarkTable.freshen s.lines i j).get n = if (_ ∧ n < b.lineMarkTable.ptr + j) ∧ _ then _ else _
    rw [LineMarkTableSlice.get_freshen _ _ (by rw [h.len]; omega), h.marks]
    -- a line between the mutator's and the hole is not Free, a line of the hole is
    have hline : ∀ k, n = b.lineMarkTable.ptr + k → (t0.get n = .free ↔ b.FreeLine t0 k) := by
      rintro k rfl
      rfl
    by_cases hin : b.lineMarkTable.ptr + i ≤ n ∧ n < b.lineMarkTable.ptr + j
    · have hfree := (hline (n - b.lineMarkTable.ptr) (by omega)).2 (hrun0.all _ (by omega) (by omega))
      rw [if_pos hin, if_pos ⟨⟨by omega, hin.2⟩, hfree⟩]
    · rw [if_neg hin]
      by_cases hbefore : b.lineMarkTable.ptr + s.loc.line ≤ n ∧ n < b.lineMarkTable.ptr + i
      · have hnot := mt (hline (n - b.lineMarkTable.ptr) (by omega)).1 (hrun0.first _ (by omega) (by omega))
        rw [if_neg fun hc => hnot hc.2, if_neg fun hc => hnot hc.2]
      · have hiff : (b.lineMarkTable.ptr ≤ n ∧ n < b.lineMarkTable.ptr + s.loc.line) ↔
            b.lineMarkTable.ptr ≤ n ∧ n < b.lineMarkTable.ptr + j := by omega
        simp only [hiff]

/-- **No hole is left**: the enumeration is whole. -/
theorem Scanned.enumerated (h : Scanned b t0 s) (hnone : ∀ i, s.loc.line ≤ i → i < 256 → ¬ b.FreeLine s.lines i) :
    Enumerated b t0 s := by
  have hnone0 : ∀ i, s.loc.line ≤ i → i < 256 → ¬ b.FreeLine t0 i :=
    fun i h1 h2 hf => hnone i h1 h2 ((h.freeLine h1).2 hf)
  obtain ⟨runs, hruns, hholes⟩ := h.holes
  have hall := hruns.last hnone0
  have hmem : ∀ g, g ∈ s.holes ↔ ∃ r ∈ runs, b.lineRange r = g := by
    intro g
    rw [hholes, List.mem_map]
  refine ⟨fun g => ?_, ?_, fun g hg => ?_, fun a ha => ?_, fun n => ?_⟩
  · rw [hmem]
    constructor
    · rintro ⟨r, hr, rfl⟩
      exact ⟨r.1, r.2, ((hall.mem r).1 hr).1, rfl⟩
    · rintro ⟨i, j, hrun, rfl⟩
      exact ⟨(i, j), (hall.mem (i, j)).2 ⟨hrun, hrun.le⟩, rfl⟩
  · rw [hholes, List.pairwise_map]
    refine hall.sorted.imp fun {r r'} hlt => ?_
    show b.lineStart r.2 < b.lineStart r'.1
    rw [lineStart_eq, lineStart_eq]
    omega
  · obtain ⟨r, hr, rfl⟩ := (hmem g).1 hg
    have hlt := ((hall.mem r).1 hr).1.lt
    show b.lineStart r.1 < b.lineStart r.2
    rw [lineStart_eq, lineStart_eq]
    omega
  · unfold ImmixBlock.Has at ha
    constructor
    · rintro ⟨g, hg, h1, h2⟩
      obtain ⟨r, hr, rfl⟩ := (hmem g).1 hg
      change b.lineStart r.1 ≤ a at h1
      change a < b.lineStart r.2 at h2
      rw [lineStart_eq] at h1 h2
      exact ((hall.mem r).1 hr).1.all _ (by omega) (by omega)
    · intro hf
      obtain ⟨r, hr, h1, h2⟩ := hall.cover _ (by omega) hf
      refine ⟨_, (hmem _).2 ⟨r, hr, rfl⟩, ?_, ?_⟩
      · show b.lineStart r.1 ≤ a
        rw [lineStart_eq]
        omega
      · show a < b.lineStart r.2
        rw [lineStart_eq]
        omega
  · rw [h.marks]
    by_cases hline : b.lineMarkTable.ptr + s.loc.line ≤ n ∧ n < b.lineMarkTable.ptr + 256
    · obtain ⟨k, rfl⟩ : ∃ k, n = b.lineMarkTable.ptr + k := ⟨n - b.lineMarkTable.ptr, by omega⟩
      have hnot : ¬ t0.get (b.lineMarkTable.ptr + k) = .free := hnone0 k (by omega) (by omega)
      rw [if_neg fun hc => hnot hc.2, if_neg fun hc => hnot hc.2]
    · have hle := h.line_le
      have hiff : (b.lineMarkTable.ptr ≤ n ∧ n < b.lineMarkTable.ptr + s.loc.line) ↔
          b.lineMarkTable.ptr ≤ n ∧ n < b.lineMarkTable.ptr + 256 := by omega
      simp only [hiff]

/-- **One request**: served inside the enumeration, or the enumeration is whole. -/
theorem alloc_scanned (layout : Layout) (hslice : b.lineMarkTable.len = 256) (hlen : b.lineMarkTable.ptr + 256 ≤ t0.len)
    (fuel : ℕ) (hfuel : 256 < s.loc.line + fuel) (h : Scanned b t0 s) :
    (∃ a s', s.alloc layout fuel [] = some (.address a s' []) ∧ Scanned b t0 s') ∨
      ∃ s', s.alloc layout fuel [] = some (.waiting s') ∧ Enumerated b t0 s' := by
  induction fuel generalizing s with
  | zero =>
    have := h.line_le
    omega
  | succ fuel ih =>
    cases hb : s.loc.bump layout with
    | some p =>
      refine .inl ⟨p.1, { s with loc := p.2 }, ?_, h.bump hb⟩
      rw [Search.alloc, hb]
    | none =>
      obtain ⟨i, j, hrun, htry⟩ | ⟨hnone, htry⟩ := tryAllocFromLocal_cases (t := s.lines) h.block hslice
      · have hcall : s.alloc layout (fuel + 1) [] = Search.alloc layout fuel []
            ⟨⟨b.lineStart i, b.lineStart j, j, some b⟩, b.lineMarkTable.freshen s.lines i j,
              s.holes ++ [(b.lineStart i, b.lineStart j)]⟩ := by
          rw [Search.alloc, hb, htry]
        rw [hcall]
        refine ih ?_ (h.hole hlen hrun)
        have := hrun.ge
        have := hrun.lt
        show 256 < j + fuel
        omega
      · have henum := h.enumerated hnone
        refine .inr ⟨{ s with loc := (s.loc.returnBlock []).1 }, ?_, henum.1, henum.2, henum.3, henum.4, henum.5⟩
        rw [Search.alloc, hb, htry]
        rfl

theorem drive_scanned (layouts : List Layout) (hslice : b.lineMarkTable.len = 256)
    (hlen : b.lineMarkTable.ptr + 256 ≤ t0.len) (h : Scanned b t0 s) :
    (∃ s', Search.drive layouts s = some (false, s') ∧ Scanned b t0 s') ∨
      ∃ s', Search.drive layouts s = some (true, s') ∧ Enumerated b t0 s' := by
  induction layouts generalizing s with
  | nil => exact .inl ⟨s, rfl, h⟩
  | cons layout layouts ih =>
    have hfuel : 256 < s.loc.line + (linesInBlock + 1) := by
      rw [linesInBlock_eq]
      omega
    obtain ⟨a, s', hcall, hs'⟩ | ⟨s', hcall, henum⟩ := alloc_scanned layout hslice hlen _ hfuel h
    · have hdrive : Search.drive (layout :: layouts) s = Search.drive layouts s' := by rw [Search.drive, hcall]
      rw [hdrive]
      exact ih hs'
    · refine .inr ⟨s', ?_, henum⟩
      rw [Search.drive, hcall]

end Enumeration

/-- **The holes of a block are its maximal runs of Free lines.** For every block of every space, all marks of its lines
and every list of requests: the calls of `alloc` end, and when a request falls through to `alloc_from_global`, the ranges
that `try_alloc_from_local` has set since the block was taken are those of the maximal runs of Free lines, in increasing
order, and exactly these lines have become FreshAlloc. -/
theorem hole_enumeration (sp : Space) (k : ℕ) (hk : k < sp.size / 65536) (marks : ℕ → LineMark)
    (x : ImmixMutatorLocal) (layouts : List Layout) :
    ∃ fell s, Search.drive layouts ⟨x.useBlock (sp.block k), sp.lineTable marks, []⟩ = some (fell, s) ∧
      (fell = true → Enumerated (sp.block k) (sp.lineTable marks) s) := by
  have hlen : (sp.block k).lineMarkTable.ptr + 256 ≤ (sp.lineTable marks).len := by
    rw [Space.lineTable_len]
    exact slice_in_table hk
  obtain ⟨s, hs, -⟩ | ⟨s, hs, henum⟩ :=
    drive_scanned layouts rfl hlen (scanned_useBlock (sp.block k) (sp.lineTable marks) x)
  · exact ⟨false, s, hs, fun h => absurd h Bool.false_ne_true⟩
  · exact ⟨true, s, hs, fun _ => henum⟩

/-- a request for a whole block -/
def blockLayout : Layout := ⟨65536, 8, Heap.lineLayout.pow, by norm_num⟩

/-- one live line: the request finds two holes, none of them large enough -/
def oneLive : LineMarkTable := Space.oneBlock.lineTable fun n => if n = 7 then .live else .free

theorem hole_enumeration_oneLive : ∃ s, Search.drive [blockLayout]
    ⟨ImmixMutatorLocal.new.useBlock (Space.oneBlock.block 0), oneLive, []⟩ = some (true, s) ∧
      Enumerated (Space.oneBlock.block 0) oneLive s ∧ s.holes = [(524288, 526080), (526336, 589824)] := by
  have hrun : (Search.drive [blockLayout] ⟨ImmixMutatorLocal.new.useBlock (Space.oneBlock.block 0), oneLive, []⟩).map
      (fun p => (p.1, p.2.holes)) = some (true, [(524288, 526080), (526336, 589824)]) := by decide +kernel
  obtain ⟨fell, s, hs, henum⟩ := hole_enumeration Space.oneBlock 0 (by decide) (fun n => if n = 7 then .live else .free)
    .new [blockLayout]
  have hdrive : Search.drive [blockLayout] ⟨ImmixMutatorLocal.new.useBlock (Space.oneBlock.block 0), oneLive, []⟩ =
      some (fell, s) := hs
  rw [hdrive, Option.map_some, Option.some.injEq, Prod.mk.injEq] at hrun
  obtain ⟨rfl, hholes⟩ := hrun
  exact ⟨s, hdrive, henum rfl, hholes⟩

end Immix
