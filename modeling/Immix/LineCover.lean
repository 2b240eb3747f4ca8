/-
The lines of a marked object stay out of every hole.

The tracer writes two entries of the line table for an object, by the object's address; the sweep and the mutators read and
write the entries of a block, by its slice. Here all of them act on one table, one store or one pass at a time, in any
order.
- `apply_isLive`: no action takes the mark of a live line away.
- `line_coverage`: after both stores for an object that `alloc` placed, none of its lines is Free, and no hole of its
  block has a byte of it.
-/
import Immix.HoleSearch
import Immix.NoOverlap

namespace Immix

open Lib

/-- what is done to the line table -/
inductive LineOp where
  /-- the first store of `mark_line_live(addr)` -/
  | markLive (addr : ℕ)
  /-- its second store, with its test -/
  | markConserv (addr : ℕ)
  /-- the sweep of the blocks in `used_blocks` -/
  | sweep (used : List ImmixBlock)
  /-- the hole that a mutator with block `b` takes at or after `line` -/
  | hole (b : ImmixBlock) (line : ℕ)

namespace LineOp

def apply (t : LineMarkTable) : LineOp → LineMarkTable
  | markLive addr => t.markLive addr
  | markConserv addr => t.markConserv addr
  | sweep used => (Immix.sweep t [] used).lines
  | hole b line =>
    match b.lineMarkTable.getNextAvailableLine t line with
    | some nextAvailableLine =>
      b.lineMarkTable.freshen t nextAvailableLine (b.lineMarkTable.getNextUnavailableLine t nextAvailableLine)
    | none => t

/-- the blocks are blocks of the space -/
def InSpace (sp : Space) : LineOp → Prop
  | markLive _ | markConserv _ => True
  | sweep used => ∀ b ∈ used, b ∈ sp.initBlocks
  | hole b _ => b ∈ sp.initBlocks

end LineOp

open LineOp

/-- the table has the place and the length of the space's -/
def TableOf (sp : Space) (t : LineMarkTable) : Prop := t.spaceStart = sp.start ∧ t.len = sp.size / 256

section Coverage

variable {sp : Space} {t : LineMarkTable} {b : ImmixBlock}

theorem slice_le (ht : TableOf sp t) (hb : b ∈ sp.initBlocks) : b.lineMarkTable.ptr + b.lineMarkTable.len ≤ t.len := by
  obtain ⟨k, hk, rfl⟩ := mem_initBlocks.1 hb
  rw [ht.2]
  exact slice_in_table hk

/-- the hole that is taken starts and ends in the slice, and its lines are Free -/
theorem hole_lines (t : LineMarkTable) {cur i : ℕ} (h : b.lineMarkTable.getNextAvailableLine t cur = some i) :
    b.lineMarkTable.getNextUnavailableLine t i ≤ b.lineMarkTable.len ∧
      ∀ k, i ≤ k → k < b.lineMarkTable.getNextUnavailableLine t i → b.lineMarkTable.get t k = .free := by
  obtain ⟨-, h2, -, -⟩ := b.lineMarkTable.nextAvailable_some t h
  obtain ⟨-, h4, h5, -⟩ := b.lineMarkTable.nextUnavailable_spec t h2.le
  exact ⟨h4, h5⟩

theorem apply_table (ht : TableOf sp t) {o : LineOp} (ho : o.InSpace sp) : TableOf sp (o.apply t) := by
  cases o with
  | markLive addr => exact ⟨(t.markLive_spaceStart addr).trans ht.1, (t.markLive_len addr).trans ht.2⟩
  | markConserv addr => exact ⟨(t.markConserv_spaceStart addr).trans ht.1, (t.markConserv_len addr).trans ht.2⟩
  | sweep used =>
    have hsw := sweep_spec t [] used fun b hb => slice_le ht (ho b hb)
    exact ⟨hsw.spaceStart.trans ht.1, hsw.len.trans ht.2⟩
  | hole b line =>
    dsimp only [LineOp.apply]
    cases b.lineMarkTable.getNextAvailableLine t line with
    | some i => exact ⟨(b.lineMarkTable.freshen_spaceStart t _ _).trans ht.1, (b.lineMarkTable.freshen_len t _ _).trans ht.2⟩
    | none => exact ht

/-- **Step lemma.** Whatever is done to the table, a line that is Live or ConservLive is one of the two afterwards. -/
theorem apply_isLive (ht : TableOf sp t) {o : LineOp} (ho : o.InSpace sp) {j : ℕ} (hj : (t.get j).isLive) :
    ((o.apply t).get j).isLive := by
  cases o with
  | markLive addr =>
    show ((t.markLive addr).get j).isLive
    rw [LineMarkTable.get_markLive]
    split_ifs
    · exact isLive_live
    · exact hj
  | markConserv addr =>
    show ((t.markConserv addr).get j).isLive
    rw [LineMarkTable.get_markConserv]
    split_ifs
    · exact isLive_conservLive
    · exact hj
  | sweep used =>
    have hsw := sweep_spec t [] used fun b hb => slice_le ht (ho b hb)
    show ((Immix.sweep t [] used).lines.get j).isLive
    rw [hsw.get_live j hj]
    exact hj
  | hole b line =>
    dsimp only [LineOp.apply]
    cases hnext : b.lineMarkTable.getNextAvailableLine t line with
    | some i =>
      dsimp only
      obtain ⟨hend, hfree⟩ := hole_lines t hnext
      have hslice := slice_le ht ho
      rw [LineMarkTableSlice.get_freshen _ _ (by omega)]
      split_ifs with hin
      · -- a line of the hole was Free
        have hj' := hfree (j - b.lineMarkTable.ptr) (by omega) (by omega)
        rw [LineMarkTableSlice.get, Nat.add_sub_cancel' (by omega)] at hj'
        exact absurd hj' hj.ne_free
      · exact hj
    | none => exact hj

/-- **Run lemma.** -/
theorem run_isLive (acts : List LineOp) (ht : TableOf sp t) (hacts : ∀ o ∈ acts, o.InSpace sp) :
    TableOf sp (run LineOp.apply t acts) ∧ ∀ j, (t.get j).isLive → ((run LineOp.apply t acts).get j).isLive := by
  induction acts generalizing t with
  | nil => exact ⟨ht, fun _ hj => hj⟩
  | cons o acts ih =>
    have ho := hacts o List.mem_cons_self
    obtain ⟨h1, h2⟩ := ih (apply_table ht ho) fun o' ho' => hacts o' (List.mem_cons_of_mem o ho')
    exact ⟨h1, fun j hj => h2 j (apply_isLive ht ho hj)⟩

/-- a line that some action leaves live is live at the end -/
theorem run_isLive_of_mem {acts : List LineOp} {o : LineOp} {j : ℕ} (ht : TableOf sp t)
    (hacts : ∀ o ∈ acts, o.InSpace sp) (ho : o ∈ acts)
    (hlive : ∀ t', TableOf sp t' → ((o.apply t').get j).isLive) : ((run LineOp.apply t acts).get j).isLive := by
  obtain ⟨before, after, rfl⟩ := List.append_of_mem ho
  have hmem : ∀ o' ∈ o :: after, o'.InSpace sp := fun o' ho' => hacts o' (List.mem_append_right _ ho')
  have ht' := (run_isLive before ht fun o' ho' => hacts o' (List.mem_append_left _ ho')).1
  rw [run_append, run_cons]
  exact (run_isLive after (apply_table ht' (hmem o List.mem_cons_self))
    fun o' ho' => hmem o' (List.mem_cons_of_mem o ho')).2 j (hlive _ ht')

theorem lineOf_table (ht : TableOf sp t) (x : ℕ) : t.lineOf x = (x - sp.start) / 256 := by
  rw [lineOf_eq, ht.1]

/-- a byte of a hole lies in a Free line -/
theorem free_of_hole (ht : TableOf sp t) (hb : b ∈ sp.initBlocks) {x cur i : ℕ}
    (hnext : b.lineMarkTable.getNextAvailableLine t cur = some i) (h1 : b.lineStart i ≤ x)
    (h2 : x < b.lineStart (b.lineMarkTable.getNextUnavailableLine t i)) : t.get (t.lineOf x) = .free := by
  obtain ⟨hend, hfree⟩ := hole_lines t hnext
  obtain ⟨k, hk, rfl⟩ := mem_initBlocks.1 hb
  change _ ≤ 256 at hend
  rw [lineStart_eq] at h1 h2
  have hx : (sp.block k).Has x := by
    unfold ImmixBlock.Has
    omega
  rw [(lineOf_block ht.1 hx).1]
  exact hfree _ (by omega) (by omega)

end Coverage

/-- **The lines of a marked object are never handed out.** In every run, for every object of 1 to 256 bytes that `alloc`
placed: whatever the marks are, and whatever other marks, sweeps and holes come before, between and after the two stores
of `mark_line_live` for the object, none of its lines is Free then, and no hole found in its block has a byte of it. -/
theorem line_coverage (sp : Space) (ops : List Op) (k a size : ℕ) (hobj : Heap.AllocatedAt sp ops k (a, size))
    (hpos : 1 ≤ size) (hsize : size ≤ 256) (marks : ℕ → LineMark) (acts : List LineOp)
    (hacts : ∀ o ∈ acts, o.InSpace sp) (hlive : .markLive a ∈ acts) (hconserv : .markConserv a ∈ acts) :
    (∀ x ∈ Heap.bytes (a, size), (run LineOp.apply (sp.lineTable marks) acts).get
      ((run LineOp.apply (sp.lineTable marks) acts).lineOf x) ≠ .free) ∧
    ∀ b ∈ sp.initBlocks, ∀ cur i,
      b.lineMarkTable.getNextAvailableLine (run LineOp.apply (sp.lineTable marks) acts) cur = some i →
      ∀ x ∈ Heap.bytes (a, size), ¬ (b.lineStart i ≤ x ∧
        x < b.lineStart (b.lineMarkTable.getNextUnavailableLine (run LineOp.apply (sp.lineTable marks) acts) i)) := by
  obtain ⟨o, -, ha⟩ := hobj
  have hinv := Heap.inv_run sp ops k
  obtain ⟨m, layout, loc, -, hm, -, hpc, h1, h2, -⟩ := Heap.allocated_spec hinv ha
  dsimp only at h1 h2
  -- the object lies in the block of its mutator, and so in the space
  have hshape := hinv.shape m hm (by rw [hpc]; rfl)
  obtain ⟨c, hc⟩ := hshape.block_of_lt (by omega)
  obtain ⟨n, hn, rfl⟩ := hinv.block_eq hm hc
  have hregion := hshape.region _ hc
  have hplace : sp.start + n * 65536 ≤ a ∧ a + size ≤ sp.start + n * 65536 + 65536 := by
    have hstart : (sp.block n).start = sp.start + n * 65536 := rfl
    omega
  have ht : TableOf sp (sp.lineTable marks) := ⟨rfl, sp.lineTable_len marks⟩
  have htable := (run_isLive acts ht hacts).1
  have hfirst : ((run LineOp.apply (sp.lineTable marks) acts).get ((a - sp.start) / 256)).isLive := by
    refine run_isLive_of_mem ht hacts hlive fun t ht => ?_
    show ((t.markLive a).get _).isLive
    rw [LineMarkTable.get_markLive, lineOf_table ht, if_pos ⟨rfl, by rw [ht.2]; omega⟩]
    exact isLive_live
  have hsecond : (a - sp.start) / 256 + 1 < sp.size / 256 →
      ((run LineOp.apply (sp.lineTable marks) acts).get ((a - sp.start) / 256 + 1)).isLive := by
    intro hlt
    refine run_isLive_of_mem ht hacts hconserv fun t ht => ?_
    show ((t.markConserv a).get _).isLive
    rw [LineMarkTable.get_markConserv, lineOf_table ht, if_pos ⟨rfl, by rw [ht.2]; exact hlt⟩]
    exact isLive_conservLive
  have hmarked : ∀ x ∈ Heap.bytes (a, size), (run LineOp.apply (sp.lineTable marks) acts).get
      ((run LineOp.apply (sp.lineTable marks) acts).lineOf x) ≠ .free := by
    intro x hx
    obtain ⟨hx1, hx2⟩ := hx
    dsimp only at hx1 hx2
    rw [lineOf_table htable]
    obtain heq | heq : (x - sp.start) / 256 = (a - sp.start) / 256 ∨
        (x - sp.start) / 256 = (a - sp.start) / 256 + 1 := by omega
    · rw [heq]
      exact hfirst.ne_free
    · rw [heq]
      exact (hsecond (by omega)).ne_free
  exact ⟨hmarked, fun b hb cur i hnext x hx hin => hmarked x hx (free_of_hole htable hb hnext hin.1 hin.2)⟩

/-- a request for a word -/
def wordLayout : Layout := ⟨8, 8, Heap.lineLayout.pow, by norm_num⟩

/-- a word and then a line: the second object lies across a line boundary -/
def acrossLines : List Op :=
  .new 0 :: .alloc 0 wordLayout :: List.replicate 7 (.tick 0) ++ [.alloc 0 Heap.lineLayout, .tick 0]

/-- the first object's second store comes between the two stores for the second object -/
theorem line_coverage_acrossLines : (run LineOp.apply (Space.oneBlock.lineTable fun _ => .freshAlloc)
    [.markLive 524288, .markLive 524296, .markConserv 524288, .markConserv 524296, .sweep [Space.oneBlock.block 0],
      .hole (Space.oneBlock.block 0) 0]).get 1 ≠ .free := by
  have hblock : Space.oneBlock.block 0 ∈ Space.oneBlock.initBlocks := mem_initBlocks.2 ⟨0, by decide, rfl⟩
  have hobj : Heap.AllocatedAt .oneBlock acrossLines 10 (524296, 256) := ⟨.tick 0, rfl, by decide +kernel⟩
  have hacts : ∀ o ∈ ([.markLive 524288, .markLive 524296, .markConserv 524288, .markConserv 524296,
      .sweep [Space.oneBlock.block 0], .hole (Space.oneBlock.block 0) 0] : List LineOp), o.InSpace .oneBlock := by
    intro o ho
    simp only [List.mem_cons, List.not_mem_nil, or_false] at ho
    obtain rfl | rfl | rfl | rfl | rfl | rfl := ho
    · trivial
    · trivial
    · trivial
    · trivial
    · intro b hb
      rw [List.mem_singleton.1 hb]
      exact hblock
    · exact hblock
  have ht : TableOf .oneBlock (Space.oneBlock.lineTable fun _ => .freshAlloc) := ⟨rfl, Space.lineTable_len _ _⟩
  have hline := (run_isLive _ ht hacts).1
  have hmarked := (line_coverage .oneBlock acrossLines 10 524296 256 hobj (by decide) (by decide)
    (fun _ => .freshAlloc) _ hacts (by simp) (by simp)).1 524550 ⟨by decide, by decide⟩
  have hone : (524550 - Space.oneBlock.start) / 256 = 1 := by decide
  rw [lineOf_table hline, hone] at hmarked
  exact hmarked

end Immix
