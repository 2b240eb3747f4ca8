/-
Retired lines: what collections take out of use for good, and what is left to allocate.

A trace marks the line of each object it processes and the next one. Nothing takes such a mark away: a sweep frees the
other lines, and allocation enters Free ones only. So a marked line is retired.
- `retired_for_ever`: in every run a retired line stays retired, no later allocation has a byte in it, and once every line
  of every block is retired no request for one byte or more is served.
- `allocated_bytes_le`: between two collections all mutators together get at most the bytes of the lines that are not
  retired.
- `retired_le_found`: the retired lines are at most two for each object that a collection of the run has processed, so a run
  is out of memory only after 128 processed objects for each block.
-/
import Immix.Collect
import Immix.SweepLoop
import Mathlib.Algebra.BigOperators.Group.Finset.Basic
import Mathlib.Algebra.Order.BigOperators.Group.Finset

namespace Immix.Heap

open Immix.Lib

/-! ## Model -/

/-- line `j` is Live or ConservLive -/
def Retired (s : Heap) (j : ℕ) : Prop := (s.lines.get j).isLive

instance (s : Heap) (j : ℕ) : Decidable (Retired s j) := by unfold Retired; infer_instance

/-- the lines of the blocks of the space -/
def blockLines (sp : Space) : Finset ℕ := Finset.range (256 * sp.totalBlocks)

def retiredLines (sp : Space) (s : Heap) : Finset ℕ := (blockLines sp).filter (Retired s)

def openLines (sp : Space) (s : Heap) : Finset ℕ := (blockLines sp).filter fun j => ¬ Retired s j

/-- the bytes operation `k` of the run returns from `alloc` -/
def bytesAt (sp : Space) (ops : List Op) (k : ℕ) : Finset ℕ :=
  match ops[k]?.bind (before sp ops k).allocated with
  | some r => Finset.Ico r.1 (r.1 + r.2)
  | none => ∅

/-- the different objects that operation `k` of the run processes, if it is a collection that is carried out -/
def foundAt (sp : Space) (ops : List Op) (k : ℕ) : Finset ℕ :=
  match ops[k]? with
  | some (.gc roots cpus schedule) =>
    if (before sp ops k).Collects sp roots cpus schedule then
      ((before sp ops k).startTrace sp roots cpus schedule).processed.toFinset
    else ∅
  | _ => ∅

/-- how many objects the collections before operation `k` have processed, each counted once in each collection -/
def found (sp : Space) (ops : List Op) (k : ℕ) : ℕ := ∑ i ∈ Finset.range k, (foundAt sp ops i).card

variable {sp : Space} {s : Heap} {o : Op} {ops : List Op} {i j k : ℕ}

theorem mem_blockLines : j ∈ blockLines sp ↔ j < 256 * sp.totalBlocks := Finset.mem_range

theorem mem_openLines : j ∈ openLines sp s ↔ j < 256 * sp.totalBlocks ∧ ¬ Retired s j := by
  rw [openLines, Finset.mem_filter, mem_blockLines]

theorem mem_retiredLines : j ∈ retiredLines sp s ↔ j < 256 * sp.totalBlocks ∧ Retired s j := by
  rw [retiredLines, Finset.mem_filter, mem_blockLines]

/-- the other operations are collections that are carried out -/
theorem collects_of_not_mutates (h : ¬ Mutates sp s o) :
    ∃ roots cpus schedule, o = .gc roots cpus schedule ∧ s.Collects sp roots cpus schedule := by
  unfold Mutates at h
  push Not at h
  exact h

/-! ## A retired line stays retired -/

/-- the retired lines after a collection are those it started with and those its trace accounts for -/
theorem retired_collect {roots : List ℕ} {cpus : ℕ+} {schedule : List (ℕ × ℕ)} (h : Inv sp s)
    (hc : s.Collects sp roots cpus schedule) :
    Retired (s.collect sp (s.startTrace sp roots cpus schedule)) j ↔
      Retired s j ∨ ∃ o ∈ (s.startTrace sp roots cpus schedule).processed, s.lines.Covers o j := by
  have ht := hc.traced h
  have hsweep := (h.swept ht.len).isLive j
  rw [show Retired (s.collect sp (s.startTrace sp roots cpus schedule)) j ↔ _ from hsweep]
  by_cases hcov : ∃ o ∈ (s.startTrace sp roots cpus schedule).processed, s.lines.Covers o j
  · obtain ⟨o, ho, hj⟩ := hcov
    exact iff_of_true (ht.covered o ho j hj) (.inr ⟨o, ho, hj⟩)
  · have hsame := ht.unchanged j fun o ho hj => hcov ⟨o, ho, hj⟩
    rw [hsame, or_iff_left hcov]
    rfl

/-- **Step lemma.** Every operation keeps a retired line retired. -/
theorem Retired.step (h : Inv sp s) (hj : Retired s j) (o : Op) : Retired (step sp s o) j := by
  by_cases hmut : Mutates sp s o
  · rcases (step_kept h hmut).lines j with heq | ⟨hfree, -⟩
    · rw [Retired, heq]
      exact hj
    · exact absurd hfree hj.ne_free
  · obtain ⟨roots, cpus, schedule, rfl, hc⟩ := collects_of_not_mutates hmut
    rw [step_collect hc, retired_collect h hc]
    exact .inl hj

theorem Retired.until (hij : i ≤ k) (hj : Retired (before sp ops i) j) : Retired (before sp ops k) j :=
  before_until (P := fun s => Retired s j) hij hj fun n o _ _ _ hn => hn.step (inv_run sp ops n) o

/-! ## What allocations can get -/

/-- a byte that is returned lies in a line of a block of the space, and that line is FreshAlloc -/
theorem line_of_allocated (h : Inv sp s) {r : ℕ × ℕ} (ha : s.allocated o = some r) {x : ℕ} (hx : x ∈ bytes r) :
    sp.start ≤ x ∧ s.lines.lineOf x < 256 * sp.totalBlocks ∧ s.mark x = .freshAlloc := by
  obtain ⟨m, layout, loc, -, hm, -, hpc, h1, h2, -⟩ := allocated_spec h ha
  have hshape := h.shape m hm (by rw [hpc]; rfl)
  have hx1 := le_trans h1 hx.1
  have hx2 := lt_of_lt_of_le hx.2 h2
  obtain ⟨b, hb⟩ := hshape.block_of_lt (lt_of_le_of_lt hx1 hx2)
  obtain ⟨n, hn, rfl⟩ := h.block_eq hm hb
  have hhas := hshape.has hb hx1 hx2
  obtain ⟨hline, hlt⟩ := lineOf_block h.spaceStart hhas
  have hstart : sp.start ≤ x := by
    unfold ImmixBlock.Has Space.block at hhas
    simp only at hhas
    omega
  refine ⟨hstart, ?_, hshape.fresh x hx1 hx2⟩
  rw [hline, totalBlocks_eq]
  omega

/-- the line of a byte that is returned is open, at that moment and before -/
theorem open_of_allocatedAt (hik : i ≤ k) {r : ℕ × ℕ} (ha : AllocatedAt sp ops k r) {x : ℕ} (hx : x ∈ bytes r) :
    sp.start ≤ x ∧ (x - sp.start) / 256 ∈ openLines sp (before sp ops i) := by
  obtain ⟨o, -, ha⟩ := ha
  have h := inv_run sp ops k
  obtain ⟨hstart, hlt, hfresh⟩ := line_of_allocated h ha hx
  have hline : (before sp ops k).lines.lineOf x = (x - sp.start) / 256 := by rw [lineOf_eq, h.spaceStart]
  rw [mark] at hfresh
  rw [hline] at hlt hfresh
  refine ⟨hstart, mem_openLines.2 ⟨hlt, fun hretired => ?_⟩⟩
  have hnow := hretired.until hik
  rw [Retired, hfresh] at hnow
  exact absurd hnow (by simp)

/-- **Retired for ever.** In every run: a line that is Live or ConservLive in one state is so in every later state, and no
allocation after it has a byte in the line; and when every line of every block is, no request for one byte or more is served
any more. -/
theorem retired_for_ever (sp : Space) (ops : List Op) (i k : ℕ) (hik : i ≤ k) :
    (∀ j, Retired (before sp ops i) j → Retired (before sp ops k) j ∧
      ∀ r, AllocatedAt sp ops k r → ∀ x ∈ bytes r, (x - sp.start) / 256 ≠ j) ∧
    (openLines sp (before sp ops i) = ∅ → ∀ r, AllocatedAt sp ops k r → r.2 = 0) := by
  refine ⟨fun j hj => ⟨hj.until hik, fun r hr x hx hline => ?_⟩, fun hnone r hr => ?_⟩
  · have hopen := (open_of_allocatedAt hik hr hx).2
    rw [hline] at hopen
    exact (mem_openLines.1 hopen).2 hj
  · by_contra hpos
    have hfirst : r.1 ∈ bytes r := ⟨le_rfl, Nat.lt_add_of_pos_right (Nat.pos_of_ne_zero hpos)⟩
    have hopen := (open_of_allocatedAt hik hr hfirst).2
    rw [hnone] at hopen
    exact absurd hopen (Finset.notMem_empty _)

/-- the object of `staleMark` is garbage for the second collection, and its lines are retired in every state after it -/
theorem retired_for_ever_staleMark : Retired (before .oneBlock staleMark 23) 0 :=
  ((retired_for_ever .oneBlock staleMark 12 23 (by decide)).1 0 (by decide +kernel)).1

/-! ## Bytes between two collections -/

/-- the bytes of line `j` of the table -/
def lineBytes (sp : Space) (j : ℕ) : Finset ℕ := Finset.Ico (sp.start + 256 * j) (sp.start + 256 * j + 256)

theorem mem_lineBytes {x : ℕ} (hx : sp.start ≤ x) : x ∈ lineBytes sp ((x - sp.start) / 256) := by
  rw [lineBytes, Finset.mem_Ico]
  omega

theorem mem_bytesAt {x : ℕ} : x ∈ bytesAt sp ops k ↔ ∃ r, AllocatedAt sp ops k r ∧ x ∈ bytes r := by
  have hiff : ∀ r, AllocatedAt sp ops k r ↔ ops[k]?.bind (before sp ops k).allocated = some r := by
    intro r
    rw [Option.bind_eq_some_iff]
    rfl
  simp only [hiff, bytesAt]
  cases ops[k]?.bind (before sp ops k).allocated with
  | none => simp
  | some r => simp [bytes]

/-- **What there is to allocate.** In every run, between two collections: all the bytes that the mutators are given, in
whatever order they ask, are at most those of the lines that were not retired at the start. -/
theorem allocated_bytes_le (sp : Space) (ops : List Op) (i k : ℕ) (hno : ∀ n, i ≤ n → n < k → ¬ CollectsAt sp ops n) :
    ∑ n ∈ Finset.Ico i k, (bytesAt sp ops n).card ≤ 256 * (openLines sp (before sp ops i)).card := by
  -- no byte is given twice
  have hapart : ∀ a b, i ≤ a → a < b → b < k → Disjoint (bytesAt sp ops a) (bytesAt sp ops b) := by
    intro a b ha hab hb
    rw [Finset.disjoint_left]
    intro x hx hx'
    obtain ⟨r, hr, hx⟩ := mem_bytesAt.1 hx
    obtain ⟨r', hr', hx'⟩ := mem_bytesAt.1 hx'
    have hdisjoint := allocated_disjoint hab hr hr' fun n h1 h2 y _ hfree => hno n (by omega) (by omega) hfree.1
    exact Set.disjoint_left.1 hdisjoint hx hx'
  have hpairwise : (Finset.Ico i k : Set ℕ).PairwiseDisjoint (bytesAt sp ops) := by
    intro a ha b hb hab
    rw [Finset.coe_Ico, Set.mem_Ico] at ha hb
    rcases Nat.lt_or_gt_of_ne hab with hlt | hgt
    · exact hapart a b ha.1 hlt hb.2
    · exact (hapart b a hb.1 hgt ha.2).symm
  -- every byte is in a line that is open
  have hopen : (Finset.Ico i k).biUnion (bytesAt sp ops) ⊆ (openLines sp (before sp ops i)).biUnion (lineBytes sp) := by
    intro x hx
    obtain ⟨n, hn, hx⟩ := Finset.mem_biUnion.1 hx
    obtain ⟨r, hr, hx⟩ := mem_bytesAt.1 hx
    obtain ⟨hstart, hline⟩ := open_of_allocatedAt (Finset.mem_Ico.1 hn).1 hr hx
    exact Finset.mem_biUnion.2 ⟨_, hline, mem_lineBytes hstart⟩
  calc ∑ n ∈ Finset.Ico i k, (bytesAt sp ops n).card
      = ((Finset.Ico i k).biUnion (bytesAt sp ops)).card := (Finset.card_biUnion hpairwise).symm
    _ ≤ ((openLines sp (before sp ops i)).biUnion (lineBytes sp)).card := Finset.card_le_card hopen
    _ ≤ (openLines sp (before sp ops i)).card * 256 :=
        Finset.card_biUnion_le_card_mul _ _ _ fun j _ => by simp [lineBytes]
    _ = 256 * (openLines sp (before sp ops i)).card := Nat.mul_comm _ _

theorem allocated_bytes_le_staleMark :
    ∑ n ∈ Finset.Ico 0 11, (bytesAt .oneBlock staleMark n).card ≤
      256 * (openLines .oneBlock (before .oneBlock staleMark 0)).card := by
  refine allocated_bytes_le .oneBlock staleMark 0 11 fun n _ hn hc => ?_
  obtain ⟨roots, cpus, schedule, hop, -⟩ := hc
  interval_cases n <;> simp [staleMark, allocLine] at hop

/-! ## Retired lines and processed objects -/

/-- an operation retires at most two lines for each object it finds -/
theorem retired_card_step (sp : Space) (ops : List Op) (k : ℕ) :
    (retiredLines sp (before sp ops (k + 1))).card ≤
      (retiredLines sp (before sp ops k)).card + 2 * (foundAt sp ops k).card := by
  have h := inv_run sp ops k
  cases ho : ops[k]? with
  | none =>
    -- the run is over
    have hlen := List.getElem?_eq_none_iff.1 ho
    have hsame : before sp ops (k + 1) = before sp ops k :=
      (stateAt_of_le _ _ (by omega)).trans (stateAt_of_le _ _ hlen).symm
    rw [hsame]
    exact Nat.le_add_right _ _
  | some o =>
    rw [before_succ ho]
    by_cases hmut : Mutates sp (before sp ops k) o
    · have hsub : retiredLines sp (step sp (before sp ops k) o) ⊆ retiredLines sp (before sp ops k) := by
        intro j hj
        rw [mem_retiredLines] at hj ⊢
        refine ⟨hj.1, ?_⟩
        rcases (step_kept h hmut).lines j with heq | ⟨-, hfresh⟩
        · rw [Retired, ← heq]
          exact hj.2
        · have hlive := hj.2
          rw [Retired, hfresh] at hlive
          exact absurd hlive (by simp)
      exact (Finset.card_le_card hsub).trans (Nat.le_add_right _ _)
    · obtain ⟨roots, cpus, schedule, rfl, hc⟩ := collects_of_not_mutates hmut
      have hfound : foundAt sp ops k = ((before sp ops k).startTrace sp roots cpus schedule).processed.toFinset := by
        simp only [foundAt, ho]
        exact if_pos hc
      let two : ℕ → Finset ℕ := fun o => {(before sp ops k).lines.lineOf o, (before sp ops k).lines.lineOf o + 1}
      have hsub : retiredLines sp (step sp (before sp ops k) (.gc roots cpus schedule)) ⊆
          retiredLines sp (before sp ops k) ∪ (foundAt sp ops k).biUnion two := by
        intro j hj
        rw [mem_retiredLines, step_collect hc, retired_collect h hc] at hj
        obtain ⟨hlt, hold | ⟨o, ho, -, hline⟩⟩ := hj
        · exact Finset.mem_union_left _ (mem_retiredLines.2 ⟨hlt, hold⟩)
        · refine Finset.mem_union_right _ (Finset.mem_biUnion.2 ⟨o, ?_, ?_⟩)
          · rw [hfound]
            exact List.mem_toFinset.2 ho
          · simpa [two] using hline
      calc (retiredLines sp (step sp (before sp ops k) (.gc roots cpus schedule))).card
          ≤ (retiredLines sp (before sp ops k) ∪ (foundAt sp ops k).biUnion two).card := Finset.card_le_card hsub
        _ ≤ (retiredLines sp (before sp ops k)).card + ((foundAt sp ops k).biUnion two).card :=
            Finset.card_union_le _ _
        _ ≤ (retiredLines sp (before sp ops k)).card + (foundAt sp ops k).card * 2 :=
            Nat.add_le_add_left (Finset.card_biUnion_le_card_mul _ _ _ fun o _ => Finset.card_le_two) _
        _ = (retiredLines sp (before sp ops k)).card + 2 * (foundAt sp ops k).card := by rw [Nat.mul_comm 2]

theorem retired_card_le (sp : Space) (ops : List Op) (k : ℕ) :
    (retiredLines sp (before sp ops k)).card ≤ 2 * found sp ops k := by
  induction k with
  | zero =>
    -- the lines of a new space are Free
    have hnone : retiredLines sp (before sp ops 0) = ∅ := by
      rw [Finset.eq_empty_iff_forall_notMem]
      intro j hj
      have hlive : (LineMark.free).isLive := (mem_retiredLines.1 hj).2
      exact absurd hlive (by simp)
    rw [hnone]
    exact Nat.zero_le _
  | succ k ih =>
    have hstep := retired_card_step sp ops k
    rw [found, Finset.sum_range_succ, ← found]
    omega

/-- only a collection that is carried out can panic -/
theorem crashed_of_mutates (hmut : Mutates sp s o) : (step sp s o).crashed = s.crashed := by
  unfold step
  split_ifs with hcr
  · rfl
  cases o with
  | new m =>
    simp only
    split_ifs <;> rfl
  | alloc m layout =>
    simp only
    split_ifs
    · split <;> rfl
    · rfl
  | tick m =>
    simp only
    split_ifs
    · unfold Heap.tick
      split
      · split <;> rfl
      · split <;> rfl
      · rfl
      · split <;> rfl
      · rfl
    · rfl
  | stop m =>
    simp only
    split_ifs
    · unfold Heap.stop
      split <;> rfl
    · rfl
  | gc roots cpus schedule =>
    simp only
    unfold Heap.gc
    rw [if_neg fun hc => hmut roots cpus schedule rfl ⟨by simpa using hcr, hc.1, hc.2⟩]
  | resume m =>
    simp only
    split_ifs
    · unfold Heap.resume
      split <;> rfl
    · rfl
  | destroy m =>
    simp only
    split_ifs
    · unfold Heap.destroy
      split <;> rfl
    · rfl
  | initObject m addr encode =>
    simp only
    split_ifs
    · split <;> rfl
    · rfl
  | write m addr value =>
    simp only
    split_ifs
    · split <;> rfl
    · rfl

/-- a sweep that panics leaves no line open: every block is full -/
theorem openLines_of_full {roots : List ℕ} {cpus : ℕ+} {schedule : List (ℕ × ℕ)} (h : Inv sp s)
    (hc : s.Collects sp roots cpus schedule)
    (hcr : (s.collect sp (s.startTrace sp roots cpus schedule)).crashed = true) :
    openLines sp (s.collect sp (s.startTrace sp roots cpus schedule)) = ∅ := by
  have hsw := h.swept (hc.traced h).len
  set t := s.startTrace sp roots cpus schedule
  have hlength : (sweep t.lines s.usable s.used).liveBlocks.length = sp.initBlocks.length := by
    have hfull := hsw.full
    have htotal : (sweep t.lines s.usable s.used).fullBlocks = sp.totalBlocks := of_decide_eq_true hcr
    rw [htotal] at hfull
    exact hfull.symm
  have hperm := hsw.perm
  rw [List.append_nil] at hperm
  have hnodup : (sweep t.lines s.usable s.used).liveBlocks.Nodup :=
    (List.nodup_append.1 (hperm.nodup_iff.2 h.nodup)).2.1
  have hsub : (sweep t.lines s.usable s.used).liveBlocks ⊆ sp.initBlocks := fun b hb =>
    h.blocks b (hperm.mem_iff.1 (List.mem_append_right _ hb))
  have hall := (hnodup.subperm hsub).perm_of_length_le hlength.ge
  rw [Finset.eq_empty_iff_forall_notMem]
  intro j hj
  obtain ⟨hlt, hopen⟩ := mem_openLines.1 hj
  rw [totalBlocks_eq] at hlt
  have hblock : sp.block (j / 256) ∈ (sweep t.lines s.usable s.used).liveBlocks :=
    hall.mem_iff.2 (mem_initBlocks.2 ⟨j / 256, by omega, rfl⟩)
  rcases (hsw.live _).1 hblock with hnil | ⟨-, hno⟩
  · cases hnil
  · have hlive := hasFree_iff_not.1 hno (j % 256) (Nat.mod_lt _ (by norm_num))
    rw [LineMarkTableSlice.get, show (sp.block (j / 256)).lineMarkTable.ptr + j % 256 = j from by
      simp only [Space.block]; omega] at hlive
    exact hopen ((hsw.isLive j).2 hlive)

/-- when a run has crashed, every line of every block is retired -/
theorem openLines_of_crashed (sp : Space) (ops : List Op) (k : ℕ) :
    (before sp ops k).crashed = true → openLines sp (before sp ops k) = ∅ := by
  refine before_until (P := fun s => s.crashed = true → openLines sp s = ∅) (Nat.zero_le k) (fun hcr => by cases hcr)
    fun n o _ _ _ hn => ?_
  by_cases hmut : Mutates sp (before sp ops n) o
  · intro hcr
    rw [crashed_of_mutates hmut] at hcr
    have hsame : step sp (before sp ops n) o = before sp ops n := by
      unfold step
      exact if_pos hcr
    rw [hsame]
    exact hn hcr
  · obtain ⟨roots, cpus, schedule, rfl, hc⟩ := collects_of_not_mutates hmut
    rw [step_collect hc]
    exact openLines_of_full (inv_run sp ops n) hc

/-- **What it takes to run out of memory.** In every state of every run, the retired lines are at most two for each object
that a collection so far has processed; and as long as these are fewer than 128 for each block, no sweep has run out of
memory. -/
theorem retired_le_found (sp : Space) (ops : List Op) (k : ℕ) :
    (retiredLines sp (before sp ops k)).card ≤ 2 * found sp ops k ∧
      (found sp ops k < 128 * sp.totalBlocks → (before sp ops k).crashed = false) := by
  have hle := retired_card_le sp ops k
  refine ⟨hle, fun hfew => ?_⟩
  by_contra hcr
  have hnone := openLines_of_crashed sp ops k (by simpa using hcr)
  have hall : blockLines sp ⊆ retiredLines sp (before sp ops k) := by
    intro j hj
    rw [retiredLines, Finset.mem_filter]
    refine ⟨hj, ?_⟩
    by_contra hopen
    have hmem : j ∈ openLines sp (before sp ops k) := mem_openLines.2 ⟨mem_blockLines.1 hj, hopen⟩
    rw [hnone] at hmem
    exact absurd hmem (Finset.notMem_empty _)
  have hcard := Finset.card_le_card hall
  rw [blockLines, Finset.card_range] at hcard
  omega

/-- the two collections of `staleMark` process one object -/
theorem retired_le_found_staleMark : (before .oneBlock staleMark 23).crashed = false :=
  (retired_le_found .oneBlock staleMark 23).2 (by decide +kernel)

end Immix.Heap
