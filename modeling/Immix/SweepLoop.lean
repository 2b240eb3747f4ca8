/-
The whole of `ImmixSpace::sweep`: the loop that steals the used blocks, with the answers `Retry` of the queue, and what
comes after it.

`Injector::steal` may answer Retry; `retry n` says whether it does so at attempt `n`. The debug assertion at the end is
left out here.
- `sweepLoop_ends`: a queue that does not answer Retry for ever is drained, to the state of the fold `sweep`.
- `sweep_total`: for any marks and any distribution of the blocks over the two queues, what a sweep does and when it
  panics.
-/
import Immix.Space

namespace Immix

/-- the loop over `used_blocks` from attempt `n` on; the fuel bounds the number of attempts -/
def sweepLoop (retry : ℕ → Bool) : ℕ → ℕ → Sweep → List ImmixBlock → Option Sweep
  | 0, _, _, _ => none
  | fuel + 1, n, sw, used =>
    if retry n then sweepLoop retry fuel (n + 1) sw used
    else
      match used with
      | [] => some sw
      | b :: rest => sweepLoop retry fuel (n + 1) (sweepBlock sw b) rest

/-- the marks and the queues after a sweep, and whether it ends in the out-of-memory panic -/
structure SweepEnd where
  lines : LineMarkTable
  usable : List ImmixBlock
  used : List ImmixBlock
  outOfMemory : Bool

/-- what follows the loop: `live_blocks` goes back on the drained queue, and the test on `full_blocks` -/
def Space.sweepEnd (sp : Space) (sw : Sweep) : SweepEnd where
  lines := sw.lines
  usable := sw.usable
  used := [] ++ sw.liveBlocks
  outOfMemory := sw.fullBlocks = sp.totalBlocks

/-- `ImmixSpace::sweep` -/
def Space.sweepFor (sp : Space) (retry : ℕ → Bool) (fuel : ℕ) (lines : LineMarkTable) (usable used : List ImmixBlock) :
    Option SweepEnd := (sweepLoop retry fuel 0 ⟨lines, usable, [], 0, 0⟩ used).map sp.sweepEnd

/-! ## The loop -/

theorem sweepLoop_succ (retry : ℕ → Bool) (fuel n : ℕ) (sw : Sweep) (used : List ImmixBlock) :
    sweepLoop retry (fuel + 1) n sw used =
      if retry n then sweepLoop retry fuel (n + 1) sw used
      else
        match used with
        | [] => some sw
        | b :: rest => sweepLoop retry fuel (n + 1) (sweepBlock sw b) rest := by
  cases used <;> rfl

/-- more fuel does not change the result -/
theorem sweepLoop_mono {retry : ℕ → Bool} {fuel fuel' n : ℕ} {sw sw' : Sweep} {used : List ImmixBlock}
    (h : sweepLoop retry fuel n sw used = some sw') (hle : fuel ≤ fuel') : sweepLoop retry fuel' n sw used = some sw' := by
  induction fuel generalizing fuel' n sw used with
  | zero => cases h
  | succ fuel ih =>
    cases fuel' with
    | zero => exact absurd hle (Nat.not_succ_le_zero fuel)
    | succ fuel' =>
      have hle' := Nat.le_of_succ_le_succ hle
      rw [sweepLoop_succ] at h ⊢
      split_ifs at h ⊢ with hr
      · exact ih h hle'
      · cases used with
        | nil => exact h
        | cons b rest => exact ih h hle'

/-- attempts that are answered Retry only cost fuel -/
theorem sweepLoop_retries {retry : ℕ → Bool} {fuel n d : ℕ} {sw sw' : Sweep} {used : List ImmixBlock}
    (hr : ∀ k, n ≤ k → k < n + d → retry k = true) (h : sweepLoop retry fuel (n + d) sw used = some sw') :
    sweepLoop retry (fuel + d) n sw used = some sw' := by
  induction d generalizing n with
  | zero => exact h
  | succ d ih =>
    rw [← Nat.add_assoc, sweepLoop_succ, if_pos (hr n (le_refl n) (by omega))]
    apply ih
    · intro k h1 h2
      exact hr k (by omega) (by omega)
    · rwa [Nat.add_right_comm, Nat.add_assoc]

/-- the queue answers at some attempt from `n` on -/
theorem first_answer {retry : ℕ → Bool} (hretry : ∀ n, ∃ k, n ≤ k ∧ retry k = false) (n : ℕ) :
    ∃ d, (∀ k, n ≤ k → k < n + d → retry k = true) ∧ retry (n + d) = false := by
  have hex : ∃ d, retry (n + d) = false := by
    obtain ⟨k, hk, hr⟩ := hretry n
    exact ⟨k - n, by rwa [Nat.add_sub_cancel' hk]⟩
  refine ⟨Nat.find hex, fun k h1 h2 => ?_, Nat.find_spec hex⟩
  have hmin := Nat.find_min hex (m := k - n) (by omega)
  rw [Nat.add_sub_cancel' h1] at hmin
  exact Bool.eq_true_of_not_eq_false hmin

/-- **The loop ends**, and leaves what the fold over the used blocks leaves. -/
theorem sweepLoop_ends {retry : ℕ → Bool} (hretry : ∀ n, ∃ k, n ≤ k ∧ retry k = false) (used : List ImmixBlock) (n : ℕ)
    (sw : Sweep) : ∃ fuel, sweepLoop retry fuel n sw used = some (used.foldl sweepBlock sw) := by
  induction used generalizing n sw with
  | nil =>
    obtain ⟨d, hfirst, hd⟩ := first_answer hretry n
    exact ⟨1 + d, sweepLoop_retries hfirst (by simp [sweepLoop, hd])⟩
  | cons b rest ih =>
    obtain ⟨d, hfirst, hd⟩ := first_answer hretry n
    obtain ⟨fuel, hfuel⟩ := ih (n + d + 1) (sweepBlock sw b)
    refine ⟨fuel + 1 + d, sweepLoop_retries hfirst ?_⟩
    rw [sweepLoop_succ, if_neg (by simp [hd])]
    exact hfuel

/-! ## The whole sweep -/

/-- the block has a Free line -/
def FreeLine (lines : LineMarkTable) (b : ImmixBlock) : Prop :=
  ∃ i < b.lineMarkTable.len, b.lineMarkTable.get lines i = .free

/-- every block of the space was in `used_blocks`, with every line Live or ConservLive -/
def Space.AllLive (sp : Space) (lines : LineMarkTable) (used : List ImmixBlock) : Prop :=
  ∀ b ∈ sp.initBlocks, b ∈ used ∧ ∀ i < b.lineMarkTable.len, (b.lineMarkTable.get lines i).isLive

/-- what a sweep does to the marks and the queues `lines`, `usable` and `used` -/
structure Space.SweepsTo (sp : Space) (lines : LineMarkTable) (usable used : List ImmixBlock) (e : SweepEnd) : Prop where
  /-- the marks that are kept -/
  live : ∀ j, (lines.get j).isLive → e.lines.get j = lines.get j
  aside : ∀ j, ¬ LineIn used j → e.lines.get j = lines.get j
  /-- and the others -/
  freed : ∀ j, LineIn used j → ¬ (lines.get j).isLive → e.lines.get j = .free
  /-- where a used block goes -/
  toUsable : ∀ b ∈ used, b ∈ e.usable ↔ FreeLine e.lines b
  toUsed : ∀ b ∈ used, b ∈ e.used ↔ ¬ FreeLine e.lines b
  stays : ∀ b ∈ usable, b ∈ e.usable ∧ b ∉ e.used
  /-- no block is lost or duplicated -/
  perm : (e.usable ++ e.used).Perm sp.initBlocks
  panics : e.outOfMemory = true ↔ sp.AllLive lines used
  nonempty : e.outOfMemory = false → e.usable ≠ []

/-- a line of a swept block is Free afterwards exactly when it was not live before -/
theorem Swept.freeLine {t0 : LineMarkTable} {sw0 sw : Sweep} {bs : List ImmixBlock} (h : Swept t0 sw0 bs sw)
    {b : ImmixBlock} (hb : b ∈ bs) : FreeLine sw.lines b ↔ HasFree t0 b := by
  apply exists_congr
  intro i
  apply and_congr_right
  intro hi
  have hin : LineIn bs (b.lineMarkTable.ptr + i) := ⟨b, hb, by omega, by omega⟩
  unfold LineMarkTableSlice.get
  constructor
  · intro hfree hlive
    rw [h.get_live _ hlive] at hfree
    exact hlive.ne_free hfree
  · exact h.get_in _ hin

theorem hasFree_iff_not {lines : LineMarkTable} {b : ImmixBlock} :
    ¬ HasFree lines b ↔ ∀ i < b.lineMarkTable.len, (b.lineMarkTable.get lines i).isLive := by
  unfold HasFree
  push Not
  rfl

section
variable {sp : Space} {lines : LineMarkTable} {usable used : List ImmixBlock}
  (hblocks : (usable ++ used).Perm sp.initBlocks)
include hblocks

/-- a block is in one of the two queues only -/
theorem not_mem_usable {b : ImmixBlock} (hb : b ∈ used) : b ∉ usable := by
  intro h
  have hnodup := hblocks.nodup_iff.2 (initBlocks_nodup sp)
  exact (List.nodup_append.1 hnodup).2.2 b h b hb rfl

variable {sw : Sweep} (h : Swept lines ⟨lines, usable, [], 0, 0⟩ used sw)
include h

theorem Swept.perm_blocks : (sw.usable ++ sw.liveBlocks).Perm sp.initBlocks := by
  have hperm := h.perm
  simp only [List.append_nil] at hperm
  exact hperm.trans hblocks

/-- `full_blocks` is the number of all blocks exactly when nothing is usable -/
theorem Swept.full_iff : sw.fullBlocks = sp.totalBlocks ↔ sw.usable = [] := by
  have hfull := h.full
  have hlen := (h.perm_blocks hblocks).length_eq
  simp only [List.length_nil, Nat.add_zero, List.length_append] at hfull hlen
  rw [← List.length_eq_zero_iff, Space.totalBlocks]
  omega

theorem Swept.usable_nil_iff : sw.usable = [] ↔ sp.AllLive lines used := by
  rw [List.eq_nil_iff_forall_not_mem]
  constructor
  · intro hnone b hb
    have hno := hnone b
    rw [h.usable b, not_or] at hno
    have hused : b ∈ used := (List.mem_append.1 (hblocks.mem_iff.2 hb)).resolve_left hno.1
    exact ⟨hused, hasFree_iff_not.1 fun hf => hno.2 ⟨hused, hf⟩⟩
  · intro hall b hb
    rcases (h.usable b).1 hb with hu | ⟨hused, hf⟩
    · have hused := (hall b (hblocks.mem_iff.1 (List.mem_append_left used hu))).1
      exact not_mem_usable hblocks hused hu
    · exact hasFree_iff_not.2 (hall b (hblocks.mem_iff.1 (List.mem_append_right usable hused))).2 hf

theorem Swept.sweepsTo : sp.SweepsTo lines usable used (sp.sweepEnd sw) where
  live := h.get_live
  aside := h.get_out
  freed := h.get_in
  toUsable := by
    intro b hb
    change b ∈ sw.usable ↔ FreeLine sw.lines b
    rw [h.usable b, h.freeLine hb]
    simp [not_mem_usable hblocks hb, hb]
  toUsed := by
    intro b hb
    change b ∈ [] ++ sw.liveBlocks ↔ ¬ FreeLine sw.lines b
    rw [List.nil_append, h.live b, h.freeLine hb]
    simp [hb]
  stays := by
    intro b hb
    refine ⟨(h.usable b).2 (.inl hb), ?_⟩
    change b ∉ [] ++ sw.liveBlocks
    rw [List.nil_append, h.live b]
    rintro (hnil | ⟨hused, -⟩)
    · cases hnil
    · exact not_mem_usable hblocks hused hb
  perm := h.perm_blocks hblocks
  panics := by
    simp only [Space.sweepEnd, decide_eq_true_eq]
    rw [h.full_iff hblocks, h.usable_nil_iff hblocks]
  nonempty := by
    simp only [Space.sweepEnd, decide_eq_false_iff_not]
    rw [h.full_iff hblocks]
    exact id

end

/-- **Sweep, as a whole.** -/
theorem sweep_total (sp : Space) (marks : ℕ → LineMark) (usable used : List ImmixBlock)
    (hblocks : (usable ++ used).Perm sp.initBlocks) (retry : ℕ → Bool) (hretry : ∀ n, ∃ k, n ≤ k ∧ retry k = false) :
    ∃ e, (∃ fuel, ∀ f, fuel ≤ f → sp.sweepFor retry f (sp.lineTable marks) usable used = some e) ∧
      sp.SweepsTo (sp.lineTable marks) usable used e := by
  have hslices : ∀ b ∈ used, b.lineMarkTable.ptr + b.lineMarkTable.len ≤ (sp.lineTable marks).len := by
    intro b hb
    obtain ⟨k, hk, rfl⟩ := mem_initBlocks.1 (hblocks.mem_iff.1 (List.mem_append_right usable hb))
    rw [Space.lineTable_len]
    exact slice_in_table hk
  refine ⟨sp.sweepEnd (sweep (sp.lineTable marks) usable used), ?_,
    (sweep_spec (sp.lineTable marks) usable used hslices).sweepsTo hblocks⟩
  obtain ⟨fuel, hfuel⟩ := sweepLoop_ends hretry used 0 ⟨sp.lineTable marks, usable, [], 0, 0⟩
  refine ⟨fuel, fun f hf => ?_⟩
  rw [Space.sweepFor, sweepLoop_mono hfuel hf, Option.map_some]
  rfl

/-- a sweep of a used block whose lines are marked in turn Live and FreshAlloc, with a Retry at every other attempt -/
theorem sweep_total_oneBlock :
    ∃ e, (∃ fuel, ∀ f, fuel ≤ f → Space.oneBlock.sweepFor (fun n => n % 2 = 0) f
        (Space.oneBlock.lineTable fun j => if j % 2 = 0 then .live else .freshAlloc) [] [Space.oneBlock.block 0] = some e) ∧
      Space.oneBlock.SweepsTo (Space.oneBlock.lineTable fun j => if j % 2 = 0 then .live else .freshAlloc) []
        [Space.oneBlock.block 0] e := by
  refine sweep_total Space.oneBlock _ [] [Space.oneBlock.block 0] ?_ _ fun n => ?_
  · have hone : Space.oneBlock.initBlocks = [Space.oneBlock.block 0] := by decide +kernel
    rw [hone]
    exact List.Perm.refl _
  · refine ⟨2 * n + 1, by omega, by simp [Nat.add_mod]⟩

end Immix
