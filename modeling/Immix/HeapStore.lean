/-
The heap refines the store with an atomic collector (the queues of `heap/immix/immix_space.rs` and the blocks of
`heap/immix/immix_mutator.rs`, in runs of the whole allocator).

The barrier refines the same store one shared access at a time. The heap has the bump regions, the line marks, the trace and
the sweep; a collection of it is one operation, as a collection of the store is, and here the full blocks are those whose
lines are all Live or ConservLive.
- `sweep_order`: the two queues after a sweep, in their order.
- `view`: the store that a heap shows.
- `refines_store`: every run of the heap is, seen through `view`, a legal run of the store.
-/
import Immix.Lib.Refine
import Immix.BlockStore
import Immix.NoOverlap

namespace Immix

open Immix.Lib

/-! ## The order of a sweep -/

/-- the sweep of the blocks `bs`: those without a free line in front of `live_blocks`, the others behind the usable ones -/
theorem sweep_order_fold {t0 : LineMarkTable} {sw0 : Sweep} (full : ImmixBlock → Bool)
    (hfull : ∀ b, full b = true ↔ ¬ HasFree t0 b) (bs : List ImmixBlock) {done : List ImmixBlock} {sw : Sweep}
    (h : Swept t0 sw0 done sw) (hb : ∀ b ∈ bs, b.lineMarkTable.ptr + b.lineMarkTable.len ≤ t0.len) :
    (bs.foldl sweepBlock sw).liveBlocks = (bs.filter full).reverse ++ sw.liveBlocks ∧
      (bs.foldl sweepBlock sw).usable = sw.usable ++ bs.filter (!full ·) := by
  induction bs generalizing done sw with
  | nil => simp
  | cons b bs ih =>
    have hlen := hb b List.mem_cons_self
    obtain ⟨hlive, husable⟩ := ih (h.step hlen) fun c hc => hb c (List.mem_cons_of_mem b hc)
    rw [List.foldl_cons, hlive, husable]
    rcases (sweepBlock_cases sw b (by rw [h.len]; exact hlen)).2 with ⟨hf, h1, h2, -⟩ | ⟨hf, h1, h2, -⟩
    · have hnot : full b = false := by
        rw [← Bool.not_eq_true, hfull, not_not, ← h.hasFree]
        exact hf
      rw [h1, h2]
      simp [hnot]
    · have hyes : full b = true := by
        rw [hfull, ← h.hasFree]
        exact hf
      rw [h1, h2]
      simp [hyes]

/-- **The order of a sweep.** The full blocks stay used, in reverse; the others become usable, in the order they had. -/
theorem sweep_order (t : LineMarkTable) (usable used : List ImmixBlock)
    (hb : ∀ b ∈ used, b.lineMarkTable.ptr + b.lineMarkTable.len ≤ t.len) :
    (sweep t usable used).liveBlocks = (used.filter (· ∈ (sweep t usable used).liveBlocks)).reverse ∧
      (sweep t usable used).usable = usable ++ used.filter (· ∉ (sweep t usable used).liveBlocks) := by
  classical
  have hspec := sweep_spec t usable used hb
  have hmem : ∀ b ∈ used, b ∈ (sweep t usable used).liveBlocks ↔ ¬ HasFree t b := by
    intro b hused
    rw [hspec.live b]
    simp [hused]
  have h0 := sweep_spec t usable [] fun b hb => absurd hb List.not_mem_nil
  obtain ⟨hlive, husable⟩ := sweep_order_fold (fun b => decide (¬ HasFree t b)) (by simp) used h0 hb
  have hfilter : used.filter (fun b => decide (¬ HasFree t b)) = used.filter (· ∈ (sweep t usable used).liveBlocks) := by
    refine List.filter_congr fun b hused => ?_
    rw [decide_eq_decide, hmem b hused]
  have hfilter' : used.filter (fun b => !decide (¬ HasFree t b)) = used.filter (· ∉ (sweep t usable used).liveBlocks) := by
    refine List.filter_congr fun b hused => ?_
    rw [← decide_not, decide_eq_decide, hmem b hused]
  constructor
  · rw [← hfilter]
    exact hlive.trans (List.append_nil _)
  · rw [← hfilter']
    exact husable

namespace Heap

/-! ## What the store shows -/

def view (s : Heap) : Store ImmixBlock where
  usable := s.usable
  used := s.used
  held m := if m ∈ s.ids then (s.mutator m).loc.block else none

/-- what an operation of the heap does to the store -/
def emit (sp : Space) (s : Heap) (o : Op) : Option (Store.Op ImmixBlock) :=
  if s.crashed then none else
  match o with
  | .tick m =>
    if m ∈ s.ids then
      match (s.mutator m).pc with
      | .allocFromGlobal _ => some (.giveBack m)
      | .loop _ => some (.take m)
      | _ => none
    else none
  | .stop m =>
    if m ∈ s.ids then
      match (s.mutator m).pc with
      | .idle | .loop _ => some (.giveBack m)
      | _ => none
    else none
  | .destroy m =>
    if m ∈ s.ids then
      match (s.mutator m).pc with
      | .idle => some (.giveBack m)
      | _ => none
    else none
  | .gc roots cpus schedule =>
    if s.AllStopped ∧ Trace.Finished (s.env sp cpus) (s.startTrace sp roots cpus schedule) then
      some (.collect (s.collect sp (s.startTrace sp roots cpus schedule)).used)
    else none
  | _ => none

variable {sp : Space} {s : Heap}

/-- two heaps show the same store -/
theorem view_congr {s' : Heap} (husable : s'.usable = s.usable) (hused : s'.used = s.used) (hids : s'.ids = s.ids)
    (hblock : ∀ m, (s'.mutator m).loc.block = (s.mutator m).loc.block) : s'.view = s.view := by
  unfold view
  rw [husable, hused, hids]
  simp only [hblock]

theorem setMutator_block {m : ℕ} {x : Mutator} (h : x.loc.block = (s.mutator m).loc.block) (n : ℕ) :
    ((s.setMutator m x).mutator n).loc.block = (s.mutator n).loc.block := by
  rcases eq_or_ne n m with rfl | hn
  · simp [h]
  · simp [hn]

/-- a mutator gives its block back -/
theorem view_giveBack {m : ℕ} (hm : m ∈ s.ids) (pc : MutPc) :
    ({ s.setMutator m ⟨((s.mutator m).loc.returnBlock s.used).1, pc⟩ with
      used := ((s.mutator m).loc.returnBlock s.used).2 } : Heap).view = s.view.step (.giveBack m) := by
  unfold view Store.step
  simp only [ImmixMutatorLocal.returnBlock_used, hm, if_true, Store.mk.injEq, true_and, setMutator_usable, setMutator_ids]
  funext n
  rcases eq_or_ne n m with rfl | hn
  · simp
  · simp [hn]

/-! ## The operations -/

theorem view_tick_silent {m : ℕ} (hm : m ∈ s.ids) (hcr : s.crashed = false) (he : emit sp s (.tick m) = none) :
    (s.tick m).view = s.view := by
  simp only [emit, hcr, Bool.false_eq_true, if_false, hm, if_true] at he
  unfold Heap.tick
  cases hpc : (s.mutator m).pc with
  | alloc layout =>
    simp only
    cases hb : (s.mutator m).loc.bump layout with
    | none => exact view_congr rfl rfl rfl (setMutator_block rfl)
    | some r =>
      obtain ⟨a, x⟩ := r
      refine view_congr rfl rfl rfl (setMutator_block ?_)
      unfold ImmixMutatorLocal.bump at hb
      simp only at hb
      split_ifs at hb
      cases hb
      rfl
  | tryAllocFromLocal layout =>
    simp only
    cases ht : (s.mutator m).loc.tryAllocFromLocal s.lines with
    | none => exact view_congr rfl rfl rfl (setMutator_block rfl)
    | panicked => exact view_congr rfl rfl rfl (setMutator_block rfl)
    | hole x lines =>
      refine view_congr rfl rfl rfl (setMutator_block ?_)
      obtain ⟨b, hb⟩ := tryAllocFromLocal_block ht
      unfold ImmixMutatorLocal.tryAllocFromLocal at ht
      rw [hb] at ht ⊢
      simp only at ht
      split_ifs at ht
      split at ht
      · cases ht
        rfl
      · cases ht
  | allocFromGlobal layout => simp [hpc] at he
  | loop layout => simp [hpc] at he
  | _ => rfl

theorem view_tick_shown {m : ℕ} (h : Inv sp s) (hm : m ∈ s.ids) (hcr : s.crashed = false) {a : Store.Op ImmixBlock}
    (he : emit sp s (.tick m) = some a) : Store.Legal s.view a ∧ (s.tick m).view = s.view.step a := by
  simp only [emit, hcr, Bool.false_eq_true, if_false, hm, if_true] at he
  unfold Heap.tick
  cases hpc : (s.mutator m).pc
  all_goals
    simp only [hpc, reduceCtorEq, Option.some.injEq] at he
  case allocFromGlobal layout =>
    subst he
    exact ⟨trivial, view_giveBack hm _⟩
  case loop layout =>
    subst he
    have hnone : (s.mutator m).loc.block = none := h.returned m hm (by rw [hpc]; rfl)
    refine ⟨by simp [Store.Legal, view, hnone], ?_⟩
    cases hq : s.usable with
    | nil => simp [Store.step, view, hq]
    | cons b rest =>
      simp only [Store.step, view, hq, setMutator_ids, Store.mk.injEq, true_and]
      refine ⟨rfl, ?_⟩
      funext n
      rcases eq_or_ne n m with rfl | hn
      · simp [hm, ImmixMutatorLocal.useBlock]
      · simp [hn]

theorem view_stop {m : ℕ} (hm : m ∈ s.ids) (hcr : s.crashed = false) (a : Option (Store.Op ImmixBlock))
    (he : emit sp s (.stop m) = a) :
    match a with
    | none => (s.stop m).view = s.view
    | some a => Store.Legal s.view a ∧ (s.stop m).view = s.view.step a := by
  simp only [emit, hcr, Bool.false_eq_true, if_false, hm, if_true] at he
  unfold Heap.stop
  cases hpc : (s.mutator m).pc
  all_goals
    simp only [hpc] at he
    subst he
  case idle => exact ⟨trivial, view_giveBack hm _⟩
  case loop layout => exact ⟨trivial, view_giveBack hm _⟩
  all_goals rfl

theorem view_destroy {m : ℕ} (hm : m ∈ s.ids) (hcr : s.crashed = false) (a : Option (Store.Op ImmixBlock))
    (he : emit sp s (.destroy m) = a) :
    match a with
    | none => (s.destroy m).view = s.view
    | some a => Store.Legal s.view a ∧ (s.destroy m).view = s.view.step a := by
  simp only [emit, hcr, Bool.false_eq_true, if_false, hm, if_true] at he
  unfold Heap.destroy
  cases hpc : (s.mutator m).pc
  all_goals
    simp only [hpc] at he
    subst he
  case idle =>
    refine ⟨trivial, ?_⟩
    unfold view Store.step
    simp only [ImmixMutatorLocal.returnBlock_used, hm, if_true, Store.mk.injEq, true_and]
    funext n
    rcases eq_or_ne n m with rfl | hn
    · simp
    · simp [hn]
  all_goals rfl

/-- a collection of the heap is one of the store -/
theorem view_collect (h : Inv sp s) {roots : List ℕ} {cpus : ℕ+} {schedule : List (ℕ × ℕ)} (hstop : s.AllStopped)
    (hf : Trace.Finished (s.env sp cpus) (s.startTrace sp roots cpus schedule)) :
    Store.Legal s.view (.collect (s.collect sp (s.startTrace sp roots cpus schedule)).used) ∧
      (s.collect sp (s.startTrace sp roots cpus schedule)).view =
        s.view.step (.collect (s.collect sp (s.startTrace sp roots cpus schedule)).used) := by
  have ht := h.traced hf
  have hspec := h.swept ht.len
  have hnone : ∀ m, s.view.held m = none := by
    intro m
    simp only [view]
    split_ifs with hm
    · exact h.returned m hm (MutPc.returned_of_isStopped (hstop m hm))
    · rfl
  have hheld : (s.collect sp (s.startTrace sp roots cpus schedule)).view.held = s.view.held := rfl
  have hlen : ∀ b ∈ s.used, b.lineMarkTable.ptr + b.lineMarkTable.len ≤ (s.startTrace sp roots cpus schedule).lines.len := by
    intro b hb
    obtain ⟨k, hk, rfl⟩ := mem_initBlocks.1 (h.blocks b (List.mem_append_right _ hb))
    have := slice_in_table hk
    rw [ht.len, h.lines_len]
    simp only [Space.block]
    omega
  obtain ⟨hlive, husable⟩ := sweep_order (s.startTrace sp roots cpus schedule).lines s.usable s.used hlen
  refine ⟨⟨hnone, fun b hb => ?_⟩, ?_⟩
  · have hb' := (hspec.live b).1 hb
    simp only [List.not_mem_nil, false_or] at hb'
    exact hb'.1
  · unfold Store.step
    simp only [← hheld]
    unfold view
    simp only [Store.mk.injEq]
    exact ⟨husable, hlive, trivial⟩

/-! ## Runs -/

/-- **Step lemma.** -/
theorem view_step (sp : Space) : Simulates (step sp) (fun _ _ => True) (emit sp) Store.step Store.Legal
    fun s t => Inv sp s ∧ t = s.view := by
  constructor
  · rintro s t o - ⟨h, rfl⟩ he
    refine ⟨inv_step sp s o h, ?_⟩
    unfold step
    split_ifs with hcr
    · rfl
    rw [Bool.not_eq_true] at hcr
    cases o with
    | new m =>
      simp only
      split_ifs with hm
      · rfl
      · unfold view
        simp only [setMutator_usable, Store.mk.injEq]
        refine ⟨trivial, rfl, ?_⟩
        funext n
        rcases eq_or_ne n m with rfl | hn
        · simp [hm, ImmixMutatorLocal.new]
        · simp [hn]
    | alloc m layout =>
      simp only
      split_ifs
      · split
        · symm
          exact view_congr rfl rfl rfl (setMutator_block rfl)
        · rfl
      · rfl
    | tick m =>
      simp only
      split_ifs with hm
      · exact (view_tick_silent hm hcr he).symm
      · rfl
    | stop m =>
      simp only
      split_ifs with hm
      · exact (view_stop hm hcr none he).symm
      · rfl
    | gc roots cpus schedule =>
      unfold emit at he
      rw [if_neg (by simp [hcr])] at he
      simp only [ite_eq_right_iff, reduceCtorEq, imp_false] at he
      simp only [gc, if_neg he]
    | resume m =>
      simp only
      split_ifs
      · unfold Heap.resume
        split
        · rename_i hpc
          symm
          refine view_congr rfl rfl rfl (setMutator_block ?_)
          rw [h.returned m (by assumption) (by rw [hpc]; rfl)]
          rfl
        · rename_i hpc
          symm
          refine view_congr rfl rfl rfl (setMutator_block ?_)
          rw [h.returned m (by assumption) (by rw [hpc]; rfl)]
          rfl
        · rfl
      · rfl
    | destroy m =>
      simp only
      split_ifs with hm
      · exact (view_destroy hm hcr none he).symm
      · rfl
    | initObject m addr encode =>
      simp only
      split_ifs
      · split <;> rfl
      · rfl
    | write m addr value =>
      simp only
      split_ifs
      · split <;> rfl
      · rfl
  · rintro s t o a - ⟨h, rfl⟩ he
    have hcr : s.crashed = false := by
      by_contra hcr
      simp [emit, hcr] at he
    suffices hall : Store.Legal s.view a ∧ (step sp s o).view = s.view.step a from
      ⟨hall.1, inv_step sp s o h, hall.2.symm⟩
    unfold step
    rw [if_neg (by simp [hcr])]
    cases o with
    | tick m =>
      have hm : m ∈ s.ids := by
        by_contra hm
        simp [emit, hm] at he
      simp only [if_pos hm]
      exact view_tick_shown h hm hcr he
    | stop m =>
      have hm : m ∈ s.ids := by
        by_contra hm
        simp [emit, hm] at he
      simp only [if_pos hm]
      exact view_stop hm hcr (some a) he
    | gc roots cpus schedule =>
      unfold emit at he
      rw [if_neg (by simp [hcr])] at he
      simp only at he
      split_ifs at he with hc
      cases he
      simp only [gc, if_pos hc]
      exact view_collect h hc.1 hc.2
    | destroy m =>
      have hm : m ∈ s.ids := by
        by_contra hm
        simp [emit, hm] at he
      simp only [if_pos hm]
      exact view_destroy hm hcr (some a) he
    | _ => simp [emit, hcr] at he

/-- the operations of the store that a run shows -/
def storeOps (sp : Space) (ops : List Op) : List (Store.Op ImmixBlock) := emitted (step sp) (emit sp) (new sp) ops

/-- **The heap refines the store.** In every run of a new space, with any number of mutators, requests of any layout and
collections with any roots and schedules: what happens to the queues and to the mutators' blocks is a legal run of the store,
which shows them as they are in every state. -/
theorem refines_store (sp : Space) (ops : List Op) (n : ℕ) :
    LegalRun Store.step Store.Legal (Store.init sp.initBlocks) (storeOps sp (ops.take n)) ∧
      (before sp ops n).view = run Store.step (Store.init sp.initBlocks) (storeOps sp (ops.take n)) := by
  have hstart : Store.init sp.initBlocks = (new sp).view := by simp [Store.init, view, new]
  have hlegal : LegalRun (step sp) (fun _ _ => True) (new sp) (ops.take n) := fun _ _ _ => trivial
  obtain ⟨hrun, -, hview⟩ := (view_step sp).run hlegal ⟨inv_new sp, hstart⟩
  exact ⟨hrun, hview.symm⟩

end Heap

end Immix
