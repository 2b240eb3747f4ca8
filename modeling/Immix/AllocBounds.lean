/-
Where the memory that `alloc` returns lies, over whole runs of the heap.

- `Returns`: a call of `alloc`, from the operation that makes it to the one that returns.
- `step_mutator`: what an operation does to a mutator that is in the middle of a call.
- `alloc_in_bounds`: the address is aligned, in the block that the mutator then holds and in FreshAlloc lines, if and only
  if the size is positive or the mutator held a block when it made the call.
- `zero_size_null`: a request of size 0 by a new mutator is answered with the null address.
-/
import Immix.PublicCalls
import Immix.NoOverlap

namespace Immix.Heap

open Immix.Lib

/-- operation `i` calls `alloc` on mutator `m`, and operation `j` returns the address `a` from this call -/
structure Returns (sp : Space) (ops : List Op) (i j m : ℕ) (layout : Layout) (a : ℕ) : Prop where
  call : ops[i]? = some (.alloc m layout)
  registered : m ∈ (before sp ops i).ids
  idle : ((before sp ops i).mutator m).pc = .idle
  lt : i < j
  /-- the call is not over before operation `j` -/
  busy : ∀ k, i < k → k ≤ j → ((before sp ops k).mutator m).pc ≠ .idle
  ret : ops[j]? = some (.tick m)
  address : ∃ size, (before sp ops j).allocated (.tick m) = some (a, size)

/-- **Memory in bounds**: the range at `a` for `layout`, in the block of mutator `m` -/
structure InBounds (sp : Space) (s : Heap) (m : ℕ) (layout : Layout) (a : ℕ) : Prop where
  aligned : layout.align ∣ a
  inBlock : ∃ b ∈ sp.initBlocks, (s.mutator m).loc.block = some b ∧ b.start ≤ a ∧
    a + layout.size ≤ b.start + bytesInBlock
  fresh : ∀ x, a ≤ x → x < a + layout.size → s.mark x = .freshAlloc

variable {sp : Space} {s : Heap} {m : ℕ} {ops : List Op} {i j a : ℕ} {layout : Layout}

/-! ## A mutator in the middle of a call -/

/-- `resume` changes mutator `n` only -/
theorem resume_other {n : ℕ} (hnm : m ≠ n) : (s.resume n).mutator m = s.mutator m ∧ (s.resume n).ids = s.ids := by
  unfold Heap.resume
  split
  · exact ⟨Function.update_of_ne hnm _ _, rfl⟩
  · exact ⟨Function.update_of_ne hnm _ _, rfl⟩
  · exact ⟨rfl, rfl⟩

/-- **Inversion.** An operation leaves a mutator that is in a call as it is, releases it, or is its own next step. -/
theorem step_mutator (o : Op) (hm : m ∈ s.ids) (hpc : (s.mutator m).pc ≠ .idle) :
    m ∈ (step sp s o).ids ∧
      ((step sp s o).mutator m = s.mutator m ∨
        (step sp s o).mutator m = { s.mutator m with pc := (s.mutator m).pc.release } ∨
        (o = .tick m ∧ step sp s o = s.tick m) ∨ (o = .stop m ∧ step sp s o = s.stop m) ∨
        (o = .resume m ∧ step sp s o = s.resume m)) := by
  unfold step
  split_ifs with hcr
  · exact ⟨hm, .inl rfl⟩
  cases o with
  | new n =>
    dsimp only
    split_ifs with hn
    · exact ⟨hm, .inl rfl⟩
    · have hnm : m ≠ n := fun h => hn (h ▸ hm)
      exact ⟨List.mem_cons_of_mem n hm, .inl (Function.update_of_ne hnm _ _)⟩
  | alloc n layout =>
    dsimp only
    split_ifs with hn
    · split
      · rename_i hidle
        have hnm : m ≠ n := fun h => hpc (h ▸ hidle)
        exact ⟨hm, .inl (Function.update_of_ne hnm _ _)⟩
      · exact ⟨hm, .inl rfl⟩
    · exact ⟨hm, .inl rfl⟩
  | tick n =>
    dsimp only
    split_ifs with hn
    · obtain ⟨x, hx, hids, -⟩ := own_tick s n
      dsimp only at hx hids
      by_cases hnm : m = n
      · subst hnm
        exact ⟨hids ▸ hm, .inr (.inr (.inl ⟨rfl, rfl⟩))⟩
      · exact ⟨hids ▸ hm, .inl (by rw [hx, Function.update_of_ne hnm])⟩
    · exact ⟨hm, .inl rfl⟩
  | stop n =>
    dsimp only
    split_ifs with hn
    · obtain ⟨x, hx, hids, -⟩ := own_stop s n
      dsimp only at hx hids
      by_cases hnm : m = n
      · subst hnm
        exact ⟨hids ▸ hm, .inr (.inr (.inr (.inl ⟨rfl, rfl⟩)))⟩
      · exact ⟨hids ▸ hm, .inl (by rw [hx, Function.update_of_ne hnm])⟩
    · exact ⟨hm, .inl rfl⟩
  | gc roots cpus schedule =>
    dsimp only
    unfold Heap.gc
    split_ifs
    · exact ⟨hm, .inr (.inl rfl)⟩
    · exact ⟨hm, .inl rfl⟩
  | resume n =>
    dsimp only
    split_ifs with hn
    · by_cases hnm : m = n
      · subst hnm
        have hids : (s.resume m).ids = s.ids := by
          unfold Heap.resume
          split <;> rfl
        exact ⟨hids ▸ hm, .inr (.inr (.inr (.inr ⟨rfl, rfl⟩)))⟩
      · obtain ⟨h1, h2⟩ := resume_other (s := s) hnm
        exact ⟨h2 ▸ hm, .inl h1⟩
    · exact ⟨hm, .inl rfl⟩
  | destroy n =>
    dsimp only
    split_ifs with hn
    · unfold Heap.destroy
      split
      · rename_i hidle
        have hnm : m ≠ n := fun h => hpc (h ▸ hidle)
        exact ⟨List.mem_filter.2 ⟨hm, by simpa using hnm⟩, .inl rfl⟩
      · exact ⟨hm, .inl rfl⟩
    · exact ⟨hm, .inl rfl⟩
  | initObject n addr encode =>
    dsimp only
    split_ifs
    · split <;> exact ⟨hm, .inl rfl⟩
    · exact ⟨hm, .inl rfl⟩
  | write n addr value =>
    dsimp only
    split_ifs
    · split <;> exact ⟨hm, .inl rfl⟩
    · exact ⟨hm, .inl rfl⟩

/-- a call for `layout`; if the mutator had a block at its start, it uses a bump region only with a block -/
def Holding (layout : Layout) (held : Prop) (x : Mutator) : Prop :=
  x.pc.layout = some layout ∧ (held → x.pc.active = true → ∃ b, x.loc.block = some b)

/-- a call for `layout` by a mutator without a block, at its first step -/
def Empty (layout : Layout) (x : Mutator) : Prop := x.pc = .alloc layout ∧ x.loc.block = none

variable {held : Prop}

theorem Holding.release {x : Mutator} (h : Holding layout held x) :
    Holding layout held { x with pc := x.pc.release } := by
  obtain ⟨h1, h2⟩ := h
  have hactive : x.pc.release.active = true → x.pc.active = true := by
    cases x.pc <;> exact id
  exact ⟨by rw [Calls.layout_release, h1], fun hh hact => h2 hh (hactive hact)⟩

theorem Holding.stop (h : Holding layout held (s.mutator m)) (hpc : (s.mutator m).pc ≠ .idle) :
    Holding layout held ((s.stop m).mutator m) := by
  have h1 := h.1
  unfold Heap.stop
  cases hx : (s.mutator m).pc with
  | idle => exact absurd hx hpc
  | loop l =>
    rw [hx] at h1
    have hself : (s.park m (some l)).mutator m = ⟨((s.mutator m).loc.returnBlock s.used).1, .stopped (some l)⟩ :=
      Function.update_self ..
    dsimp only
    rw [hself]
    exact ⟨h1, fun _ hact => absurd hact Bool.false_ne_true⟩
  | _ => exact h

theorem Holding.resume (h : Holding layout held (s.mutator m)) : Holding layout held ((s.resume m).mutator m) := by
  have h1 := h.1
  unfold Heap.resume
  cases hx : (s.mutator m).pc with
  | released l =>
    rw [hx] at h1
    cases l with
    | none => cases h1
    | some l =>
      dsimp only
      rw [setMutator_mutator, Function.update_self]
      exact ⟨h1, fun _ hact => absurd hact Bool.false_ne_true⟩
  | _ => exact h

/-- every step inside the call but the one that returns -/
theorem Holding.tick (hinv : Inv sp s) (hm : m ∈ s.ids) (h : Holding layout held (s.mutator m))
    (hpc : ((s.tick m).mutator m).pc ≠ .idle) : Holding layout held ((s.tick m).mutator m) := by
  have h1 := h.1
  have h2 := h.2
  unfold Heap.tick at hpc ⊢
  cases hx : (s.mutator m).pc with
  | alloc l =>
    rw [hx] at h1 h2
    dsimp only at hpc ⊢
    cases hb : (s.mutator m).loc.bump l with
    | some p =>
      rw [hx] at hpc
      dsimp only at hpc
      rw [hb] at hpc
      exact absurd (congrArg Mutator.pc (Function.update_self m _ s.mutator)) hpc
    | none =>
      dsimp only
      rw [setMutator_mutator, Function.update_self]
      exact ⟨h1, fun hh _ => h2 hh rfl⟩
  | tryAllocFromLocal l =>
    have hshape := hinv.shape m hm (by rw [hx]; rfl)
    rw [hx] at h1
    dsimp only
    cases ht : (s.mutator m).loc.tryAllocFromLocal s.lines with
    | hole loc lines =>
      obtain ⟨b, hb⟩ := tryAllocFromLocal_block ht
      obtain ⟨k, -, rfl⟩ := hinv.block_eq hm hb
      obtain ⟨i, j, -, -, -, -, rfl, -⟩ := tryAllocFromLocal_hole hb rfl ht
      dsimp only
      rw [setMutator_mutator, Function.update_self]
      exact ⟨h1, fun _ _ => ⟨_, rfl⟩⟩
    | none =>
      dsimp only
      rw [setMutator_mutator, Function.update_self]
      exact ⟨h1, fun _ hact => absurd hact Bool.false_ne_true⟩
    | panicked => exact absurd ht hshape.not_panicked
  | allocFromGlobal l =>
    rw [hx] at h1
    dsimp only
    rw [setMutator_mutator, Function.update_self]
    exact ⟨h1, fun _ hact => absurd hact Bool.false_ne_true⟩
  | loop l =>
    rw [hx] at h1
    dsimp only
    cases hu : s.usable with
    | nil => exact h
    | cons b usable =>
      dsimp only
      rw [setMutator_mutator, Function.update_self]
      exact ⟨h1, fun _ _ => ⟨b, rfl⟩⟩
  | _ => exact h

/-- **Step lemma.** Every operation inside the call keeps its layout, and the block under a bump region. -/
theorem Holding.step (hinv : Inv sp s) (o : Op) (hm : m ∈ s.ids) (hpc : (s.mutator m).pc ≠ .idle)
    (hpc' : ((step sp s o).mutator m).pc ≠ .idle) (h : Holding layout held (s.mutator m)) :
    Holding layout held ((step sp s o).mutator m) := by
  obtain heq | heq | ⟨-, heq⟩ | ⟨-, heq⟩ | ⟨-, heq⟩ := (step_mutator o hm hpc).2
  · rw [heq]
    exact h
  · rw [heq]
    exact h.release
  · rw [heq] at hpc' ⊢
    exact h.tick hinv hm hpc'
  · rw [heq]
    exact h.stop hpc
  · rw [heq]
    exact h.resume

/-- **Step lemma.** A request of size 0 by a mutator without a block stays at its first step until it returns. -/
theorem Empty.step (hinv : Inv sp s) (o : Op) (hm : m ∈ s.ids) (hsize : layout.size = 0)
    (hpc' : ((step sp s o).mutator m).pc ≠ .idle) (h : Empty layout (s.mutator m)) :
    Empty layout ((step sp s o).mutator m) := by
  obtain ⟨hpc, hblock⟩ := h
  have hne : (s.mutator m).pc ≠ .idle := by
    rw [hpc]
    exact MutPc.noConfusion
  obtain heq | heq | ⟨-, heq⟩ | ⟨-, heq⟩ | ⟨-, heq⟩ := (step_mutator o hm hne).2
  · rw [heq]
    exact ⟨hpc, hblock⟩
  · rw [heq]
    exact ⟨by rw [hpc]; rfl, hblock⟩
  · -- the bump region is empty at address 0, and a range of size 0 fits
    obtain ⟨hcursor, hlimit, -⟩ := (hinv.shape m hm (by rw [hpc]; rfl)).empty hblock
    have hround := layout.alignUp_of_dvd (Nat.zero_le _) (dvd_zero layout.align)
    have hbump : (s.mutator m).loc.bump layout = some (0, { (s.mutator m).loc with cursor := 0 }) := by
      unfold ImmixMutatorLocal.bump Address.plus
      dsimp only
      rw [hcursor, hlimit, hround, hsize, if_pos (le_refl 0)]
    have hidle : ((s.tick m).mutator m).pc = .idle := by
      unfold Heap.tick
      rw [hpc]
      dsimp only
      rw [hbump]
      exact congrArg Mutator.pc (Function.update_self m _ s.mutator)
    rw [heq] at hpc'
    exact absurd hidle hpc'
  · rw [heq]
    unfold Heap.stop
    rw [hpc]
    exact ⟨hpc, hblock⟩
  · rw [heq]
    unfold Heap.resume
    rw [hpc]
    exact ⟨hpc, hblock⟩

/-! ## A call -/

/-- the state after the operation that makes the call -/
theorem Returns.called (h : Returns sp ops i j m layout a) : m ∈ (before sp ops (i + 1)).ids ∧
    (before sp ops (i + 1)).mutator m = ⟨((before sp ops i).mutator m).loc, .alloc layout⟩ := by
  have hbusy := h.busy (i + 1) (Nat.lt_succ_self i) h.lt
  rw [before_succ h.call] at hbusy ⊢
  unfold step at hbusy ⊢
  split_ifs at hbusy ⊢ with hcr
  · exact absurd h.idle hbusy
  · dsimp only
    rw [if_pos h.registered, h.idle]
    exact ⟨h.registered, Function.update_self ..⟩

/-- what holds of the mutator after the call is made, and is kept by every operation inside the call, holds when it
returns -/
theorem Returns.until (h : Returns sp ops i j m layout a) {P : Mutator → Prop}
    (h0 : P ⟨((before sp ops i).mutator m).loc, .alloc layout⟩)
    (hstep : ∀ s o, Inv sp s → m ∈ s.ids → (s.mutator m).pc ≠ .idle → ((step sp s o).mutator m).pc ≠ .idle →
      P (s.mutator m) → P ((step sp s o).mutator m)) :
    P ((before sp ops j).mutator m) := by
  have hrun : ∀ k, i + 1 ≤ k → k ≤ j → m ∈ (before sp ops k).ids ∧ P ((before sp ops k).mutator m) := by
    intro k hk
    induction k, hk using Nat.le_induction with
    | base =>
      intro _
      obtain ⟨h1, h2⟩ := h.called
      exact ⟨h1, h2 ▸ h0⟩
    | succ k hk ih =>
      intro hkj
      obtain ⟨hm, hP⟩ := ih (by omega)
      have hlen : j < ops.length := (List.getElem?_eq_some_iff.1 h.ret).1
      have ho : ops[k]? = some ops[k] := List.getElem?_eq_getElem (by omega)
      have hpc := h.busy k (by omega) (by omega)
      have hpc' := h.busy (k + 1) (by omega) hkj
      rw [before_succ ho] at hpc' ⊢
      exact ⟨(step_mutator _ hm hpc).1, hstep _ _ (inv_run sp ops k) hm hpc hpc' hP⟩
  exact (hrun j h.lt le_rfl).2

/-- **Memory in bounds.** In every run, whatever the size and the alignment are: when a call of `alloc` returns, its
address is aligned and lies, with the size asked for, in the block the mutator holds and in FreshAlloc lines, if and only
if the size is positive or the mutator held a block when it made the call. -/
theorem alloc_in_bounds (sp : Space) (ops : List Op) (i j m : ℕ) (layout : Layout) (a : ℕ)
    (h : Returns sp ops i j m layout a) :
    InBounds sp (before sp ops (j + 1)) m layout a ↔
      0 < layout.size ∨ ((before sp ops i).mutator m).loc.block ≠ none := by
  have hinv := inv_run sp ops j
  have hinv' := inv_run sp ops (j + 1)
  obtain ⟨size, haddr⟩ := h.address
  obtain ⟨m', l, loc, hop, hm, -, hpc, hcursor, hlimit, hdvd, hsize, hloc, hs⟩ := allocated_spec hinv haddr
  cases hop
  dsimp only at hcursor hlimit hdvd hsize hloc
  have hhold : Holding layout (((before sp ops i).mutator m).loc.block ≠ none) ((before sp ops j).mutator m) := by
    refine h.until (P := Holding layout _) ⟨rfl, fun hne _ => Option.ne_none_iff_exists'.1 hne⟩ ?_
    exact fun s o hs hm hpc hpc' hx => hx.step hs o hm hpc hpc'
  obtain rfl : l = layout := by
    have hl := hhold.1
    rw [hpc] at hl
    exact Option.some.inj hl
  have hact : ((before sp ops j).mutator m).pc.active = true := by
    rw [hpc]
    rfl
  have hshape := hinv.shape m hm hact
  have hafter : ((before sp ops (j + 1)).mutator m).loc.block = ((before sp ops j).mutator m).loc.block ∧
      (before sp ops (j + 1)).lines = (before sp ops j).lines := by
    rw [before_succ h.ret, hs, hloc]
    exact ⟨by rw [setMutator_mutator, Function.update_self], rfl⟩
  constructor
  · intro hin
    by_contra hnot
    rw [not_or, not_lt, Nat.le_zero, ne_eq, not_not] at hnot
    have hempty : Empty l ((before sp ops j).mutator m) := by
      refine h.until (P := Empty l) ⟨rfl, hnot.2⟩ ?_
      exact fun s o hs hm _ hpc' hx => hx.step hs o hm hnot.1 hpc'
    obtain ⟨b, -, hb, -⟩ := hin.inBlock
    rw [hafter.1, hempty.2] at hb
    cases hb
  · intro hcond
    have hblock : ∃ b, ((before sp ops j).mutator m).loc.block = some b := by
      obtain hpos | hheld := hcond
      · exact hshape.block_of_lt (by omega)
      · exact hhold.2 hheld hact
    obtain ⟨b, hb⟩ := hblock
    have hregion := hshape.region b hb
    refine ⟨hdvd, ⟨b, (hinv.held m hm b hb).1, hafter.1.trans hb, by omega, ?_⟩, fun x h1 h2 => ?_⟩
    · rw [bytesInBlock_eq]
      omega
    · rw [mark_congr hinv hinv', hafter.2]
      exact hshape.fresh x (by omega) (by omega)

/-- a new mutator asks for a line -/
def firstLine : List Op := .new 0 :: allocLine

theorem alloc_in_bounds_firstLine : InBounds .oneBlock (before .oneBlock firstLine 9) 0 lineLayout 524288 := by
  refine (alloc_in_bounds .oneBlock firstLine 1 8 0 lineLayout 524288 ⟨rfl, ?_, ?_, by decide, ?_, rfl, 256, ?_⟩).2
    (.inl (by decide))
  · decide +kernel
  · decide +kernel
  · intro k h1 h2
    interval_cases k <;> decide +kernel
  · decide +kernel

/-- a request that any address serves -/
def zeroSize : Layout := ⟨0, 1, ⟨0, rfl⟩, by norm_num⟩

/-- a new mutator asks for nothing -/
def nothing : List Op := [.new 0, .alloc 0 zeroSize, .tick 0]

/-- **The null address.** The request returns address 0, and the mutator holds no block: the fast path compares the end
of the range, 0, with the limit of a new mutator, 0. -/
theorem zero_size_null : Returns .oneBlock nothing 1 2 0 zeroSize 0 ∧
    ¬ InBounds .oneBlock (before .oneBlock nothing 3) 0 zeroSize 0 := by
  refine ⟨⟨rfl, ?_, ?_, by decide, ?_, rfl, 0, ?_⟩, fun h => ?_⟩
  · decide +kernel
  · decide +kernel
  · intro k h1 h2
    interval_cases k
    decide +kernel
  · decide +kernel
  · have hnone : ((before .oneBlock nothing 3).mutator 0).loc.block = none := by decide +kernel
    obtain ⟨b, -, hb, -⟩ := h.inBlock
    rw [hnone] at hb
    cases hb

end Immix.Heap
