/-
Where the blocks of a space are: in its usable queue, in its used queue, held by a mutator, or in the hands of a sweep.

- `emptyHanded_before`: at the points where a mutator resets itself, takes a block, leaves or sleeps it holds none.
- `block_conservation`: in every state of every run each block of each space is in exactly one of these places.
-/
import Immix.BarrierLocks

namespace Immix.Barrier

open Immix.Lib

/-! ## Threads that hold no block -/

/-- the thread is at a point where it holds no block -/
def Thread.emptyHanded (t : Thread) : Bool :=
  match t.pc with
  | .idle | .allocReturn | .destroyReturn => false
  | .yieldpoint | .trigLock | .trigSet _ | .cas | .prepare _ => t.ret = .allocLoop
  | _ => true

/-- what a step of `m` leaves of another thread -/
theorem next_other {s : State} {m k : ℕ} (hk : k ≠ m) (env : Env) :
    ((next s m env).thread k).ret = (s.thread k).ret ∧ ((next s m env).thread k).slot = (s.thread k).slot ∧
      ((next s m env).thread k).space = (s.thread k).space ∧ ((next s m env).thread k).block = (s.thread k).block ∧
      ((next s m env).thread k).threadRoots = (s.thread k).threadRoots ∧
      (((next s m env).thread k).pc = (s.thread k).pc ∨ ((next s m env).thread k).pc = (s.thread k).pc.wake) := by
  cases hpc : (s.thread m).pc
  case' trigSet todo => cases todo
  case' clearYield todo => cases todo
  all_goals simp only [next, hpc]
  all_goals repeat' split
  all_goals simp [State.returnBlock, Threads.set_of_ne, hk]

theorem call_other {s : State} {m k : ℕ} (hk : k ≠ m) (c : Call) : (call s m c).thread k = s.thread k := by
  cases c <;> simp only [call] <;> split <;> simp [Threads.set_of_ne, hk]

theorem emptyHanded_congr {t t' : Thread} (hret : t'.ret = t.ret) (hpc : t'.pc = t.pc ∨ t'.pc = t.pc.wake) :
    t'.emptyHanded = t.emptyHanded := by
  unfold Thread.emptyHanded
  rw [hret]
  rcases hpc with hpc | hpc
  · rw [hpc]
  · rw [hpc]
    cases t.pc <;> simp [Pc.wake]

theorem emptyHanded_next {s : State} {m : ℕ} (h : (s.thread m).emptyHanded = true → (s.thread m).block = none)
    (env : Env) (he : ((next s m env).thread m).emptyHanded = true) : ((next s m env).thread m).block = none := by
  unfold Thread.emptyHanded at h he
  cases hpc : (s.thread m).pc
  case' trigSet todo => cases todo
  case' clearYield todo => cases todo
  case' append saw => cases saw
  case' yieldpoint | parkReset | resumeUnlock => cases hret : (s.thread m).ret
  all_goals
    simp only [hpc, forall_const, decide_eq_true_eq] at h
    simp only [next, hpc] at he ⊢
  all_goals repeat' split
  all_goals
    simp [State.returnBlock, Ret.pc, *] at he ⊢
  all_goals exact h he

theorem emptyHanded_step {s : State} (h : ∀ k, (s.thread k).emptyHanded = true → (s.thread k).block = none) (o : Op) :
    ∀ k, ((step s o).thread k).emptyHanded = true → ((step s o).thread k).block = none := by
  intro k
  cases o with
  | call m c =>
    rw [step]
    rcases eq_or_ne k m with rfl | hk
    · cases c
      all_goals
        simp only [call]
        split
        · simp [Thread.emptyHanded]
        · exact h k
    · rw [call_other hk]
      exact h k
  | next m env =>
    rw [step]
    rcases eq_or_ne k m with rfl | hk
    · exact emptyHanded_next (h k) env
    · obtain ⟨hret, -, -, hblock, -, hpc⟩ := next_other (s := s) hk env
      rw [emptyHanded_congr hret hpc, hblock]
      exact h k

theorem emptyHanded_before (u : Setup) (ops : List Op) (n : ℕ) :
    ∀ k, ((before u ops n).thread k).emptyHanded = true → ((before u ops n).thread k).block = none := by
  apply before_inv_all (P := fun s => ∀ k, (s.thread k).emptyHanded = true → (s.thread k).block = none)
  · intro k _
    by_cases hk : k ∈ u.mutators <;> simp [Setup.init, hk]
  · intro s o h
    exact emptyHanded_step h o

/-! ## Conservation -/

/-- the blocks in `live_blocks` of a sweep -/
def Pc.live : Pc → List ℕ
  | gcSweep live _ => live
  | _ => []

/-- the blocks of space `i` that a mutator holds or has in the hands of its sweep -/
def Thread.carried (i : ℕ) (t : Thread) : Multiset ℕ := if t.space = i then ↑(t.block.toList ++ t.pc.live) else 0

/-- every place a block of space `i` can be in -/
def State.places (s : State) (i : ℕ) : Multiset ℕ :=
  ↑(s.usableBlocks i) + ↑(s.usedBlocks i) + ∑ m ∈ s.mutators.toFinset, (s.thread m).carried i

theorem carried_of_emptyHanded {t : Thread} (hb : t.block = none) (hl : t.pc.live = []) (i : ℕ) : t.carried i = 0 := by
  simp [Thread.carried, hb, hl]

/-- a step that moves blocks between `m` and the queues -/
theorem places_move {s s' : State} {m i : ℕ} (hm : m ∈ s.mutators) (hmut : s'.mutators = s.mutators)
    (hother : ∀ k, k ≠ m → (s'.thread k).carried i = (s.thread k).carried i)
    (hlocal : ↑(s'.usableBlocks i) + ↑(s'.usedBlocks i) + (s'.thread m).carried i =
      (↑(s.usableBlocks i) + ↑(s.usedBlocks i) + (s.thread m).carried i : Multiset ℕ)) : s'.places i = s.places i := by
  have hm' : m ∈ s.mutators.toFinset := List.mem_toFinset.2 hm
  have hrest : ∑ k ∈ s.mutators.toFinset.erase m, (s'.thread k).carried i =
      ∑ k ∈ s.mutators.toFinset.erase m, (s.thread k).carried i :=
    Finset.sum_congr rfl fun k hk => hother k (Finset.ne_of_mem_erase hk)
  unfold State.places
  rw [hmut, ← Finset.add_sum_erase _ _ hm', ← Finset.add_sum_erase _ _ hm', hrest, ← add_assoc, ← add_assoc, hlocal]

/-- a thread without a block comes or goes, or does something else -/
theorem places_same {s s' : State} {m i : ℕ} (hmem : ∀ k, k ≠ m → (k ∈ s'.mutators ↔ k ∈ s.mutators))
    (hother : ∀ k, k ≠ m → (s'.thread k).carried i = (s.thread k).carried i)
    (hold : (s.thread m).carried i = 0) (hnew : (s'.thread m).carried i = 0)
    (hqueues : s'.usableBlocks i = s.usableBlocks i ∧ s'.usedBlocks i = s.usedBlocks i) :
    s'.places i = s.places i := by
  have hsplit : ∀ (S : Finset ℕ) (f : ℕ → Multiset ℕ), f m = 0 → ∑ k ∈ S, f k = ∑ k ∈ S.erase m, f k := by
    intro S f hf
    exact (Finset.sum_erase S hf).symm
  have herase : s'.mutators.toFinset.erase m = s.mutators.toFinset.erase m := by
    ext k
    simp only [Finset.mem_erase, List.mem_toFinset]
    exact and_congr_right fun hk => hmem k hk
  unfold State.places
  rw [hqueues.1, hqueues.2, hsplit _ (fun k => (s.thread k).carried i) hold, hsplit _ (fun k => (s'.thread k).carried i) hnew, herase]
  congr 1
  exact Finset.sum_congr rfl fun k hk => hother k (Finset.ne_of_mem_erase hk)

theorem places_next {s : State} (hb : Base s) (he : ∀ k, (s.thread k).emptyHanded = true → (s.thread k).block = none)
    (m : ℕ) (env : Env) (i : ℕ) : (next s m env).places i = s.places i := by
  have hother : ∀ k, k ≠ m → ((next s m env).thread k).carried i = (s.thread k).carried i := by
    intro k hk
    obtain ⟨-, -, hspace, hblock, -, hpc⟩ := next_other (s := s) hk env
    have hlive : ((next s m env).thread k).pc.live = (s.thread k).pc.live := by
      rcases hpc with hpc | hpc
      · rw [hpc]
      · rw [hpc]
        cases (s.thread k).pc <;> rfl
    simp only [Thread.carried, hspace, hblock, hlive]
  have hm := he m
  have hmem := hb.mem m
  unfold Thread.emptyHanded at hm
  cases hpc : (s.thread m).pc
  case' trigSet todo => cases todo
  case' clearYield todo => cases todo
  case' append saw => cases saw
  case' yieldpoint | parkReset | resumeUnlock => cases hret : (s.thread m).ret
  all_goals
    simp only [hpc, forall_const, decide_eq_true_eq, Pc.registered, iff_true] at hm hmem
  case absent => simp only [next, hpc]
  case newInsert | destroyRemove | destroySub | destroyUnlock =>
    -- the thread holds no block when it enters or leaves MUTATORS
    have hlive : (s.thread m).pc.live = [] := by rw [hpc]; rfl
    apply places_same ?_ hother (carried_of_emptyHanded hm hlive i)
    all_goals simp only [next, hpc]
    all_goals repeat' split
    all_goals simp_all [Thread.carried, Pc.live, insertBySlot, List.mem_orderedInsert, List.mem_erase_of_ne]
  all_goals
    refine places_move hmem ?_ hother ?_
    all_goals simp only [next, hpc]
  case allocSteal.refine_2 =>
    split
    · simp [Thread.carried, Pc.live, hpc]
    · rename_i b rest hq
      rcases eq_or_ne (s.thread m).space i with rfl | hi
      · simp [Thread.carried, Pc.live, hpc, hm, hq]
        rw [add_comm, Multiset.singleton_add, Multiset.cons_coe]
      · simp [Thread.carried, Function.update_of_ne hi.symm, hi]
  case gcSweep.refine_2 live usable =>
    rcases eq_or_ne (s.thread m).space i with rfl | hi
    · cases s.usedBlocks (s.thread m).space with
      | nil => simp only; split <;> simp [Thread.carried, Pc.live, hpc, hm]
      | cons b rest =>
        simp only
        split
        · simp [Thread.carried, Pc.live, hpc, hm]
          exact List.perm_middle.append_left _
        · simp [Thread.carried, Pc.live, hpc, hm]
    · split <;> split <;> simp [Thread.carried, Function.update_of_ne hi.symm, hi]
  all_goals repeat' split
  all_goals try rfl
  all_goals
    rcases eq_or_ne (s.thread m).space i with rfl | hi
    · simp [Thread.carried, State.returnBlock, Pc.live, Ret.pc, *]
    · simp [Thread.carried, State.returnBlock, Function.update_of_ne hi.symm, hi]

theorem places_call {s : State} (he : ∀ k, (s.thread k).emptyHanded = true → (s.thread k).block = none) (m : ℕ) (c : Call)
    (i : ℕ) : (call s m c).places i = s.places i := by
  have hm := he m
  have hcarried : ∀ k, ((call s m c).thread k).carried i = (s.thread k).carried i := by
    intro k
    rcases eq_or_ne k m with rfl | hk
    · cases c
      all_goals
        simp only [call]
        split
        · rename_i hpc
          simp_all [Thread.carried, Thread.emptyHanded, Pc.live]
        · rfl
    · rw [call_other hk]
  have hsame : (call s m c).mutators = s.mutators ∧ (call s m c).usableBlocks = s.usableBlocks ∧
      (call s m c).usedBlocks = s.usedBlocks := by
    cases c <;> simp only [call] <;> split <;> exact ⟨rfl, rfl, rfl⟩
  obtain ⟨h1, h2, h3⟩ := hsame
  unfold State.places
  rw [h1, h2, h3]
  simp only [hcarried]

theorem places_before (u : Setup) (ops : List Op) (n i : ℕ) :
    (before u ops n).places i = Multiset.range (u.spaces i).totalBlocks := by
  have hall : Base (before u ops n) ∧
      (∀ k, ((before u ops n).thread k).emptyHanded = true → ((before u ops n).thread k).block = none) ∧
      (before u ops n).places i = Multiset.range (u.spaces i).totalBlocks := by
    apply before_inv_all (P := fun s => Base s ∧ (∀ k, (s.thread k).emptyHanded = true → (s.thread k).block = none) ∧
      s.places i = Multiset.range (u.spaces i).totalBlocks)
    · refine ⟨base_init u, emptyHanded_before u [] 0, ?_⟩
      have hnone : ∑ m ∈ u.init.mutators.toFinset, (u.init.thread m).carried i = 0 := by
        apply Finset.sum_eq_zero
        intro k _
        apply carried_of_emptyHanded <;> by_cases hk : k ∈ u.mutators <;> simp [Setup.init, hk, Pc.live]
      rw [State.places, hnone]
      simp [Setup.init, Multiset.range]
    · rintro s o ⟨hb, he, hp⟩
      refine ⟨base_step hb o, emptyHanded_step he o, ?_⟩
      cases o with
      | call m c => exact (places_call he m c i).trans hp
      | next m env => exact (places_next hb he m env i).trans hp
  exact hall.2.2

/-- **Block conservation.** Every block of every space is, in every state of every run, in exactly one place: the usable
queue, the used queue, one registered mutator, or one running sweep; a thread that is not registered has none. -/
theorem block_conservation (u : Setup) (ops : List Op) (n i : ℕ) :
    let s := before u ops n
    ↑(s.usableBlocks i) + ↑(s.usedBlocks i) +
        ∑ m ∈ s.mutators.toFinset,
          (if (s.thread m).space = i then ↑((s.thread m).block.toList ++ (s.thread m).pc.live) else 0) =
      Multiset.range (u.spaces i).totalBlocks ∧
    ∀ k, k ∉ s.mutators → (s.thread k).block = none ∧ (s.thread k).pc.live = [] := by
  refine ⟨places_before u ops n i, fun k hk => ?_⟩
  have hb := base_before u ops n
  rw [hb.mem, Bool.not_eq_true] at hk
  have he := emptyHanded_before u ops n k
  unfold Thread.emptyHanded at he
  cases hp : ((before u ops n).thread k).pc <;> simp_all [Pc.registered, Pc.live]

end Immix.Barrier
