/-
What the counters of a sweep add up to (`ImmixSpace::sweep`, its final debug assertion).

A sweep counts the blocks that it takes from the used queue, so `full_blocks + usable_blocks == total_blocks` says
something about where every block of the space was when it began.
- `sweep_accounting`: in every run without a late registration, the assertion holds at the end of every sweep exactly
  when the usable queue was empty at the start of each.
- `request_on_new_space`: a collection requested while blocks are still usable.
-/
import Immix.StopTheWorld

namespace Immix.Barrier

open Immix.Lib

/-- thread `m` begins a sweep at step `i` and is at its end before step `j`, with these full and usable blocks counted -/
structure Sweeps (u : Setup) (ops : List Op) (m i j : ℕ) (live : List ℕ) (usable : ℕ) : Prop where
  lt : i < j
  start : ((before u ops i).thread m).pc = .gcTrace
  during : ∀ k, i < k → k ≤ j → ∃ live usable, ((before u ops k).thread m).pc = .gcSweep live usable
  last : ((before u ops j).thread m).pc = .gcSweep live usable
  drained : (before u ops j).usedBlocks ((before u ops j).thread m).space = []

/-- the assertion `full_blocks + usable_blocks == total_blocks` holds at the end of every sweep -/
def SweepsBalance (u : Setup) (ops : List Op) : Prop :=
  ∀ m i j live usable, Sweeps u ops m i j live usable →
    live.length + usable = (u.spaces ((before u ops j).thread m).space).totalBlocks

/-- while the world is stopped for gc(), every block is in one of the queues until the sweep begins -/
theorem Stopped.all_queued {s : State} {l i : ℕ} (h : Stopped s l) (hp : (s.thread l).pc = .gcTrace)
    (he : ∀ k, (s.thread k).emptyHanded = true → (s.thread k).block = none) {n : ℕ}
    (hplaces : s.places i = Multiset.range n) : (s.usableBlocks i).length + (s.usedBlocks i).length = n := by
  have hnone : ∑ k ∈ s.mutators.toFinset, (s.thread k).carried i = 0 := by
    apply Finset.sum_eq_zero
    intro k hk
    rcases eq_or_ne k l with rfl | hkl
    · exact carried_of_emptyHanded (he k (by simp [Thread.emptyHanded, hp])) (by simp [hp, Pc.live]) i
    · have hpc := h.others k (List.mem_toFinset.1 hk) hkl
      simp only [hp, Pc.others] at hpc
      exact carried_of_emptyHanded (he k (by simp [Thread.emptyHanded, hpc])) (by simp [hpc, Pc.live]) i
  have hcard := congrArg Multiset.card hplaces
  simpa [State.places, hnone] using hcard

section
variable {u : Setup} {ops : List Op} (hops : LegalRun step NoLateNew u.init ops) {m i j : ℕ} {live : List ℕ} {usable : ℕ}
include hops

/-- what a step of the run does while `m` traces or sweeps: it is a step of `m`, or leaves `m` and the queues alone -/
theorem sweep_step {k : ℕ} (hk : ((before u ops k).thread m).pc.stops = true) :
    (∃ env, before u ops (k + 1) = next (before u ops k) m env) ∨
      ((before u ops (k + 1)).usedBlocks = (before u ops k).usedBlocks ∧
        ((before u ops (k + 1)).thread m).space = ((before u ops k).thread m).space ∧
        ((before u ops (k + 1)).thread m).pc = ((before u ops k).thread m).pc) := by
  cases ho : ops[k]? with
  | none =>
    rw [before_succ_none ho]
    exact .inr ⟨rfl, rfl, rfl⟩
  | some o =>
    rw [before_succ ho]
    by_cases hm : ∃ env, o = .next m env
    · obtain ⟨env, rfl⟩ := hm
      exact .inl ⟨env, rfl⟩
    · have hs := (phase_before u hops k).stopped hk
      obtain ⟨-, h2, h3, h4⟩ := hs.step_other (base_before u ops k) fun env he => hm ⟨env, he⟩
      exact .inr ⟨h2, h3, h4⟩

/-- during a sweep its counters and the used queue add up to the used queue it found -/
theorem sweep_counts (h : Sweeps u ops m i j live usable) :
    ((before u ops j).thread m).space = ((before u ops i).thread m).space ∧
      live.length + usable = ((before u ops i).usedBlocks ((before u ops i).thread m).space).length := by
  have hrun : ∀ k, i + 1 ≤ k → k ≤ j → ((before u ops k).thread m).space = ((before u ops i).thread m).space ∧
      ∀ live usable, ((before u ops k).thread m).pc = .gcSweep live usable →
        live.length + usable + ((before u ops k).usedBlocks ((before u ops i).thread m).space).length =
          ((before u ops i).usedBlocks ((before u ops i).thread m).space).length := by
    intro k hk
    induction k, hk using Nat.le_induction with
    | base =>
      intro hij
      obtain ⟨live, usable, hp⟩ := h.during (i + 1) (Nat.lt_succ_self i) hij
      rcases sweep_step hops (m := m) (k := i) (by rw [h.start]; rfl) with ⟨env, he⟩ | ⟨-, -, he⟩
      · rw [he] at hp ⊢
        simp only [next, h.start] at hp ⊢
        -- only a trace that returns goes on to the sweep
        cases ht : env.tracing
        all_goals simp [ht, h.start] at hp ⊢
      · rw [he, h.start] at hp
        cases hp
    | succ k hk ih =>
      intro hkj
      obtain ⟨hspace, hcount⟩ := ih (Nat.le_of_succ_le hkj)
      obtain ⟨live, usable, hp⟩ := h.during k hk (Nat.le_of_succ_le hkj)
      obtain ⟨live', usable', hp'⟩ := h.during (k + 1) (Nat.lt_succ_of_lt hk) hkj
      have hold := hcount live usable hp
      rcases sweep_step hops (m := m) (k := k) (by rw [hp]; rfl) with ⟨env, he⟩ | ⟨h1, h2, h3⟩
      · rw [he] at hp' ⊢
        simp only [next, hp, hspace] at hp' ⊢
        cases hq : (before u ops k).usedBlocks ((before u ops i).thread m).space with
        | nil =>
          -- the loop is left, and with it the sweep
          simp only [hq] at hp'
          split at hp' <;> simp at hp'
        | cons b rest =>
          simp only [hq, List.length_cons] at hold ⊢
          split
          all_goals
            simp [hspace]
            omega
      · rw [h1, h2, h3]
        exact ⟨hspace, hcount⟩
  obtain ⟨hspace, hcount⟩ := hrun j h.lt (le_refl j)
  refine ⟨hspace, ?_⟩
  have hj := hcount live usable h.last
  rw [← hspace, h.drained, List.length_nil, Nat.add_zero, hspace] at hj
  exact hj

/-- **Sweep accounting.** The counters of every sweep add up to the number of blocks exactly when every sweep found the
usable queue empty. -/
theorem sweep_accounting :
    SweepsBalance u ops ↔ ∀ m i j live usable, Sweeps u ops m i j live usable →
      (before u ops i).usableBlocks ((before u ops i).thread m).space = [] := by
  have hiff : ∀ m i j live usable, Sweeps u ops m i j live usable →
      (live.length + usable = (u.spaces ((before u ops j).thread m).space).totalBlocks ↔
        (before u ops i).usableBlocks ((before u ops i).thread m).space = []) := by
    intro m i j live usable h
    obtain ⟨hspace, hcount⟩ := sweep_counts hops h
    have hs : Stopped (before u ops i) m := (phase_before u hops i).stopped (by rw [h.start]; rfl)
    have hall := hs.all_queued h.start (emptyHanded_before u ops i)
      (places_before u ops i ((before u ops i).thread m).space)
    rw [hspace, hcount, ← List.length_eq_zero_iff]
    omega
  constructor
  · intro h m i j live usable hsw
    exact (hiff m i j live usable hsw).1 (h m i j live usable hsw)
  · intro h m i j live usable hsw
    exact (hiff m i j live usable hsw).2 (h m i j live usable hsw)

end

/-- mutator 0 takes the only block and asks for another one, which starts a collection -/
def exhaust : List Op := .call 0 .alloc :: steps 0 3 ++ .call 0 .alloc :: steps 0 17

theorem sweep_accounting_exhaust :
    Sweeps soleMutator exhaust 0 20 22 [] 1 ∧ (SweepsBalance soleMutator exhaust ↔
      ∀ m i j live usable, Sweeps soleMutator exhaust m i j live usable →
        (before soleMutator exhaust i).usableBlocks ((before soleMutator exhaust i).thread m).space = []) := by
  have hrun : ((before soleMutator exhaust 20).thread 0).pc = .gcTrace ∧
      ((before soleMutator exhaust 21).thread 0).pc = .gcSweep [] 0 ∧
      ((before soleMutator exhaust 22).thread 0).pc = .gcSweep [] 1 ∧
      (before soleMutator exhaust 22).usedBlocks ((before soleMutator exhaust 22).thread 0).space = [] := by
    decide +kernel
  refine ⟨⟨by norm_num, hrun.1, fun k h1 h2 => ?_, hrun.2.2.1, hrun.2.2.2⟩, sweep_accounting (by decide +kernel)⟩
  interval_cases k
  · exact ⟨[], 0, hrun.2.1⟩
  · exact ⟨[], 1, hrun.2.2.1⟩

/-- a collection requested on a new space, with its only block in the usable queue -/
def requestNew : List Op := .call 0 .requestGc :: steps 0 13

/-- **A sweep that finds a usable block.** -/
theorem request_on_new_space : ¬ SweepsBalance soleMutator requestNew := by
  intro h
  have hrun : ((before soleMutator requestNew 13).thread 0).pc = .gcTrace ∧
      ((before soleMutator requestNew 14).thread 0).pc = .gcSweep [] 0 ∧
      (before soleMutator requestNew 14).usedBlocks ((before soleMutator requestNew 14).thread 0).space = [] := by
    decide +kernel
  have hbalance := h 0 13 14 [] 0 ⟨by norm_num, hrun.1, fun k h1 h2 => ?_, hrun.2.1, hrun.2.2⟩
  · rw [totalBlocks_eq] at hbalance
    simp [soleMutator, Space.oneBlock] at hbalance
  · obtain rfl : k = 14 := by omega
    exact ⟨[], 0, hrun.2.1⟩

end Immix.Barrier
