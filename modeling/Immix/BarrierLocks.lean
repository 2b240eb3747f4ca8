/-
The locks of the barrier, and what MUTATORS and N_MUTATORS say of the threads.

- `Base`: each of the three locks is held by the thread whose program point says so; MUTATORS lists each registered
  mutator once, no two in one slot; N_MUTATORS is its length, up to the registration or the removal under way.
- `base_before`: it holds in every state of every run, with mutators coming and going and gc() panicking.
-/
import Immix.Barrier
import Immix.Lib.Lock

namespace Immix.Barrier

open Immix.Lib

/-! ## Program points -/

namespace Pc

/-- a mutator at this point is in MUTATORS -/
def registered : Pc → Bool
  | absent | newInsert | destroySub | destroyUnlock => false
  | _ => true

def holdsMutators : Pc → Bool
  | newAdd | newUnlock | trigSet _ | destroySub | destroyUnlock | clearYield _ | clearBlocked _ _ => true
  | _ => false

def holdsStw : Pc → Bool
  | parkFlag | parkLoop | resumeNotify | resumeUnlock => true
  | _ => false

def holdsRoots : Pc → Bool
  | gcDrain | gcTrace | gcSweep _ _ | gcFlip => true
  | _ => false

/-- in MUTATORS and not yet in N_MUTATORS -/
def uncounted : Pc → ℕ
  | newAdd => 1
  | _ => 0

/-- out of MUTATORS and still in N_MUTATORS -/
def removed : Pc → ℕ
  | destroySub => 1
  | _ => 0

/-- what `notifyAll` does to a program point is invisible to the locks and to MUTATORS -/
theorem wake_same (pc : Pc) : pc.wake.registered = pc.registered ∧ pc.wake.holdsMutators = pc.holdsMutators ∧
    pc.wake.holdsStw = pc.holdsStw ∧ pc.wake.holdsRoots = pc.holdsRoots ∧ pc.wake.uncounted = pc.uncounted ∧
    pc.wake.removed = pc.removed := by
  cases pc <;> simp [wake, registered, holdsMutators, holdsStw, holdsRoots, uncounted, removed]

end Pc

/-! ## The invariant -/

namespace State

variable (s : State)

/-- the program point of the holder of MUTATORS; a free lock counts as held by a thread in its client's code -/
def holderPc : Pc :=
  match s.mutatorsLock with
  | none => .idle
  | some m => (s.thread m).pc

end State

structure Base (s : State) : Prop where
  mutatorsLock : Guards s.mutatorsLock fun k => (s.thread k).pc.holdsMutators
  stwLock : Guards s.stwLock fun k => (s.thread k).pc.holdsStw
  rootsLock : Guards s.rootsLock fun k => (s.thread k).pc.holdsRoots
  nodup : s.mutators.Nodup
  mem : ∀ k, k ∈ s.mutators ↔ (s.thread k).pc.registered = true
  slot_inj : ∀ a ∈ s.mutators, ∀ b ∈ s.mutators, (s.thread a).slot = (s.thread b).slot → a = b
  size : s.nMutators + s.holderPc.uncounted = s.mutators.length + s.holderPc.removed

theorem base_init (u : Setup) : Base u.init where
  mutatorsLock k := by
    by_cases hk : k ∈ u.mutators <;> simp [Setup.init, hk, Pc.holdsMutators]
  stwLock k := by
    by_cases hk : k ∈ u.mutators <;> simp [Setup.init, hk, Pc.holdsStw]
  rootsLock k := by
    by_cases hk : k ∈ u.mutators <;> simp [Setup.init, hk, Pc.holdsRoots]
  nodup := u.nodup
  mem k := by
    by_cases hk : k ∈ u.mutators <;> simp [Setup.init, hk, Pc.registered]
  slot_inj a ha b hb hab := by
    have ha' : a ∈ u.mutators := ha
    have hb' : b ∈ u.mutators := hb
    simp only [Setup.init, ha', hb', if_true] at hab
    exact u.slot_inj a ha' b hb' hab
  size := rfl

/-- what `Base` reads of a state -/
theorem Base.congr {s s' : State} (h : Base s) (h1 : s'.mutatorsLock = s.mutatorsLock) (h2 : s'.stwLock = s.stwLock)
    (h3 : s'.rootsLock = s.rootsLock) (h4 : s'.mutators = s.mutators) (h5 : s'.nMutators = s.nMutators)
    (hslot : ∀ k, (s'.thread k).slot = (s.thread k).slot)
    (hpc : ∀ k, (s'.thread k).pc = (s.thread k).pc ∨ (s'.thread k).pc = (s.thread k).pc.wake) : Base s' := by
  have hsame : ∀ k, (s'.thread k).pc.registered = (s.thread k).pc.registered ∧
      (s'.thread k).pc.holdsMutators = (s.thread k).pc.holdsMutators ∧
      (s'.thread k).pc.holdsStw = (s.thread k).pc.holdsStw ∧
      (s'.thread k).pc.holdsRoots = (s.thread k).pc.holdsRoots ∧
      (s'.thread k).pc.uncounted = (s.thread k).pc.uncounted ∧
      (s'.thread k).pc.removed = (s.thread k).pc.removed := by
    intro k
    rcases hpc k with h | h
    · simp [h]
    · rw [h]
      exact Pc.wake_same _
  have hholder : s'.holderPc.uncounted = s.holderPc.uncounted ∧ s'.holderPc.removed = s.holderPc.removed := by
    unfold State.holderPc
    rw [h1]
    cases s.mutatorsLock with
    | none => exact ⟨rfl, rfl⟩
    | some m => exact (hsame m).2.2.2.2
  exact {
    mutatorsLock := by
      rw [h1]
      exact h.mutatorsLock.congr fun k => (hsame k).2.1
    stwLock := by
      rw [h2]
      exact h.stwLock.congr fun k => (hsame k).2.2.1
    rootsLock := by
      rw [h3]
      exact h.rootsLock.congr fun k => (hsame k).2.2.2.1
    nodup := by
      rw [h4]
      exact h.nodup
    mem := by
      intro k
      rw [h4, (hsame k).1]
      exact h.mem k
    slot_inj := by
      simp only [h4, hslot]
      exact h.slot_inj
    size := by
      rw [h4, h5, hholder.1, hholder.2]
      exact h.size }

section
variable {s s' : State} (m : ℕ) (h : Base s) (hpc : ∀ j, j ≠ m → (s'.thread j).pc = (s.thread j).pc)
include h hpc

variable (s') in
/-- the locks after a step that passes them as the program points of `m` say -/
theorem Base.locks
    (h1 : Passes s.mutatorsLock s'.mutatorsLock m (s.thread m).pc.holdsMutators (s'.thread m).pc.holdsMutators)
    (h2 : Passes s.stwLock s'.stwLock m (s.thread m).pc.holdsStw (s'.thread m).pc.holdsStw)
    (h3 : Passes s.rootsLock s'.rootsLock m (s.thread m).pc.holdsRoots (s'.thread m).pc.holdsRoots) :
    Guards s'.mutatorsLock (fun k => (s'.thread k).pc.holdsMutators) ∧
      Guards s'.stwLock (fun k => (s'.thread k).pc.holdsStw) ∧
      Guards s'.rootsLock (fun k => (s'.thread k).pc.holdsRoots) := by
  have hupd : ∀ f : Pc → Bool, ∀ k,
      f (s'.thread k).pc = Function.update (fun k => f (s.thread k).pc) m (f (s'.thread m).pc) k := by
    intro f k
    rcases eq_or_ne k m with rfl | hk
    · simp
    · simp [hk, hpc k hk]
  exact ⟨(h.mutatorsLock.step h1).congr (hupd _), (h.stwLock.step h2).congr (hupd _),
    (h.rootsLock.step h3).congr (hupd _)⟩

/-- a step of `m` between points at which N_MUTATORS is up to date leaves what the holder still owes it -/
theorem Base.holder
    (h1 : Passes s.mutatorsLock s'.mutatorsLock m (s.thread m).pc.holdsMutators (s'.thread m).pc.holdsMutators)
    {f : Pc → ℕ} (hidle : f .idle = 0) (hold : f (s.thread m).pc = 0) (hnew : f (s'.thread m).pc = 0) :
    f s'.holderPc = f s.holderPc := by
  unfold State.holderPc
  rcases h1 with ⟨h1, -⟩ | ⟨h1, h2, -⟩ | ⟨h1, h2, -⟩
  · rw [h1]
    cases s.mutatorsLock with
    | none => rfl
    | some k =>
      rcases eq_or_ne k m with rfl | hk
      · simp [hold, hnew]
      · simp [hpc k hk]
  · simp [h1, h2, hidle, hnew]
  · have hlock := (h.mutatorsLock m).2 h2
    simp [h1, hlock, hidle, hold]

/-- **A step that changes neither MUTATORS nor N_MUTATORS.** -/
theorem Base.move (hslot : ∀ j ∈ s.mutators, (s'.thread j).slot = (s.thread j).slot)
    (hmem : s'.mutators = s.mutators) (hn : s'.nMutators = s.nMutators)
    (hreg : (s'.thread m).pc.registered = (s.thread m).pc.registered)
    (hu : (s.thread m).pc.uncounted = 0 ∧ (s'.thread m).pc.uncounted = 0)
    (hr : (s.thread m).pc.removed = 0 ∧ (s'.thread m).pc.removed = 0)
    (h1 : Passes s.mutatorsLock s'.mutatorsLock m (s.thread m).pc.holdsMutators (s'.thread m).pc.holdsMutators)
    (h2 : Passes s.stwLock s'.stwLock m (s.thread m).pc.holdsStw (s'.thread m).pc.holdsStw)
    (h3 : Passes s.rootsLock s'.rootsLock m (s.thread m).pc.holdsRoots (s'.thread m).pc.holdsRoots) : Base s' := by
  obtain ⟨g1, g2, g3⟩ := h.locks s' m hpc h1 h2 h3
  have hreg' : ∀ k, (s'.thread k).pc.registered = (s.thread k).pc.registered := by
    intro k
    rcases eq_or_ne k m with rfl | hk
    · exact hreg
    · rw [hpc k hk]
  exact {
    mutatorsLock := g1
    stwLock := g2
    rootsLock := g3
    nodup := by
      rw [hmem]
      exact h.nodup
    mem := by
      intro k
      rw [hmem, hreg']
      exact h.mem k
    slot_inj := by
      rw [hmem]
      intro a ha b hb hab
      rw [hslot a ha, hslot b hb] at hab
      exact h.slot_inj a ha b hb hab
    size := by
      rw [hmem, hn, h.holder m hpc h1 rfl hu.1 hu.2, h.holder m hpc h1 rfl hr.1 hr.2]
      exact h.size }

end

/-! ## Every step keeps it -/

theorem base_call {s : State} (h : Base s) (m : ℕ) (c : Call) : Base (call s m c) := by
  cases c
  case new i =>
    simp only [call]
    split
    · rename_i hpc
      have hm : m ∉ s.mutators := by
        rw [h.mem, hpc]
        simp [Pc.registered]
      refine h.move m (fun j hj => by simp [Threads.set_of_ne, hj]) (fun j hj => ?_) rfl rfl ?_ ?_ ?_ ?_ ?_ ?_
      · have hjm : j ≠ m := by
          rintro rfl
          exact hm hj
        simp [Threads.set_of_ne, hjm]
      all_goals
        simp [hpc, Pc.registered, Pc.uncounted, Pc.removed, Pc.holdsMutators, Pc.holdsStw, Pc.holdsRoots, Passes]
    · exact h
  all_goals
    simp only [call]
    split
    · rename_i hpc
      refine h.move m (fun j hj => by simp [Threads.set_of_ne, hj]) (fun j hj => ?_) rfl rfl ?_ ?_ ?_ ?_ ?_ ?_
      · rcases eq_or_ne j m with rfl | hj
        · simp
        · simp [Threads.set_of_ne, hj]
      all_goals
        simp [hpc, Pc.registered, Pc.uncounted, Pc.removed, Pc.holdsMutators, Pc.holdsStw, Pc.holdsRoots, Passes]
    · exact h

/-- the arena's next mutator -/
theorem base_newInsert {s s' : State} {m : ℕ} (h : Base s) (hpc : (s.thread m).pc = .newInsert)
    (hlock : s.mutatorsLock = none) (hslot : ∀ k ∈ s.mutators, (s.thread k).slot ≠ (s'.thread m).slot)
    (hother : ∀ j, j ≠ m → s'.thread j = s.thread j) (hm : (s'.thread m).pc = .newAdd)
    (hlock' : s'.mutatorsLock = some m) (hstw : s'.stwLock = s.stwLock) (hroots : s'.rootsLock = s.rootsLock)
    (hmem : s'.mutators.Perm (m :: s.mutators)) (hn : s'.nMutators = s.nMutators) : Base s' := by
  have hnot : m ∉ s.mutators := by
    rw [h.mem, hpc]
    simp [Pc.registered]
  obtain ⟨g1, g2, g3⟩ := h.locks s' m (fun j hj => by rw [hother j hj])
    (by simp [hpc, hm, hlock, hlock', Pc.holdsMutators, Passes])
    (by simp [hpc, hm, hstw, Pc.holdsStw, Passes]) (by simp [hpc, hm, hroots, Pc.holdsRoots, Passes])
  have hne : ∀ j ∈ s.mutators, j ≠ m := by
    rintro j hj rfl
    exact hnot hj
  refine ⟨g1, g2, g3, ?_, fun k => ?_, ?_, ?_⟩
  · rw [hmem.nodup_iff]
    exact List.nodup_cons.2 ⟨hnot, h.nodup⟩
  · rw [hmem.mem_iff, List.mem_cons, h.mem]
    rcases eq_or_ne k m with rfl | hk
    · simp [hm, Pc.registered]
    · simp [hk, hother k hk]
  · intro a ha b hb hab
    rw [hmem.mem_iff, List.mem_cons] at ha hb
    rcases ha with rfl | ha <;> rcases hb with rfl | hb
    · rfl
    · rw [hother b (hne b hb)] at hab
      exact absurd hab.symm (hslot b hb)
    · rw [hother a (hne a ha)] at hab
      exact absurd hab (hslot a ha)
    · rw [hother a (hne a ha), hother b (hne b hb)] at hab
      exact h.slot_inj a ha b hb hab
  · have hsize := h.size
    simp only [State.holderPc, hlock, Pc.uncounted, Pc.removed] at hsize
    simp only [State.holderPc, hlock', hm, hn, hmem.length_eq, List.length_cons, Pc.uncounted, Pc.removed]
    omega

/-- a step of the holder of MUTATORS that brings N_MUTATORS up to date -/
theorem base_count {s : State} {m n : ℕ} (pc : Pc) (h : Base s) (hlock : s.mutatorsLock = some m)
    (hpc : (s.thread m).pc.registered = pc.registered ∧ (s.thread m).pc.holdsMutators = pc.holdsMutators ∧
      (s.thread m).pc.holdsStw = pc.holdsStw ∧ (s.thread m).pc.holdsRoots = pc.holdsRoots)
    (hn : n + pc.uncounted = s.mutators.length + pc.removed) :
    Base { s with nMutators := n, thread := s.thread.goto m pc } := by
  obtain ⟨h1, h2, h3, h4⟩ := hpc
  obtain ⟨g1, g2, g3⟩ := h.locks { s with nMutators := n, thread := s.thread.goto m pc } m
    (fun j hj => by simp [hj]) (by simp [Passes, h2]) (by simp [Passes, h3]) (by simp [Passes, h4])
  refine ⟨g1, g2, g3, h.nodup, fun k => ?_, ?_, ?_⟩
  · rcases eq_or_ne k m with rfl | hk
    · simpa [h1] using h.mem k
    · simpa [hk] using h.mem k
  · simpa using h.slot_inj
  · simpa [State.holderPc, hlock] using hn

theorem base_destroyRemove {s : State} {m : ℕ} (h : Base s) (hpc : (s.thread m).pc = .destroyRemove)
    (hlock : s.mutatorsLock = none) :
    Base { s with mutatorsLock := some m, mutators := s.mutators.erase m, thread := s.thread.goto m .destroySub } := by
  have hm : m ∈ s.mutators := by
    rw [h.mem, hpc]
    rfl
  obtain ⟨g1, g2, g3⟩ := h.locks
    { s with mutatorsLock := some m, mutators := s.mutators.erase m, thread := s.thread.goto m .destroySub } m
    (fun j hj => by simp [hj]) (by simp [hpc, hlock, Pc.holdsMutators, Passes])
    (by simp [hpc, Pc.holdsStw, Passes]) (by simp [hpc, Pc.holdsRoots, Passes])
  refine ⟨g1, g2, g3, h.nodup.erase m, fun k => ?_, ?_, ?_⟩
  · simp only [h.nodup.mem_erase_iff, h.mem]
    rcases eq_or_ne k m with rfl | hk
    · simp [Pc.registered]
    · simp [hk]
  · intro a ha b hb hab
    simp only [Threads.goto_apply] at hab
    exact h.slot_inj a (List.mem_of_mem_erase ha) b (List.mem_of_mem_erase hb) hab
  · have hsize := h.size
    have hpos : 0 < s.mutators.length := List.length_pos_of_mem hm
    simp only [State.holderPc, hlock, Pc.uncounted, Pc.removed] at hsize
    simp [State.holderPc, List.length_erase_of_mem hm, Pc.uncounted, Pc.removed]
    omega

theorem base_next {s : State} (h : Base s) (m : ℕ) (env : Env) : Base (next s m env) := by
  have hlock := h.mutatorsLock m
  have hstw := h.stwLock m
  have hroots := h.rootsLock m
  have hsize := h.size
  cases hpc : (s.thread m).pc
  case' trigSet todo => cases todo
  case' clearYield todo => cases todo
  case' append saw => cases saw
  case' yieldpoint | parkReset | resumeUnlock => cases hret : (s.thread m).ret
  all_goals
    simp only [hpc, Pc.holdsMutators, Pc.holdsStw, Pc.holdsRoots] at hlock hstw hroots
    simp only [next, hpc]
  case newInsert =>
    split
    · rename_i hfree
      refine base_newInsert h hpc hfree.1 (m := m) ?_ (fun j hj => ?_) ?_ rfl rfl rfl ?_ rfl
      · simpa using hfree.2
      · simp [Threads.set_of_ne, hj]
      · simp
      · exact List.perm_orderedInsert _ _ _
    · exact h
  case newAdd =>
    simp only [State.holderPc, hlock.2, hpc, Pc.uncounted, Pc.removed] at hsize
    exact base_count .newUnlock h (hlock.2 trivial) (by simp [hpc, Pc.registered, Pc.holdsMutators, Pc.holdsStw, Pc.holdsRoots])
      hsize
  case destroyRemove =>
    split
    · exact base_destroyRemove h hpc ‹_›
    · exact h
  case destroySub =>
    simp only [State.holderPc, hlock.2, hpc, Pc.uncounted, Pc.removed] at hsize
    exact base_count .destroyUnlock h (hlock.2 trivial)
      (by simp [hpc, Pc.registered, Pc.holdsMutators, Pc.holdsStw, Pc.holdsRoots])
      (by simp only [Pc.uncounted, Pc.removed]; omega)
  case resumeNotify =>
    have hwake : Base { s with thread := s.thread.notifyAll } :=
      h.congr rfl rfl rfl rfl rfl (fun _ => rfl) fun _ => .inr rfl
    refine hwake.move m (fun j hj => by simp [hj]) (fun j _ => by simp) rfl rfl ?_ ?_ ?_ ?_ ?_ ?_
    all_goals
      simp [Pc.wake, Pc.registered, Pc.uncounted, Pc.removed, Pc.holdsMutators, Pc.holdsStw, Pc.holdsRoots, Passes, *]
  -- the other points change neither MUTATORS nor its count
  all_goals repeat' split
  all_goals try exact h
  all_goals
    refine h.move m (fun j hj => ?_) (fun j _ => ?_) rfl rfl ?_ ?_ ?_ ?_ ?_ ?_
    case refine_2 => rcases eq_or_ne j m with rfl | hj <;> simp [Threads.set_of_ne, State.returnBlock, *]
    all_goals
      simp [Threads.set_of_ne, State.returnBlock, Pc.registered, Pc.uncounted, Pc.removed, Pc.holdsMutators,
        Pc.holdsStw, Pc.holdsRoots, Passes, Ret.pc, *]

theorem base_step {s : State} (h : Base s) (o : Op) : Base (step s o) := by
  cases o with
  | call m c => exact base_call h m c
  | next m env => exact base_next h m env

theorem base_before (u : Setup) (ops : List Op) (k : ℕ) : Base (before u ops k) :=
  before_inv_all u ops (base_init u) (fun _ o h => base_step h o) k

end Immix.Barrier
