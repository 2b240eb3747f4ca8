/-
What the barrier guarantees while gc() runs and after it.

- `stop_the_world`: while a thread is in gc(), every other registered mutator sleeps in `block_current_thread`, holds no
  block, and has its stack scan in ROOTS, or in what `start_trace` drained from it. It holds in the runs whose steps
  register nobody behind the controller's back; `late_registration` is a run with such a step.
- `none_stranded`: when nobody acts as controller, nobody is parked, in the same runs, as long as gc() does not panic,
  neither in `start_trace` nor at the end of the sweep; `stranded` is a run in which a mutator registered during gc()
  parks on the cycle that is over.
-/
import Immix.BarrierBlocks
import Immix.Handshake

namespace Immix.Barrier

open Immix.Lib

/-! ## While gc() runs -/

/-- whenever a thread is in gc(), every other registered mutator is parked, holds no block and has handed over its roots -/
def WorldStopped (s : State) : Prop :=
  ∀ l, (s.thread l).pc.inGc = true → ∀ k ∈ s.mutators, k ≠ l →
    (s.thread k).pc = .asleep ∧ (s.thread k).stillBlocked = true ∧ (s.thread k).block = none ∧
      (k, (s.thread k).threadRoots) ∈ if (s.thread l).pc.undrained then s.roots else s.drained

theorem Stopped.worldStopped {s : State} {l : ℕ} (h : Stopped s l)
    (he : ∀ k, (s.thread k).emptyHanded = true → (s.thread k).block = none) (hgc : (s.thread l).pc.inGc = true) {k : ℕ}
    (hk : k ∈ s.mutators) (hkl : k ≠ l) :
    (s.thread k).pc = .asleep ∧ (s.thread k).stillBlocked = true ∧ (s.thread k).block = none ∧
      (k, (s.thread k).threadRoots) ∈ if (s.thread l).pc.undrained then s.roots else s.drained := by
  have hpc := h.others k hk hkl
  have hblocked := h.blocked k hk hkl
  have hroots := h.roots
  have hdrained := h.drained
  cases hp : (s.thread l).pc
  all_goals
    simp only [hp, Pc.inGc, Bool.false_eq_true] at hgc
  all_goals
    simp only [hp, Pc.others, Pc.cleared, forall_const] at hpc hblocked
    refine ⟨hpc, hblocked, he k (by simp [Thread.emptyHanded, hpc]), ?_⟩
    simp only [hp, Pc.undrained, Pc.traces, if_true, Bool.false_eq_true, if_false, forall_const] at hroots hdrained ⊢
  case gcStart | gcLockRoots | gcDrain => exact (hroots.2 _).2 ⟨hk, rfl⟩
  all_goals exact (hdrained.2 _).2 ⟨hk, rfl⟩

/-- a thread in gc() is the controller of a stopped world -/
theorem Phase.stopped {s : State} (h : Phase s) {l : ℕ} (hl : (s.thread l).pc.stops = true) : Stopped s l := by
  have hleads : (s.thread l).pc.leads = true := by rw [Pc.leads, hl, Bool.or_true]
  have hcalm : ¬ (s.thread l).Calm := fun hc => by
    rw [hc.not_leads] at hleads
    cases hleads
  have hjoin : ∀ c, ¬ (s.thread l).Joining c := fun c hj => by
    rw [hj.not_leads] at hleads
    cases hleads
  rcases h with h | ⟨l', h⟩ | ⟨l', h⟩ | ⟨l', h⟩
  · exact absurd (h.calm l) hcalm
  · rcases eq_or_ne l l' with rfl | hne
    · have hg := h.lead
      cases hp : (s.thread l).pc <;> simp_all [Pc.gathers, Pc.stops]
    · rcases h.others l hne with hc | hj
      · exact absurd hc hcalm
      · exact absurd hj (hjoin _)
  · rcases eq_or_ne l l' with rfl | hne
    · exact h
    · by_cases hm : l ∈ s.mutators
      · have ho := h.others l hm hne
        have hl' := h.lead
        rw [ho] at hl
        cases hp : (s.thread l').pc <;> simp_all [Pc.others, Pc.stops]
      · exact absurd (h.away l hm) hcalm
  · rcases eq_or_ne l l' with rfl | hne
    · rw [h.lead] at hl
      cases hl
    · rcases h.others l hne with hc | hj
      · exact absurd hc hcalm
      · exact absurd hj (hjoin _)

/-- while the world is stopped, a step of another thread leaves the queues and the controller as they are -/
theorem Stopped.step_other {s : State} {l : ℕ} (hb : Base s) (h : Stopped s l) {o : Op} (ho : ∀ env, o ≠ .next l env) :
    (step s o).usableBlocks = s.usableBlocks ∧ (step s o).usedBlocks = s.usedBlocks ∧
      ((step s o).thread l).space = (s.thread l).space ∧ ((step s o).thread l).pc = (s.thread l).pc := by
  cases o with
  | call m c =>
    rw [step]
    by_cases hm : m ∈ s.mutators
    · obtain ⟨hidle, habsent⟩ := h.inside hm
      rw [call_eq_self hidle habsent]
      exact ⟨rfl, rfl, rfl, rfl⟩
    · have hne : l ≠ m := by
        rintro rfl
        exact hm (h.lead_mem hb)
      rw [call_other hne]
      refine ⟨?_, ?_, rfl, rfl⟩ <;> cases c <;> simp only [call] <;> split <;> rfl
  | next m env =>
    rw [step]
    have hne : l ≠ m := by
      rintro rfl
      exact ho env rfl
    by_cases hm : m ∈ s.mutators
    · rw [h.next_eq_self hb hm hne.symm]
      exact ⟨rfl, rfl, rfl, rfl⟩
    · have hreg : (s.thread m).pc.registered ≠ true := fun hr => hm ((hb.mem m).2 hr)
      cases hp : (s.thread m).pc
      case absent | newInsert | destroySub | destroyUnlock =>
        simp only [next, hp]
        first
          | split <;> simp [Threads.set_of_ne, hne]
          | simp [hne]
      all_goals
        rw [hp] at hreg
        exact absurd rfl hreg

/-- **Stop the world.** -/
theorem stop_the_world (u : Setup) (ops : List Op) (hops : LegalRun step NoLateNew u.init ops) (n : ℕ) :
    WorldStopped (before u ops n) := by
  intro l hl k hk hkl
  have hstops : ((before u ops n).thread l).pc.stops = true := by
    cases hp : ((before u ops n).thread l).pc <;> simp_all [Pc.inGc, Pc.stops]
  exact ((phase_before u hops n).stopped hstops).worldStopped (emptyHanded_before u ops n) hl hk hkl

/-! ## Runs -/

/-- `n` steps of mutator `m` -/
def steps (m n : ℕ) : List Op := List.replicate n (.next m {})

/-- mutator 0 is registered, for a space of one block -/
def soleMutator : Setup where
  spaces := fun _ => Space.oneBlock
  mutators := [0]
  slot := id
  space := fun _ => 0
  debugAssertions := false
  nodup := by simp
  slot_inj := by simp

/-- `ImmixMutatorLocal::new` for mutator `m`, in the arena's slot `m` -/
def register (m : ℕ) : List Op := .call m (.new 0) :: .next m { slot := m } :: steps m 2

/-- mutator 1 is registered, mutator 0 requests a collection, mutator 1 parks, gc() begins to trace -/
def twoMutators : List Op :=
  register 1 ++ .call 0 .requestGc :: steps 0 9 ++ .call 1 .yieldpoint :: steps 1 9 ++ steps 0 6

theorem stop_the_world_twoMutators :
    ((before soleMutator twoMutators 30).thread 0).pc = .gcTrace ∧ (before soleMutator twoMutators 30).mutators = [0, 1] ∧
      WorldStopped (before soleMutator twoMutators 30) :=
  ⟨by decide +kernel, by decide +kernel, stop_the_world soleMutator twoMutators (by decide +kernel) 30⟩

/-- mutator 0 requests a collection and leaves its loop as the only mutator; mutator 1 is registered during gc() -/
def lateNew : List Op := .call 0 .requestGc :: steps 0 10 ++ register 1

/-- **A mutator registered during gc() runs.** -/
theorem late_registration : ¬ WorldStopped (before soleMutator lateNew 15) := by
  intro h
  have hrun : ((before soleMutator lateNew 15).thread 0).pc.inGc = true ∧ 1 ∈ (before soleMutator lateNew 15).mutators ∧
      ((before soleMutator lateNew 15).thread 1).pc = .idle := by
    decide +kernel
  have h1 := (h 0 hrun.1 1 hrun.2.1 (by decide)).1
  rw [hrun.2.2] at h1
  cases h1

/-! ## After gc() -/

theorem Base.mem_of_leads {s : State} (hb : Base s) {l : ℕ} (hl : (s.thread l).pc.leads = true) : l ∈ s.mutators := by
  rw [hb.mem]
  cases hp : (s.thread l).pc <;> simp_all [Pc.leads, Pc.gathers, Pc.stops, Pc.registered]

/-- when nobody acts as controller, nobody waits in `block_current_thread` -/
def NoneStranded (s : State) : Prop :=
  (∀ l, (s.thread l).pc.leads = false) → ∀ k, (s.thread k).pc = .parkLoop ∨ (s.thread k).pc = .asleep →
    (s.thread k).stillBlocked = false

/-- gc() does not panic in the step: neither in `start_trace` nor at the end of the sweep -/
def NoGcPanic (s : State) : Op → Prop
  | .call _ _ => True
  | .next m env =>
    match (s.thread m).pc with
    | .gcTrace => env.tracing ≠ .panics
    | .gcSweep live usable =>
      s.usedBlocks (s.thread m).space = [] → s.sweepPanics (s.thread m).space live.length usable = false
    | _ => True

instance (s : State) : (o : Op) → Decidable (NoGcPanic s o)
  | .call _ _ => isTrue trivial
  | .next m env => by
    unfold NoGcPanic
    simp only
    split <;> infer_instance

theorem not_panicked_step {s : State} (h : ∀ k, (s.thread k).pc ≠ .gcPanicked) {o : Op} (ho : NoGcPanic s o) :
    ∀ k, ((step s o).thread k).pc ≠ .gcPanicked := by
  intro k
  cases o with
  | call m c =>
    rw [step]
    rcases eq_or_ne k m with rfl | hk
    · cases c <;> simp only [call] <;> split <;> simp [h k]
    · rw [call_other hk]
      exact h k
  | next m env =>
    rw [step]
    rcases eq_or_ne k m with rfl | hk
    · have hm := h k
      unfold NoGcPanic at ho
      cases hpc : (s.thread k).pc
      case' trigSet todo => cases todo
      case' clearYield todo => cases todo
      case' append saw => cases saw
      case' yieldpoint | parkReset | resumeUnlock => cases hret : (s.thread k).ret
      all_goals
        simp only [hpc] at ho hm
        simp only [next, hpc]
      all_goals repeat' split
      all_goals simp_all [State.returnBlock, Ret.pc]
    · obtain ⟨-, -, -, -, -, hpc⟩ := next_other (s := s) hk env
      intro hp
      rcases hpc with hpc | hpc
      · exact h k (hpc.symm.trans hp)
      · rw [hpc] at hp
        cases hq : (s.thread k).pc <;> simp_all [Pc.wake]

/-- **Nobody is left parked.** -/
theorem none_stranded (u : Setup) (ops : List Op)
    (hops : LegalRun step (fun s o => NoLateNew s o ∧ NoGcPanic s o) u.init ops) (n : ℕ) :
    NoneStranded (before u ops n) := by
  have hphase := phase_before u (fun k o hk => (hops k o hk).1) n
  have hpanic : ∀ k, ((before u ops n).thread k).pc ≠ .gcPanicked := by
    refine before_inv (P := fun s => ∀ k, (s.thread k).pc ≠ .gcPanicked) u ?_
      (fun s o hso h => not_panicked_step h hso.2) hops n
    intro k
    by_cases hk : k ∈ u.mutators <;> simp [Setup.init, hk]
  intro hnone k _
  rcases hphase with h | ⟨l, h⟩ | ⟨l, h⟩ | ⟨l, h⟩
  · exact (h.calm k).2
  · have hl := hnone l
    rw [Pc.leads, h.lead, Bool.true_or] at hl
    cases hl
  · have hl := hnone l
    rw [Pc.leads, h.lead, Bool.or_true] at hl
    cases hl
  · exact absurd h.lead (hpanic l)

/-- as in `twoMutators`, to the end of the cycle -/
theorem none_stranded_twoMutators :
    ((before soleMutator (twoMutators ++ steps 0 13) 43).thread 0).pc = .idle ∧
      NoneStranded (before soleMutator (twoMutators ++ steps 0 13) 43) :=
  ⟨by decide +kernel, none_stranded soleMutator (twoMutators ++ steps 0 13) (by decide +kernel) 43⟩

/-- two mutators, one of them parked and the other not in a cycle -/
theorem not_noneStranded {u : Setup} {ops : List Op} {n a b : ℕ} (hm : (before u ops n).mutators = [a, b])
    (ha : ((before u ops n).thread a).pc.leads = false) (hb : ((before u ops n).thread b).pc = .asleep)
    (hblocked : ((before u ops n).thread b).stillBlocked = true) : ¬ NoneStranded (before u ops n) := by
  intro h
  have hnone : ∀ l, ((before u ops n).thread l).pc.leads = false := by
    intro l
    by_contra hl
    have hmem := (base_before u ops n).mem_of_leads (Bool.eq_true_of_not_eq_false hl)
    rw [hm] at hmem
    simp only [List.mem_cons, List.not_mem_nil, or_false] at hmem
    rcases hmem with rfl | rfl
    · exact hl ha
    · rw [hb] at hl
      exact hl rfl
  have hfree := h hnone b (.inr hb)
  rw [hblocked] at hfree
  cases hfree

/-- mutator 1 is registered during gc(), loses the compare_exchange and waits for ROOTS until gc() is over -/
def parkTooLate : List Op :=
  .call 0 .requestGc :: steps 0 12 ++ register 1 ++ .call 1 .requestGc :: steps 1 8 ++ steps 0 13 ++ steps 1 5

/-- **A mutator that parks on a cycle that is over.** -/
theorem stranded : ¬ NoneStranded (before soleMutator parkTooLate 44) := by
  have hrun : (before soleMutator parkTooLate 44).mutators = [0, 1] ∧
      ((before soleMutator parkTooLate 44).thread 0).pc.leads = false ∧
      ((before soleMutator parkTooLate 44).thread 1).pc = .asleep ∧
      ((before soleMutator parkTooLate 44).thread 1).stillBlocked = true := by
    decide +kernel
  exact not_noneStranded hrun.1 hrun.2.1 hrun.2.2.1 hrun.2.2.2

/-- `twoMutators`, and a worker panics: `start_trace` unwraps its join -/
def tracePanics : List Op := twoMutators ++ [.next 0 { tracing := .panics }]

-- nobody wakes mutator 1, which was parked in time
example : ¬ NoneStranded (before soleMutator tracePanics 31) := by
  have hrun : (before soleMutator tracePanics 31).mutators = [0, 1] ∧
      ((before soleMutator tracePanics 31).thread 0).pc.leads = false ∧
      ((before soleMutator tracePanics 31).thread 1).pc = .asleep ∧
      ((before soleMutator tracePanics 31).thread 1).stillBlocked = true := by
    decide +kernel
  exact not_noneStranded hrun.1 hrun.2.1 hrun.2.2.1 hrun.2.2.2

end Immix.Barrier
