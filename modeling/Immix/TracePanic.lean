/-
Workers that panic (`worker_batch_steal_trace`): an unsupported ref_bits pattern, a missing SHORT bit, an address outside
the space.

A worker that unwinds leaves `active_threads` as it is, so the others can never read 0 again.
- `stuck_iff`: what a stuck state is: the workers still running spin, nothing is queued, and some worker panicked.
- `panics_reach_join`: no state of a run is stuck when each panic finds no other worker running.
- `spins_after_panic`: two workers, one of which takes the only root and panics.
-/
import Immix.TraceReach

namespace Immix.Trace

open Immix.Lib

/-! ## Stuck states -/

/-- neither returned nor unwound -/
def Pc.running : Pc → Bool
  | .done | .panicked => false
  | _ => true

/-- in the loop that waits for the injector or for `active_threads == 0` -/
def Pc.spins : Pc → Bool
  | .spin | .poll => true
  | _ => false

/-- some worker is still running, and all that are spin with the injector empty and the counter not 0 -/
structure Stuck (e : Env) (s : St) : Prop where
  running : ∃ w < e.cpus, (s.worker w).pc.running = true
  spins : ∀ w < e.cpus, (s.worker w).pc.running = true → (s.worker w).pc.spins = true
  injector : s.injector = []
  active : s.active ≠ 0

/-- a worker that is counted and runs does not spin -/
theorem Pc.counted_iff (pc : Pc) (h : pc.running = true → pc.spins = true) : pc.counted = true ↔ pc = .panicked := by
  cases pc <;> simp_all [running, spins, counted]

/-- **Stuck states** are those in which the counter still counts a worker that panicked. -/
theorem stuck_iff {e : Env} {s : St} (h : Count e s) : Stuck e s ↔
    (∃ w < e.cpus, (s.worker w).pc.running = true) ∧
      (∀ w < e.cpus, (s.worker w).pc.running = true → (s.worker w).pc.spins = true) ∧ s.injector = [] ∧
      ∃ w < e.cpus, (s.worker w).pc = .panicked := by
  have hactive : (∀ w < e.cpus, (s.worker w).pc.running = true → (s.worker w).pc.spins = true) →
      (s.active ≠ 0 ↔ ∃ w < e.cpus, (s.worker w).pc = .panicked) := by
    intro hspins
    have hzero : s.active = 0 ↔ ∀ w < e.cpus, ¬ (s.worker w).pc.counted = true := by
      rw [h.active, ← count_eq_zero (fun x : Worker => x.pc.counted = true)]
      exact Int.natCast_eq_zero
    rw [ne_eq, hzero]
    push Not
    apply exists_congr
    intro w
    apply and_congr_right
    intro hw
    exact Pc.counted_iff _ (hspins w hw)
  constructor
  · intro hs
    exact ⟨hs.running, hs.spins, hs.injector, (hactive hs.spins).1 hs.active⟩
  · rintro ⟨hrun, hspins, hinj, hpanic⟩
    exact ⟨hrun, hspins, hinj, (hactive hspins).2 hpanic⟩

/-! ## Steps that panic -/

/-- the next step of worker `w` panics: an address outside the space, a ref_bits pattern that is not supported, or no
SHORT bit after the last slot -/
def Panics (e : Env) (s : St) (w : ℕ) : Prop :=
  match (s.worker w).pc with
  | .enter obj => ¬ (e.space.start ≤ obj ∧ obj < e.space.stop)
  | .decode obj => refOffsets (refBits (getRefByte e.allocMap e.space.start obj)) = none
  | .edges _ [] short => short = false
  | _ => False

instance (e : Env) (s : St) (w : ℕ) : Decidable (Panics e s w) := by
  unfold Panics
  split <;> infer_instance

/-- the step does not panic while another worker is running -/
def PanicsLast (e : Env) (s : St) (o : ℕ × ℕ) : Prop :=
  o.1 < e.cpus → Panics e s o.1 → ∀ u < e.cpus, u ≠ o.1 → (s.worker u).pc.running = false

instance (e : Env) (s : St) (o : ℕ × ℕ) : Decidable (PanicsLast e s o) := by
  unfold PanicsLast
  infer_instance

/-- a step makes its worker panic exactly when it is such a step -/
theorem stepAt_panics {e : Env} {s : St} {w k : ℕ} (hw : (s.worker w).pc ≠ .panicked) :
    ((stepAt e s w k).worker w).pc = .panicked ↔ Panics e s w := by
  unfold stepAt Panics
  cases hpc : (s.worker w).pc with
  | pop => cases hd : (s.worker w).deque <;> simp
  | steal => cases hi : s.injector <;> simp
  | spin =>
    simp only [goto_worker, Function.update_self]
    split_ifs <;> simp
  | poll =>
    simp only [goto_worker, Function.update_self]
    split_ifs <;> simp
  | enter obj =>
    simp only
    split_ifs <;> simp_all
  | decode obj =>
    simp only
    split <;> simp_all
  | edges obj offs short =>
    cases offs with
    | nil => cases short <;> simp
    | cons off offs =>
      simp only
      split_ifs <;> simp
  | panicked => exact absurd hpc hw
  | _ => simp_all

/-- when a worker has panicked, none is running -/
def PanicIsLast (e : Env) (s : St) : Prop :=
  ∀ w < e.cpus, (s.worker w).pc = .panicked → ∀ u < e.cpus, (s.worker u).pc.running = false

/-- a worker that does not run does nothing -/
theorem stepAt_not_running {e : Env} {s : St} {w k : ℕ} (h : (s.worker w).pc.running = false) : stepAt e s w k = s := by
  unfold stepAt
  cases hpc : (s.worker w).pc <;> simp_all [Pc.running]

theorem panicIsLast_step {e : Env} {s : St} {o : ℕ × ℕ} (ho : PanicsLast e s o) (h : PanicIsLast e s) :
    PanicIsLast e (step e s o) := by
  unfold step
  split_ifs with hw
  swap
  · exact h
  cases hrun : (s.worker o.1).pc.running with
  | false =>
    rw [stepAt_not_running hrun]
    exact h
  | true =>
    -- nobody had panicked, so the one that has now is the stepping worker
    have hnone : ∀ v < e.cpus, (s.worker v).pc ≠ .panicked := by
      intro v hv hp
      rw [h v hv hp o.1 hw] at hrun
      cases hrun
    intro v hv hp u hu
    obtain rfl : v = o.1 := by
      by_contra hvw
      rw [stepAt_worker_of_ne hvw] at hp
      exact hnone v hv hp
    rcases eq_or_ne u o.1 with rfl | huw
    · rw [hp]
      rfl
    · rw [stepAt_worker_of_ne huw]
      exact ho hw ((stepAt_panics (hnone _ hw)).1 hp) u hu huw

theorem PanicIsLast.not_stuck {e : Env} {s : St} (hc : Count e s) (h : PanicIsLast e s) : ¬ Stuck e s := by
  intro hs
  obtain ⟨⟨w, hw, hrun⟩, -, -, v, hv, hp⟩ := (stuck_iff hc).1 hs
  rw [h v hv hp w hw] at hrun
  cases hrun

/-- **Panics reach the join.** In a run in which no worker panics while another is running, no state is stuck. -/
theorem panics_reach_join (e : Env) (roots : List ℕ) (tm : TraceMap) (lines : LineMarkTable) (ops : List (ℕ × ℕ))
    (hops : LegalRun (step e) (PanicsLast e) (startTrace e roots tm lines) ops) (k : ℕ) :
    ¬ Stuck e (stateAt (step e) (startTrace e roots tm lines) ops k) := by
  apply PanicIsLast.not_stuck
  · exact stateAt_inv_all ops (count_step e) (count_start e roots tm lines) k
  · refine stateAt_inv (fun s o ho h => panicIsLast_step ho h) (fun w hw hp => ?_) hops k
    cases hp

/-! ## Runs -/

/-- two workers; every granule of the allocation map has the encoding `encode` -/
def twoWorkers (encode : UInt8) : Env := ⟨.oneBlock, fun _ => encode, fun _ => 0, 2, Nat.two_pos⟩

def startPair (encode : UInt8) : St :=
  startTrace (twoWorkers encode) [524288] (Space.oneBlock.traceMap (fun _ => 1) 0) (Space.oneBlock.lineTable fun _ => .free)

/-- worker 0 takes the root and goes on until it is done with it; worker 1 finds nothing and spins -/
def takeRoot : List (ℕ × ℕ) := List.replicate 6 (0, 0) ++ List.replicate 5 (1, 0)

/-- one worker, and the root's encoding has an unsupported pattern -/
def soleWorker : Env := ⟨.oneBlock, fun _ => 0xC5, fun _ => 0, 1, Nat.one_pos⟩

def startSole : St :=
  startTrace soleWorker [524288] (Space.oneBlock.traceMap (fun _ => 1) 0) (Space.oneBlock.lineTable fun _ => .free)

/-- worker 1 comes to its spin while worker 0 scans an object with one slot; a sole worker panics at the root, with
nobody left to wait for it -/
theorem panics_reach_join_takeRoot :
    (((stateAt (step (twoWorkers 0xC1)) (startPair 0xC1) takeRoot 11).worker 1).pc.spins = true ∧
      ¬ Stuck (twoWorkers 0xC1) (stateAt (step (twoWorkers 0xC1)) (startPair 0xC1) takeRoot 11)) ∧
    ((stateAt (step soleWorker) startSole (List.replicate 6 (0, 0)) 6).worker 0).pc = .panicked ∧
      ¬ Stuck soleWorker (stateAt (step soleWorker) startSole (List.replicate 6 (0, 0)) 6) := by
  refine ⟨⟨by decide +kernel, ?_⟩, by decide +kernel, ?_⟩
  · exact panics_reach_join (twoWorkers 0xC1) [524288] _ _ takeRoot (by decide +kernel) 11
  · exact panics_reach_join soleWorker [524288] _ _ (List.replicate 6 (0, 0)) (by decide +kernel) 6

/-- **The others spin for ever.** The root's encoding has an unsupported pattern; the worker that takes it panics. -/
theorem spins_after_panic :
    Stuck (twoWorkers 0xC5) (stateAt (step (twoWorkers 0xC5)) (startPair 0xC5) takeRoot 11) := by
  have hrun : ((stateAt (step (twoWorkers 0xC5)) (startPair 0xC5) takeRoot 11).worker 0).pc = .panicked ∧
      ((stateAt (step (twoWorkers 0xC5)) (startPair 0xC5) takeRoot 11).worker 1).pc.spins = true ∧
      ((stateAt (step (twoWorkers 0xC5)) (startPair 0xC5) takeRoot 11).worker 1).pc.running = true ∧
      (stateAt (step (twoWorkers 0xC5)) (startPair 0xC5) takeRoot 11).injector = [] ∧
      (stateAt (step (twoWorkers 0xC5)) (startPair 0xC5) takeRoot 11).active = 1 := by
    decide +kernel
  obtain ⟨h0, hspins, hrunning, hinj, hactive⟩ := hrun
  refine ⟨⟨1, by decide, hrunning⟩, fun w hw hw' => ?_, hinj, ?_⟩
  · have hw2 : w < 2 := hw
    interval_cases w
    · rw [h0] at hw'
      cases hw'
    · exact hspins
  · rw [hactive]
    decide

end Immix.Trace
