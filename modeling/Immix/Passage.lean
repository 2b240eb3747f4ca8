/-
One collection per passage of the barrier.

The runs are those of the mutators that are registered at the start: they may be destroyed, none is added, and gc() does
not panic.
- `OneGc`: between the entry and the return of a call of `sync_barrier` there is one execution of gc().
- `OwnParks`: the count with which a controller starts gc() is of threads that parked in its cycle.
- `OwnScans`: what `start_trace` drains is one stack scan of each registered mutator, made in that cycle.
- `AtRest`: what the controller leaves when it releases the others.
- `one_collection_per_passage`: all four, for any interleaving.
-/
import Immix.StopTheWorld

namespace Immix.Barrier

open Immix.Lib

/-! ## Runs of the mutators registered at the start -/

/-- the operation registers no mutator -/
def NoNew : Op → Prop
  | .call _ (.new _) => False
  | _ => True

instance (o : Op) : Decidable (NoNew o) := by
  unfold NoNew
  split <;> infer_instance

/-- no registration is under way -/
def Settled (s : State) : Prop := ∀ k, (s.thread k).pc ≠ .newInsert ∧ (s.thread k).pc ≠ .newAdd

theorem settled_init (u : Setup) : Settled u.init := by
  intro k
  by_cases hk : k ∈ u.mutators <;> simp [Setup.init, hk]

theorem settled_step {s : State} (h : Settled s) {o : Op} (ho : NoNew o) : Settled (step s o) := by
  intro k
  have hk := h k
  cases o with
  | call m c =>
    rw [step]
    rcases eq_or_ne k m with rfl | hkm
    · cases c with
      | new i => exact absurd ho (by simp [NoNew])
      | _ =>
        simp only [call]
        split <;> simp [hk]
    · rw [call_other hkm]
      exact hk
  | next m env =>
    rw [step]
    rcases eq_or_ne k m with rfl | hkm
    · cases hpc : (s.thread k).pc
      case' trigSet todo => cases todo
      case' clearYield todo => cases todo
      case' append saw => cases saw
      case' yieldpoint | parkReset | resumeUnlock => cases hret : (s.thread k).ret
      all_goals
        simp only [hpc] at hk
        simp only [next, hpc]
      all_goals repeat' split
      all_goals simp_all [State.returnBlock, Ret.pc]
    · obtain ⟨-, -, -, -, -, hpc⟩ := next_other (s := s) hkm env
      rcases hpc with hpc | hpc <;> rw [hpc]
      · exact hk
      · cases hq : (s.thread k).pc <;> simp_all [Pc.wake]

theorem Settled.noLateNew {s : State} (h : Settled s) (o : Op) : NoLateNew s o := by
  cases o with
  | call m c => trivial
  | next m env => exact ⟨fun hins => absurd hins.1 (h m).1, fun _ k _ => (h k).2⟩

/-- a step of a run in which nobody is registered and gc() does not panic -/
def Steady (s : State) (o : Op) : Prop := NoNew o ∧ NoGcPanic s o

instance (s : State) (o : Op) : Decidable (Steady s o) := inferInstanceAs (Decidable (_ ∧ _))

section
variable {u : Setup} {ops : List Op} (hops : LegalRun step Steady u.init ops)
include hops

theorem settled_before (k : ℕ) : Settled (before u ops k) :=
  before_inv (P := Settled) u (settled_init u) (fun _ _ hso h => settled_step h hso.1) hops k

theorem steady_noLateNew : LegalRun step NoLateNew u.init ops := by
  intro k o _
  exact (settled_before hops k).noLateNew o

theorem not_panicked_before (k l : ℕ) : ((before u ops k).thread l).pc ≠ .gcPanicked := by
  refine before_inv (P := fun s => ∀ l, (s.thread l).pc ≠ .gcPanicked) u ?_
    (fun s o hso h => not_panicked_step h hso.2) hops k l
  intro l
  by_cases hl : l ∈ u.mutators <;> simp [Setup.init, hl]

theorem cycle_before (k : ℕ) :
    Open (before u ops k) ∨ (∃ l, Gathering (before u ops k) l) ∨ ∃ l, Stopped (before u ops k) l := by
  rcases phase_before u (steady_noLateNew hops) k with h | h | h | ⟨l, h⟩
  · exact .inl h
  · exact .inr (.inl h)
  · exact .inr (.inr h)
  · exact absurd h.lead (not_panicked_before hops k l)

end

/-! ## What the phases say of a thread -/

theorem Open.not_leads {s : State} (h : Open s) (m : ℕ) : (s.thread m).pc.leads = false := (h.calm m).not_leads

theorem Gathering.eq_of_leads {s : State} {l m : ℕ} (h : Gathering s l) (hm : (s.thread m).pc.leads = true) : m = l := by
  by_contra hml
  rcases h.others m hml with hc | hj
  · rw [hc.not_leads] at hm
    cases hm
  · rw [hj.not_leads] at hm
    cases hm

/-- while the world is stopped, a registered mutator is the controller, or sleeps, or has just been woken -/
theorem Stopped.eq_or {s : State} {l m : ℕ} (h : Stopped s l) (hm : m ∈ s.mutators) :
    m = l ∨ (s.thread m).pc = .asleep ∨ (s.thread m).pc = .woken := by
  rcases eq_or_ne m l with rfl | hml
  · exact .inl rfl
  · right
    rw [h.others m hm hml]
    cases (s.thread l).pc <;> simp [Pc.others]

theorem Stopped.eq_of_leads {s : State} {l m : ℕ} (h : Stopped s l) (hb : Base s)
    (hm : (s.thread m).pc.leads = true) : m = l := by
  rcases h.eq_or (hb.mem_of_leads hm) with h1 | h1 | h1
  · exact h1
  all_goals
    rw [h1] at hm
    cases hm

theorem leads_of_stops {pc : Pc} (h : pc.stops = true) : pc.leads = true := by
  rw [Pc.leads, h, Bool.or_true]

theorem leads_of_gathers {pc : Pc} (h : pc.gathers = true) : pc.leads = true := by
  rw [Pc.leads, h, Bool.true_or]

theorem stops_of_inGc {pc : Pc} (h : pc.inGc = true) : pc.stops = true := by
  cases pc <;> simp_all [Pc.inGc, Pc.stops]

theorem not_gathers_of_stops {pc : Pc} (h : pc.stops = true) : pc.gathers = false := by
  cases pc <;> simp_all [Pc.stops, Pc.gathers]

/-- a thread that waits for the others is the controller of a cycle that gathers -/
theorem Phase.gathering {s : State} (h : Phase s) (hb : Base s) {l : ℕ} (hl : (s.thread l).pc.gathers = true) :
    Gathering s l := by
  have hleads := leads_of_gathers hl
  rcases h with h | ⟨l', h⟩ | ⟨l', h⟩ | ⟨l', h⟩
  · rw [h.not_leads l] at hleads
    cases hleads
  · rw [h.eq_of_leads hleads]
    exact h
  · have hl' := not_gathers_of_stops h.lead
    rw [← h.eq_of_leads hb hleads, hl] at hl'
    cases hl'
  · rcases eq_or_ne l l' with rfl | hne
    · rw [h.lead] at hl
      cases hl
    · rcases h.others l hne with hc | hj
      · rw [hc.not_leads] at hleads
        cases hleads
      · rw [hj.not_leads] at hleads
        cases hleads

/-- nobody is at the compare_exchange of a cycle that is stopped -/
theorem Stopped.ne_cas {s : State} {l : ℕ} (h : Stopped s l) (hb : Base s) (m : ℕ) : (s.thread m).pc ≠ .cas := by
  intro hp
  have hm : m ∈ s.mutators := by
    rw [hb.mem, hp]
    rfl
  rcases h.eq_or hm with rfl | h1 | h1
  · have hl := h.lead
    rw [hp] at hl
    cases hl
  all_goals
    rw [hp] at h1
    cases h1

/-! ## Steps of a run -/

/-- step `k` of the run is a step of thread `m` from `pc` -/
def StepAt (u : Setup) (ops : List Op) (m : ℕ) (pc : Pc) (k : ℕ) : Prop :=
  (∃ env, ops[k]? = some (.next m env)) ∧ ((before u ops k).thread m).pc = pc

/-- step `k` is an increment of the park count -/
def Parks (u : Setup) (ops : List Op) (k : ℕ) : Prop := ∃ m, StepAt u ops m .parkLock k ∧ (before u ops k).stwLock = none

theorem stepAt_iff {u : Setup} {ops : List Op} {k m n : ℕ} {env : Env} {pc : Pc} (h : ops[k]? = some (.next m env)) :
    StepAt u ops n pc k ↔ n = m ∧ ((before u ops k).thread m).pc = pc := by
  constructor
  · rintro ⟨⟨env', h'⟩, hpc⟩
    rw [h] at h'
    cases h'
    exact ⟨rfl, hpc⟩
  · rintro ⟨rfl, hpc⟩
    exact ⟨⟨env, h⟩, hpc⟩

theorem not_stepAt_call {u : Setup} {ops : List Op} {k m n : ℕ} {c : Call} {pc : Pc} (h : ops[k]? = some (.call m c)) :
    ¬ StepAt u ops n pc k := by
  rintro ⟨⟨env, h'⟩, -⟩
  rw [h] at h'
  cases h'

theorem not_stepAt_none {u : Setup} {ops : List Op} {k n : ℕ} {pc : Pc} (h : ops[k]? = none) :
    ¬ StepAt u ops n pc k := by
  rintro ⟨⟨env, h'⟩, -⟩
  rw [h] at h'
  cases h'

/-! ## Counters -/

/-- what a step adds to GC_COUNT, to the calls of gc() that returned and, until the controller clears it, to the park
count -/
theorem counters_next (s : State) (m : ℕ) (env : Env) :
    (next s m env).gcCount = s.gcCount + (if (s.thread m).pc = .gcStart then 1 else 0) ∧
      (next s m env).gcDone = s.gcDone + (if (s.thread m).pc = .gcFlip then 1 else 0) ∧
      ((s.thread m).pc ≠ .resumeLock →
        (next s m env).stwCount = s.stwCount + if (s.thread m).pc = .parkLock ∧ s.stwLock = none then 1 else 0) := by
  cases hpc : (s.thread m).pc
  case' trigSet todo => cases todo
  case' clearYield todo => cases todo
  all_goals simp only [next, hpc]
  all_goals repeat' split
  all_goals simp_all [State.returnBlock]

theorem counters_call (s : State) (m : ℕ) (c : Call) :
    (call s m c).gcCount = s.gcCount ∧ (call s m c).gcDone = s.gcDone ∧ (call s m c).stwCount = s.stwCount := by
  cases c <;> simp only [call] <;> split <;> simp

section
open Classical
variable (u : Setup) (ops : List Op)

theorem gcCount_succ (k : ℕ) : (before u ops (k + 1)).gcCount =
    (before u ops k).gcCount + if ∃ m, StepAt u ops m .gcStart k then 1 else 0 := by
  cases ho : ops[k]? with
  | none => simp [before_succ_none ho, not_stepAt_none ho]
  | some o =>
    rw [before_succ ho]
    cases o with
    | call m c => simp [step, (counters_call _ m c).1, not_stepAt_call ho]
    | next m env => simp [step, (counters_next _ m env).1, stepAt_iff ho]

theorem gcDone_succ (k : ℕ) : (before u ops (k + 1)).gcDone =
    (before u ops k).gcDone + if ∃ m, StepAt u ops m .gcFlip k then 1 else 0 := by
  cases ho : ops[k]? with
  | none => simp [before_succ_none ho, not_stepAt_none ho]
  | some o =>
    rw [before_succ ho]
    cases o with
    | call m c => simp [step, (counters_call _ m c).2.1, not_stepAt_call ho]
    | next m env => simp [step, (counters_next _ m env).2.1, stepAt_iff ho]

theorem stwCount_succ (k : ℕ) (h : ∀ m, ((before u ops k).thread m).pc ≠ .resumeLock) :
    (before u ops (k + 1)).stwCount = (before u ops k).stwCount + if Parks u ops k then 1 else 0 := by
  unfold Parks
  cases ho : ops[k]? with
  | none => simp [before_succ_none ho, not_stepAt_none ho]
  | some o =>
    rw [before_succ ho]
    cases o with
    | call m c => simp [step, (counters_call _ m c).2.2, not_stepAt_call ho]
    | next m env => simp [step, (counters_next _ m env).2.2 (h m), stepAt_iff ho]

end

/-! ## One collection -/

/-- in a call of `sync_barrier` that has not returned -/
def Pc.inBarrier (pc : Pc) : Bool := pc = .cas || pc.solo || pc.stops || pc = .gcPanicked || pc = .assertFailed

/-- thread `m` is about to enter a call of `sync_barrier` at step `i`, and the call returns with step `j` -/
structure Passage (u : Setup) (ops : List Op) (m i j : ℕ) : Prop where
  entry : ((before u ops i).thread m).pc = .cas
  le : i ≤ j
  during : ∀ k, i ≤ k → k ≤ j → ((before u ops k).thread m).pc.inBarrier = true
  returned : ((before u ops (j + 1)).thread m).pc.inBarrier = false

/-- from step `i` on and before step `j` there is one execution of gc(): a thread starts it with step `g` and finishes
it with step `h`, and no other step starts or finishes one -/
def OneGc (u : Setup) (ops : List Op) (i j : ℕ) : Prop :=
  ∃ l g h, i ≤ g ∧ g < h ∧ h < j ∧ StepAt u ops l .gcStart g ∧ StepAt u ops l .gcFlip h ∧
    (∀ k, g ≤ k → k ≤ h → ((before u ops k).thread l).pc.inGc = true) ∧
    ∀ k, i ≤ k → k < j → ∀ l', (StepAt u ops l' .gcStart k → k = g) ∧ (StepAt u ops l' .gcFlip k → k = h)

/-- parked in a cycle that is over, and not yet back from `block_current_thread` -/
def Thread.released (t : Thread) : Bool :=
  t.pc = .woken || (t.pc = .parkLoop && !t.stillBlocked) || t.pc = .parkReset

/-- how far GC_COUNT is since thread `m` entered the barrier, when it was `a` -/
def Tally (s : State) (m a : ℕ) : Prop :=
  ((Open s ∨ ∃ l, Gathering s l) ∧ s.gcCount = a + if (s.thread m).released then 1 else 0) ∨
    ∃ l, Stopped s l ∧ s.gcCount = a + if (s.thread l).pc = .gcStart then 0 else 1

theorem not_released_of_leads {t : Thread} (h : t.pc.leads = true) : t.released = false := by
  unfold Thread.released
  cases hp : t.pc <;> simp_all [Pc.leads, Pc.gathers, Pc.stops]

theorem registered_of_inBarrier {pc : Pc} (h : pc.inBarrier = true) : pc.registered = true := by
  cases pc <;> simp_all [Pc.inBarrier, Pc.solo, Pc.stops, Pc.registered]

/-- a step of a thread that does not end a cycle leaves the other threads where they are -/
theorem next_other_stays {s : State} {m k : ℕ} (hk : k ≠ m) (hm : (s.thread m).pc.stops = false) (env : Env) :
    ((next s m env).thread k).pc = (s.thread k).pc ∧
      ((next s m env).thread k).stillBlocked = (s.thread k).stillBlocked := by
  cases hpc : (s.thread m).pc
  case' trigSet todo => cases todo
  all_goals
    simp only [hpc, Pc.stops, Bool.true_eq_false] at hm
  all_goals simp only [next, hpc]
  all_goals repeat' split
  all_goals simp [State.returnBlock, Threads.set_of_ne, hk]

/-- ... and leaves a thread that stays in the barrier released, or not -/
theorem released_next {s : State} {m k : ℕ} {env : Env} (hm : (s.thread m).pc.stops = false)
    (hk : (s.thread k).pc.inBarrier = true) (hw : (s.thread k).pc = .woken → (s.thread k).stillBlocked = false)
    (hk' : ((next s m env).thread k).pc.inBarrier = true) :
    ((next s m env).thread k).released = (s.thread k).released := by
  unfold Thread.released
  rcases eq_or_ne k m with rfl | hkm
  · cases hpc : (s.thread k).pc
    case' append saw => cases saw
    case' parkReset => cases hret : (s.thread k).ret
    all_goals
      simp only [hpc, Pc.inBarrier, Pc.solo, Pc.stops, reduceCtorEq, decide_false, Bool.or_self, Bool.or_true,
        Bool.false_eq_true, Bool.true_eq_false] at hk hm
    all_goals
      simp only [next, hpc] at hk' ⊢
    all_goals repeat' split
    all_goals simp_all [State.returnBlock, Ret.pc, Pc.inBarrier, Pc.solo, Pc.stops]
  · obtain ⟨hpc, hblocked⟩ := next_other_stays hkm hm env
    rw [hpc, hblocked]

/-- the controller leaves its loop for gc() -/
theorem gcStart_of_gathers {s : State} {l : ℕ} {env : Env} (hl : (s.thread l).pc.gathers = true)
    (hl' : ((next s l env).thread l).pc.stops = true) : ((next s l env).thread l).pc = .gcStart := by
  cases hpc : (s.thread l).pc
  case' prepare saw | scan saw | append saw => cases saw
  all_goals
    simp only [hpc, Pc.gathers, Bool.false_eq_true] at hl
  all_goals
    simp only [next, hpc] at hl' ⊢
    repeat' split at hl'
    all_goals simp_all [State.returnBlock, Pc.stops]

/-- the controller of a stopped world goes on to the end of the cycle -/
theorem stops_next {s : State} {l : ℕ} (env : Env) (hl : (s.thread l).pc.stops = true) :
    ((next s l env).thread l).pc ≠ .gcStart ∧ (((next s l env).thread l).pc.stops = true ∨
      ((next s l env).thread l).pc = .gcPanicked ∨ (s.thread l).pc = .resumeUnlock) := by
  cases hpc : (s.thread l).pc
  case' clearYield todo => cases todo
  case' resumeUnlock => cases hret : (s.thread l).ret
  all_goals
    simp only [hpc, Pc.stops, Bool.false_eq_true] at hl
  all_goals
    simp only [next, hpc]
    repeat' split
    all_goals simp_all [Ret.pc, Pc.stops]

theorem open_step {s : State} (h : Open s) (o : Op) : Open (step s o) ∨ ∃ l, Gathering (step s o) l := by
  cases o with
  | call m c => exact .inl (h.calmly (calmly_call (h.calm m) c))
  | next m env =>
    by_cases hcas : (s.thread m).pc = .cas
    · exact .inr ⟨m, h.cas hcas env⟩
    · exact .inl (h.calmly (calmly_next (h.calm m) hcas env))

/-- the world is not stopped -/
def Running (s : State) : Prop := Open s ∨ ∃ l, Gathering s l

theorem Running.not_stops {s : State} (h : Running s) (m : ℕ) : (s.thread m).pc.stops = false := by
  by_contra hs
  rw [Bool.not_eq_false] at hs
  have hleads := leads_of_stops hs
  rcases h with h | ⟨l, h⟩
  · rw [h.not_leads m] at hleads
    cases hleads
  · have hl := h.lead
    rw [← h.eq_of_leads hleads, not_gathers_of_stops hs] at hl
    cases hl

theorem Running.woken {s : State} (h : Running s) {m : ℕ} (hm : (s.thread m).pc = .woken) :
    (s.thread m).stillBlocked = false := by
  rcases h with h | ⟨l, h⟩
  · exact (h.calm m).2
  · rcases eq_or_ne m l with rfl | hml
    · exact h.unblocked
    · rcases h.others m hml with hc | hj
      · exact hc.2
      · simp [Thread.Joining, hm] at hj

theorem Running.gc {s : State} (h : Running s) : s.gcCount = s.gcDone := by
  rcases h with h | ⟨l, h⟩ <;> exact h.gc

/-- while the world runs, a step counts no gc() and releases nobody -/
theorem Running.step {s : State} (h : Running s) (o : Op) {m : ℕ} (hm : (s.thread m).pc.inBarrier = true)
    (hm' : ((step s o).thread m).pc.inBarrier = true) :
    (Barrier.step s o).gcCount = s.gcCount ∧ ((Barrier.step s o).thread m).released = (s.thread m).released := by
  cases o with
  | call k c =>
    refine ⟨(counters_call s k c).1, ?_⟩
    rw [Barrier.step]
    rcases eq_or_ne m k with rfl | hmk
    · have hself : call s m c = s := by
        apply call_eq_self <;> intro hp <;> rw [hp] at hm <;> cases hm
      rw [hself]
    · rw [call_other hmk]
  | next k env =>
    have hk := h.not_stops k
    refine ⟨?_, released_next hk hm (fun hw => h.woken hw) hm'⟩
    have hne : (s.thread k).pc ≠ .gcStart := by
      intro hp
      rw [hp] at hk
      cases hk
    rw [Barrier.step, (counters_next s k env).1, if_neg hne, Nat.add_zero]

theorem Stopped.gc_count {s : State} {l : ℕ} (hb : Base s) (h : Stopped s l) (o : Op) (h' : Stopped (step s o) l) {a : ℕ}
    (hcount : s.gcCount = a + if (s.thread l).pc = .gcStart then 0 else 1) :
    (step s o).gcCount = a + if ((step s o).thread l).pc = .gcStart then 0 else 1 := by
  by_cases hl : ∃ env, o = .next l env
  · obtain ⟨env, rfl⟩ := hl
    rw [step, if_neg (stops_next env h.lead).1, (counters_next s l env).1, hcount]
    split_ifs <;> rfl
  · have hpc := (h.step_other hb fun env he => hl ⟨env, he⟩).2.2.2
    rw [hpc, ← hcount]
    cases o with
    | call m c => exact (counters_call s m c).1
    | next m env =>
      have hne : (s.thread m).pc ≠ .gcStart := by
        intro hp
        have hm := h.eq_of_leads hb (m := m) (by rw [hp]; rfl)
        exact hl ⟨env, by rw [hm]⟩
      rw [step, (counters_next s m env).1, if_neg hne, Nat.add_zero]

/-- a stopped world runs again when the controller leaves `sync_barrier` -/
theorem Stopped.resumed {s : State} {l : ℕ} (hb : Base s) (h : Stopped s l) (o : Op) (h' : Open (step s o)) :
    ∃ env, o = .next l env ∧ (s.thread l).pc = .resumeUnlock := by
  have hcalm := h'.calm l
  by_cases hl : ∃ env, o = .next l env
  · obtain ⟨env, rfl⟩ := hl
    refine ⟨env, rfl, ?_⟩
    rcases (stops_next env h.lead).2 with h1 | h1 | h1
    · have hleads := leads_of_stops h1
      rw [← step, hcalm.not_leads] at hleads
      cases hleads
    · rw [Thread.Calm, step, h1] at hcalm
      cases hcalm.1
    · exact h1
  · have hpc := (h.step_other hb fun env he => hl ⟨env, he⟩).2.2.2
    have hleads := leads_of_stops h.lead
    rw [← hpc, hcalm.not_leads] at hleads
    cases hleads

/-- the step that stops the world is the controller's, into gc() -/
theorem Gathering.gcStart_of_stopped {s : State} {l : ℕ} (h : Gathering s l) (o : Op)
    (h' : Stopped (step s o) l) : ((step s o).thread l).pc = .gcStart := by
  have hstops := not_gathers_of_stops h'.lead
  by_cases hl : ∃ env, o = .next l env
  · obtain ⟨env, rfl⟩ := hl
    exact gcStart_of_gathers h.lead h'.lead
  · have hpc : ((step s o).thread l).pc = (s.thread l).pc := by
      cases o with
      | call m c =>
        rw [step]
        rcases eq_or_ne l m with rfl | hlm
        · rw [call_eq_self]
          all_goals
            intro hp
            have hlead := h.lead
            rw [hp] at hlead
            cases hlead
        · rw [call_other hlm]
      | next m env =>
        have hlm : l ≠ m := by
          rintro rfl
          exact hl ⟨env, rfl⟩
        exact (next_other_stays hlm (Running.not_stops (.inr ⟨l, h⟩) m) env).1
    rw [hpc, h.lead] at hstops
    cases hstops

/-- a thread that is about to return from `sync_barrier` has seen one gc() -/
theorem Tally.returned {s : State} {m a : ℕ} (hb : Base s) (h : Tally s m a)
    (hm : (s.thread m).pc = .parkReset ∨ (s.thread m).pc = .resumeUnlock) : s.gcCount = a + 1 ∧ s.gcDone = a + 1 := by
  rcases h with ⟨hrun, hcount⟩ | ⟨l, hs, hcount⟩
  · have hpc : (s.thread m).pc = .parkReset := by
      refine hm.resolve_right fun hp => ?_
      have hstops := Running.not_stops hrun m
      rw [hp] at hstops
      cases hstops
    have hgc := Running.gc hrun
    simp only [Thread.released, hpc, decide_true, Bool.or_true, if_true] at hcount
    exact ⟨hcount, hgc ▸ hcount⟩
  · have hmem : m ∈ s.mutators := by
      rw [hb.mem]
      rcases hm with hp | hp <;> rw [hp] <;> rfl
    have hml : m = l := by
      rcases hs.eq_or hmem with h1 | h1 | h1
      · exact h1
      all_goals
        rw [h1] at hm
        simp at hm
    subst hml
    have hpc : (s.thread m).pc = .resumeUnlock := by
      refine hm.resolve_left fun hp => ?_
      have hlead := hs.lead
      rw [hp] at hlead
      cases hlead
    have hgc := hs.gc
    rw [hpc] at hcount hgc
    exact ⟨hcount, hgc.symm.trans hcount⟩

/-- the ways out of `sync_barrier` -/
theorem leaves_barrier {s : State} {m : ℕ} {o : Op} (hm : (s.thread m).pc.inBarrier = true)
    (hm' : ((step s o).thread m).pc.inBarrier = false) :
    (s.thread m).pc = .parkReset ∨ (s.thread m).pc = .resumeUnlock := by
  cases o with
  | call k c =>
    rw [step] at hm'
    have hself : ((call s k c).thread m).pc = (s.thread m).pc := by
      rcases eq_or_ne m k with rfl | hmk
      · rw [call_eq_self]
        all_goals
          intro hp
          rw [hp] at hm
          cases hm
      · rw [call_other hmk]
    rw [hself, hm] at hm'
    cases hm'
  | next k env =>
    rw [step] at hm'
    rcases eq_or_ne m k with rfl | hmk
    · cases hpc : (s.thread m).pc
      case' clearYield todo => cases todo
      case' append saw => cases saw
      all_goals
        simp only [hpc, Pc.inBarrier, Pc.solo, Pc.stops, reduceCtorEq, decide_false, Bool.or_self,
          Bool.false_eq_true] at hm
      all_goals
        simp only [next, hpc] at hm'
        repeat' split at hm'
      all_goals simp_all [State.returnBlock, Pc.inBarrier, Pc.solo, Pc.stops]
    · obtain ⟨-, -, -, -, -, hpc⟩ := next_other (s := s) hmk env
      rcases hpc with hpc | hpc <;> rw [hpc] at hm'
      · rw [hm] at hm'
        cases hm'
      · cases hq : (s.thread m).pc <;> simp_all [Pc.wake, Pc.inBarrier, Pc.solo, Pc.stops]

section
variable {u : Setup} {ops : List Op} (hops : LegalRun step Steady u.init ops)
include hops

/-- what happens to the tally of `m` at a step at which it stays in the barrier -/
theorem tally_step {m a k : ℕ} (h : Tally (before u ops k) m a)
    (hk : ((before u ops k).thread m).pc.inBarrier = true)
    (hk' : ((before u ops (k + 1)).thread m).pc.inBarrier = true) : Tally (before u ops (k + 1)) m a := by
  cases ho : ops[k]? with
  | none =>
    rw [before_succ_none ho]
    exact h
  | some o =>
    have hb := base_before u ops k
    have hb' := base_before u ops (k + 1)
    have hq := (settled_before hops k).noLateNew o
    have hgone := not_panicked_before hops (k + 1)
    rw [before_succ ho] at hk' hb' hgone ⊢
    rcases h with ⟨hrun, hcount⟩ | ⟨l, hs, hcount⟩
    · obtain ⟨hgc, hrel⟩ := Running.step hrun o hk hk'
      have hnext : Running (step (before u ops k) o) ∨ ∃ l, Gathering (before u ops k) l ∧ Stopped (step (before u ops k) o) l := by
        rcases hrun with h | ⟨l, h⟩
        · exact .inl (open_step h o)
        · rcases gathering_step hb h o hq with h' | h'
          · exact .inl (.inr ⟨l, h'⟩)
          · exact .inr ⟨l, h, h'⟩
      rcases hnext with hnext | ⟨l, hg, hnext⟩
      · exact .inl ⟨hnext, by rw [hgc, hcount, hrel]⟩
      · right
        refine ⟨l, hnext, ?_⟩
        have hp := hg.gcStart_of_stopped o hnext
        -- `m` is the controller, or sleeps
        have hnot : ((step (before u ops k) o).thread m).released = false := by
          rcases eq_or_ne m l with rfl | hml
          · exact not_released_of_leads (leads_of_stops hnext.lead)
          · have hpc := hnext.others m ((hb'.mem m).2 (registered_of_inBarrier hk')) hml
            simp [Thread.released, hpc, hp, Pc.others]
        rw [hgc, hcount, ← hrel, hnot, hp]
        simp
    · rcases stopped_step hb hs o hq with h' | h' | h'
      · exact .inr ⟨l, h', hs.gc_count hb o h' hcount⟩
      · exact absurd h'.lead (hgone l)
      · obtain ⟨env, rfl, hp⟩ := hs.resumed hb o h'
        left
        refine ⟨.inl h', ?_⟩
        have hml : m ≠ l := by
          rintro rfl
          cases hret : ((before u ops k).thread m).ret
          all_goals
            simp [step, next, hp, hret, Ret.pc, Pc.inBarrier, Pc.solo, Pc.stops] at hk'
        have hpc := hs.others m ((hb.mem m).2 (registered_of_inBarrier hk)) hml
        simp only [hp, Pc.others] at hpc
        simpa [step, next, hp, hml, Thread.released, hpc] using hcount

/-- from entry to return, one gc() is counted -/
theorem passage_counts {m i j : ℕ} (h : Passage u ops m i j) : ∃ a, (before u ops i).gcCount = a ∧
    (before u ops i).gcDone = a ∧ (before u ops j).gcCount = a + 1 ∧ (before u ops j).gcDone = a + 1 := by
  have hrun : Running (before u ops i) := by
    rcases cycle_before hops i with h' | h' | ⟨l, h'⟩
    · exact .inl h'
    · exact .inr h'
    · exact absurd h.entry (h'.ne_cas (base_before u ops i) m)
  have htally : Tally (before u ops j) m (before u ops i).gcCount := by
    have hall : ∀ k, i ≤ k → k ≤ j → Tally (before u ops k) m (before u ops i).gcCount := by
      intro k hk
      induction k, hk using Nat.le_induction with
      | base =>
        intro _
        exact .inl ⟨hrun, by simp [Thread.released, h.entry]⟩
      | succ k hk ih =>
        intro hkj
        exact tally_step hops (ih (Nat.le_of_succ_le hkj)) (h.during k hk (Nat.le_of_succ_le hkj))
          (h.during (k + 1) (Nat.le_succ_of_le hk) hkj)
    exact hall j h.le (le_refl j)
  have hleave : ((before u ops j).thread m).pc = .parkReset ∨ ((before u ops j).thread m).pc = .resumeUnlock := by
    have hret := h.returned
    cases ho : ops[j]? with
    | none =>
      rw [before_succ_none ho, h.during j h.le (le_refl j)] at hret
      cases hret
    | some o =>
      rw [before_succ ho] at hret
      exact leaves_barrier (h.during j h.le (le_refl j)) hret
  obtain ⟨h1, h2⟩ := htally.returned (base_before u ops j) hleave
  exact ⟨_, rfl, (Running.gc hrun).symm, h1, h2⟩

theorem stopped_of_count {k : ℕ} (h : (before u ops k).gcCount = (before u ops k).gcDone + 1) :
    ∃ l, Stopped (before u ops k) l ∧ ((before u ops k).thread l).pc.inGc = true := by
  rcases cycle_before hops k with h' | ⟨l, h'⟩ | ⟨l, h'⟩
  · have hgc := h'.gc
    omega
  · have hgc := h'.gc
    omega
  · refine ⟨l, h', ?_⟩
    have hgc := h'.gc
    have hlead := h'.lead
    cases hp : ((before u ops k).thread l).pc <;> simp_all [Pc.running, Pc.inGc, Pc.stops]

theorem stopped_succ {k l : ℕ} (h : Stopped (before u ops k) l) :
    Stopped (before u ops (k + 1)) l ∨ Open (before u ops (k + 1)) := by
  have hgone := not_panicked_before hops (k + 1) l
  cases ho : ops[k]? with
  | none =>
    rw [before_succ_none ho]
    exact .inl h
  | some o =>
    rw [before_succ ho] at hgone ⊢
    rcases stopped_step (base_before u ops k) h o ((settled_before hops k).noLateNew o) with h' | h' | h'
    · exact .inl h'
    · exact absurd h'.lead hgone
    · exact .inr h'

/-- **One gc().** -/
theorem passage_oneGc {m i j : ℕ} (hp : Passage u ops m i j) : OneGc u ops i j := by
  classical
  obtain ⟨a, hci, hdi, hcj, hdj⟩ := passage_counts hops hp
  obtain ⟨g, hig, hgj, ⟨l, hg⟩, hstart, hbefore, hafter⟩ := once_between hp.le
    (f := fun k => (before u ops k).gcCount) (fun k _ _ => gcCount_succ u ops k) (by rw [hci, hcj])
  obtain ⟨h, hih, hhj, ⟨l', hh⟩, hend, hrunning, -⟩ := once_between hp.le
    (f := fun k => (before u ops k).gcDone) (fun k _ _ => gcDone_succ u ops k) (by rw [hdi, hdj])
  have hbase := base_before u ops
  have hs : ∀ k m, ((before u ops k).thread m).pc.stops = true → Stopped (before u ops k) m := fun k m hm =>
    (phase_before u (steady_noLateNew hops) k).stopped hm
  -- gc() is counted before it returns
  have hgh : g < h := by
    by_contra hle
    rw [not_lt] at hle
    have hsl := hs h l' (by rw [hh.2]; rfl)
    have hgc := hsl.gc
    rw [hh.2, hbefore h hih hle, hrunning h hih (le_refl h), hci, hdi] at hgc
    simp [Pc.running] at hgc
  -- and runs in between
  have hcounts : ∀ k, g < k → k ≤ h → (before u ops k).gcCount = (before u ops k).gcDone + 1 := by
    intro k h1 h2
    rw [hafter k h1 (by omega), hrunning k (by omega) h2, hci, hdi]
  have hlead : ∀ k, g ≤ k → k ≤ h → ((before u ops k).thread l).pc.inGc = true := by
    intro k hk
    induction k, hk using Nat.le_induction with
    | base =>
      intro _
      rw [hg.2]
      rfl
    | succ k hk ih =>
      intro hkh
      have hin := ih (Nat.le_of_succ_le hkh)
      have hsl := hs k l (stops_of_inGc hin)
      obtain ⟨l₁, hs₁, hin₁⟩ := stopped_of_count hops (hcounts (k + 1) (Nat.lt_succ_of_le hk) hkh)
      have hl : Stopped (before u ops (k + 1)) l := by
        refine (stopped_succ hops hsl).resolve_right fun ho => ?_
        have hleads := leads_of_stops hs₁.lead
        rw [ho.not_leads l₁] at hleads
        cases hleads
      rw [← hs₁.eq_of_leads (hbase (k + 1)) (leads_of_stops hl.lead)] at hin₁
      exact hin₁
  have hll : l' = l := (hs h l (stops_of_inGc (hlead h hgh.le (le_refl h)))).eq_of_leads (hbase h) (by rw [hh.2]; rfl)
  subst hll
  exact ⟨l', g, h, hig, hgh, hhj, hg, hh, hlead, fun k h1 h2 l₂ =>
    ⟨fun hk => hstart k h1 h2 ⟨l₂, hk⟩, fun hk => hend k h1 h2 ⟨l₂, hk⟩⟩⟩

end

/-! ## The park count -/

/-- thread `l` becomes controller with step `i` -/
def Wins (u : Setup) (ops : List Op) (l i : ℕ) : Prop :=
  StepAt u ops l .cas i ∧ (before u ops i).controller = noController

/-- acting as controller, and gc() has not yet drained ROOTS -/
def Pc.early (pc : Pc) : Bool := pc.gathers || pc.undrained

/-- a controller that leaves its loop with step `j` does so with the number of the parks since it became controller; that
is the number of the other registered mutators, and the park count was 0 then -/
def OwnParks (u : Setup) (ops : List Op) : Prop :=
  ∀ l n j, StepAt u ops l (.waitLoad n) j → ((before u ops (j + 1)).thread l).pc = .gcStart →
    ∃ i < j, Wins u ops l i ∧ (∀ k, i < k → k ≤ j → ((before u ops k).thread l).pc.gathers = true) ∧
      (before u ops i).stwCount = 0 ∧ n + 1 = (before u ops j).mutators.length ∧
      ∃ parks : Finset ℕ, (∀ k, k ∈ parks ↔ (i ≤ k ∧ k < j) ∧ Parks u ops k) ∧ n = parks.card

/-- a thread begins to act as controller by winning the compare_exchange -/
theorem wins_next {s : State} {l : ℕ} {env : Env}
    (h : ((s.thread l).pc.early = false ∧ ((next s l env).thread l).pc.early = true) ∨
      ((s.thread l).pc.gathers = false ∧ ((next s l env).thread l).pc.gathers = true)) :
    (s.thread l).pc = .cas ∧ s.controller = noController := by
  cases hpc : (s.thread l).pc
  case' prepare saw | scan saw | append saw => cases saw
  case' trigSet todo => cases todo
  case' clearYield todo => cases todo
  case' yieldpoint | parkReset | resumeUnlock => cases hret : (s.thread l).ret
  all_goals
    simp only [next, hpc] at h
    repeat' split at h
  all_goals simp_all [State.returnBlock, Ret.pc, Pc.early, Pc.undrained, Pc.gathers]

theorem leads_other {s : State} {l : ℕ} {o : Op} (ho : ∀ env, o ≠ .next l env) :
    ((step s o).thread l).pc.early = (s.thread l).pc.early ∧ ((step s o).thread l).pc.gathers = (s.thread l).pc.gathers := by
  cases o with
  | call m c =>
    rw [step]
    rcases eq_or_ne l m with rfl | hlm
    · cases c
      all_goals
        simp only [call]
        split <;> simp_all [Pc.early, Pc.gathers, Pc.undrained]
    · rw [call_other hlm]
      exact ⟨rfl, rfl⟩
  | next m env =>
    rw [step]
    have hlm : l ≠ m := by
      rintro rfl
      exact ho env rfl
    obtain ⟨-, -, -, -, -, hpc⟩ := next_other (s := s) hlm env
    rcases hpc with hpc | hpc <;> rw [hpc]
    · exact ⟨rfl, rfl⟩
    · cases (s.thread l).pc <;> exact ⟨rfl, rfl⟩

theorem wins_of {u : Setup} {ops : List Op} {l i : ℕ}
    (h : (((before u ops i).thread l).pc.early = false ∧ ((before u ops (i + 1)).thread l).pc.early = true) ∨
      (((before u ops i).thread l).pc.gathers = false ∧ ((before u ops (i + 1)).thread l).pc.gathers = true)) :
    Wins u ops l i := by
  cases ho : ops[i]? with
  | none =>
    rw [before_succ_none ho] at h
    rcases h with ⟨h1, h2⟩ | ⟨h1, h2⟩ <;> simp [h1] at h2
  | some o =>
    rw [before_succ ho] at h
    by_cases hl : ∃ env, o = .next l env
    · obtain ⟨env, rfl⟩ := hl
      obtain ⟨hpc, hc⟩ := wins_next h
      exact ⟨⟨⟨env, ho⟩, hpc⟩, hc⟩
    · obtain ⟨h1, h2⟩ := leads_other (s := before u ops i) fun env he => hl ⟨env, he⟩
      rw [h1, h2] at h
      rcases h with ⟨h1, h2⟩ | ⟨h1, h2⟩ <;> simp [h1] at h2

/-- the controller leaves its loop with the whole park count, and it is of all the others -/
theorem Gathering.count_of_leave {s : State} {l n : ℕ} (hb : Base s) (h : Gathering s l)
    (hpc : (s.thread l).pc = .waitLoad n) (hadd : ∀ k ∈ s.mutators, (s.thread k).pc ≠ .newAdd)
    (hn : ¬ n < s.nMutators - 1) : n = s.stwCount ∧ n + 1 = s.mutators.length := by
  have hlen := hb.length_le hadd
  have hcount := (h.leave hb hpc hn hadd).count
  simp only [Threads.goto_apply, if_true, Pc.zeroed, Bool.false_eq_true, if_false] at hcount
  have hle : n ≤ s.stwCount := by
    rw [h.count]
    refine (h.waiting n (.inl hpc)).trans (countIn_mono _ fun k _ hk => ?_)
    have hkl : k ≠ l := by
      rintro rfl
      rw [hpc] at hk
      cases hk
    simp [Thread.counted, h.blocked hkl hk]
  omega

theorem init_not_leads (u : Setup) (l : ℕ) : (u.init.thread l).pc.leads = false := (open_init u).not_leads l

section
variable {u : Setup} {ops : List Op} (hops : LegalRun step Steady u.init ops)
include hops

/-- a cycle begins in a state in which nobody is in one -/
theorem open_of_wins {l i : ℕ} (h : Wins u ops l i) : Open (before u ops i) := by
  rcases cycle_before hops i with h' | ⟨l', h'⟩ | ⟨l', h'⟩
  · exact h'
  · have hc := h'.controller
    rw [h.2] at hc
    exact absurd hc.symm (slot_ne_noController _)
  · exact absurd h.1.2 (h'.ne_cas (base_before u ops i) l)

/-- **The count is the cycle's own.** -/
theorem ownParks : OwnParks u ops := by
  classical
  intro l n j hj hstart
  have hb := base_before u ops j
  obtain ⟨i, hij, hno, hgathers⟩ := exists_since (P := fun k => ((before u ops k).thread l).pc.gathers = true) (j := j)
    (by
      intro h0
      have hleads := leads_of_gathers h0
      rw [before, stateAt_zero, init_not_leads] at hleads
      cases hleads)
    (by
      rw [hj.2]
      rfl)
  have hwins : Wins u ops l i :=
    wins_of (.inr ⟨Bool.eq_false_of_not_eq_true hno, hgathers (i + 1) (Nat.lt_succ_self i) hij⟩)
  have hopen := open_of_wins hops hwins
  have hgather : ∀ k, i < k → k ≤ j → Gathering (before u ops k) l := fun k h1 h2 =>
    (phase_before u (steady_noLateNew hops) k).gathering (base_before u ops k) (hgathers k h1 h2)
  have hcount := count_between (f := fun k => (before u ops k).stwCount) hij.le fun k h1 h2 => by
    apply stwCount_succ
    intro m hm
    have hrun : Running (before u ops k) := by
      rcases eq_or_lt_of_le h1 with rfl | h1
      · exact .inl hopen
      · exact .inr ⟨l, hgather k h1 h2.le⟩
    have hstops := hrun.not_stops m
    rw [hm] at hstops
    cases hstops
  have hg := hgather j hij (le_refl j)
  obtain ⟨hn, hlen⟩ := hg.count_of_leave hb hj.2 (fun k _ => (settled_before hops j k).2)
    (by
      obtain ⟨env, ho⟩ := hj.1
      rw [before_succ ho, step] at hstart
      intro hlt
      simp [next, hj.2, hlt] at hstart)
  refine ⟨i, hij, hwins, hgathers, hopen.count, hlen, (Finset.Ico i j).filter (Parks u ops), fun k => ?_, ?_⟩
  · rw [Finset.mem_filter, Finset.mem_Ico]
  · rw [hn, hcount, hopen.count, Nat.zero_add]

end

/-! ## The roots -/

/-- `r` is the result of the stack scan that thread `m` makes with step `k` -/
def Scans (u : Setup) (ops : List Op) (m : ℕ) (r : List ℕ) (k : ℕ) : Prop :=
  ∃ env, ops[k]? = some (.next m env) ∧ (∃ saw, ((before u ops k).thread m).pc = .scan saw) ∧
    r = stackScan ((before u ops k).spaces ((before u ops k).thread m).space) env

/-- what `start_trace` drains with step `d` consists of one piece for each registered mutator, the result of its only
stack scan since the controller became controller, and of every stack scan made since -/
def OwnScans (u : Setup) (ops : List Op) : Prop :=
  ∀ l d, StepAt u ops l .gcDrain d → ∃ i < d, Wins u ops l i ∧
    (∀ k, i < k → k ≤ d → ((before u ops k).thread l).pc.leads = true) ∧ (before u ops (d + 1)).drained.Nodup ∧
    (∀ m ∈ (before u ops d).mutators, ∃! k, (i < k ∧ k < d) ∧ ∃ r, Scans u ops m r k) ∧
    (∀ m r, (m, r) ∈ (before u ops (d + 1)).drained → m ∈ (before u ops d).mutators) ∧
    ∀ m r, (m, r) ∈ (before u ops (d + 1)).drained ↔ ∃ k, (i < k ∧ k < d) ∧ Scans u ops m r k

/-- past the stack scan of a cycle whose roots are not yet drained -/
def Pc.scanned : Pc → Bool
  | append _ | assertNe _ | parkLock | parkFlag | asleep | waitLoad _ | waitRead _ => true
  | gcStart | gcLockRoots | gcDrain => true
  | _ => false

/-- has scanned its stack for the cycle under way -/
def Thread.scanned (t : Thread) : Bool := t.pc.scanned || (t.pc = .parkLoop && t.stillBlocked)

theorem Thread.Calm.not_scanned {t : Thread} (h : t.Calm) : t.scanned = false := by
  obtain ⟨hpc, hb⟩ := h
  unfold scanned
  cases hp : t.pc <;> simp_all [Pc.calm, Pc.leads, Pc.gathers, Pc.stops, Pc.scanned]

theorem scanned_congr {t t' : Thread} (hpc : t'.pc = t.pc) (hb : t'.stillBlocked = t.stillBlocked) :
    t'.scanned = t.scanned := by
  unfold Thread.scanned
  rw [hpc, hb]

/-- a scan is made at a step of its own -/
theorem scanned_next {s : State} {m : ℕ} {env : Env} (hw : (s.thread m).pc = .woken → (s.thread m).stillBlocked = false)
    (h : (s.thread m).scanned = false) (h' : ((next s m env).thread m).scanned = true) :
    (∃ saw, (s.thread m).pc = .scan saw) ∧
      ((next s m env).thread m).threadRoots = stackScan (s.spaces (s.thread m).space) env := by
  unfold Thread.scanned at h h'
  cases hpc : (s.thread m).pc
  case' append saw => cases saw
  case' trigSet todo => cases todo
  case' clearYield todo => cases todo
  case' yieldpoint | parkReset | resumeUnlock => cases hret : (s.thread m).ret
  all_goals
    simp only [next, hpc] at h h' ⊢
    repeat' split at h'
  all_goals simp_all [State.returnBlock, Ret.pc, Pc.scanned]

/-- nobody else makes a thread scanned -/
theorem scanned_other {s : State} {m k : ℕ} {env : Env} (hk : k ≠ m)
    (h : ((next s m env).thread k).scanned = true) : (s.thread k).scanned = true := by
  unfold Thread.scanned at h ⊢
  cases hpc : (s.thread m).pc
  case resumeNotify =>
    simp only [next, hpc, Threads.goto_apply, hk, if_false, Threads.notifyAll_apply] at h
    cases hp : (s.thread k).pc <;> simp_all [Pc.wake, Pc.scanned]
  case' trigSet todo => cases todo
  case' clearYield todo => cases todo
  all_goals
    simp only [next, hpc] at h
    repeat' split at h
  all_goals simp_all [State.returnBlock, Threads.set_of_ne]
  exact h.imp_right fun hp => ⟨hp.1, hp.2.2⟩

/-- a thread's roots are those of its last scan -/
theorem threadRoots_next {s : State} {m : ℕ} {env : Env} (h : ∀ saw, (s.thread m).pc ≠ .scan saw) :
    ((next s m env).thread m).threadRoots = (s.thread m).threadRoots := by
  cases hpc : (s.thread m).pc
  case' append saw => cases saw
  case' trigSet todo => cases todo
  case' clearYield todo => cases todo
  all_goals
    simp only [next, hpc]
    repeat' split
  all_goals simp_all [State.returnBlock]

theorem leads_of_early {pc : Pc} (h : pc.early = true) : pc.leads = true := by
  cases pc <;> simp_all [Pc.early, Pc.gathers, Pc.undrained, Pc.leads, Pc.stops]

/-- while the controller gathers, a thread that has scanned goes on to sleep, or to gc() -/
theorem Gathering.scanned_next {s : State} {l m : ℕ} (hb : Base s) (h : Gathering s l)
    (hm : (s.thread m).scanned = true) (env : Env) : ((next s m env).thread m).scanned = true := by
  have hcyc : (s.thread m).pc.gathers = true ∨
      ((s.thread m).Joining (s.thread l).slot ∧ (s.thread m).slot ≠ (s.thread l).slot) := by
    rcases eq_or_ne m l with rfl | hml
    · exact .inl h.lead
    · have hj := (h.others m hml).resolve_left fun hc => by
        rw [hc.not_scanned] at hm
        cases hm
      exact .inr ⟨hj, fun heq => hml (hb.slot_inj m ((hb.mem m).2 hj.registered) l (h.lead_mem hb) heq)⟩
  unfold Thread.Joining at hcyc
  unfold Thread.scanned at hm ⊢
  cases hpc : (s.thread m).pc
  case' append saw => cases saw
  all_goals
    simp only [hpc, Pc.gathers, Pc.scanned, Bool.false_eq_true, false_or] at hcyc hm
  all_goals
    simp only [next, hpc]
    repeat' split
  all_goals simp_all [Pc.scanned]
  -- the controller that it saw is another mutator
  exact absurd hcyc.1.1 hcyc.2

theorem Stopped.asleep_of_undrained {s : State} {l m : ℕ} (h : Stopped s l) (hl : (s.thread l).pc.undrained = true)
    (hm : m ∈ s.mutators) (hml : m ≠ l) : (s.thread m).pc = .asleep := by
  rw [h.others m hm hml]
  cases hp : (s.thread l).pc <;> simp_all [Pc.undrained, Pc.others]

/-- a sleeper is woken or sleeps on -/
theorem asleep_step {s : State} {m : ℕ} (h : (s.thread m).pc = .asleep) (o : Op) :
    ((step s o).thread m).pc.registered = true := by
  cases o with
  | call n c =>
    rw [step]
    rcases eq_or_ne m n with rfl | hmn
    · rw [call_eq_self (by simp [h]) (by simp [h]), h]
      rfl
    · rw [call_other hmn, h]
      rfl
  | next n env =>
    rw [step]
    rcases eq_or_ne m n with rfl | hmn
    · simp only [next, h]
      rfl
    · obtain ⟨-, -, -, -, -, hpc⟩ := next_other (s := s) hmn env
      rcases hpc with hpc | hpc <;> rw [hpc, h] <;> rfl

theorem Stopped.all_scanned {s : State} {l m : ℕ} (h : Stopped s l) (hl : (s.thread l).pc.undrained = true)
    (hm : m ∈ s.mutators) : (s.thread m).scanned = true := by
  unfold Thread.scanned
  rcases eq_or_ne m l with rfl | hml
  · cases hp : (s.thread m).pc <;> simp_all [Pc.undrained, Pc.scanned]
  · rw [h.asleep_of_undrained hl hm hml]
    rfl

theorem registered_of_scanned {t : Thread} (h : t.scanned = true) : t.pc.registered = true := by
  unfold Thread.scanned at h
  cases hp : t.pc <;> simp_all [Pc.scanned, Pc.registered]

section
variable {u : Setup} {ops : List Op}

theorem Scans.eq {m k : ℕ} {r r' : List ℕ} (h : Scans u ops m r k) (h' : Scans u ops m r' k) : r = r' := by
  obtain ⟨env, ho, -, rfl⟩ := h
  obtain ⟨env', ho', -, rfl⟩ := h'
  rw [ho] at ho'
  cases ho'
  rfl

/-- a thread that has made a scan has scanned -/
theorem Scans.scanned {m k : ℕ} {r : List ℕ} (h : Scans u ops m r k) :
    ((before u ops k).thread m).scanned = false ∧ ((before u ops (k + 1)).thread m).scanned = true := by
  obtain ⟨env, ho, ⟨saw, hpc⟩, -⟩ := h
  rw [before_succ ho]
  simp [Thread.scanned, Pc.scanned, step, next, hpc]

theorem threadRoots_succ {m k : ℕ} (h : ((before u ops k).thread m).scanned = true) :
    ((before u ops (k + 1)).thread m).threadRoots = ((before u ops k).thread m).threadRoots := by
  cases ho : ops[k]? with
  | none => rw [before_succ_none ho]
  | some o =>
    rw [before_succ ho]
    cases o with
    | call n c =>
      rw [step]
      rcases eq_or_ne m n with rfl | hmn
      · rw [call_eq_self]
        all_goals
          intro hp
          rw [Thread.scanned, hp] at h
          cases h
      · rw [call_other hmn]
    | next n env =>
      rw [step]
      rcases eq_or_ne m n with rfl | hmn
      · apply threadRoots_next
        intro saw hp
        rw [Thread.scanned, hp] at h
        cases h
      · exact (next_other hmn env).2.2.2.2.1

end

section
variable {u : Setup} {ops : List Op} (hops : LegalRun step Steady u.init ops)
include hops

/-- the phase at step `k`, when the controller acts before the drain -/
theorem early_phase {l k : ℕ} (h : ((before u ops k).thread l).pc.early = true) :
    Gathering (before u ops k) l ∨ (Stopped (before u ops k) l ∧ ((before u ops k).thread l).pc.undrained = true) := by
  have hphase := phase_before u (steady_noLateNew hops) k
  by_cases hg : ((before u ops k).thread l).pc.gathers = true
  · exact .inl (hphase.gathering (base_before u ops k) hg)
  · have hu : ((before u ops k).thread l).pc.undrained = true := by
      simpa [Pc.early, hg] using h
    refine .inr ⟨hphase.stopped ?_, hu⟩
    cases hp : ((before u ops k).thread l).pc <;> simp_all [Pc.undrained, Pc.stops]

/-- until the drain, a thread that has scanned stays so -/
theorem scanned_succ {l m k : ℕ} (hk : ((before u ops k).thread l).pc.early = true)
    (hk' : ((before u ops (k + 1)).thread l).pc.early = true) (hm : ((before u ops k).thread m).scanned = true) :
    ((before u ops (k + 1)).thread m).scanned = true := by
  have hb := base_before u ops k
  rcases early_phase hops hk with hg | ⟨hs, hundrained⟩
  · cases ho : ops[k]? with
    | none =>
      rw [before_succ_none ho]
      exact hm
    | some o =>
      rw [before_succ ho]
      cases o with
      | call n c =>
        rw [step]
        rcases eq_or_ne m n with rfl | hmn
        · rw [call_eq_self]
          · exact hm
          all_goals
            intro hp
            rw [Thread.scanned, hp] at hm
            cases hm
        · rw [call_other hmn]
          exact hm
      | next n env =>
        rw [step]
        rcases eq_or_ne m n with rfl | hmn
        · exact hg.scanned_next hb hm env
        · obtain ⟨hpc, hblocked⟩ := next_other_stays hmn (Running.not_stops (.inr ⟨l, hg⟩) n) env
          rw [scanned_congr hpc hblocked]
          exact hm
  · -- the world stays stopped, and its mutators asleep
    have hreg := (hb.mem m).2 (registered_of_scanned hm)
    rcases stopped_succ hops hs with hs' | hopen
    · have hu : ((before u ops (k + 1)).thread l).pc.undrained = true := by
        simpa [Pc.early, not_gathers_of_stops hs'.lead] using hk'
      refine hs'.all_scanned hu ?_
      rcases eq_or_ne m l with rfl | hml
      · exact hs'.lead_mem (base_before u ops (k + 1))
      · rw [(base_before u ops (k + 1)).mem]
        have hasleep := hs.asleep_of_undrained hundrained hreg hml
        cases ho : ops[k]? with
        | none =>
          rw [before_succ_none ho, hasleep]
          rfl
        | some o =>
          rw [before_succ ho]
          exact asleep_step hasleep o
    · have hnone := hopen.not_leads l
      rw [leads_of_early hk'] at hnone
      cases hnone

theorem woken_unblocked {m k : ℕ} (h : ((before u ops k).thread m).pc = .woken) :
    ((before u ops k).thread m).stillBlocked = false := by
  rcases cycle_before hops k with hs | hs | ⟨l, hs⟩
  · exact Running.woken (.inl hs) h
  · exact Running.woken (.inr hs) h
  · have hreg : m ∈ (before u ops k).mutators := by
      rw [(base_before u ops k).mem, h]
      rfl
    have hml : m ≠ l := by
      rintro rfl
      have hl := hs.lead
      rw [h] at hl
      cases hl
    have hpc := hs.others m hreg hml
    rw [h] at hpc
    cases hp : ((before u ops k).thread l).pc
    case resumeUnlock => exact (hs.cleared m hreg (by rw [hp]; rfl)).2
    all_goals simp [hp, Pc.others] at hpc

/-- the step with which a thread comes to have scanned is its scan -/
theorem scans_of {m k : ℕ} (h : ((before u ops k).thread m).scanned = false)
    (h' : ((before u ops (k + 1)).thread m).scanned = true) :
    Scans u ops m ((before u ops (k + 1)).thread m).threadRoots k := by
  cases ho : ops[k]? with
  | none =>
    rw [before_succ_none ho, h] at h'
    cases h'
  | some o =>
    rw [before_succ ho] at h' ⊢
    cases o with
    | call n c =>
      rw [step] at h'
      rcases eq_or_ne m n with rfl | hmn
      · cases c
        all_goals
          simp only [call] at h'
          split at h' <;> simp_all [Thread.scanned, Pc.scanned]
      · rw [call_other hmn, h] at h'
        cases h'
    | next n env =>
      rw [step] at h' ⊢
      rcases eq_or_ne m n with rfl | hmn
      · obtain ⟨hpc, hr⟩ := scanned_next (woken_unblocked hops) h h'
        exact ⟨env, ho, hpc, hr⟩
      · rw [scanned_other hmn h'] at h
        cases h

/-- what has scanned stays so until the drain -/
theorem scanned_until {l m i k d : ℕ} (hearly : ∀ k, i < k → k ≤ d → ((before u ops k).thread l).pc.early = true)
    (hik : i < k) (hm : ((before u ops k).thread m).scanned = true) {n : ℕ} (hkn : k ≤ n) (hnd : n ≤ d) :
    ((before u ops n).thread m).scanned = true := by
  induction n, hkn using Nat.le_induction with
  | base => exact hm
  | succ n hkn ih =>
    exact scanned_succ hops (hearly n (by omega) (by omega)) (hearly (n + 1) (by omega) (by omega))
      (ih (Nat.le_of_succ_le hnd))

/-- a mutator of a stopped world made one scan since the controller became controller -/
theorem own_scan {l m i d : ℕ} (hid : i < d) (hopen : Open (before u ops i)) (hwins : Wins u ops l i)
    (hearly : ∀ k, i < k → k ≤ d → ((before u ops k).thread l).pc.early = true)
    (hm : ((before u ops d).thread m).scanned = true) :
    ∃ k, (i < k ∧ k < d) ∧ Scans u ops m ((before u ops d).thread m).threadRoots k ∧
      ∀ k' r, i < k' → k' < d → Scans u ops m r k' → k' = k := by
  have hnot : ¬ ((before u ops i).thread m).scanned = true := by
    rw [(hopen.calm m).not_scanned]
    exact Bool.false_ne_true
  obtain ⟨k, hkd, hno, hscanned⟩ := exists_since (P := fun k => ((before u ops k).thread m).scanned = true) (j := d)
    (by
      rw [before, stateAt_zero, ((open_init u).calm m).not_scanned]
      exact Bool.false_ne_true) hm
  have hscan := scans_of hops (Bool.eq_false_of_not_eq_true hno) (hscanned (k + 1) (Nat.lt_succ_self k) hkd)
  have hik : i < k := by
    rcases Nat.lt_trichotomy i k with h | rfl | h
    · exact h
    · -- step `i` is the controller's compare_exchange
      obtain ⟨env, ho, ⟨saw, hpc⟩, -⟩ := hscan
      obtain ⟨rfl, hcas⟩ := (stepAt_iff ho).1 hwins.1
      rw [hcas] at hpc
      cases hpc
    · exact absurd (hscanned i h hid.le) hnot
  have hroots : ((before u ops d).thread m).threadRoots = ((before u ops (k + 1)).thread m).threadRoots := by
    have hall : ∀ n, k + 1 ≤ n → n ≤ d →
        ((before u ops n).thread m).threadRoots = ((before u ops (k + 1)).thread m).threadRoots := by
      intro n hn
      induction n, hn using Nat.le_induction with
      | base => exact fun _ => rfl
      | succ n hn ih =>
        intro hnd
        rw [threadRoots_succ (hscanned n hn (Nat.le_of_succ_le hnd)), ih (Nat.le_of_succ_le hnd)]
    exact hall d hkd (le_refl d)
  refine ⟨k, ⟨hik, hkd⟩, hroots ▸ hscan, fun k' r h1 h2 hs => ?_⟩
  obtain ⟨hbefore, hafter⟩ := Scans.scanned hs
  rcases Nat.lt_trichotomy k' k with h | h | h
  · exact absurd (scanned_until hops hearly (by omega) hafter h hkd.le) hno
  · exact h
  · rw [hscanned k' h h2.le] at hbefore
    cases hbefore

/-- **The roots are the cycle's own.** -/
theorem ownScans : OwnScans u ops := by
  intro l d hd
  have hb := base_before u ops d
  obtain ⟨i, hid, hno, hearly⟩ := exists_since (P := fun k => ((before u ops k).thread l).pc.early = true) (j := d)
    (by
      intro h0
      have hleads := leads_of_early h0
      rw [before, stateAt_zero, init_not_leads] at hleads
      cases hleads)
    (by
      rw [hd.2]
      rfl)
  have hwins : Wins u ops l i :=
    wins_of (.inl ⟨Bool.eq_false_of_not_eq_true hno, hearly (i + 1) (Nat.lt_succ_self i) hid⟩)
  have hopen := open_of_wins hops hwins
  have hs : Stopped (before u ops d) l := (phase_before u (steady_noLateNew hops) d).stopped (by rw [hd.2]; rfl)
  have hu : ((before u ops d).thread l).pc.undrained = true := by
    rw [hd.2]
    rfl
  have hdrained : (before u ops (d + 1)).drained = (before u ops d).roots := by
    obtain ⟨env, ho⟩ := hd.1
    rw [before_succ ho]
    simp [step, next, hd.2]
  have hpieces := hs.roots
  rw [if_pos hu] at hpieces
  rw [hdrained]
  refine ⟨i, hid, hwins, fun k h1 h2 => leads_of_early (hearly k h1 h2), hpieces.1, fun m hm => ?_,
    fun m r hmr => ((hpieces.2 _).1 hmr).1, fun m r => ?_⟩
  · obtain ⟨k, hk, hscan, huniq⟩ := own_scan hops hid hopen hwins hearly (hs.all_scanned hu hm)
    exact ⟨k, ⟨hk, _, hscan⟩, fun k' hk' => hk'.2.elim fun r hr => huniq k' r hk'.1.1 hk'.1.2 hr⟩
  · rw [hpieces.2]
    constructor
    · rintro ⟨hm, hr⟩
      obtain ⟨k, hk, hscan, -⟩ := own_scan hops hid hopen hwins hearly (hs.all_scanned hu hm)
      rw [show r = _ from hr]
      exact ⟨k, hk, hscan⟩
    · rintro ⟨k, hk, hr⟩
      have hscanned := scanned_until hops hearly (by omega) hr.scanned.2 hk.2 (le_refl d)
      obtain ⟨k', hk', hscan, huniq⟩ := own_scan hops hid hopen hwins hearly hscanned
      obtain rfl := huniq k r hk.1 hk.2 hr
      exact ⟨(hb.mem m).2 (registered_of_scanned hscanned), hr.eq hscan⟩

end

/-! ## The whole passage -/

/-- nothing is left of the cycle -/
structure AtRest (s : State) : Prop where
  count : s.stwCount = 0
  controller : s.controller = noController
  roots : s.roots = []
  flags : ∀ m ∈ s.mutators, (s.thread m).takeYield = false ∧ (s.thread m).stillBlocked = false

theorem Stopped.atRest {s : State} {l : ℕ} (h : Stopped s l) (hp : (s.thread l).pc = .resumeUnlock) : AtRest s where
  count := by simpa [hp, Pc.zeroed] using h.count
  controller := by simpa [hp, Pc.owns] using h.controller
  roots := by simpa [hp, Pc.undrained] using h.roots
  flags := fun m hm => h.cleared m hm (by rw [hp]; rfl)

/-- **One collection per passage.** -/
theorem one_collection_per_passage (u : Setup) (ops : List Op) (hops : LegalRun step Steady u.init ops) :
    (∀ m i j, Passage u ops m i j → OneGc u ops i j) ∧ OwnParks u ops ∧ OwnScans u ops ∧
      ∀ l k, StepAt u ops l .resumeUnlock k → AtRest (before u ops k) ∧ AtRest (before u ops (k + 1)) := by
  refine ⟨fun m i j h => passage_oneGc hops h, ownParks hops, ownScans hops, fun l k hk => ?_⟩
  have hs : Stopped (before u ops k) l := (phase_before u (steady_noLateNew hops) k).stopped (by rw [hk.2]; rfl)
  have hrest := hs.atRest hk.2
  refine ⟨hrest, ?_⟩
  obtain ⟨env, ho⟩ := hk.1
  rw [before_succ ho]
  simp only [step, next, hk.2]
  exact ⟨hrest.count, hrest.controller, hrest.roots, by simpa using hrest.flags⟩

/-- mutators 0 and 1 are registered, for one space of one block -/
def pair : Setup where
  spaces := fun _ => Space.oneBlock
  mutators := [0, 1]
  slot := id
  space := fun _ => 0
  debugAssertions := false
  nodup := by simp
  slot_inj := by simp

/-- mutator 0 requests a collection, mutator 1 parks and sees it through, mutator 0 leaves by `destroy` -/
def passThrough : List Op :=
  .call 0 .requestGc :: steps 0 9 ++ .call 1 .yieldpoint :: steps 1 9 ++ steps 0 20 ++ steps 1 5 ++
    .call 0 .destroy :: steps 0 4

theorem one_collection_per_passage_pair :
    Passage pair passThrough 1 12 42 ∧ OneGc pair passThrough 12 42 ∧
      StepAt pair passThrough 0 .resumeUnlock 38 ∧ AtRest (before pair passThrough 39) := by
  have hall : ∀ k ∈ List.range' 12 31, ((before pair passThrough k).thread 1).pc.inBarrier = true := by decide +kernel
  have hpassage : Passage pair passThrough 1 12 42 :=
    ⟨by decide +kernel, by norm_num, fun k h1 h2 => hall k (List.mem_range'_1.2 ⟨h1, by omega⟩), by decide +kernel⟩
  have hlast : StepAt pair passThrough 0 .resumeUnlock 38 := ⟨⟨{}, rfl⟩, by decide +kernel⟩
  obtain ⟨hone, -, -, hrest⟩ := one_collection_per_passage pair passThrough (by decide +kernel)
  exact ⟨hpassage, hone 1 12 42 hpassage, hlast, (hrest 0 38 hlast).2⟩

end Immix.Barrier
