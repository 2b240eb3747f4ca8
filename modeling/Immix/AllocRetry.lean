/-
A mutator that finds no usable block asks again only after a collection (the loop of `alloc_from_global`,
`heap/immix/immix_mutator.rs`, with `trigger_gc` and the yieldpoint).

The mutator sets its own `take_yield` along with everybody's, and nobody clears it before the mutator itself has gone
through the barrier: flags are cleared when every registered mutator is parked.
- `Triggering`: from the failed request to the entry of `sync_barrier`.
- `triggering_step`: a step keeps it, or takes the mutator into the barrier.
- `one_gc_per_retry`: between a failed request and the next one there is one execution of gc().
-/
import Immix.SweepAccount
import Immix.Passage

namespace Immix.Barrier

open Immix.Lib

/-! ## From the failed request to the barrier -/

/-- mutator `m` is on its way to the barrier from the loop of `alloc_from_global`, and its flag is or will be set -/
def Triggering (s : State) (m : ℕ) : Prop :=
  (s.thread m).ret = .allocLoop ∧
    match (s.thread m).pc with
    | .trigLock => True
    | .trigSet todo => m ∈ todo ∨ (s.thread m).takeYield = true
    | .yieldpoint => (s.thread m).takeYield = true
    | _ => False

theorem Triggering.pc {s : State} {m : ℕ} (h : Triggering s m) :
    (s.thread m).pc = .trigLock ∨ (∃ todo, (s.thread m).pc = .trigSet todo) ∨ (s.thread m).pc = .yieldpoint := by
  have hpc := h.2
  cases hp : (s.thread m).pc <;> simp_all

/-- a flag that is set stays so, but for the controller's clearing -/
theorem takeYield_other {s : State} {m k : ℕ} {env : Env} (hk : k ≠ m)
    (hclear : ∀ todo, (s.thread k).pc ≠ .clearYield todo) (h : (s.thread m).takeYield = true) :
    ((next s k env).thread m).takeYield = true := by
  cases hpc : (s.thread k).pc
  case' trigSet todo => cases todo
  case' clearYield todo => exact absurd hpc (hclear todo)
  all_goals simp only [next, hpc]
  all_goals repeat' split
  all_goals simp [State.returnBlock, Threads.set_of_ne, hk.symm, h]

/-- the mutator's own step -/
theorem triggering_next {s : State} (hb : Base s) {m : ℕ} (h : Triggering s m) (env : Env) :
    Triggering (next s m env) m ∨ ((next s m env).thread m).pc = .cas ∧ ((next s m env).thread m).ret = .allocLoop := by
  obtain ⟨hret, hpc⟩ := h
  have hmem := hb.mem m
  unfold Triggering
  cases hp : (s.thread m).pc with
  | trigLock =>
    rw [hp] at hmem
    simp only [next, hp]
    split
    · simp [hret, hmem.2 rfl]
    · simp [hret, hp]
  | trigSet todo =>
    rw [hp] at hpc
    cases todo with
    | nil =>
      simp only [List.not_mem_nil, false_or] at hpc
      simp [next, hp, hret, hpc]
    | cons k todo =>
      simp only [List.mem_cons] at hpc
      simp only [next, hp]
      left
      rcases eq_or_ne m k with rfl | hmk
      · simp [hret]
      · simpa [hret, hmk] using hpc
  | yieldpoint =>
    rw [hp] at hpc
    simp only at hpc
    simp [next, hp, hret, hpc]
  | _ =>
    rw [hp] at hpc
    exact hpc.elim

/-- **Step lemma.** Until it enters the barrier the mutator stays on its way, in a world that is not stopped. -/
theorem triggering_step {s : State} (hb : Base s) (hphase : Phase s) {m : ℕ} (h : Triggering s m) (o : Op) :
    Triggering (step s o) m ∨ ((step s o).thread m).pc = .cas ∧ ((step s o).thread m).ret = .allocLoop := by
  cases o with
  | call k c =>
    rw [step]
    rcases eq_or_ne m k with rfl | hmk
    · left
      rw [call_eq_self]
      · exact h
      all_goals
        intro hp
        have hpc := h.2
        rw [hp] at hpc
        exact hpc
    · left
      unfold Triggering
      rw [call_other hmk]
      exact h
  | next k env =>
    rw [step]
    rcases eq_or_ne m k with rfl | hmk
    · exact triggering_next hb h env
    · -- the controller clears flags while every registered mutator is parked, and this one is not
      have hclear : ∀ todo, (s.thread k).pc ≠ .clearYield todo := by
        intro todo hp
        have hs : Stopped s k := hphase.stopped (by rw [hp]; rfl)
        have hm : m ∈ s.mutators := by
          rw [hb.mem]
          rcases h.pc with h | ⟨todo, h⟩ | h <;> rw [h] <;> rfl
        have hpark := hs.others m hm hmk
        simp only [hp, Pc.others] at hpark
        rcases h.pc with h | ⟨todo, h⟩ | h <;> rw [h] at hpark <;> cases hpark
      obtain ⟨hret, -, -, -, -, hpc⟩ := next_other (s := s) hmk env
      have hsame : ((next s k env).thread m).pc = (s.thread m).pc := by
        rcases hpc with hpc | hpc
        · exact hpc
        · rw [hpc]
          rcases h.pc with h | ⟨todo, h⟩ | h <;> rw [h] <;> rfl
      left
      refine ⟨hret.trans h.1, ?_⟩
      have hold := h.2
      rw [hsame]
      cases hp : (s.thread m).pc with
      | trigLock => trivial
      | trigSet todo =>
        rw [hp] at hold
        exact hold.imp_right (takeYield_other hmk.symm hclear)
      | yieldpoint =>
        rw [hp] at hold
        exact takeYield_other hmk.symm hclear hold
      | _ =>
        rw [hp] at hold
        exact hold.elim

/-! ## The way out -/

/-- only a call of the client says where a yieldpoint returns to -/
theorem ret_next (s : State) (m k : ℕ) (env : Env) : ((next s m env).thread k).ret = (s.thread k).ret := by
  rcases eq_or_ne k m with rfl | hk
  · cases hpc : (s.thread k).pc
    case' trigSet todo => cases todo
    case' clearYield todo => cases todo
    all_goals simp only [next, hpc]
    all_goals repeat' split
    all_goals simp [State.returnBlock]
  · exact (next_other hk env).1

theorem ret_step {s : State} {m : ℕ} (hm : (s.thread m).pc.inBarrier = true) (o : Op) :
    ((step s o).thread m).ret = (s.thread m).ret := by
  cases o with
  | call k c =>
    rw [step]
    rcases eq_or_ne m k with rfl | hmk
    · rw [call_eq_self]
      all_goals
        intro hp
        rw [hp] at hm
        cases hm
    · rw [call_other hmk]
  | next k env => exact ret_next s k m env

/-- a mutator leaves the barrier by a step of its own, to where its `ret` says -/
theorem leave_step {s : State} {m : ℕ} {o : Op} (hm : (s.thread m).pc.inBarrier = true)
    (hm' : ((step s o).thread m).pc.inBarrier = false) :
    ∃ env, o = .next m env ∧ ((step s o).thread m).pc = (s.thread m).ret.pc := by
  have hpc := leaves_barrier hm hm'
  cases o with
  | call k c =>
    have hself : call s k c = s ∨ m ≠ k := by
      rcases eq_or_ne m k with rfl | hmk
      · left
        rw [call_eq_self]
        all_goals
          intro hp
          rw [hp] at hm
          cases hm
      · exact .inr hmk
    rw [step] at hm'
    rcases hself with hself | hmk
    · rw [hself, hm] at hm'
      cases hm'
    · rw [call_other hmk, hm] at hm'
      cases hm'
  | next k env =>
    rcases eq_or_ne m k with rfl | hmk
    · refine ⟨env, rfl, ?_⟩
      rcases hpc with hpc | hpc <;> simp [step, next, hpc]
    · obtain ⟨-, -, -, -, -, hother⟩ := next_other (s := s) hmk env
      rw [step] at hm'
      have hsame : ((next s k env).thread m).pc = (s.thread m).pc := by
        rcases hother with h | h
        · exact h
        · rw [h]
          rcases hpc with hpc | hpc <;> rw [hpc] <;> rfl
      rw [hsame, hm] at hm'
      cases hm'

/-! ## Runs -/

section
variable {u : Setup} {ops : List Op} (hops : LegalRun step Steady u.init ops)
include hops

/-- while a registered mutator is neither parked nor controller, no step begins or ends an execution of gc() -/
theorem no_gc_step {m k : ℕ} (hm : ((before u ops k).thread m).pc.registered = true)
    (hleads : ((before u ops k).thread m).pc.leads = false)
    (hpark : ((before u ops k).thread m).pc ≠ .asleep ∧ ((before u ops k).thread m).pc ≠ .woken) (l : ℕ) :
    ¬ StepAt u ops l .gcStart k ∧ ¬ StepAt u ops l .gcFlip k := by
  have hb := base_before u ops k
  have hnot : ((before u ops k).thread l).pc.stops = false := by
    by_contra hl
    have hs : Stopped (before u ops k) l :=
      (phase_before u (steady_noLateNew hops) k).stopped (Bool.eq_true_of_not_eq_false hl)
    rcases hs.eq_or ((hb.mem m).2 hm) with rfl | h | h
    · rw [Pc.leads, hs.lead, Bool.or_true] at hleads
      cases hleads
    · exact hpark.1 h
    · exact hpark.2 h
  constructor
  · rintro ⟨-, hl⟩
    rw [hl] at hnot
    cases hnot
  · rintro ⟨-, hl⟩
    rw [hl] at hnot
    cases hnot

/-- a mutator on its way to the barrier enters it before it does anything else -/
theorem enters_barrier {m i j : ℕ} (hij : i ≤ j) (hi : Triggering (before u ops i) m)
    (hj : ¬ Triggering (before u ops j) m) :
    ∃ e, i < e ∧ e ≤ j ∧ (∀ k, i ≤ k → k < e → Triggering (before u ops k) m) ∧
      ((before u ops e).thread m).pc = .cas ∧ ((before u ops e).thread m).ret = .allocLoop := by
  obtain ⟨e, hie, hej, hnot, hall⟩ := exists_first (P := fun k => Triggering (before u ops k) m) hij hi hj
  refine ⟨e, hie, hej, hall, ?_⟩
  obtain ⟨k, rfl⟩ := Nat.exists_eq_succ_of_ne_zero (Nat.ne_zero_of_lt hie)
  have htrig := hall k (Nat.le_of_lt_succ hie) (Nat.lt_succ_self k)
  cases ho : ops[k]? with
  | none =>
    rw [Nat.succ_eq_add_one, before_succ_none ho] at hnot
    exact absurd htrig hnot
  | some o =>
    rw [Nat.succ_eq_add_one, before_succ ho] at hnot ⊢
    exact (triggering_step (base_before u ops k) (phase_before u (steady_noLateNew hops) k) htrig o).resolve_left hnot

end

/-- a mutator in the barrier comes out of it by a step of its own, to where its `ret` says -/
theorem passes_barrier {u : Setup} {ops : List Op} {m i j : ℕ} (hij : i ≤ j) (hi : ((before u ops i).thread m).pc = .cas)
    (hj : ((before u ops j).thread m).pc.inBarrier = false) :
    ∃ r, Passage u ops m i r ∧ r < j ∧ (∃ env, ops[r]? = some (.next m env)) ∧
      ((before u ops (r + 1)).thread m).pc = ((before u ops i).thread m).ret.pc := by
  obtain ⟨e, hie, hej, hnot, hall⟩ := exists_first (P := fun k => ((before u ops k).thread m).pc.inBarrier = true) hij
    (by rw [hi]; rfl) (by rw [hj]; exact Bool.false_ne_true)
  obtain ⟨r, rfl⟩ := Nat.exists_eq_succ_of_ne_zero (Nat.ne_zero_of_lt hie)
  have hduring : ∀ k, i ≤ k → k ≤ r → ((before u ops k).thread m).pc.inBarrier = true := fun k h1 h2 =>
    hall k h1 (Nat.lt_succ_of_le h2)
  have hir : i ≤ r := Nat.le_of_lt_succ hie
  have hret : ∀ k, i ≤ k → k ≤ r → ((before u ops k).thread m).ret = ((before u ops i).thread m).ret := by
    intro k hk
    induction k, hk using Nat.le_induction with
    | base => exact fun _ => rfl
    | succ k hk ih =>
      intro hkr
      rw [← ih (Nat.le_of_succ_le hkr)]
      cases ho : ops[k]? with
      | none => rw [before_succ_none ho]
      | some o =>
        rw [before_succ ho]
        exact ret_step (hduring k hk (Nat.le_of_succ_le hkr)) o
  have hout := Bool.eq_false_of_not_eq_true hnot
  have hin := hduring r hir le_rfl
  have hpassage : Passage u ops m i r := ⟨hi, hir, hduring, hout⟩
  refine ⟨r, hpassage, hej, ?_⟩
  rw [← hret r hir le_rfl]
  cases ho : ops[r]? with
  | none =>
    rw [Nat.succ_eq_add_one, before_succ_none ho, hin] at hout
    cases hout
  | some o =>
    rw [Nat.succ_eq_add_one, before_succ ho] at hout
    rw [before_succ ho]
    obtain ⟨env, rfl, hpc⟩ := leave_step hin hout
    exact ⟨⟨env, rfl⟩, hpc⟩

/-- a mutator asks for a block from the loop of `alloc_from_global` only -/
theorem ret_of_allocSteal (u : Setup) (ops : List Op) (n m : ℕ) (h : ((before u ops n).thread m).pc = .allocSteal) :
    ((before u ops n).thread m).ret = .allocLoop := by
  refine before_inv_all (P := fun s => ∀ m, (s.thread m).pc = .allocSteal → (s.thread m).ret = .allocLoop) u ops ?_ ?_ n m h
  · intro m h
    by_cases hm : m ∈ u.mutators <;> simp [Setup.init, hm] at h
  · intro s o hs m h
    cases o with
    | call k c =>
      rw [step] at h ⊢
      rcases eq_or_ne m k with rfl | hmk
      · cases c
        all_goals
          simp only [call] at h ⊢
          split at h
          · simp at h
          · rw [if_neg (by assumption)]
            exact hs m h
      · rw [call_other hmk] at h ⊢
        exact hs m h
    | next k env =>
      rw [step] at h ⊢
      rw [ret_next]
      rcases eq_or_ne m k with rfl | hmk
      · cases hpc : (s.thread m).pc
        case' trigSet todo => cases todo
        case' clearYield todo => cases todo
        case' append saw => cases saw
        case' yieldpoint | parkReset | resumeUnlock => cases hret : (s.thread m).ret
        case allocSteal => exact hs m hpc
        all_goals
          simp only [next, hpc] at h
        all_goals repeat' split at h
        all_goals simp_all [State.returnBlock, Ret.pc]
      · obtain ⟨-, -, -, -, -, hpc⟩ := next_other (s := s) hmk env
        rcases hpc with hpc | hpc
        · exact hs m (hpc ▸ h)
        · rw [hpc] at h
          cases hq : (s.thread m).pc <;> simp_all [Pc.wake]

/-- a thread at this point waits for its own next step -/
theorem allocSteal_step {s : State} {m : ℕ} (h : (s.thread m).pc = .allocSteal) {o : Op} (ho : ∀ env, o ≠ .next m env) :
    ((step s o).thread m).pc = .allocSteal := by
  cases o with
  | call k c =>
    rw [step]
    rcases eq_or_ne m k with rfl | hmk
    · rw [call_eq_self (by simp [h]) (by simp [h]), h]
    · rw [call_other hmk, h]
  | next k env =>
    have hmk : m ≠ k := by
      rintro rfl
      exact ho env rfl
    obtain ⟨-, -, -, -, -, hpc⟩ := next_other (s := s) hmk env
    rw [step]
    rcases hpc with hpc | hpc
    · rw [hpc, h]
    · rw [hpc, h]
      rfl

/-- **No retry without a collection.** In every run of the mutators registered at the start in which gc() does not panic:
between a request for a block that finds the usable queue empty and the mutator's next request there is exactly one
execution of gc(), whatever the others do. -/
theorem one_gc_per_retry (u : Setup) (ops : List Op) (hops : LegalRun step Steady u.init ops) {m i j : ℕ} (hij : i < j)
    (hi : StepAt u ops m .allocSteal i)
    (hempty : (before u ops i).usableBlocks ((before u ops i).thread m).space = [])
    (hj : StepAt u ops m .allocSteal j) (hbetween : ∀ k, i < k → k < j → ¬ StepAt u ops m .allocSteal k) :
    OneGc u ops i j := by
  have hret := ret_of_allocSteal u ops i m hi.2
  obtain ⟨⟨env, ho⟩, hpc⟩ := hi
  have htrig : Triggering (before u ops (i + 1)) m := by
    rw [before_succ ho, step]
    simp [Triggering, next, hpc, hempty, hret]
  have hnot : ¬ Triggering (before u ops j) m := by
    intro h
    have hp := h.2
    rw [hj.2] at hp
    exact hp
  obtain ⟨e, hie, hej, hway, hcas, hret'⟩ := enters_barrier hops hij htrig hnot
  obtain ⟨r, hpassage, hrj, ⟨env', hr⟩, hout⟩ := passes_barrier hej hcas (by rw [hj.2]; rfl)
  have her := hpassage.le
  rw [hret', Ret.pc] at hout
  -- from the return on the mutator waits for its turn to ask
  have hstay : ∀ k, r + 1 ≤ k → k ≤ j → ((before u ops k).thread m).pc = .allocSteal := by
    intro k hk
    induction k, hk using Nat.le_induction with
    | base => exact fun _ => hout
    | succ k hk ih =>
      intro hkj
      have hold := ih (Nat.le_of_succ_le hkj)
      cases hok : ops[k]? with
      | none =>
        rw [before_succ_none hok]
        exact hold
      | some o =>
        rw [before_succ hok]
        refine allocSteal_step hold ?_
        rintro env rfl
        exact hbetween k (by omega) hkj ⟨⟨env, hok⟩, hold⟩
  -- outside the passage no gc() begins or ends
  have hsteal : ∀ k, ((before u ops k).thread m).pc = .allocSteal → ∀ l,
      ¬ StepAt u ops l .gcStart k ∧ ¬ StepAt u ops l .gcFlip k := fun k hk =>
    no_gc_step hops (by rw [hk]; rfl) (by rw [hk]; rfl) (by rw [hk]; simp)
  have hquiet : ∀ k, i ≤ k → k < j → k < e ∨ r ≤ k → ∀ l, ¬ StepAt u ops l .gcStart k ∧ ¬ StepAt u ops l .gcFlip k := by
    intro k h1 h2 h3
    rcases Nat.eq_or_lt_of_le h1 with rfl | h1
    · exact hsteal i hpc
    rcases h3 with h3 | h3
    · have hp := (hway k h1 h3).pc
      refine no_gc_step hops (m := m) ?_ ?_ ?_
      all_goals rcases hp with hp | ⟨todo, hp⟩ | hp
      all_goals
        rw [hp]
        simp [Pc.registered, Pc.leads, Pc.gathers, Pc.stops]
    · rcases Nat.eq_or_lt_of_le h3 with rfl | h3
      · -- the mutator's own return
        intro l
        rw [before_succ hr, step] at hout
        constructor
        · intro hl
          simp [next, ((stepAt_iff hr).1 hl).2] at hout
        · intro hl
          simp [next, ((stepAt_iff hr).1 hl).2] at hout
      · exact hsteal k (hstay k h3 h2.le)
  obtain ⟨l, g, h, heg, hgh, hhr, hg, hh, hin, honly⟩ := passage_oneGc hops hpassage
  refine ⟨l, g, h, (Nat.le_of_succ_le hie.le).trans heg, hgh, hhr.trans hrj, hg, hh, hin, fun k h1 h2 l' => ?_⟩
  by_cases hk : e ≤ k ∧ k < r
  · exact honly k hk.1 hk.2 l'
  · have hno := hquiet k h1 h2 (by omega) l'
    exact ⟨fun hs => absurd hs hno.1, fun hs => absurd hs hno.2⟩

/-- mutator 0 holds the only block; its second request collects it and is served with it again -/
theorem one_gc_per_retry_exhaust : OneGc soleMutator (exhaust ++ steps 0 11) 7 32 := by
  have hpc : ((before soleMutator (exhaust ++ steps 0 11) 7).thread 0).pc = .allocSteal ∧
      ((before soleMutator (exhaust ++ steps 0 11) 32).thread 0).pc = .allocSteal ∧
      ∀ k < 32, 7 < k → ((before soleMutator (exhaust ++ steps 0 11) k).thread 0).pc ≠ .allocSteal := by
    decide +kernel
  exact one_gc_per_retry soleMutator (exhaust ++ steps 0 11) (by decide +kernel) (by decide) ⟨⟨{}, rfl⟩, hpc.1⟩
    (by decide +kernel) ⟨⟨{}, rfl⟩, hpc.2.1⟩ fun k h1 h2 h => hpc.2.2 k h2 h1 h.2

end Immix.Barrier
