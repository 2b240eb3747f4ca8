/-
CONTROLLER as a lock: at most one thread is in gc() in every run (`sync_barrier` of `heap/gc/mod.rs`).

No hypothesis on the run: mutators are registered at any moment, also behind the controller's back, and gc() may panic,
in `start_trace` or at the end of the sweep, or never return from `start_trace`.
The compare_exchange is what takes CONTROLLER, and only its owner gives it back.
- `Claimed`: CONTROLLER names the one thread that claims it, or nobody.
- `claimed_before`: it holds in every state of every run.
- `gc_exclusive`: one gc() at a time, GC_COUNT counts it, and after a panic there is no other.
-/
import Immix.SweepAccount
import Immix.Passage

namespace Immix.Barrier

open Immix.Lib

/-! ## CONTROLLER -/

namespace Pc

/-- has won the compare_exchange and not given CONTROLLER back; a thread whose gc() panicked never does -/
def claims (pc : Pc) : Bool := pc.owns || pc = .gcPanicked

/-- gc() has counted itself, and has not returned -/
def collecting (pc : Pc) : Bool := pc.running = 1 || pc = .gcPanicked

theorem claims_of_inGc {pc : Pc} (h : pc.inGc = true) : pc.claims = true := by
  cases pc <;> simp_all [inGc, claims, owns, leads, gathers, stops]

theorem claims_of_collecting {pc : Pc} (h : pc.collecting = true) : pc.claims = true := by
  cases pc <;> simp_all [collecting, running, claims, owns, leads, gathers, stops]

theorem claims_wake (pc : Pc) : pc.wake.claims = pc.claims := by
  cases pc <;> rfl

theorem collecting_wake (pc : Pc) : pc.wake.collecting = pc.collecting := by
  cases pc <;> rfl

end Pc

/-- the slot that CONTROLLER names when `lock` owns it -/
def State.named (s : State) : Option ℕ → ℤ
  | none => noController
  | some l => (s.thread l).slot

/-- CONTROLLER is a lock: one thread claims it and it names that thread, or none does and it names none -/
def Claimed (s : State) (lock : Option ℕ) : Prop :=
  Guards lock (fun k => (s.thread k).pc.claims) ∧ s.controller = s.named lock

/-- what a step of `m` does to CONTROLLER and to its own claim -/
theorem claims_next (s : State) (m : ℕ) (env : Env) :
    (((next s m env).thread m).pc.claims = (s.thread m).pc.claims ∧ (next s m env).controller = s.controller ∧
        ((s.thread m).pc.claims = true → ((next s m env).thread m).slot = (s.thread m).slot)) ∨
      (s.controller = noController ∧ ((next s m env).thread m).pc.claims = true ∧
        (next s m env).controller = ((next s m env).thread m).slot) ∨
      ((s.thread m).pc.claims = true ∧ ((next s m env).thread m).pc.claims = false ∧
        (next s m env).controller = noController) := by
  cases hpc : (s.thread m).pc
  case' trigSet todo => cases todo
  case' clearYield todo => cases todo
  case' append saw => cases saw
  case' prepare saw => cases saw
  case' scan saw => cases saw
  case' yieldpoint | parkReset | resumeUnlock => cases hret : (s.thread m).ret
  all_goals simp only [next, hpc]
  all_goals repeat' split
  all_goals
    simp_all [State.returnBlock, Ret.pc, Pc.claims, Pc.owns, Pc.leads, Pc.gathers, Pc.stops]

theorem claims_call (s : State) (m : ℕ) (c : Call) :
    ((call s m c).thread m).pc.claims = (s.thread m).pc.claims ∧ (call s m c).controller = s.controller ∧
      ((s.thread m).pc.claims = true → ((call s m c).thread m).slot = (s.thread m).slot) := by
  cases c
  all_goals
    simp only [call]
    split
    · simp_all [Pc.claims, Pc.owns, Pc.leads, Pc.gathers, Pc.stops]
    · exact ⟨rfl, rfl, fun _ => rfl⟩

/-- the thread that takes the step -/
def Op.thread : Op → ℕ
  | .call m _ | .next m _ => m

/-- a step leaves every other thread where it is, or wakes it, and in its slot -/
theorem step_other {s : State} {o : Op} {k : ℕ} (hk : k ≠ o.thread) :
    ((step s o).thread k).slot = (s.thread k).slot ∧
      (((step s o).thread k).pc = (s.thread k).pc ∨ ((step s o).thread k).pc = (s.thread k).pc.wake) := by
  cases o with
  | call m c =>
    have hkm : k ≠ m := hk
    rw [step, call_other hkm]
    exact ⟨rfl, .inl rfl⟩
  | next m env =>
    obtain ⟨-, hslot, -, -, -, hpc⟩ := next_other (s := s) hk env
    exact ⟨hslot, hpc⟩

/-- a step changes the claim of its own thread only -/
theorem claims_other {s : State} {o : Op} {k : ℕ} (hk : k ≠ o.thread) :
    ((step s o).thread k).pc.claims = (s.thread k).pc.claims := by
  rcases (step_other (s := s) hk).2 with h | h
  · rw [h]
  · rw [h, Pc.claims_wake]

/-- what a step does to CONTROLLER and to the claim of its thread -/
theorem claims_step (s : State) (o : Op) :
    (((step s o).thread o.thread).pc.claims = (s.thread o.thread).pc.claims ∧ (step s o).controller = s.controller ∧
        ((s.thread o.thread).pc.claims = true → ((step s o).thread o.thread).slot = (s.thread o.thread).slot)) ∨
      (s.controller = noController ∧ ((step s o).thread o.thread).pc.claims = true ∧
        (step s o).controller = ((step s o).thread o.thread).slot) ∨
      ((s.thread o.thread).pc.claims = true ∧ ((step s o).thread o.thread).pc.claims = false ∧
        (step s o).controller = noController) := by
  cases o with
  | call m c => exact .inl (claims_call s m c)
  | next m env => exact claims_next s m env

/-! ## The lock -/

theorem Claimed.owner {s : State} {lock : Option ℕ} (h : Claimed s lock) {l : ℕ} (hl : (s.thread l).pc.claims = true) :
    lock = some l ∧ s.controller = (s.thread l).slot := by
  obtain rfl : lock = some l := (h.1 l).2 hl
  exact ⟨rfl, h.2⟩

/-- a lock that CONTROLLER says is free is free -/
theorem Claimed.free {s : State} {lock : Option ℕ} (h : Claimed s lock) (hfree : s.controller = noController) :
    lock = none := by
  cases lock with
  | none => rfl
  | some l =>
    have hslot : s.controller = (s.thread l).slot := h.2
    rw [hfree] at hslot
    exact absurd hslot.symm (slot_ne_noController _)

/-- **Step lemma.** -/
theorem Claimed.step {s : State} {lock : Option ℕ} (h : Claimed s lock) (o : Op) : ∃ lock', Claimed (step s o) lock' := by
  have hclaims : (fun k => ((Barrier.step s o).thread k).pc.claims) =
      Function.update (fun k => (s.thread k).pc.claims) o.thread ((Barrier.step s o).thread o.thread).pc.claims := by
    ext k
    rcases eq_or_ne k o.thread with rfl | hk
    · rw [Function.update_self]
    · rw [Function.update_of_ne hk, claims_other hk]
  have hguards : ∀ lock', Passes lock lock' o.thread (s.thread o.thread).pc.claims
      ((Barrier.step s o).thread o.thread).pc.claims → Guards lock' fun k => ((Barrier.step s o).thread k).pc.claims := by
    intro lock' hp
    rw [hclaims]
    exact h.1.step hp
  rcases claims_step s o with ⟨hsame, hc, hslot⟩ | ⟨hfree, htakes, hc⟩ | ⟨hheld, hgives, hc⟩
  · refine ⟨lock, hguards lock (.inl ⟨rfl, hsame⟩), ?_⟩
    rw [hc, h.2]
    cases lock with
    | none => rfl
    | some l =>
      rcases eq_or_ne l o.thread with rfl | hl
      · rw [State.named, State.named, hslot ((h.1 _).1 rfl)]
      · rw [State.named, State.named, (step_other hl).1]
  · obtain rfl := h.free hfree
    exact ⟨some o.thread, hguards _ (.inr (.inl ⟨rfl, rfl, htakes⟩)), hc⟩
  · exact ⟨none, hguards _ (.inr (.inr ⟨rfl, hheld, hgives⟩)), hc⟩

theorem claimed_init (u : Setup) : Claimed u.init none := by
  refine ⟨fun k => ?_, rfl⟩
  by_cases hk : k ∈ u.mutators <;> simp [Setup.init, hk, Pc.claims, Pc.owns, Pc.leads, Pc.gathers, Pc.stops]

/-- **Run lemma.** -/
theorem claimed_before (u : Setup) (ops : List Op) (n : ℕ) : ∃ lock, Claimed (before u ops n) lock :=
  before_inv_all (P := fun s => ∃ lock, Claimed s lock) u ops ⟨none, claimed_init u⟩
    (fun _ o ⟨_, h⟩ => h.step o) n

/-- at most one thread claims CONTROLLER -/
theorem claims_unique (u : Setup) (ops : List Op) (n : ℕ) {a b : ℕ}
    (ha : ((before u ops n).thread a).pc.claims = true) (hb : ((before u ops n).thread b).pc.claims = true) : a = b := by
  obtain ⟨lock, h⟩ := claimed_before u ops n
  exact h.1.unique ha hb

/-! ## GC_COUNT -/

/-- GC_COUNT is ahead of the calls of gc() that returned by the one that has counted itself, if there is one -/
def GcCounted (s : State) : Prop :=
  (∃ l, (s.thread l).pc.collecting = true) ∧ s.gcCount = s.gcDone + 1 ∨
    (∀ l, (s.thread l).pc.collecting = false) ∧ s.gcCount = s.gcDone

theorem collecting_other {s : State} {o : Op} {k : ℕ} (hk : k ≠ o.thread) :
    ((step s o).thread k).pc.collecting = (s.thread k).pc.collecting := by
  rcases (step_other (s := s) hk).2 with h | h
  · rw [h]
  · rw [h, Pc.collecting_wake]

/-- a thread begins to collect when gc() counts itself, and ends when gc() returns -/
theorem collecting_next (s : State) (m : ℕ) (env : Env) : ((next s m env).thread m).pc.collecting =
    if (s.thread m).pc = .gcStart then true else if (s.thread m).pc = .gcFlip then false
    else (s.thread m).pc.collecting := by
  cases hpc : (s.thread m).pc
  case' trigSet todo => cases todo
  case' clearYield todo => cases todo
  case' append saw => cases saw
  case' yieldpoint | parkReset | resumeUnlock => cases hret : (s.thread m).ret
  all_goals simp only [next, hpc]
  all_goals repeat' split
  all_goals simp_all [State.returnBlock, Ret.pc, Pc.collecting, Pc.running]

theorem collecting_call (s : State) (m : ℕ) (c : Call) :
    ((call s m c).thread m).pc.collecting = (s.thread m).pc.collecting := by
  cases c
  all_goals
    simp only [call]
    split
    · simp_all [Pc.collecting, Pc.running]
    · rfl

/-- the counters move with the program point of the thread that takes the step -/
theorem collecting_step (s : State) (o : Op) :
    (step s o).gcCount + s.gcDone + (if (s.thread o.thread).pc.collecting then 1 else 0) =
      s.gcCount + (step s o).gcDone + if ((step s o).thread o.thread).pc.collecting then 1 else 0 := by
  cases o with
  | call m c =>
    obtain ⟨h1, h2, -⟩ := counters_call s m c
    rw [step, Op.thread, h1, h2, collecting_call]
  | next m env =>
    obtain ⟨h1, h2, -⟩ := counters_next s m env
    rw [step, Op.thread, h1, h2, collecting_next]
    have hstart : (s.thread m).pc = .gcStart → (s.thread m).pc.collecting = false := fun h => by rw [h]; rfl
    have hflip : (s.thread m).pc = .gcFlip → (s.thread m).pc.collecting = true := fun h => by rw [h]; rfl
    by_cases h3 : (s.thread m).pc = .gcStart
    · rw [hstart h3]
      simp [h3]
      omega
    · by_cases h4 : (s.thread m).pc = .gcFlip
      · rw [hflip h4]
        simp [h4]
        omega
      · rw [if_neg h3, if_neg h3, if_neg h4, if_neg h4]
        omega

theorem GcCounted.step {s : State} {lock lock' : Option ℕ} {o : Op} (h : GcCounted s) (hs : Claimed s lock)
    (hs' : Claimed (step s o) lock') : GcCounted (step s o) := by
  have hcount := collecting_step s o
  by_cases hex : ∃ l, l ≠ o.thread ∧ (s.thread l).pc.collecting = true
  · -- another thread is in gc(): this one is neither before the step nor after it
    obtain ⟨l, hl, hc⟩ := hex
    have hc' : ((Barrier.step s o).thread l).pc.collecting = true := by rw [collecting_other hl, hc]
    have hnot : (s.thread o.thread).pc.collecting = false := by
      by_contra hne
      exact hl (hs.1.unique (Pc.claims_of_collecting hc) (Pc.claims_of_collecting (Bool.eq_true_of_not_eq_false hne)))
    have hnot' : ((Barrier.step s o).thread o.thread).pc.collecting = false := by
      by_contra hne
      exact hl (hs'.1.unique (Pc.claims_of_collecting hc') (Pc.claims_of_collecting (Bool.eq_true_of_not_eq_false hne)))
    rw [hnot, hnot'] at hcount
    rcases h with ⟨-, h⟩ | ⟨hnone, -⟩
    · refine .inl ⟨⟨l, hc'⟩, ?_⟩
      simp only [Bool.false_eq_true, if_false] at hcount
      omega
    · rw [hnone l] at hc
      cases hc
  · -- only this thread can be in gc()
    push Not at hex
    have hold : s.gcCount = s.gcDone + if (s.thread o.thread).pc.collecting then 1 else 0 := by
      rcases h with ⟨⟨l, hl⟩, h⟩ | ⟨hnone, h⟩
      · obtain rfl : l = o.thread := by
          by_contra hne
          exact hex l hne hl
        rw [hl, h]
        rfl
      · rw [hnone, h]
        rfl
    cases hc : ((Barrier.step s o).thread o.thread).pc.collecting with
    | true =>
      rw [hc] at hcount
      simp only [if_true] at hcount
      exact .inl ⟨⟨o.thread, hc⟩, by omega⟩
    | false =>
      rw [hc] at hcount
      refine .inr ⟨fun l => ?_, ?_⟩
      · rcases eq_or_ne l o.thread with rfl | hl
        · exact hc
        · rw [collecting_other hl]
          exact Bool.eq_false_of_not_eq_true (hex l hl)
      · simp only [Bool.false_eq_true, if_false] at hcount
        omega

theorem gcCounted_before (u : Setup) (ops : List Op) (n : ℕ) : GcCounted (before u ops n) := by
  have hall : (∃ lock, Claimed (before u ops n) lock) ∧ GcCounted (before u ops n) := by
    refine before_inv_all (P := fun s => (∃ lock, Claimed s lock) ∧ GcCounted s) u ops
      ⟨⟨none, claimed_init u⟩, .inr ⟨fun l => ?_, rfl⟩⟩ ?_ n
    · by_cases hl : l ∈ u.mutators <;> simp [Setup.init, hl, Pc.collecting, Pc.running]
    · rintro s o ⟨⟨lock, hs⟩, h⟩
      obtain ⟨lock', hs'⟩ := hs.step o
      exact ⟨⟨lock', hs'⟩, h.step hs hs'⟩
  exact hall.2

/-! ## One gc() at a time -/

/-- a thread whose gc() panicked stays where it is -/
theorem panicked_step {s : State} {p : ℕ} (h : (s.thread p).pc = .gcPanicked) (o : Op) :
    ((step s o).thread p).pc = .gcPanicked := by
  rcases eq_or_ne p o.thread with rfl | hp
  · cases o with
    | call m c =>
      have hm : (s.thread m).pc = .gcPanicked := h
      have hself : call s m c = s := call_eq_self (by simp [hm]) (by simp [hm]) c
      rw [step, hself]
      exact h
    | next m env =>
      have hm : (s.thread m).pc = .gcPanicked := h
      simp only [step, next, hm]
      exact h
  · rcases (step_other (s := s) hp).2 with hpc | hpc
    · rw [hpc, h]
    · rw [hpc, h]
      rfl

/-- **One gc() at a time.** In every run, with mutators coming and going at any moment and gc() panicking: at most one
thread is in gc(); GC_COUNT is the number of calls that returned, and one more when a call has counted itself and has
not returned; and once a call has panicked, no thread is ever in gc() again and GC_COUNT stays what it is. -/
theorem gc_exclusive (u : Setup) (ops : List Op) (n : ℕ) :
    let s := before u ops n
    (∀ a b, (s.thread a).pc.inGc = true → (s.thread b).pc.inGc = true → a = b) ∧ GcCounted s ∧
      ∀ p, (s.thread p).pc = .gcPanicked → ∀ j, n ≤ j →
        (∀ k, ((before u ops j).thread k).pc.inGc = false) ∧ (before u ops j).gcCount = s.gcCount := by
  intro s
  refine ⟨fun a b ha hb => claims_unique u ops n (Pc.claims_of_inGc ha) (Pc.claims_of_inGc hb), gcCounted_before u ops n,
    fun p hp j hj => ?_⟩
  -- the thread that panicked owns CONTROLLER for ever
  have hpanic : ((before u ops j).thread p).pc = .gcPanicked ∧ (before u ops j).gcCount = s.gcCount := by
    induction j, hj using Nat.le_induction with
    | base => exact ⟨hp, rfl⟩
    | succ j hj ih =>
      cases ho : ops[j]? with
      | none =>
        rw [before_succ_none ho]
        exact ih
      | some o =>
        rw [before_succ ho]
        refine ⟨panicked_step ih.1 o, ?_⟩
        rw [← ih.2]
        cases o with
        | call m c => exact (counters_call _ m c).1
        | next m env =>
          have hne : ((before u ops j).thread m).pc ≠ .gcStart := by
            intro hm
            have heq : m = p := claims_unique u ops j (by rw [hm]; rfl) (by rw [ih.1]; rfl)
            rw [heq, ih.1] at hm
            cases hm
          rw [step, (counters_next _ m env).1, if_neg hne, Nat.add_zero]
  refine ⟨fun k => ?_, hpanic.2⟩
  by_contra hk
  have hgc := Bool.eq_true_of_not_eq_false hk
  have heq : k = p := claims_unique u ops j (Pc.claims_of_inGc hgc) (by rw [hpanic.1]; rfl)
  rw [heq, hpanic.1] at hgc
  cases hgc

/-- as in `exhaust`, and the sweep finds the only block full; then mutator 1 is registered and requests a collection -/
def crash : List Op :=
  .call 0 .alloc :: steps 0 3 ++ .call 0 .alloc :: steps 0 16 ++ [.next 0 { full := true }, .next 0 {}] ++
    register 1 ++ .call 1 .requestGc :: steps 1 13

/-- `start_trace` panics with mutator 1 parked; then mutator 2 is registered and requests a collection -/
def traceCrash : List Op := tracePanics ++ register 2 ++ .call 2 .requestGc :: steps 2 14

/-- the new mutator loses the compare_exchange to the thread that panicked, and parks -/
theorem gc_exclusive_crash : (((before soleMutator crash 23).thread 0).pc = .gcPanicked ∧
    ((before soleMutator crash 41).thread 1).pc = .asleep ∧
    ∀ k, ((before soleMutator crash 41).thread k).pc.inGc = false) ∧
    ((before soleMutator traceCrash 31).thread 0).pc = .gcPanicked ∧
    ((before soleMutator traceCrash 50).thread 2).pc = .asleep ∧
    ∀ k, ((before soleMutator traceCrash 50).thread k).pc.inGc = false := by
  have hsweep : ((before soleMutator crash 23).thread 0).pc = .gcPanicked := by decide +kernel
  have htrace : ((before soleMutator traceCrash 31).thread 0).pc = .gcPanicked := by decide +kernel
  refine ⟨⟨hsweep, by decide +kernel, ?_⟩, htrace, by decide +kernel, ?_⟩
  · exact ((gc_exclusive soleMutator crash 23).2.2 0 hsweep 41 (by decide)).1
  · exact ((gc_exclusive soleMutator traceCrash 31).2.2 0 htrace 50 (by decide)).1

end Immix.Barrier
