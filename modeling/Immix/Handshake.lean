/-
The phases of a stop-the-world cycle.

Between cycles nobody is past a won or lost compare_exchange (`Open`). A thread that wins it gathers the others
(`Gathering`): they lose the exchange, return their block, append their roots and park, and the park count is the number
of those that have parked. When the controller leaves its loop every other registered mutator sleeps, until the
controller has run gc(), cleared the flags and the count, and woken them (`Stopped`). A gc() that panics leaves the
others parked for ever (`Dead`).

- `NoLateNew`: the steps at which no mutator is registered behind the controller's back.
- `phase_step`: every such step goes from one of these phases to one of them.
- `phase_before`: every state of a run of such steps is in one of them.
-/
import Immix.BarrierLocks
import Immix.Lib.Count

namespace Immix.Barrier

open Immix.Lib

/-! ## Program points -/

namespace Pc

/-- the controller waits for the others -/
def gathers : Pc → Bool
  | prepare none | scan none | append none | waitLoad _ | waitRead _ => true
  | _ => false

/-- the controller has seen all the others parked and has not yet left `sync_barrier` -/
def stops : Pc → Bool
  | gcStart | gcLockRoots | gcDrain | gcTrace | gcSweep _ _ | gcFlip => true
  | storeController | clearLock | clearYield _ | clearBlocked _ _ | resumeLock | resumeNotify | resumeUnlock => true
  | _ => false

/-- in `gc()` -/
def inGc : Pc → Bool
  | gcStart | gcLockRoots | gcDrain | gcTrace | gcSweep _ _ | gcFlip => true
  | _ => false

/-- acting as controller: between winning the compare_exchange and leaving `sync_barrier` -/
def leads (pc : Pc) : Bool := pc.gathers || pc.stops

/-- outside `sync_barrier`, before its compare_exchange, or released from it -/
def calm : Pc → Bool
  | prepare _ | scan _ | append _ | assertNe _ | parkLock | parkFlag | asleep | gcPanicked | assertFailed => false
  | pc => !pc.leads

/-- CONTROLLER still names the thread -/
def owns : Pc → Bool
  | clearLock | clearYield _ | clearBlocked _ _ | resumeLock | resumeNotify | resumeUnlock => false
  | pc => pc.leads

/-- gc() has not yet drained ROOTS -/
def undrained : Pc → Bool
  | gcStart | gcLockRoots | gcDrain => true
  | _ => false

/-- gc() works on what it drained -/
def traces : Pc → Bool
  | gcTrace | gcSweep _ _ | gcFlip => true
  | _ => false

/-- gc() has counted itself and not yet returned -/
def running : Pc → ℕ
  | gcLockRoots | gcDrain | gcTrace | gcSweep _ _ | gcFlip => 1
  | _ => 0

/-- the mutators whose flags are still to be cleared -/
def todo : Pc → List ℕ
  | clearYield todo => todo
  | clearBlocked k todo => k :: todo
  | _ => []

/-- the flags of mutator `k` have been cleared -/
def cleared (k : ℕ) : Pc → Bool
  | clearYield todo => k ∉ todo
  | clearBlocked j todo => k ∉ j :: todo
  | resumeLock | resumeNotify | resumeUnlock => true
  | _ => false

/-- the park count has been cleared -/
def zeroed : Pc → Bool
  | resumeNotify | resumeUnlock => true
  | _ => false

/-- where the others are while the controller is here -/
def others : Pc → Pc
  | resumeUnlock => woken
  | _ => asleep

/-- in `sync_barrier` after its compare_exchange, and neither in gc() nor ending the cycle -/
def solo : Pc → Bool
  | prepare _ | scan _ | append _ | assertNe _ | parkLock | parkFlag | parkLoop | asleep | woken | parkReset => true
  | waitLoad _ | waitRead _ => true
  | _ => false

/-- the step from here leaves the loop that waits for the others -/
def leavesWait (n : ℕ) : Pc → Bool
  | waitLoad count => !(count < n - 1)
  | _ => false

end Pc

/-! ## Threads -/

namespace Thread

def Calm (t : Thread) : Prop := t.pc.calm = true ∧ t.stillBlocked = false

/-- lost the compare_exchange to the mutator in slot `c`, and is going to park, or parked -/
def Joining (c : ℤ) (t : Thread) : Prop :=
  match t.pc with
  | .prepare (some saw) | .scan (some saw) | .append (some saw) | .assertNe saw => saw = c ∧ t.stillBlocked = false
  | .parkLock | .parkFlag => t.stillBlocked = false
  | .parkLoop | .asleep => t.stillBlocked = true
  | _ => False

/-- counted in the park count -/
def counted (t : Thread) : Bool := t.pc = .parkFlag || t.stillBlocked

/-- has appended its roots to ROOTS for the cycle under way -/
def contributed (t : Thread) : Bool :=
  match t.pc with
  | .assertNe _ | .parkLock | .parkFlag | .asleep | .waitLoad _ | .waitRead _ => true
  | .parkLoop => t.stillBlocked
  | _ => false

end Thread

/-! ## The phases -/

/-- one appended piece for each thread with property `p`: the result of its stack scan -/
def Pieces (s : State) (p : ℕ → Prop) (l : List (ℕ × List ℕ)) : Prop :=
  l.Nodup ∧ ∀ x, x ∈ l ↔ p x.1 ∧ x.2 = (s.thread x.1).threadRoots

structure Open (s : State) : Prop where
  controller : s.controller = noController
  calm : ∀ k, (s.thread k).Calm
  count : s.stwCount = 0
  roots : s.roots = []
  gc : s.gcCount = s.gcDone

structure Gathering (s : State) (l : ℕ) : Prop where
  lead : (s.thread l).pc.gathers = true
  unblocked : (s.thread l).stillBlocked = false
  controller : s.controller = (s.thread l).slot
  others : ∀ k, k ≠ l → (s.thread k).Calm ∨ (s.thread k).Joining (s.thread l).slot
  count : s.stwCount = countIn (fun t : Thread => t.counted = true) s.mutators.toFinset s.thread
  /-- the controller's local count is of threads that sleep -/
  waiting : ∀ n, (s.thread l).pc = .waitLoad n ∨ (s.thread l).pc = .waitRead n →
    n ≤ countIn (fun t : Thread => t.pc = .asleep) s.mutators.toFinset s.thread
  roots : Pieces s (fun k => (s.thread k).contributed = true) s.roots
  gc : s.gcCount = s.gcDone

structure Stopped (s : State) (l : ℕ) : Prop where
  lead : (s.thread l).pc.stops = true
  unblocked : (s.thread l).stillBlocked = false
  controller : s.controller = if (s.thread l).pc.owns then ((s.thread l).slot : ℤ) else noController
  others : ∀ k ∈ s.mutators, k ≠ l → (s.thread k).pc = (s.thread l).pc.others
  away : ∀ k, k ∉ s.mutators → (s.thread k).Calm
  blocked : ∀ k ∈ s.mutators, k ≠ l → (s.thread l).pc.cleared k = false → (s.thread k).stillBlocked = true
  cleared : ∀ k ∈ s.mutators, (s.thread l).pc.cleared k = true →
    (s.thread k).takeYield = false ∧ (s.thread k).stillBlocked = false
  half : ∀ k ∈ s.mutators, ∀ todo, (s.thread l).pc = .clearBlocked k todo → (s.thread k).takeYield = false
  todo : (s.thread l).pc.todo.Nodup
  count : if (s.thread l).pc.zeroed then s.stwCount = 0 else s.stwCount + 1 = s.mutators.length
  roots : if (s.thread l).pc.undrained then Pieces s (· ∈ s.mutators) s.roots else s.roots = []
  drained : (s.thread l).pc.traces = true → Pieces s (· ∈ s.mutators) s.drained
  gc : s.gcCount = s.gcDone + (s.thread l).pc.running

structure Dead (s : State) (l : ℕ) : Prop where
  lead : (s.thread l).pc = .gcPanicked
  controller : s.controller = (s.thread l).slot
  others : ∀ k, k ≠ l → (s.thread k).Calm ∨ (s.thread k).Joining (s.thread l).slot

def Phase (s : State) : Prop := Open s ∨ (∃ l, Gathering s l) ∨ (∃ l, Stopped s l) ∨ ∃ l, Dead s l

/-- the step puts the mutator into MUTATORS -/
def Inserts (s : State) (m : ℕ) (env : Env) : Prop :=
  (s.thread m).pc = .newInsert ∧ s.mutatorsLock = none ∧ ∀ k ∈ s.mutators, (s.thread k).slot ≠ env.slot

/-- the step does not put a mutator into MUTATORS after the controller has counted, nor leave the controller's loop
while a mutator is in MUTATORS and not in N_MUTATORS -/
def NoLateNew (s : State) : Op → Prop
  | .call _ _ => True
  | .next m env =>
    (Inserts s m env → ∀ k ∈ s.mutators, (s.thread k).pc.stops = false) ∧
      ((s.thread m).pc.leavesWait s.nMutators = true → ∀ k ∈ s.mutators, (s.thread k).pc ≠ .newAdd)

instance (s : State) (o : Op) : Decidable (NoLateNew s o) := by
  cases o <;> unfold NoLateNew Inserts <;> infer_instance

/-! ## Threads that are not in a cycle -/

/-- a step of `m` that does not enter the cycle: it changes nothing of the cycle, and of the others only their
`take_yield` -/
structure Calmly (s s' : State) (m : ℕ) : Prop where
  calm : (s'.thread m).Calm
  others : ∀ k, k ≠ m → s'.thread k = { s.thread k with takeYield := (s'.thread k).takeYield }
  mem : ∀ k, k ≠ m → (k ∈ s'.mutators ↔ k ∈ s.mutators)
  controller : s'.controller = s.controller
  count : s'.stwCount = s.stwCount
  roots : s'.roots = s.roots
  gcCount : s'.gcCount = s.gcCount
  gcDone : s'.gcDone = s.gcDone

theorem Calmly.refl {s : State} {m : ℕ} (h : (s.thread m).Calm) : Calmly s s m :=
  ⟨h, fun _ _ => rfl, fun _ _ => Iff.rfl, rfl, rfl, rfl, rfl, rfl⟩

theorem calmly_call {s : State} {m : ℕ} (h : (s.thread m).Calm) (c : Call) : Calmly s (call s m c) m := by
  cases c
  all_goals
    simp only [call]
    split
    · refine ⟨?_, fun k hk => ?_, fun _ _ => Iff.rfl, rfl, rfl, rfl, rfl, rfl⟩
      · simp [Thread.Calm, Pc.calm, Pc.leads, Pc.gathers, Pc.stops, h.2]
      · simp [Threads.set_of_ne, hk]
    · exact .refl h

theorem calmly_next {s : State} {m : ℕ} (h : (s.thread m).Calm) (hcas : (s.thread m).pc ≠ .cas) (env : Env) :
    Calmly s (next s m env) m := by
  obtain ⟨hcalm, hb⟩ := h
  cases hpc : (s.thread m).pc
  case' trigSet todo => cases todo
  case' yieldpoint | parkReset => cases hret : (s.thread m).ret
  all_goals
    simp only [hpc, Pc.calm, Pc.leads, Pc.gathers, Pc.stops, Bool.or_self, Bool.not_true, Bool.not_false, Bool.or_true,
      Bool.or_false, reduceCtorEq] at hcalm
  all_goals try contradiction
  all_goals simp only [next, hpc]
  case' parkLoop => rw [hb]
  all_goals repeat' split
  all_goals try exact .refl ⟨by simp [hpc, Pc.calm, Pc.leads, Pc.gathers, Pc.stops], hb⟩
  all_goals
    refine ⟨?_, fun k hk => ?_, fun k hk => ?_, rfl, rfl, rfl, rfl, rfl⟩
    case refine_1 =>
      simp [Thread.Calm, State.returnBlock, Ret.pc, Pc.calm, Pc.leads, Pc.gathers, Pc.stops, *]
    case refine_2 => simp [State.returnBlock, Threads.set_of_ne, hk]
    case refine_3 => simp [State.returnBlock, insertBySlot, List.mem_orderedInsert, List.mem_erase_of_ne, hk]

namespace Calmly

variable {s s' : State} {m : ℕ} (h : Calmly s s' m)
include h

theorem pc {k : ℕ} (hk : k ≠ m) : (s'.thread k).pc = (s.thread k).pc := by rw [h.others k hk]

theorem slot {k : ℕ} (hk : k ≠ m) : (s'.thread k).slot = (s.thread k).slot := by rw [h.others k hk]

theorem stillBlocked {k : ℕ} (hk : k ≠ m) : (s'.thread k).stillBlocked = (s.thread k).stillBlocked := by
  rw [h.others k hk]

theorem threadRoots {k : ℕ} (hk : k ≠ m) : (s'.thread k).threadRoots = (s.thread k).threadRoots := by
  rw [h.others k hk]

theorem calm_iff {k : ℕ} (hk : k ≠ m) : (s'.thread k).Calm ↔ (s.thread k).Calm := by
  unfold Thread.Calm
  rw [h.pc hk, h.stillBlocked hk]

theorem joining_iff {k : ℕ} (hk : k ≠ m) (c : ℤ) : (s'.thread k).Joining c ↔ (s.thread k).Joining c := by
  unfold Thread.Joining
  rw [h.pc hk, h.stillBlocked hk]

theorem counted_eq {k : ℕ} (hk : k ≠ m) : (s'.thread k).counted = (s.thread k).counted := by
  unfold Thread.counted
  rw [h.pc hk, h.stillBlocked hk]

theorem contributed_eq {k : ℕ} (hk : k ≠ m) : (s'.thread k).contributed = (s.thread k).contributed := by
  unfold Thread.contributed
  rw [h.pc hk, h.stillBlocked hk]

end Calmly

namespace Thread.Calm

variable {t : Thread} (h : t.Calm)
include h

theorem not_counted : t.counted = false := by
  obtain ⟨hpc, hb⟩ := h
  have hne : t.pc ≠ .parkFlag := by
    intro hp
    rw [hp] at hpc
    cases hpc
  simp [counted, hb, hne]

theorem not_asleep : t.pc ≠ .asleep := by
  intro hp
  have hpc := h.1
  rw [hp] at hpc
  cases hpc

theorem not_contributed : t.contributed = false := by
  obtain ⟨hpc, hb⟩ := h
  unfold contributed
  split <;> simp_all [Pc.calm, Pc.leads, Pc.gathers]

theorem not_leads : t.pc.leads = false := by
  have hpc := h.1
  cases hp : t.pc <;> simp_all [Pc.calm, Pc.leads, Pc.gathers, Pc.stops]

end Thread.Calm

/-! ## Open -/

theorem Open.calmly {s s' : State} {m : ℕ} (h : Open s) (hc : Calmly s s' m) : Open s' where
  controller := hc.controller.trans h.controller
  calm := by
    intro k
    rcases eq_or_ne k m with rfl | hk
    · exact hc.calm
    · exact (hc.calm_iff hk).2 (h.calm k)
  count := hc.count.trans h.count
  roots := hc.roots.trans h.roots
  gc := by rw [hc.gcCount, hc.gcDone, h.gc]

/-- the first to come is the controller of the next cycle -/
theorem Open.cas {s : State} {m : ℕ} (h : Open s) (hpc : (s.thread m).pc = .cas) (env : Env) :
    Gathering (next s m env) m := by
  simp only [next, hpc, h.controller, if_true]
  have hother : ∀ k, k ≠ m → (s.thread.goto m (.prepare none)) k = s.thread k := by
    intro k hk
    simp [hk]
  have hnone : ∀ k, ((s.thread.goto m (.prepare none)) k).counted = false ∧
      ((s.thread.goto m (.prepare none)) k).contributed = false := by
    intro k
    rcases eq_or_ne k m with rfl | hk
    · simp [Thread.counted, Thread.contributed, (h.calm k).2]
    · rw [hother k hk]
      exact ⟨(h.calm k).not_counted, (h.calm k).not_contributed⟩
  exact {
    lead := by simp [Pc.gathers]
    unblocked := by simpa using (h.calm m).2
    controller := by simp
    others := by
      intro k hk
      left
      simpa [hk] using h.calm k
    count := by
      rw [h.count, eq_comm, countIn_eq_zero]
      intro k _
      simp only
      rw [(hnone k).1]
      exact Bool.false_ne_true
    waiting := by simp
    roots := by
      refine ⟨by simp [h.roots], fun x => ?_⟩
      simp only [h.roots, List.not_mem_nil, false_iff, not_and]
      intro hx
      rw [(hnone x.1).2] at hx
      cases hx
    gc := h.gc }

/-! ## Gathering -/

namespace Pieces

variable {s s' : State} {p p' : ℕ → Prop} {l : List (ℕ × List ℕ)} (h : Pieces s p l)
include h

theorem congr (hroots : ∀ k, p k → (s'.thread k).threadRoots = (s.thread k).threadRoots) (hp : ∀ k, p' k ↔ p k) :
    Pieces s' p' l := by
  refine ⟨h.1, fun x => ?_⟩
  rw [h.2 x, hp]
  apply and_congr_right
  intro hx
  rw [hroots x.1 hx]

/-- thread `m` appends its piece -/
theorem append {m : ℕ} (hm : ¬ p m) (hroots : ∀ k, (s'.thread k).threadRoots = (s.thread k).threadRoots)
    (hp : ∀ k, p' k ↔ p k ∨ k = m) : Pieces s' p' (l ++ [(m, (s.thread m).threadRoots)]) := by
  refine ⟨?_, fun x => ?_⟩
  · rw [List.nodup_append]
    refine ⟨h.1, List.nodup_singleton _, fun a ha b hb hab => ?_⟩
    rw [List.mem_singleton] at hb
    rw [hab, hb] at ha
    exact hm ((h.2 _).1 ha).1
  · rw [List.mem_append, List.mem_singleton, h.2 x, hp, hroots]
    constructor
    · rintro (⟨hx, hr⟩ | rfl)
      · exact ⟨.inl hx, hr⟩
      · exact ⟨.inr rfl, rfl⟩
    · rintro ⟨hx | hx, hr⟩
      · exact .inl ⟨hx, hr⟩
      · right
        rw [← hx, ← hr]

end Pieces

theorem Thread.Joining.registered {t : Thread} {c : ℤ} (h : t.Joining c) : t.pc.registered = true := by
  unfold Joining at h
  split at h <;> simp_all [Pc.registered]

theorem Thread.Joining.not_leads {t : Thread} {c : ℤ} (h : t.Joining c) : t.pc.leads = false := by
  unfold Joining at h
  split at h <;> simp_all [Pc.leads, Pc.gathers, Pc.stops]

theorem Gathering.ne_of_calm {s : State} {l m : ℕ} (h : Gathering s l) (hm : (s.thread m).Calm) : m ≠ l := by
  rintro rfl
  have hl := hm.not_leads
  rw [Pc.leads, h.lead] at hl
  cases hl

theorem Gathering.lead_mem {s : State} {l : ℕ} (h : Gathering s l) (hb : Base s) : l ∈ s.mutators := by
  have hl := h.lead
  rw [hb.mem]
  cases hp : (s.thread l).pc <;> simp_all [Pc.gathers, Pc.registered]

/-- the others come and go, register and unregister -/
theorem Gathering.calmly {s s' : State} {l m : ℕ} (h : Gathering s l) (hm : (s.thread m).Calm)
    (hc : Calmly s s' m) : Gathering s' l := by
  have hml : l ≠ m := (h.ne_of_calm hm).symm
  -- `m` is not counted before or after, the others are as they were
  have hcount : ∀ p : Thread → Prop, [DecidablePred p] → ¬ p (s.thread m) → ¬ p (s'.thread m) →
      (∀ k, k ≠ m → (p (s'.thread k) ↔ p (s.thread k))) →
      countIn p s'.mutators.toFinset s'.thread = countIn p s.mutators.toFinset s.thread := by
    intro p _ h1 h2 h3
    apply countIn_eq_of_mem
    intro w
    rw [List.mem_toFinset, List.mem_toFinset]
    rcases eq_or_ne w m with rfl | hw
    · simp [h1, h2]
    · rw [hc.mem w hw, h3 w hw]
  exact {
    lead := by
      rw [hc.pc hml]
      exact h.lead
    unblocked := by
      rw [hc.stillBlocked hml]
      exact h.unblocked
    controller := by
      rw [hc.controller, hc.slot hml]
      exact h.controller
    others := by
      intro k hk
      rw [hc.slot hml]
      rcases eq_or_ne k m with rfl | hkm
      · exact .inl hc.calm
      · rw [hc.calm_iff hkm, hc.joining_iff hkm]
        exact h.others k hk
    count := by
      rw [hc.count, h.count, eq_comm]
      apply hcount
      · simp [hm.not_counted]
      · simp [hc.calm.not_counted]
      · intro k hk
        rw [hc.counted_eq hk]
    waiting := by
      intro n hn
      rw [hc.pc hml] at hn
      rw [hcount _ hm.not_asleep hc.calm.not_asleep fun k hk => by rw [hc.pc hk]]
      exact h.waiting n hn
    roots := by
      rw [hc.roots]
      have hiff : ∀ k, (s'.thread k).contributed = true ↔ (s.thread k).contributed = true := by
        intro k
        rcases eq_or_ne k m with rfl | hk
        · simp [hm.not_contributed, hc.calm.not_contributed]
        · rw [hc.contributed_eq hk]
      refine h.roots.congr (fun k hk => ?_) hiff
      rcases eq_or_ne k m with rfl | hkm
      · rw [hm.not_contributed] at hk
        cases hk
      · exact hc.threadRoots hkm
    gc := by rw [hc.gcCount, hc.gcDone, h.gc] }

/-- a step of thread `m` that changes no other thread and nothing of the registry or of the controller -/
structure Alone (s s' : State) (m : ℕ) : Prop where
  others : ∀ k, k ≠ m → s'.thread k = s.thread k
  slot : (s'.thread m).slot = (s.thread m).slot
  mutators : s'.mutators = s.mutators
  controller : s'.controller = s.controller
  gcCount : s'.gcCount = s.gcCount
  gcDone : s'.gcDone = s.gcDone

theorem Alone.thread_eq {s s' : State} {m : ℕ} (h : Alone s s' m) :
    s'.thread = Function.update s.thread m (s'.thread m) := by
  funext k
  rcases eq_or_ne k m with rfl | hk
  · simp
  · simp [hk, h.others k hk]

theorem Alone.refl (s : State) (m : ℕ) : Alone s s m := ⟨fun _ _ => rfl, rfl, rfl, rfl, rfl, rfl⟩

/-- between its compare_exchange and gc(), or its parking, a thread changes only what is its own, and the park count and
ROOTS -/
theorem alone_next {s : State} {m : ℕ} (h : (s.thread m).pc.solo = true) (env : Env) : Alone s (next s m env) m := by
  cases hpc : (s.thread m).pc
  case' append saw => cases saw
  all_goals
    simp only [hpc, Pc.solo, Bool.false_eq_true] at h
  all_goals simp only [next, hpc]
  all_goals repeat' split
  all_goals try exact .refl s m
  all_goals
    refine ⟨fun k hk => ?_, ?_, rfl, rfl, rfl, rfl⟩
    case refine_1 => simp [State.returnBlock, Threads.set_of_ne, hk]
    case refine_2 => simp [State.returnBlock]

/-- a step of a mutator that lost the compare_exchange -/
theorem Gathering.member {s s' : State} {l m : ℕ} (h : Gathering s l) (hml : m ≠ l) (hmem : m ∈ s.mutators)
    (ha : Alone s s' m) (hjoin : (s'.thread m).Joining (s.thread l).slot)
    (hcount : s'.stwCount + (if (s.thread m).counted = true then 1 else 0) =
      s.stwCount + if (s'.thread m).counted = true then 1 else 0)
    (hasleep : (s.thread m).pc = .asleep → (s'.thread m).pc = .asleep)
    (hroots : Pieces s' (fun k => (s'.thread k).contributed = true) s'.roots) : Gathering s' l := by
  have hl : s'.thread l = s.thread l := ha.others l hml.symm
  exact {
    lead := by
      rw [hl]
      exact h.lead
    unblocked := by
      rw [hl]
      exact h.unblocked
    controller := by
      rw [hl, ha.controller]
      exact h.controller
    others := by
      intro k hk
      rw [hl]
      rcases eq_or_ne k m with rfl | hkm
      · exact .inr hjoin
      · rw [ha.others k hkm]
        exact h.others k hk
    count := by
      have hupd := countIn_update (fun t : Thread => t.counted = true) s.thread (List.mem_toFinset.2 hmem) (s'.thread m)
      rw [← ha.thread_eq] at hupd
      have hold := h.count
      rw [ha.mutators]
      omega
    waiting := by
      intro n hn
      rw [hl] at hn
      rw [ha.mutators]
      refine (h.waiting n hn).trans (countIn_mono _ fun w _ hw => ?_)
      rcases eq_or_ne w m with rfl | hwm
      · exact hasleep hw
      · rw [ha.others w hwm]
        exact hw
    roots := hroots
    gc := by rw [ha.gcCount, ha.gcDone, h.gc] }

/-- a step of the controller that stays in its loop or before it -/
theorem Gathering.move {s s' : State} {l : ℕ} (h : Gathering s l) (ha : Alone s s' l)
    (hlead : (s'.thread l).pc.gathers = true) (hunblocked : (s'.thread l).stillBlocked = false)
    (hcount : s'.stwCount = s.stwCount)
    (hwaiting : ∀ n, (s'.thread l).pc = .waitLoad n ∨ (s'.thread l).pc = .waitRead n →
      n ≤ countIn (fun t : Thread => t.pc = .asleep) s.mutators.toFinset s.thread)
    (hroots : Pieces s' (fun k => (s'.thread k).contributed = true) s'.roots) : Gathering s' l := by
  have hgathers : ∀ t : Thread, t.pc.gathers = true → t.stillBlocked = false → t.counted = false ∧ t.pc ≠ .asleep := by
    intro t h1 h2
    unfold Thread.counted
    cases hp : t.pc <;> simp_all [Pc.gathers]
  have hold := hgathers _ h.lead h.unblocked
  have hnew := hgathers _ hlead hunblocked
  exact {
    lead := hlead
    unblocked := hunblocked
    controller := by
      rw [ha.controller, ha.slot]
      exact h.controller
    others := by
      intro k hk
      rw [ha.others k hk, ha.slot]
      exact h.others k hk
    count := by
      rw [hcount, h.count, ha.mutators]
      apply countIn_congr
      intro w _
      rcases eq_or_ne w l with rfl | hw
      · rw [hold.1, hnew.1]
      · rw [ha.others w hw]
    waiting := by
      intro n hn
      refine (hwaiting n hn).trans_eq ?_
      rw [ha.mutators]
      apply countIn_congr
      intro w _
      rcases eq_or_ne w l with rfl | hw
      · simp [hold.2, hnew.2]
      · rw [ha.others w hw]
    roots := hroots
    gc := by rw [ha.gcCount, ha.gcDone, h.gc] }

/-- a thread inside a call makes no other call -/
theorem call_eq_self {s : State} {m : ℕ} (hidle : (s.thread m).pc ≠ .idle) (habsent : (s.thread m).pc ≠ .absent)
    (c : Call) : call s m c = s := by
  cases c <;> simp [call, hidle, habsent]

theorem slot_ne_noController (n : ℕ) : (n : ℤ) ≠ noController := by
  unfold noController
  omega

/-- what a step of a thread at `pc` leaves of the pieces -/
theorem Pieces.step {s s' : State} {m : ℕ} (ha : Alone s s' m)
    (h : Pieces s (fun k => (s.thread k).contributed = true) s.roots) (hroots : s'.roots = s.roots)
    (hc : (s'.thread m).contributed = (s.thread m).contributed)
    (hr : (s.thread m).contributed = true → (s'.thread m).threadRoots = (s.thread m).threadRoots) :
    Pieces s' (fun k => (s'.thread k).contributed = true) s'.roots := by
  rw [hroots]
  apply h.congr
  · intro k hk
    rcases eq_or_ne k m with rfl | hkm
    · exact hr hk
    · rw [ha.others k hkm]
  · intro k
    rcases eq_or_ne k m with rfl | hkm
    · rw [hc]
    · rw [ha.others k hkm]

/-- thread `m` has appended its piece -/
theorem Pieces.step_append {s s' : State} {m : ℕ} (ha : Alone s s' m)
    (h : Pieces s (fun k => (s.thread k).contributed = true) s.roots)
    (hroots : s'.roots = s.roots ++ [(m, (s.thread m).threadRoots)]) (hold : (s.thread m).contributed = false)
    (hnew : (s'.thread m).contributed = true) (hr : (s'.thread m).threadRoots = (s.thread m).threadRoots) :
    Pieces s' (fun k => (s'.thread k).contributed = true) s'.roots := by
  rw [hroots]
  apply h.append
  · simp [hold]
  · intro k
    rcases eq_or_ne k m with rfl | hkm
    · exact hr
    · rw [ha.others k hkm]
  · intro k
    rcases eq_or_ne k m with rfl | hkm
    · simp [hnew]
    · simp [ha.others k hkm, hkm]

theorem alone_of_joining {s : State} {m : ℕ} {c : ℤ} (hj : (s.thread m).Joining c) (env : Env) :
    Alone s (next s m env) m := by
  apply alone_next
  unfold Thread.Joining at hj
  split at hj <;> simp_all [Pc.solo]

/-- a mutator that lost the compare_exchange goes on until it sleeps -/
theorem joining_next {s : State} {m : ℕ} {c : ℤ} (hj : (s.thread m).Joining c) (hslot : c ≠ (s.thread m).slot)
    (env : Env) : ((next s m env).thread m).Joining c := by
  have hj' := hj
  unfold Thread.Joining at hj
  cases hpc : (s.thread m).pc
  case' prepare saw | scan saw | append saw => cases saw
  all_goals
    simp only [hpc] at hj
    try contradiction
  all_goals simp only [next, hpc]
  all_goals repeat' split
  all_goals try exact hj'
  all_goals simp_all [State.returnBlock, Thread.Joining]

/-- **A mutator that lost the compare_exchange** returns its block, scans, appends and parks. -/
theorem Gathering.joining {s : State} {l m : ℕ} (hb : Base s) (h : Gathering s l) (hml : m ≠ l)
    (hj : (s.thread m).Joining (s.thread l).slot) (env : Env) : Gathering (next s m env) l := by
  have hmem : m ∈ s.mutators := by
    rw [hb.mem]
    exact hj.registered
  have hslot : ((s.thread l).slot : ℤ) ≠ (s.thread m).slot := by
    intro heq
    exact hml (hb.slot_inj l (h.lead_mem hb) m hmem (by exact_mod_cast heq)).symm
  have halone := alone_of_joining hj env
  have hjoin := joining_next hj hslot env
  unfold Thread.Joining at hj
  cases hpc : (s.thread m).pc
  case' prepare saw | scan saw | append saw => cases saw
  all_goals
    simp only [hpc] at hj
    try contradiction
  case asleep =>
    simp only [next, hpc]
    exact h
  case append.some saw =>
    simp only [next, hpc] at halone hjoin ⊢
    split
    · rename_i hfree
      rw [if_pos hfree] at halone hjoin
      refine h.member hml hmem halone hjoin ?_ ?_ (h.roots.step_append halone rfl ?_ ?_ ?_)
      all_goals simp [Thread.counted, Thread.contributed, hpc]
    · exact h
  case parkLock =>
    simp only [next, hpc] at halone hjoin ⊢
    split
    · rename_i hfree
      rw [if_pos hfree] at halone hjoin
      refine h.member hml hmem halone hjoin ?_ ?_ (h.roots.step halone rfl ?_ ?_)
      all_goals simp [Thread.counted, Thread.contributed, hpc, hj]
    · exact h
  case assertNe saw =>
    have hne : ¬ saw = ((s.thread m).slot : ℤ) := by
      rw [hj.1]
      exact hslot
    simp only [next, hpc, hne, if_false] at halone hjoin ⊢
    refine h.member hml hmem halone hjoin ?_ ?_ (h.roots.step halone rfl ?_ ?_)
    all_goals simp [Thread.counted, Thread.contributed, hpc]
  all_goals
    simp only [next, hpc, hj, if_true] at halone hjoin ⊢
    refine h.member hml hmem halone hjoin ?_ ?_ (h.roots.step halone rfl ?_ ?_)
    all_goals simp [State.returnBlock, Thread.counted, Thread.contributed, hpc, hj]

/-- a mutator that comes to the barrier while another is controller has lost -/
theorem Gathering.cas {s : State} {l m : ℕ} (hb : Base s) (h : Gathering s l) (hpc : (s.thread m).pc = .cas)
    (hcalm : (s.thread m).Calm) (env : Env) : Gathering (next s m env) l := by
  have hml := h.ne_of_calm hcalm
  have hmem : m ∈ s.mutators := by
    rw [hb.mem, hpc]
    rfl
  have hne : ¬ s.controller = noController := by
    rw [h.controller]
    exact slot_ne_noController _
  simp only [next, hpc, hne, if_false]
  have ha : Alone s { s with thread := s.thread.goto m (.prepare (some s.controller)) } m :=
    ⟨fun k hk => by simp [hk], by simp, rfl, rfl, rfl, rfl⟩
  refine h.member hml hmem ha ?_ ?_ ?_ (h.roots.step ha rfl ?_ ?_)
  all_goals simp [Thread.Joining, Thread.counted, Thread.contributed, hpc, hcalm.2, h.controller]

/-! ## The controller's steps while it gathers -/

/-- without a registration under way, N_MUTATORS counts every registered mutator -/
theorem Base.length_le {s : State} (hb : Base s) (hadd : ∀ k ∈ s.mutators, (s.thread k).pc ≠ .newAdd) :
    s.mutators.length ≤ s.nMutators := by
  have hsize := hb.size
  have huncounted : s.holderPc.uncounted = 0 := by
    unfold State.holderPc
    cases hlock : s.mutatorsLock with
    | none => rfl
    | some m =>
      cases hp : (s.thread m).pc
      case newAdd =>
        refine absurd hp (hadd m ?_)
        rw [hb.mem, hp]
        rfl
      all_goals simp [hp, Pc.uncounted]
  omega

/-- the controller leaves its loop: every other registered mutator sleeps -/
theorem Gathering.all_asleep {s : State} {l n : ℕ} (hb : Base s) (h : Gathering s l)
    (hpc : (s.thread l).pc = .waitLoad n) (hn : ¬ n < s.nMutators - 1)
    (hadd : ∀ k ∈ s.mutators, (s.thread k).pc ≠ .newAdd) : ∀ k ∈ s.mutators, k ≠ l → (s.thread k).pc = .asleep := by
  have hlen := hb.length_le hadd
  have hwait := h.waiting n (.inl hpc)
  have hcard : s.mutators.toFinset.card = s.mutators.length := List.toFinset_card_of_nodup hb.nodup
  have hall := countIn_erase (fun t : Thread => t.pc = .asleep) (List.mem_toFinset.2 (h.lead_mem hb))
    (show ¬ (s.thread l).pc = .asleep by simp [hpc]) (by omega)
  intro k hk hkl
  exact hall k (List.mem_toFinset.2 hk) hkl

theorem Gathering.away {s : State} {l : ℕ} (hb : Base s) (h : Gathering s l) {k : ℕ} (hk : k ∉ s.mutators) :
    (s.thread k).Calm := by
  have hkl : k ≠ l := by
    rintro rfl
    exact hk (h.lead_mem hb)
  rcases h.others k hkl with hc | hj
  · exact hc
  · exact absurd ((hb.mem k).2 hj.registered) hk

theorem Gathering.blocked {s : State} {l k : ℕ} (h : Gathering s l) (hkl : k ≠ l) (hk : (s.thread k).pc = .asleep) :
    (s.thread k).stillBlocked = true := by
  rcases h.others k hkl with hc | hj
  · exact absurd hk hc.not_asleep
  · simpa [Thread.Joining, hk] using hj

/-- a counted thread that does not hold the mutex sleeps -/
theorem Gathering.asleep_of_counted {s : State} {l k : ℕ} (h : Gathering s l) (hlock : (s.thread k).pc.holdsStw = false)
    (hk : (s.thread k).counted = true) : (s.thread k).pc = .asleep := by
  have hlead := h.lead
  rcases eq_or_ne k l with rfl | hkl
  · simp only [Thread.counted, h.unblocked, Bool.or_false, decide_eq_true_eq] at hk
    rw [hk] at hlead
    cases hlead
  · rcases h.others k hkl with hc | hj
    · rw [hc.not_counted] at hk
      cases hk
    · unfold Thread.Joining at hj
      unfold Thread.counted at hk
      split at hj <;> simp_all [Pc.holdsStw]

theorem Gathering.leave {s : State} {l n : ℕ} (hb : Base s) (h : Gathering s l) (hpc : (s.thread l).pc = .waitLoad n)
    (hn : ¬ n < s.nMutators - 1) (hadd : ∀ k ∈ s.mutators, (s.thread k).pc ≠ .newAdd) :
    Stopped { s with thread := s.thread.goto l .gcStart } l := by
  have hasleep := h.all_asleep hb hpc hn hadd
  have hlmem := h.lead_mem hb
  have hcount : s.stwCount + 1 = s.mutators.length := by
    rw [h.count, ← List.toFinset_card_of_nodup hb.nodup]
    apply countIn_all_but _ (List.mem_toFinset.2 hlmem)
    · simp [Thread.counted, hpc, h.unblocked]
    · intro k hk hkl
      simp [Thread.counted, h.blocked hkl (hasleep k (List.mem_toFinset.1 hk) hkl)]
  exact {
    lead := by simp [Pc.stops]
    unblocked := by simpa using h.unblocked
    controller := by simpa [Pc.owns, Pc.leads, Pc.stops] using h.controller
    others := by
      intro k hk hkl
      simpa [hkl, Pc.others] using hasleep k hk hkl
    away := by
      intro k hk
      have hkl : k ≠ l := by
        rintro rfl
        exact hk hlmem
      simpa [Thread.Calm, hkl] using h.away hb hk
    blocked := by
      intro k hk hkl _
      simpa using h.blocked hkl (hasleep k hk hkl)
    cleared := by simp [Pc.cleared]
    half := by simp
    todo := by simp [Pc.todo]
    count := by simpa [Pc.zeroed] using hcount
    roots := by
      simp only [Threads.goto_apply, if_true, Pc.undrained]
      refine h.roots.congr (fun k _ => by simp) fun k => ?_
      rcases eq_or_ne k l with rfl | hkl
      · simp [hlmem, Thread.contributed, hpc]
      · by_cases hk : k ∈ s.mutators
        · simp [hk, Thread.contributed, hasleep k hk hkl]
        · simp [hk, (h.away hb hk).not_contributed]
    drained := by simp [Pc.traces]
    gc := by simpa [Pc.running] using h.gc }

/-- a step of the controller before gc() -/
theorem Gathering.lead_step {s : State} {l : ℕ} (hb : Base s) (h : Gathering s l) (env : Env)
    (hq : NoLateNew s (.next l env)) : Gathering (next s l env) l ∨ Stopped (next s l env) l := by
  have hlead := h.lead
  have hunblocked := h.unblocked
  have halone : Alone s (next s l env) l := by
    apply alone_next
    cases hpc : (s.thread l).pc <;> simp_all [Pc.gathers, Pc.solo]
  cases hpc : (s.thread l).pc
  case' prepare saw | scan saw | append saw => cases saw
  all_goals
    simp only [hpc, Pc.gathers, Bool.false_eq_true] at hlead
  case prepare.none | scan.none =>
    simp only [next, hpc] at halone ⊢
    refine .inl (h.move halone ?_ ?_ rfl ?_ (h.roots.step halone rfl ?_ ?_))
    all_goals simp [State.returnBlock, Pc.gathers, Thread.contributed, hpc, hunblocked]
  case append.none =>
    simp only [next, hpc] at halone ⊢
    split
    · rename_i hfree
      rw [if_pos hfree] at halone
      refine .inl (h.move halone ?_ ?_ rfl ?_ (h.roots.step_append halone rfl ?_ ?_ ?_))
      all_goals simp [Pc.gathers, Thread.contributed, hpc, hunblocked]
    · exact .inl h
  case waitLoad n =>
    simp only [next, hpc] at halone ⊢
    split
    · rename_i hlt
      rw [if_pos hlt] at halone
      refine .inl (h.move halone ?_ ?_ rfl ?_ (h.roots.step halone rfl ?_ ?_))
      case refine_3 => simpa using h.waiting n (.inl hpc)
      all_goals simp [Pc.gathers, Thread.contributed, hpc, hunblocked]
    · rename_i hlt
      exact .inr (h.leave hb hpc hlt (hq.2 (by simp [hpc, Pc.leavesWait, hlt])))
  case waitRead n =>
    simp only [next, hpc] at halone ⊢
    split
    · rename_i hfree
      rw [if_pos hfree] at halone
      refine .inl (h.move halone ?_ ?_ rfl ?_ (h.roots.step halone rfl ?_ ?_))
      case refine_3 =>
        -- nobody holds the mutex, so every counted thread is asleep
        have hasleep : s.stwCount ≤ countIn (fun t : Thread => t.pc = .asleep) s.mutators.toFinset s.thread := by
          rw [h.count]
          apply countIn_mono
          intro k _ hk
          exact h.asleep_of_counted (hb.stwLock.free hfree k) hk
        simpa using hasleep
      all_goals simp [Pc.gathers, Thread.contributed, hpc, hunblocked]
    · exact .inl h

theorem gathering_step {s : State} {l : ℕ} (hb : Base s) (h : Gathering s l) (o : Op) (hq : NoLateNew s o) :
    Gathering (step s o) l ∨ Stopped (step s o) l := by
  -- a thread in the cycle makes no call
  have hcall : ∀ m c, ¬ (s.thread m).Calm → call s m c = s := by
    intro m c hm
    rcases eq_or_ne m l with rfl | hml
    · have hlead := h.lead
      apply call_eq_self <;> intro hp <;> rw [hp] at hlead <;> cases hlead
    · have hj := (h.others m hml).resolve_left hm
      apply call_eq_self <;> intro hp <;> simp [Thread.Joining, hp] at hj
  cases o with
  | call m c =>
    left
    by_cases hm : (s.thread m).Calm
    · exact h.calmly hm (calmly_call hm c)
    · rw [step, hcall m c hm]
      exact h
  | next m env =>
    rcases eq_or_ne m l with rfl | hml
    · exact h.lead_step hb env hq
    · left
      rcases h.others m hml with hm | hj
      · by_cases hcas : (s.thread m).pc = .cas
        · exact h.cas hb hcas hm env
        · exact h.calmly hm (calmly_next hm hcas env)
      · exact h.joining hb hml hj env

/-! ## Stopped -/

theorem Stopped.lead_mem {s : State} {l : ℕ} (h : Stopped s l) (hb : Base s) : l ∈ s.mutators := by
  have hl := h.lead
  rw [hb.mem]
  cases hp : (s.thread l).pc <;> simp_all [Pc.stops, Pc.registered]

/-- a thread that is no mutator of the cycle -/
theorem Stopped.aside {s s' : State} {l m : ℕ} (hb : Base s) (h : Stopped s l) (hm : m ∉ s.mutators)
    (hthread : ∀ k, k ≠ m → s'.thread k = s.thread k) (hcalm : (s'.thread m).Calm) (hmut : s'.mutators = s.mutators)
    (hcontroller : s'.controller = s.controller) (hcount : s'.stwCount = s.stwCount) (hroots : s'.roots = s.roots)
    (hdrained : s'.drained = s.drained) (hgc : s'.gcCount = s.gcCount ∧ s'.gcDone = s.gcDone) : Stopped s' l := by
  have hne : ∀ k ∈ s.mutators, k ≠ m := by
    rintro k hk rfl
    exact hm hk
  have hl : s'.thread l = s.thread l := hthread l (hne l (h.lead_mem hb))
  have hpieces : ∀ p, Pieces s (· ∈ s.mutators) p → Pieces s' (· ∈ s'.mutators) p := by
    intro p hp
    rw [hmut]
    exact hp.congr (fun k hk => by rw [hthread k (hne k hk)]) fun _ => Iff.rfl
  exact {
    lead := by rw [hl]; exact h.lead
    unblocked := by rw [hl]; exact h.unblocked
    controller := by rw [hl, hcontroller]; exact h.controller
    others := by
      intro k hk hkl
      rw [hmut] at hk
      rw [hl, hthread k (hne k hk)]
      exact h.others k hk hkl
    away := by
      intro k hk
      rw [hmut] at hk
      rcases eq_or_ne k m with rfl | hkm
      · exact hcalm
      · rw [hthread k hkm]
        exact h.away k hk
    blocked := by
      intro k hk hkl
      rw [hmut] at hk
      rw [hl, hthread k (hne k hk)]
      exact h.blocked k hk hkl
    cleared := by
      intro k hk
      rw [hmut] at hk
      rw [hl, hthread k (hne k hk)]
      exact h.cleared k hk
    half := by
      intro k hk
      rw [hmut] at hk
      rw [hl, hthread k (hne k hk)]
      exact h.half k hk
    todo := by rw [hl]; exact h.todo
    count := by rw [hl, hcount, hmut]; exact h.count
    roots := by
      have hr := h.roots
      rw [hl, hroots]
      split_ifs at hr ⊢
      · exact hpieces _ hr
      · exact hr
    drained := by
      rw [hl, hdrained]
      exact fun ht => hpieces _ (h.drained ht)
    gc := by rw [hl, hgc.1, hgc.2]; exact h.gc }

/-- a step of the controller from `s` on to `pc`, at which the same flags are cleared -/
theorem Stopped.pass {s s' : State} {l : ℕ} {pc : Pc} (h : Stopped s l) (hthread : s'.thread = s.thread.goto l pc)
    (hmut : s'.mutators = s.mutators) (hstops : pc.stops = true) (hothers : pc.others = (s.thread l).pc.others)
    (hcount : if pc.zeroed then s'.stwCount = 0 else s'.stwCount + 1 = s.mutators.length)
    (hcleared : ∀ k ∈ s.mutators, pc.cleared k = (s.thread l).pc.cleared k) (hhalf : ∀ k todo, pc ≠ .clearBlocked k todo)
    (htodo : pc.todo.Nodup) (hcontroller : s'.controller = if pc.owns then ((s.thread l).slot : ℤ) else noController)
    (hroots : if pc.undrained then Pieces s (· ∈ s.mutators) s'.roots else s'.roots = [])
    (hdrained : pc.traces = true → Pieces s (· ∈ s.mutators) s'.drained) (hgc : s'.gcCount = s'.gcDone + pc.running) :
    Stopped s' l := by
  have hpc : (s'.thread l).pc = pc := by simp [hthread]
  have hother : ∀ k, k ≠ l → s'.thread k = s.thread k := by
    intro k hk
    simp [hthread, hk]
  have hpieces : ∀ p, Pieces s (· ∈ s.mutators) p → Pieces s' (· ∈ s'.mutators) p := by
    intro p hp
    rw [hmut]
    exact hp.congr (fun k _ => by simp [hthread]) fun _ => Iff.rfl
  exact {
    lead := by rw [hpc]; exact hstops
    unblocked := by simpa [hthread] using h.unblocked
    controller := by simpa [hthread] using hcontroller
    others := by
      intro k hk hkl
      rw [hmut] at hk
      rw [hpc, hother k hkl, hothers]
      exact h.others k hk hkl
    away := by
      intro k hk
      rw [hmut] at hk
      have hc := h.away k hk
      have hkl : k ≠ l := by
        rintro rfl
        have hl := hc.not_leads
        rw [Pc.leads, h.lead, Bool.or_true] at hl
        cases hl
      rw [hother k hkl]
      exact hc
    blocked := by
      intro k hk hkl hcl
      rw [hmut] at hk
      rw [hpc, hcleared k hk] at hcl
      rw [hother k hkl]
      exact h.blocked k hk hkl hcl
    cleared := by
      intro k hk hcl
      rw [hmut] at hk
      rw [hpc, hcleared k hk] at hcl
      simpa [hthread] using h.cleared k hk hcl
    half := by
      intro k _ todo hp
      exact absurd (hpc.symm.trans hp) (hhalf k todo)
    todo := by rw [hpc]; exact htodo
    count := by
      rw [hpc, hmut]
      exact hcount
    roots := by
      rw [hpc]
      split_ifs at hroots ⊢
      · exact hpieces _ hroots
      · exact hroots
    drained := by
      rw [hpc]
      exact fun ht => hpieces _ (hdrained ht)
    gc := by rw [hpc]; exact hgc }

theorem Pc.of_inGc {pc : Pc} (h : pc.inGc = true) : pc.owns = true ∧ pc.others = .asleep ∧ ∀ k, pc.cleared k = false := by
  cases pc <;> simp_all [inGc, owns, leads, gathers, stops, others, cleared]

/-- gc() panics -/
theorem Stopped.panic {s s' : State} {l : ℕ} (h : Stopped s l) (hgc : (s.thread l).pc.inGc = true)
    (hcontroller : s'.controller = s.controller) (hthread : s'.thread = s.thread.goto l .gcPanicked) : Dead s' l := by
  obtain ⟨howns, hothers, hcleared⟩ := Pc.of_inGc hgc
  refine ⟨by simp [hthread], ?_, fun k hk => ?_⟩
  · rw [hcontroller, h.controller, if_pos howns, hthread]
    simp
  · rw [hthread]
    simp only [Threads.goto_apply, hk, if_false]
    by_cases hkm : k ∈ s.mutators
    · have hpc := (h.others k hkm hk).trans hothers
      have hblocked := h.blocked k hkm hk (hcleared k)
      exact .inr (by simpa [Thread.Joining, hpc] using hblocked)
    · exact .inl (h.away k hkm)

/-- gc() and the release of CONTROLLER: the others sleep on -/
theorem Stopped.gc_step {s : State} {l : ℕ} (hb : Base s) (h : Stopped s l)
    (hpc : (s.thread l).pc.inGc = true ∨ (s.thread l).pc = .storeController ∨ (s.thread l).pc = .clearLock) (env : Env) :
    Stopped (next s l env) l ∨ Dead (next s l env) l := by
  have hcontroller := h.controller
  have hcount := h.count
  have hroots := h.roots
  have hdrained := h.drained
  have hgc := h.gc
  cases hp : (s.thread l).pc
  all_goals
    simp only [hp, Pc.inGc, Bool.false_eq_true, reduceCtorEq, or_self, or_false, or_true] at hpc
  all_goals
    simp only [hp, Pc.owns, Pc.leads, Pc.gathers, Pc.stops, Bool.or_true, if_true, Pc.undrained, Bool.false_eq_true,
      if_false] at hcontroller hroots
    simp only [hp, Pc.traces, Pc.running, Pc.zeroed, Bool.false_eq_true, forall_const, if_false] at hdrained hgc hcount
    simp only [next, hp]
  all_goals repeat' split
  all_goals try exact .inl h
  -- the panics of the trace and of the sweep
  case h_3 | h_2.isTrue => exact .inr (h.panic (by rw [hp]; rfl) rfl rfl)
  all_goals
    refine .inl (h.pass rfl rfl rfl ?_ ?_ ?_ ?_ ?_ ?_ ?_ ?_ ?_)
    all_goals
      simp [hb.nodup, Pc.others, Pc.zeroed, Pc.cleared, Pc.todo, Pc.owns, Pc.leads, Pc.gathers, Pc.stops, Pc.undrained,
        Pc.traces, Pc.running, *]

/-! ## The end of the cycle -/

theorem Stopped.away_ne {s : State} {l k : ℕ} (h : Stopped s l) (hk : (s.thread k).Calm) : k ≠ l := by
  rintro rfl
  have hl := hk.not_leads
  rw [Pc.leads, h.lead, Bool.or_true] at hl
  cases hl

/-- `set_take_yield(false)` -/
theorem Stopped.clearYield {s : State} {l k : ℕ} {todo : List ℕ} (h : Stopped s l)
    (hp : (s.thread l).pc = .clearYield (k :: todo)) :
    Stopped { s with thread := (s.thread.setTakeYield k false).goto l (.clearBlocked k todo) } l := by
  have hcontroller := h.controller
  have hcount := h.count
  have hroots := h.roots
  have hgc := h.gc
  have htodo := h.todo
  simp only [hp, Pc.owns, Bool.false_eq_true, if_false, Pc.zeroed] at hcontroller hcount
  simp only [hp, Bool.false_eq_true, if_false, Pc.undrained, Pc.running, Pc.todo] at hroots hgc htodo
  exact {
    lead := by simp [Pc.stops]
    unblocked := by simpa using h.unblocked
    controller := by simpa [Pc.owns] using hcontroller
    others := by
      intro j hj hjl
      have ho := h.others j hj hjl
      simpa [hjl, hp, Pc.others] using ho
    away := by
      intro j hj
      have hc := h.away j hj
      simpa [Thread.Calm, h.away_ne hc] using hc
    blocked := by
      intro j hj hjl hcl
      have hbl := h.blocked j hj hjl
      simp only [hp, Pc.cleared] at hbl
      simp only [Threads.goto_apply, if_true, Pc.cleared] at hcl
      simpa using hbl hcl
    cleared := by
      intro j hj hcl
      have hc := h.cleared j hj
      simp only [hp, Pc.cleared] at hc
      simp only [Threads.goto_apply, if_true, Pc.cleared] at hcl
      have hjc := hc hcl
      simp [hjc.1, hjc.2]
    half := by
      intro j _ rest hj
      simp only [Threads.goto_apply, if_true, Pc.clearBlocked.injEq] at hj
      simp [hj.1]
    todo := by simpa [Pc.todo] using htodo
    count := by simpa [Pc.zeroed] using hcount
    roots := by simpa [Pc.undrained] using hroots
    drained := by simp [Pc.traces]
    gc := by simpa [Pc.running] using hgc }

/-- `set_still_blocked(false)` -/
theorem Stopped.clearBlocked {s : State} {l k : ℕ} {todo : List ℕ} (h : Stopped s l)
    (hp : (s.thread l).pc = .clearBlocked k todo) :
    Stopped { s with thread := (s.thread.setStillBlocked k false).goto l (.clearYield todo) } l := by
  have hcontroller := h.controller
  have hcount := h.count
  have hroots := h.roots
  have hgc := h.gc
  have htodo := h.todo
  simp only [hp, Pc.owns, Bool.false_eq_true, if_false, Pc.zeroed, Pc.todo] at hcontroller hcount htodo
  simp only [hp, Bool.false_eq_true, if_false, Pc.undrained, Pc.running] at hroots hgc
  rw [List.nodup_cons] at htodo
  exact {
    lead := by simp [Pc.stops]
    unblocked := by
      simp only [Threads.goto_apply, Threads.setStillBlocked_apply]
      split_ifs
      · rfl
      · exact h.unblocked
    controller := by simpa [Pc.owns] using hcontroller
    others := by
      intro j hj hjl
      have ho := h.others j hj hjl
      simpa [hjl, hp, Pc.others] using ho
    away := by
      intro j hj
      have hc := h.away j hj
      simpa [Thread.Calm, h.away_ne hc, hc.2] using hc.1
    blocked := by
      intro j hj hjl hcl
      have hbl := h.blocked j hj hjl
      simp only [hp, Pc.cleared] at hbl
      simp only [Threads.goto_apply, if_true, Pc.cleared, decide_eq_false_iff_not, not_not] at hcl
      -- a mutator still to be cleared is not the one cleared now
      have hjk : j ≠ k := by
        rintro rfl
        exact htodo.1 hcl
      simpa [hjk] using hbl (by simp [hcl])
    cleared := by
      intro j hj hcl
      simp only [Threads.goto_apply, if_true, Pc.cleared, decide_eq_true_eq] at hcl
      rcases eq_or_ne j k with rfl | hjk
      · simpa using h.half j hj todo hp
      · have hc := h.cleared j hj
        simp only [hp, Pc.cleared] at hc
        have hjc := hc (by simp [hjk, hcl])
        simp [hjk, hjc.1, hjc.2]
    half := by simp
    todo := by simpa [Pc.todo] using htodo.2
    count := by simpa [Pc.zeroed] using hcount
    roots := by simpa [Pc.undrained] using hroots
    drained := by simp [Pc.traces]
    gc := by simpa [Pc.running] using hgc }

/-- the phases do not look at blocks -/
theorem Stopped.setBlock {s : State} {l : ℕ} (h : Stopped s l) (b : Option ℕ) :
    Stopped { s with thread := s.thread.setBlock l b } l := by
  constructor
  case lead => simpa using h.lead
  case unblocked => simpa using h.unblocked
  case controller => simpa using h.controller
  case others => simpa using h.others
  case away => simpa [Thread.Calm] using h.away
  case blocked => simpa using h.blocked
  case cleared => simpa using h.cleared
  case half => simpa using h.half
  case todo => simpa using h.todo
  case count => simpa using h.count
  case roots => simpa [Pieces] using h.roots
  case drained => simpa [Pieces] using h.drained
  case gc => simpa using h.gc

/-- `cvar.notify_all()` -/
theorem Stopped.notify {s : State} {l : ℕ} (h : Stopped s l) (hp : (s.thread l).pc = .resumeNotify) :
    Stopped { s with thread := s.thread.notifyAll.goto l .resumeUnlock } l := by
  have hcontroller := h.controller
  have hcount := h.count
  have hroots := h.roots
  have hgc := h.gc
  simp only [hp, Pc.owns, Bool.false_eq_true, if_false, Pc.zeroed, if_true] at hcontroller hcount
  simp only [hp, Bool.false_eq_true, if_false, Pc.undrained, Pc.running] at hroots hgc
  exact {
    lead := by simp [Pc.stops]
    unblocked := by simpa using h.unblocked
    controller := by simpa [Pc.owns] using hcontroller
    others := by
      intro j hj hjl
      have ho := h.others j hj hjl
      simp only [hp, Pc.others] at ho
      simp [hjl, ho, Pc.others, Pc.wake]
    away := by
      intro j hj
      have hc := h.away j hj
      have hwake : (s.thread j).pc.wake = (s.thread j).pc := by
        have hna := hc.not_asleep
        cases hpj : (s.thread j).pc <;> simp_all [Pc.wake]
      simpa [Thread.Calm, h.away_ne hc, hwake] using hc
    blocked := by simp [Pc.cleared]
    cleared := by
      intro j hj _
      have hc := h.cleared j hj
      simp only [hp, Pc.cleared, forall_const] at hc
      simpa using hc
    half := by simp
    todo := by simp [Pc.todo]
    count := by simpa [Pc.zeroed] using hcount
    roots := by simpa [Pc.undrained] using hroots
    drained := by simp [Pc.traces]
    gc := by simpa [Pc.running] using hgc }

/-- the controller leaves `sync_barrier`: everybody is released -/
theorem Stopped.release {s : State} {l : ℕ} (h : Stopped s l) (hp : (s.thread l).pc = .resumeUnlock) (r : Ret) :
    Open { s with stwLock := none, thread := s.thread.goto l r.pc } := by
  have hcontroller := h.controller
  have hcount := h.count
  have hroots := h.roots
  have hgc := h.gc
  simp only [hp, Pc.owns, Bool.false_eq_true, if_false, Pc.zeroed, if_true] at hcontroller hcount
  simp only [hp, Bool.false_eq_true, if_false, Pc.undrained, Pc.running] at hroots hgc
  refine ⟨hcontroller, fun k => ?_, hcount, hroots, hgc⟩
  rcases eq_or_ne k l with rfl | hkl
  · cases r <;> simp [Thread.Calm, Ret.pc, Pc.calm, Pc.leads, Pc.gathers, Pc.stops, h.unblocked]
  · simp only [Thread.Calm, Threads.goto_apply, hkl, if_false]
    by_cases hk : k ∈ s.mutators
    · have ho := h.others k hk hkl
      have hc := h.cleared k hk (by simp [hp, Pc.cleared])
      simp [ho, hp, Pc.others, Pc.calm, Pc.leads, Pc.gathers, Pc.stops, hc.2]
    · exact h.away k hk

theorem Stopped.end_step {s : State} {l : ℕ} (h : Stopped s l)
    (hpc : (s.thread l).pc.inGc = false ∧ (s.thread l).pc ≠ .storeController ∧ (s.thread l).pc ≠ .clearLock) (env : Env) :
    Stopped (next s l env) l ∨ Open (next s l env) := by
  have hlead := h.lead
  have hcontroller := h.controller
  have hcount := h.count
  have hroots := h.roots
  have hgc := h.gc
  cases hp : (s.thread l).pc
  case' clearYield todo => cases todo
  all_goals
    simp only [hp, Pc.stops, Pc.inGc, Bool.false_eq_true, reduceCtorEq, ne_eq, not_true_eq_false, not_false_eq_true,
      and_false, false_and, and_self] at hlead hpc
  all_goals
    simp only [next, hp]
  case clearYield.nil =>
    simp only [hp, Pc.owns, Pc.zeroed, Bool.false_eq_true, if_false] at hcontroller hcount
    simp only [hp, Pc.undrained, Pc.running, Bool.false_eq_true, if_false] at hroots hgc
    refine .inl ((h.setBlock none).pass rfl rfl rfl ?_ ?_ ?_ ?_ ?_ ?_ ?_ ?_ ?_)
    all_goals
      simp [Pc.others, Pc.zeroed, Pc.cleared, Pc.todo, Pc.owns, Pc.undrained, Pc.traces, Pc.running, *]
  case clearYield.cons k todo => exact .inl (h.clearYield hp)
  case clearBlocked k todo => exact .inl (h.clearBlocked hp)
  case resumeLock =>
    simp only [hp, Pc.owns, Pc.undrained, Bool.false_eq_true, if_false] at hcontroller hroots
    simp only [hp, Pc.running] at hgc
    split
    · refine .inl (h.pass rfl rfl rfl ?_ ?_ ?_ ?_ ?_ ?_ ?_ ?_ ?_)
      all_goals
        simp [Pc.others, Pc.zeroed, Pc.cleared, Pc.todo, Pc.owns, Pc.undrained, Pc.traces, Pc.running, *]
    · exact .inl h
  case resumeNotify => exact .inl (h.notify hp)
  case resumeUnlock => exact .inr (h.release hp _)

/-- a registered mutator is inside a call -/
theorem Stopped.inside {s : State} {l m : ℕ} (h : Stopped s l) (hm : m ∈ s.mutators) :
    (s.thread m).pc ≠ .idle ∧ (s.thread m).pc ≠ .absent := by
  rcases eq_or_ne m l with rfl | hne
  · have hl := h.lead
    constructor <;> intro hp <;> rw [hp] at hl <;> cases hl
  · rw [h.others m hm hne]
    cases (s.thread l).pc <;> simp [Pc.others]

/-- a registered mutator other than the controller cannot move -/
theorem Stopped.next_eq_self {s : State} {l m : ℕ} (hb : Base s) (h : Stopped s l) (hm : m ∈ s.mutators) (hml : m ≠ l)
    (env : Env) : next s m env = s := by
  have hpc := h.others m hm hml
  cases hp : (s.thread l).pc
  case resumeUnlock =>
    have hlock : s.stwLock = some l := (hb.stwLock l).2 (by simp [hp, Pc.holdsStw])
    simp only [hp, Pc.others] at hpc
    simp [next, hpc, hlock]
  all_goals
    simp only [hp, Pc.others] at hpc
    simp only [next, hpc]

theorem Stopped.aside_call {s : State} {l m : ℕ} (hb : Base s) (h : Stopped s l) (hm : m ∉ s.mutators) (c : Call) :
    Stopped (call s m c) l := by
  have hcalm := (calmly_call (h.away m hm) c).calm
  cases c
  all_goals
    simp only [call] at hcalm ⊢
    split
    · rename_i hp
      rw [if_pos hp] at hcalm
      exact h.aside hb hm (fun k hk => by simp [Threads.set_of_ne, hk]) hcalm rfl rfl rfl rfl rfl ⟨rfl, rfl⟩
    · exact h

theorem Stopped.aside_next {s : State} {l m : ℕ} (hb : Base s) (h : Stopped s l) (hm : m ∉ s.mutators) (env : Env)
    (hq : NoLateNew s (.next m env)) : Stopped (next s m env) l := by
  have hreg : (s.thread m).pc.registered ≠ true := fun hr => hm ((hb.mem m).2 hr)
  have hblocked := (h.away m hm).2
  cases hp : (s.thread m).pc
  case absent =>
    simp only [next, hp]
    exact h
  case newInsert =>
    simp only [next, hp]
    split
    · -- a registration would come too late
      rename_i hfree
      have hstops := hq.1 ⟨hp, hfree⟩ l (h.lead_mem hb)
      rw [h.lead] at hstops
      cases hstops
    · exact h
  case destroySub | destroyUnlock =>
    simp only [next, hp]
    refine h.aside hb hm (fun k hk => by simp [hk]) ?_ rfl rfl rfl rfl rfl ⟨rfl, rfl⟩
    simp [Thread.Calm, Pc.calm, Pc.leads, Pc.gathers, Pc.stops, hblocked]
  all_goals
    rw [hp] at hreg
    exact absurd rfl hreg

theorem stopped_step {s : State} {l : ℕ} (hb : Base s) (h : Stopped s l) (o : Op) (hq : NoLateNew s o) :
    Stopped (step s o) l ∨ Dead (step s o) l ∨ Open (step s o) := by
  by_cases hml : ∃ env, o = .next l env
  · obtain ⟨env, rfl⟩ := hml
    by_cases hpc : (s.thread l).pc.inGc = true ∨ (s.thread l).pc = .storeController ∨ (s.thread l).pc = .clearLock
    · rcases h.gc_step hb hpc env with h1 | h1
      · exact .inl h1
      · exact .inr (.inl h1)
    · rw [not_or, not_or, Bool.not_eq_true] at hpc
      rcases h.end_step hpc env with h1 | h1
      · exact .inl h1
      · exact .inr (.inr h1)
  left
  cases o with
  | call m c =>
    by_cases hm : m ∈ s.mutators
    · obtain ⟨hidle, habsent⟩ := h.inside hm
      rw [step, call_eq_self hidle habsent]
      exact h
    · exact h.aside_call hb hm c
  | next m env =>
    by_cases hm : m ∈ s.mutators
    · have hne : m ≠ l := by
        rintro rfl
        exact hml ⟨env, rfl⟩
      rw [step, h.next_eq_self hb hm hne]
      exact h
    · exact h.aside_next hb hm env hq

/-! ## After a panic -/

theorem Dead.ne_of_calm {s : State} {l m : ℕ} (h : Dead s l) (hm : (s.thread m).Calm) : m ≠ l := by
  rintro rfl
  have hl := hm.1
  rw [h.lead] at hl
  cases hl

theorem Dead.calmly {s s' : State} {l m : ℕ} (h : Dead s l) (hm : (s.thread m).Calm) (hc : Calmly s s' m) :
    Dead s' l := by
  have hml : l ≠ m := (h.ne_of_calm hm).symm
  refine ⟨by rw [hc.pc hml, h.lead], by rw [hc.controller, hc.slot hml, h.controller], fun k hk => ?_⟩
  rw [hc.slot hml]
  rcases eq_or_ne k m with rfl | hkm
  · exact .inl hc.calm
  · rw [hc.calm_iff hkm, hc.joining_iff hkm]
    exact h.others k hk

theorem Dead.member {s s' : State} {l m : ℕ} (h : Dead s l) (hml : m ≠ l) (ha : Alone s s' m)
    (hj : (s'.thread m).Joining (s.thread l).slot) : Dead s' l := by
  have hl : s'.thread l = s.thread l := ha.others l hml.symm
  refine ⟨by rw [hl, h.lead], by rw [ha.controller, hl, h.controller], fun k hk => ?_⟩
  rw [hl]
  rcases eq_or_ne k m with rfl | hkm
  · exact .inr hj
  · rw [ha.others k hkm]
    exact h.others k hk

theorem dead_step {s : State} {l : ℕ} (hb : Base s) (h : Dead s l) (o : Op) : Dead (step s o) l := by
  have hlmem : l ∈ s.mutators := by
    rw [hb.mem, h.lead]
    rfl
  cases o with
  | call m c =>
    by_cases hm : (s.thread m).Calm
    · exact h.calmly hm (calmly_call hm c)
    · have hself : call s m c = s := by
        rcases eq_or_ne m l with rfl | hml
        · apply call_eq_self <;> simp [h.lead]
        · have hj := (h.others m hml).resolve_left hm
          apply call_eq_self <;> intro hp <;> simp [Thread.Joining, hp] at hj
      rw [step, hself]
      exact h
  | next m env =>
    rcases eq_or_ne m l with rfl | hml
    · simp only [step, next, h.lead]
      exact h
    rcases h.others m hml with hm | hj
    · by_cases hcas : (s.thread m).pc = .cas
      · have hne : ¬ s.controller = noController := by
          rw [h.controller]
          exact slot_ne_noController _
        simp only [step, next, hcas, hne, if_false]
        refine h.member hml ⟨fun k hk => by simp [hk], by simp, rfl, rfl, rfl, rfl⟩ ?_
        simp [Thread.Joining, hm.2, h.controller]
      · exact h.calmly hm (calmly_next hm hcas env)
    · have hmem : m ∈ s.mutators := by
        rw [hb.mem]
        exact hj.registered
      have hslot : ((s.thread l).slot : ℤ) ≠ (s.thread m).slot := by
        intro heq
        exact hml (hb.slot_inj l hlmem m hmem (by exact_mod_cast heq)).symm
      exact h.member hml (alone_of_joining hj env) (joining_next hj hslot env)

/-! ## Every phase -/

/-- **The phases.** -/
theorem phase_step {s : State} (hb : Base s) (h : Phase s) {o : Op} (hq : NoLateNew s o) : Phase (step s o) := by
  rcases h with h | ⟨l, h⟩ | ⟨l, h⟩ | ⟨l, h⟩
  · cases o with
    | call m c => exact .inl (h.calmly (calmly_call (h.calm m) c))
    | next m env =>
      by_cases hcas : (s.thread m).pc = .cas
      · exact .inr (.inl ⟨m, h.cas hcas env⟩)
      · exact .inl (h.calmly (calmly_next (h.calm m) hcas env))
  · rcases gathering_step hb h o hq with h' | h'
    · exact .inr (.inl ⟨l, h'⟩)
    · exact .inr (.inr (.inl ⟨l, h'⟩))
  · rcases stopped_step hb h o hq with h' | h' | h'
    · exact .inr (.inr (.inl ⟨l, h'⟩))
    · exact .inr (.inr (.inr ⟨l, h'⟩))
    · exact .inl h'
  · exact .inr (.inr (.inr ⟨l, dead_step hb h o⟩))

theorem open_init (u : Setup) : Open u.init := by
  refine ⟨rfl, fun k => ?_, rfl, rfl, rfl⟩
  by_cases hk : k ∈ u.mutators <;> simp [Setup.init, hk, Thread.Calm, Pc.calm, Pc.leads, Pc.gathers, Pc.stops]

theorem phase_before (u : Setup) {ops : List Op} (hops : LegalRun step NoLateNew u.init ops) (k : ℕ) :
    Phase (before u ops k) := by
  have hboth : Base (before u ops k) ∧ Phase (before u ops k) :=
    before_inv (P := fun s => Base s ∧ Phase s) u ⟨base_init u, .inl (open_init u)⟩
      (fun s o hq h => ⟨base_step h.1 o, phase_step h.1 h.2 hq⟩) hops k
  exact hboth.2

end Immix.Barrier
