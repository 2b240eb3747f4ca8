/-
The barrier lets everybody through (`sync_barrier`, `heap/gc/mod.rs`), under a fair schedule.

The runs are infinite. Each thread takes steps again and again, no client keeps a mutator in its own code for ever, every
`start_trace` returns, no mutator is added and gc() does not panic. Nothing is assumed of the locks: a thread that finds
one taken may find it taken each time it looks.
- `Flagged`: a flag that is set is set, or about to be set, for everybody.
- `rank`: what a thread has to do until it is parked. A step of a thread that is not blocked lowers it.
- `gathering_ends`: a controller that waits for the others comes to gc().
- `stopped_ends`: a stopped world runs again.
- `barrier_returns`: every call of `sync_barrier` returns.
-/
import Immix.AllocRetry
import Immix.Lib.Fair

namespace Immix.Barrier

open Immix.Lib

/-! ## What is left of a cycle -/

/-- what a thread has to do until it is parked, or waits for the others; `n` bounds the number of mutators -/
def rank (n : ℕ) (t : Thread) : ℕ :=
  match t.pc with
  | .newInsert => n + 19
  | .newAdd => n + 18
  | .newUnlock => n + 17
  | .woken => n + 16
  | .parkLoop => if t.stillBlocked then 1 else n + 15
  | .parkReset => n + 14
  | .allocSteal => n + 13
  | .idle => n + 12
  | .trigLock => n + 11
  | .trigSet todo => todo.length + 10
  | .allocReturn => 10
  | .yieldpoint => 9
  | .cas => 8
  | .prepare _ => 7
  | .scan _ => 6
  | .append _ => 5
  | .assertNe _ | .destroyReturn => 4
  | .parkLock | .destroyRemove => 3
  | .parkFlag | .destroySub => 2
  | .destroyUnlock => 1
  | _ => 0

/-- the thread waits for the others, or has just seen that all are parked -/
def Pc.waits : Pc → Bool
  | .waitLoad _ | .waitRead _ => true
  | _ => false

/-- the thread waits for a lock that `s` shows taken -/
def Blocked (s : State) (m : ℕ) : Prop :=
  match (s.thread m).pc with
  | .trigLock | .destroyRemove | .newInsert | .clearLock => s.mutatorsLock ≠ none
  | .parkLock | .woken | .resumeLock | .waitRead _ => s.stwLock ≠ none
  | .append _ | .gcLockRoots => s.rootsLock ≠ none
  | _ => False

/-- a thread with nothing to do before its client calls, or before it is woken -/
def Pc.rests : Pc → Bool
  | .absent | .idle | .asleep | .gcPanicked | .assertFailed => true
  | _ => false

theorem Pc.not_rests_of_stops {pc : Pc} (h : pc.stops = true) : pc.rests = false ∧ pc.waits = false := by
  cases pc <;> simp_all [stops, rests, waits]

/-- a step of the thread gets it further -/
structure Able (s : State) (m : ℕ) : Prop where
  waits : (s.thread m).pc.waits = false
  rests : (s.thread m).pc.rests = false
  blocked : ¬ Blocked s m

section Rank
variable {s : State} {m n : ℕ}

/-- **A step of a thread that is able to go on lowers its rank.** -/
theorem rank_next {env : Env} (h : Able s m) (hstops : (s.thread m).pc.stops = false)
    (hnew : (s.thread m).pc ≠ .newInsert) (hn : s.mutators.length ≤ n)
    (hflag : (s.thread m).pc = .yieldpoint → (s.thread m).takeYield = true) :
    rank n ((next s m env).thread m) < rank n (s.thread m) := by
  obtain ⟨hwaits, hrests, hblocked⟩ := h
  unfold Blocked at hblocked
  cases hpc : (s.thread m).pc
  case' trigSet todo => cases todo
  case' append saw => cases saw
  case' parkReset => cases hret : (s.thread m).ret
  case' parkLoop => cases hb : (s.thread m).stillBlocked
  all_goals
    simp only [hpc, Pc.stops, Pc.waits, Pc.rests, Bool.true_eq_false, ne_eq, not_true_eq_false] at hstops hwaits hrests hnew
  all_goals
    simp only [hpc, not_not] at hblocked
    simp only [next, hpc]
  all_goals repeat' split
  all_goals simp_all [State.returnBlock, rank, Ret.pc]
  all_goals try split_ifs
  all_goals omega

/-- so does a call -/
theorem rank_call {c : Call} (hidle : (s.thread m).pc = .idle) : call s m c = s ∨
    rank n ((call s m c).thread m) < rank n (s.thread m) := by
  cases c <;> simp [call, hidle, rank]

theorem rank_congr {t t' : Thread} (hpc : t'.pc = t.pc) (hb : t'.stillBlocked = t.stillBlocked) : rank n t' = rank n t := by
  unfold rank
  rw [hpc, hb]

/-- a thread that is not able to go on changes nothing, but for the loop that waits for the others -/
theorem next_of_not_able {env : Env} (h : ¬ Able s m) (hwaits : (s.thread m).pc.waits = false) : next s m env = s := by
  have hstuck : (s.thread m).pc.rests = true ∨ Blocked s m := by
    by_contra hno
    push Not at hno
    exact h ⟨hwaits, Bool.eq_false_of_not_eq_true hno.1, hno.2⟩
  unfold Blocked at hstuck
  cases hpc : (s.thread m).pc
  all_goals
    simp only [hpc, Pc.rests, Pc.waits, Bool.false_eq_true, or_false, false_or, Bool.true_eq_false]
      at hstuck hwaits
  all_goals simp only [next, hpc]
  all_goals first | rfl | exact if_neg hstuck | exact if_neg fun hlock => hstuck hlock.1

/-- a step in the loop that waits for the others -/
theorem next_of_waits (env : Env) (h : (s.thread m).pc.waits = true) : next s m env = s ∨
    ∃ pc, next s m env = { s with thread := s.thread.goto m pc } ∧ (pc.waits = true ∨ pc = .gcStart) := by
  cases hpc : (s.thread m).pc
  all_goals
    simp only [hpc, Pc.waits, Bool.false_eq_true] at h
  all_goals simp only [next, hpc]
  case waitLoad count => exact .inr ⟨_, rfl, by split <;> simp [Pc.waits]⟩
  case waitRead count =>
    split
    · exact .inr ⟨_, rfl, .inl rfl⟩
    · exact .inl rfl

end Rank

/-! ## Flags -/

/-- every registered mutator has its flag set -/
def AllFlagged (s : State) : Prop := ∀ k ∈ s.mutators, (s.thread k).takeYield = true

/-- while the world is not stopped, a flag that is set is or will be set for everybody -/
structure Flagged (s : State) : Prop where
  /-- a thread that sets the flags has those of `todo` left -/
  trigger : ∀ t todo, (s.thread t).pc = .trigSet todo → ∀ k ∈ s.mutators, (s.thread k).takeYield = true ∨ k ∈ todo
  spread : ∀ k ∈ s.mutators, (s.thread k).takeYield = true → (∃ t todo, (s.thread t).pc = .trigSet todo) ∨ AllFlagged s
  entered : ∀ k, (s.thread k).pc = .cas ∨ (s.thread k).pc.gathers = true → (s.thread k).takeYield = true

section
variable {s : State} {m : ℕ} {env : Env}

/-- what a step of `m` does to the flags and to MUTATORS -/
theorem flags_next (env : Env) (hstops : (s.thread m).pc.stops = false) (hnew : (s.thread m).pc ≠ .newInsert) :
    (∀ k, (s.thread k).takeYield = true → ((next s m env).thread k).takeYield = true) ∧
      (∀ k, ((next s m env).thread k).takeYield = true →
        (s.thread k).takeYield = true ∨ ∃ todo, (s.thread m).pc = .trigSet (k :: todo)) ∧
      ∀ k ∈ (next s m env).mutators, k ∈ s.mutators := by
  cases hpc : (s.thread m).pc
  case' trigSet todo => cases todo
  all_goals
    simp only [hpc, Pc.stops, Bool.true_eq_false, ne_eq, not_true_eq_false] at hstops hnew
  all_goals simp only [next, hpc]
  all_goals repeat' split
  all_goals simp [State.returnBlock, Threads.set_apply]
  all_goals grind [List.mem_of_mem_erase]

/-- a thread that is to set flags has just locked MUTATORS, or has set one more -/
theorem trigSet_next {todo : List ℕ} (h : ((next s m env).thread m).pc = .trigSet todo) :
    todo = (next s m env).mutators ∨ ∃ k, (s.thread m).pc = .trigSet (k :: todo) ∧
      ((next s m env).thread k).takeYield = true ∧ (next s m env).mutators = s.mutators := by
  cases hpc : (s.thread m).pc
  case' trigSet todo => cases todo
  case' clearYield todo => cases todo
  case' append saw => cases saw
  case' yieldpoint | parkReset | resumeUnlock => cases hret : (s.thread m).ret
  all_goals simp only [next, hpc] at h ⊢
  all_goals repeat' split at h
  all_goals simp_all [State.returnBlock, Ret.pc]

/-- a thread comes to the compare_exchange with its flag set, and keeps it -/
theorem entered_next (h : (s.thread m).pc = .cas ∨ (s.thread m).pc.gathers = true → (s.thread m).takeYield = true)
    (hstops : (s.thread m).pc.stops = false)
    (h' : ((next s m env).thread m).pc = .cas ∨ ((next s m env).thread m).pc.gathers = true) :
    (s.thread m).takeYield = true := by
  cases hpc : (s.thread m).pc
  case' trigSet todo => cases todo
  case' append saw | prepare saw | scan saw => cases saw
  case' yieldpoint | parkReset => cases hret : (s.thread m).ret
  all_goals
    simp only [hpc, Pc.stops, Pc.gathers, Bool.true_eq_false, reduceCtorEq, or_false, or_true, forall_const] at hstops h
  all_goals try exact h
  all_goals
    simp only [next, hpc] at h'
    repeat' split at h'
  all_goals simp_all [State.returnBlock, Ret.pc, Pc.gathers]

end

theorem call_mutators (s : State) (m : ℕ) (c : Call) : (call s m c).mutators = s.mutators := by
  cases c <;> simp only [call] <;> split <;> rfl

theorem call_takeYield {s : State} {m : ℕ} {c : Call} (ho : NoNew (.call m c)) (k : ℕ) :
    ((call s m c).thread k).takeYield = (s.thread k).takeYield := by
  rcases eq_or_ne k m with rfl | hk
  · cases c with
    | new i => exact absurd ho (by simp [NoNew])
    | _ =>
      simp only [call]
      split <;> simp
  · rw [call_other hk]

/-- **Step lemma**, while the world is not stopped. -/
theorem Flagged.step {s : State} (hset : Settled s) (hrun : Running s) (h : Flagged s) {o : Op} (ho : NoNew o) :
    Flagged (step s o) := by
  cases o with
  | call m c =>
    have hmut := call_mutators s m c
    have hflag := call_takeYield (s := s) ho
    have hcall : ∀ k, ((call s m c).thread k).pc = (s.thread k).pc ∨
        (∀ todo, ((call s m c).thread k).pc ≠ .trigSet todo) ∧ (∀ todo, (s.thread k).pc ≠ .trigSet todo) ∧
          ((call s m c).thread k).pc ≠ .cas ∧ ((call s m c).thread k).pc.gathers = false := by
      intro k
      rcases eq_or_ne k m with rfl | hk
      · cases c with
        | new i => exact absurd ho (by simp [NoNew])
        | _ =>
          simp only [call]
          split <;> simp_all [Pc.gathers]
      · rw [call_other hk]
        exact .inl rfl
    rw [Barrier.step]
    refine ⟨fun t todo ht k hk => ?_, fun k hk hf => ?_, fun k hk => ?_⟩
    · rw [hflag]
      rw [hmut] at hk
      rcases hcall t with hpc | ⟨hpc, -⟩
      · exact h.trigger t todo (hpc ▸ ht) k hk
      · exact absurd ht (hpc todo)
    · rw [hflag] at hf
      rw [hmut] at hk
      rcases h.spread k hk hf with ⟨t, todo, ht⟩ | hall
      · left
        rcases hcall t with hpc | ⟨-, hpc, -⟩
        · exact ⟨t, todo, hpc.trans ht⟩
        · exact absurd ht (hpc todo)
      · right
        intro j hj
        rw [hflag]
        exact hall j (hmut ▸ hj)
    · rw [hflag]
      rcases hcall k with hpc | ⟨-, -, hcas, hg⟩
      · exact h.entered k (by rwa [hpc] at hk)
      · rcases hk with hk | hk
        · exact absurd hk hcas
        · rw [hg] at hk
          cases hk
  | next m env =>
    have hstops := hrun.not_stops m
    obtain ⟨hmono, hnew, hsub⟩ := flags_next env hstops (hset m).1
    have hother : ∀ {k}, k ≠ m → ((next s m env).thread k).pc = (s.thread k).pc := fun hk =>
      (next_other_stays hk hstops env).1
    have hall : AllFlagged s → AllFlagged (next s m env) := fun hall k hk => hmono k (hall k (hsub k hk))
    rw [Barrier.step]
    refine ⟨fun t todo ht k hk => ?_, fun k hk hf => ?_, fun k hk => ?_⟩
    · rcases eq_or_ne t m with rfl | htm
      · rcases trigSet_next ht with rfl | ⟨j, hj, hset, hmut⟩
        · exact .inr hk
        · rcases h.trigger t _ hj k (hmut ▸ hk) with hf | hmem
          · exact .inl (hmono k hf)
          · rcases List.mem_cons.1 hmem with rfl | hmem
            · exact .inl hset
            · exact .inr hmem
      · rw [hother htm] at ht
        exact (h.trigger t todo ht k (hsub k hk)).imp_left (hmono k)
    · -- the thread that sets flags goes on setting them, or has set them all
      have htrig : ∀ t todo, (s.thread t).pc = .trigSet todo →
          (∃ t todo, ((next s m env).thread t).pc = .trigSet todo) ∨ AllFlagged (next s m env) := by
        intro t todo ht
        rcases eq_or_ne t m with rfl | htm
        · cases todo with
          | nil => exact .inr (hall fun j hj => (h.trigger t [] ht j hj).resolve_right (List.not_mem_nil))
          | cons j todo => exact .inl ⟨t, todo, by simp [next, ht]⟩
        · exact .inl ⟨t, todo, by rw [hother htm, ht]⟩
      rcases hnew k hf with hold | ⟨todo, ht⟩
      · rcases h.spread k (hsub k hk) hold with ⟨t, todo, ht⟩ | hflagged
        · exact htrig t todo ht
        · exact .inr (hall hflagged)
      · exact htrig m _ ht
    · rcases eq_or_ne k m with rfl | hkm
      · exact hmono k (entered_next (h.entered k) hstops hk)
      · rw [hother hkm] at hk
        exact hmono k (h.entered k hk)

/-- the world runs again with all flags cleared -/
theorem Stopped.flagged {s : State} {l : ℕ} {env : Env} (hb : Base s) (h : Stopped s l)
    (hpc : (s.thread l).pc = .resumeUnlock) : Flagged (next s l env) := by
  have hlm := h.lead_mem hb
  have hthread : (next s l env).thread = s.thread.goto l (s.thread l).ret.pc := by simp only [next, hpc]
  have hmut : (next s l env).mutators = s.mutators := by simp only [next, hpc]
  have hclear : ∀ k ∈ s.mutators, (s.thread k).takeYield = false := fun k hk => (h.cleared k hk (by rw [hpc]; rfl)).1
  -- nobody is in `trigger_gc` or in `sync_barrier` before the park
  have hpcs : ∀ k, (∀ todo, ((next s l env).thread k).pc ≠ .trigSet todo) ∧ ((next s l env).thread k).pc ≠ .cas ∧
      ((next s l env).thread k).pc.gathers = false := by
    intro k
    rw [hthread, Threads.goto_apply]
    rcases eq_or_ne k l with rfl | hkl
    · cases (s.thread k).ret <;> simp [Ret.pc, Pc.gathers]
    · simp only [if_neg hkl]
      by_cases hk : k ∈ s.mutators
      · have hw := h.others k hk hkl
        simp only [hpc, Pc.others] at hw
        simp [hw, Pc.gathers]
      · rw [hb.mem] at hk
        cases hp : (s.thread k).pc <;> simp_all [Pc.registered, Pc.gathers]
  refine ⟨fun t todo ht => absurd ht ((hpcs t).1 todo), fun k hk hf => ?_, fun k hk => ?_⟩
  · rw [hmut] at hk
    rw [hthread, Threads.goto_apply] at hf
    simp only [hclear k hk] at hf
    cases hf
  · rcases hk with hk | hk
    · exact absurd hk (hpcs k).2.1
    · rw [(hpcs k).2.2] at hk
      cases hk

/-! ## The invariants together -/

/-- what holds in every state of a run in which nobody is registered and gc() does not panic -/
structure Healthy (u : Setup) (s : State) : Prop where
  base : Base s
  settled : Settled s
  returns : ∀ k, (s.thread k).pc ≠ .gcPanicked
  cycle : Running s ∨ ∃ l, Stopped s l
  flagged : Running s → Flagged s
  absent : ∀ k, k ∉ u.mutators → (s.thread k).pc = .absent
  size : s.mutators.length ≤ u.mutators.length

theorem healthy_init (u : Setup) : Healthy u u.init where
  base := base_init u
  settled := settled_init u
  returns k := by by_cases hk : k ∈ u.mutators <;> simp [Setup.init, hk]
  cycle := .inl (.inl (open_init u))
  flagged _ := by
    refine ⟨fun t todo ht => ?_, fun k _ hf => ?_, fun k hk => ?_⟩
    · by_cases h : t ∈ u.mutators <;> simp [Setup.init, h] at ht
    · by_cases h : k ∈ u.mutators <;> simp [Setup.init, h] at hf
    · by_cases h : k ∈ u.mutators <;> simp [Setup.init, h, Pc.gathers] at hk
  absent k hk := by simp [Setup.init, hk]
  size := le_rfl

/-- nobody enters MUTATORS -/
theorem mutators_step {s : State} (hset : Settled s) (o : Op) : (step s o).mutators.length ≤ s.mutators.length := by
  cases o with
  | call m c => cases c <;> simp only [step, call] <;> split <;> exact le_rfl
  | next m env =>
    rw [step]
    have hnew := (hset m).1
    cases hpc : (s.thread m).pc
    case' trigSet todo => cases todo
    case' clearYield todo => cases todo
    case newInsert => exact absurd hpc hnew
    all_goals simp only [next, hpc]
    all_goals repeat' split
    all_goals try exact le_rfl
    case destroyRemove.isTrue =>
      rw [List.length_erase]
      split <;> omega

/-- a thread that is no mutator stays none -/
theorem absent_step {s : State} {k : ℕ} (h : (s.thread k).pc = .absent) {o : Op} (ho : NoNew o) :
    ((step s o).thread k).pc = .absent := by
  cases o with
  | call m c =>
    rw [step]
    rcases eq_or_ne k m with rfl | hk
    · cases c with
      | new i => exact absurd ho (by simp [NoNew])
      | _ => simp [call, h]
    · rw [call_other hk, h]
  | next m env =>
    rw [step]
    rcases eq_or_ne k m with rfl | hk
    · simp only [next, h]
    · obtain ⟨-, -, -, -, -, hpc⟩ := next_other (s := s) hk env
      rcases hpc with hpc | hpc
      · rw [hpc, h]
      · rw [hpc, h]
        rfl

theorem Healthy.step {u : Setup} {s : State} {o : Op} (ho : Steady s o) (h : Healthy u s) : Healthy u (step s o) := by
  have hreturns := not_panicked_step h.returns ho.2
  have hphase : Phase s := by
    rcases h.cycle with (h | h) | h
    · exact .inl h
    · exact .inr (.inl h)
    · exact .inr (.inr (.inl h))
  have hcycle : Running (Barrier.step s o) ∨ ∃ l, Stopped (Barrier.step s o) l := by
    rcases phase_step h.base hphase (h.settled.noLateNew o) with h' | h' | h' | ⟨l, h'⟩
    · exact .inl (.inl h')
    · exact .inl (.inr h')
    · exact .inr h'
    · exact absurd h'.lead (hreturns l)
  refine ⟨base_step h.base o, settled_step h.settled ho.1, hreturns, hcycle, fun hrun => ?_,
    fun k hk => absent_step (h.absent k hk) ho.1, (mutators_step h.settled o).trans h.size⟩
  rcases h.cycle with hr | ⟨l, hs⟩
  · exact (h.flagged hr).step h.settled hr ho.1
  · rcases stopped_step h.base hs o (h.settled.noLateNew o) with h' | h' | h'
    · have hstops := hrun.not_stops l
      rw [h'.lead] at hstops
      cases hstops
    · exact absurd h'.lead (hreturns l)
    · obtain ⟨env, rfl, hpc⟩ := hs.resumed h.base o h'
      exact hs.flagged h.base hpc

/-! ## States that stay as they are -/

/-- only the loop that waits for the others goes on -/
structure Frozen (s s' : State) : Prop where
  mutatorsLock : s'.mutatorsLock = s.mutatorsLock
  stwLock : s'.stwLock = s.stwLock
  rootsLock : s'.rootsLock = s.rootsLock
  mutators : s'.mutators = s.mutators
  nMutators : s'.nMutators = s.nMutators
  stwCount : s'.stwCount = s.stwCount
  thread : ∀ k, (s.thread k).pc.waits = false → s'.thread k = s.thread k
  waits : ∀ k, (s.thread k).pc.waits = true → (s'.thread k).pc.waits = true

namespace Frozen
variable {s s' s'' : State}

theorem refl (s : State) : Frozen s s := ⟨rfl, rfl, rfl, rfl, rfl, rfl, fun _ _ => rfl, fun _ h => h⟩

theorem waits_iff (h : Frozen s s') (k : ℕ) : (s'.thread k).pc.waits = (s.thread k).pc.waits := by
  cases hk : (s.thread k).pc.waits with
  | false => rw [h.thread k hk, hk]
  | true => exact h.waits k hk

theorem trans (h : Frozen s s') (h' : Frozen s' s'') : Frozen s s'' where
  mutatorsLock := h'.mutatorsLock.trans h.mutatorsLock
  stwLock := h'.stwLock.trans h.stwLock
  rootsLock := h'.rootsLock.trans h.rootsLock
  mutators := h'.mutators.trans h.mutators
  nMutators := h'.nMutators.trans h.nMutators
  stwCount := h'.stwCount.trans h.stwCount
  thread k hk := (h'.thread k (by rw [h.waits_iff, hk])).trans (h.thread k hk)
  waits k hk := h'.waits k (h.waits k hk)

/-- what a thread is able to do does not change -/
theorem able_iff (h : Frozen s s') (m : ℕ) : Able s' m ↔ Able s m := by
  cases hw : (s.thread m).pc.waits with
  | true =>
    have hw' := h.waits m hw
    constructor
    · intro ha
      rw [ha.waits] at hw'
      cases hw'
    · intro ha
      rw [ha.waits] at hw
      cases hw
  | false =>
    have hblocked : Blocked s' m ↔ Blocked s m := by
      unfold Blocked
      rw [h.thread m hw, h.mutatorsLock, h.stwLock, h.rootsLock]
    have hthread := h.thread m hw
    constructor
    · rintro ⟨h1, h2, h3⟩
      exact ⟨hw, hthread ▸ h2, fun hb => h3 (hblocked.2 hb)⟩
    · rintro ⟨h1, h2, h3⟩
      exact ⟨hthread ▸ hw, hthread ▸ h2, fun hb => h3 (hblocked.1 hb)⟩

/-- a step of a thread that is not able to go on, and does not begin gc() -/
theorem next {m : ℕ} {env : Env} (h : ¬ Able s m) (hstart : ((next s m env).thread m).pc ≠ .gcStart) :
    Frozen s (next s m env) := by
  cases hw : (s.thread m).pc.waits with
  | false =>
    rw [next_of_not_able h hw]
    exact refl s
  | true =>
    rcases next_of_waits env hw with heq | ⟨pc, heq, hpc⟩
    · rw [heq]
      exact refl s
    · rw [heq] at hstart ⊢
      have hpc' : pc.waits = true := by
        rcases hpc with hpc | rfl
        · exact hpc
        · simp at hstart
      refine ⟨rfl, rfl, rfl, rfl, rfl, rfl, fun k hk => ?_, fun k hk => ?_⟩
      · have hkm : k ≠ m := by
          rintro rfl
          rw [hw] at hk
          cases hk
        simp [hkm]
      · rcases eq_or_ne k m with rfl | hkm
        · simpa using hpc'
        · simpa [hkm] using hk

end Frozen

/-- **Somebody is able to go on.** When no thread is, no lock is held, and every thread rests or waits for the others. -/
theorem stuck {u : Setup} {s : State} (h : Healthy u s) (hstuck : ∀ m ∈ u.mutators, ¬ Able s m) :
    s.mutatorsLock = none ∧ s.stwLock = none ∧ s.rootsLock = none ∧
      ∀ m, (s.thread m).pc.rests = true ∨ (s.thread m).pc.waits = true := by
  have hnot : ∀ m, ¬ Able s m := by
    intro m
    by_cases hm : m ∈ u.mutators
    · exact hstuck m hm
    · rintro ⟨-, hrests, -⟩
      rw [h.absent m hm] at hrests
      cases hrests
  -- the holder of a lock is able to go on
  have hmutators : s.mutatorsLock = none := by
    by_contra hne
    obtain ⟨m, hm⟩ := Option.ne_none_iff_exists'.1 hne
    have hpc := (h.base.mutatorsLock m).1 hm
    apply hnot m
    cases hp : (s.thread m).pc
    all_goals
      simp only [hp, Pc.holdsMutators, Bool.false_eq_true] at hpc
    all_goals exact ⟨by rw [hp]; rfl, by rw [hp]; rfl, by simp [Blocked, hp]⟩
  have hstw : s.stwLock = none := by
    by_contra hne
    obtain ⟨m, hm⟩ := Option.ne_none_iff_exists'.1 hne
    have hpc := (h.base.stwLock m).1 hm
    apply hnot m
    cases hp : (s.thread m).pc
    all_goals
      simp only [hp, Pc.holdsStw, Bool.false_eq_true] at hpc
    all_goals exact ⟨by rw [hp]; rfl, by rw [hp]; rfl, by simp [Blocked, hp]⟩
  have hroots : s.rootsLock = none := by
    by_contra hne
    obtain ⟨m, hm⟩ := Option.ne_none_iff_exists'.1 hne
    have hpc := (h.base.rootsLock m).1 hm
    apply hnot m
    cases hp : (s.thread m).pc
    all_goals
      simp only [hp, Pc.holdsRoots, Bool.false_eq_true] at hpc
    all_goals exact ⟨by rw [hp]; rfl, by rw [hp]; rfl, by simp [Blocked, hp]⟩
  refine ⟨hmutators, hstw, hroots, fun m => ?_⟩
  by_contra hno
  push Not at hno
  refine hnot m ⟨Bool.eq_false_of_not_eq_true hno.2, Bool.eq_false_of_not_eq_true hno.1, fun hb => ?_⟩
  unfold Blocked at hb
  split at hb <;> contradiction

/-! ## The potential -/

/-- what all mutators have to do -/
def potential (u : Setup) (s : State) : ℕ := ∑ m ∈ u.mutators.toFinset, rank u.mutators.length (s.thread m)

/-- a step that lowers the rank of one mutator and keeps those of the others -/
theorem potential_lt {u : Setup} {s s' : State} {m : ℕ} (hm : m ∈ u.mutators)
    (hlt : rank u.mutators.length (s'.thread m) < rank u.mutators.length (s.thread m))
    (hother : ∀ k, k ≠ m → rank u.mutators.length (s'.thread k) = rank u.mutators.length (s.thread k)) :
    potential u s' < potential u s := by
  refine Finset.sum_lt_sum (fun k _ => ?_) ⟨m, List.mem_toFinset.2 hm, hlt⟩
  rcases eq_or_ne k m with rfl | hk
  · exact hlt.le
  · exact (hother k hk).le

/-- **Step lemma.** With all flags set, a step lowers the potential, or is of a thread that is not able to go on. -/
theorem potential_step {u : Setup} {s : State} (h : Healthy u s) (hrun : Running s) (hall : AllFlagged s) {o : Op}
    (ho : NoNew o) : potential u (step s o) < potential u s ∨ potential u (step s o) = potential u s ∧
      ((∃ m env, o = .next m env ∧ ¬ Able s m) ∨ ∃ m c, o = .call m c ∧ step s o = s) := by
  cases o with
  | call m c =>
    rw [step]
    by_cases hidle : (s.thread m).pc = .idle
    · rcases rank_call (n := u.mutators.length) (c := c) hidle with heq | hlt
      · rw [heq]
        exact .inr ⟨rfl, .inr ⟨m, c, rfl, rfl⟩⟩
      · have hm : m ∈ u.mutators := by
          by_contra hm
          rw [h.absent m hm] at hidle
          cases hidle
        exact .inl (potential_lt hm hlt fun k hk => by rw [call_other hk])
    · have heq : call s m c = s := by
        cases c with
        | new i => exact absurd ho (by simp [NoNew])
        | _ => simp [call, hidle]
      rw [heq]
      exact .inr ⟨rfl, .inr ⟨m, c, rfl, rfl⟩⟩
  | next m env =>
    rw [step]
    have hstops := hrun.not_stops m
    have hother : ∀ k, k ≠ m →
        rank u.mutators.length ((next s m env).thread k) = rank u.mutators.length (s.thread k) := fun k hk =>
      have hstays := next_other_stays hk hstops env
      rank_congr hstays.1 hstays.2
    by_cases hable : Able s m
    · have hm : m ∈ u.mutators := by
        by_contra hm
        have hrests := hable.rests
        rw [h.absent m hm] at hrests
        cases hrests
      refine .inl (potential_lt hm (rank_next hable hstops (h.settled m).1 h.size fun hpc => hall m ?_) hother)
      rw [h.base.mem, hpc]
      rfl
    · refine .inr ⟨?_, .inl ⟨m, env, rfl, hable⟩⟩
      cases hw : (s.thread m).pc.waits with
      | false => rw [next_of_not_able hable hw]
      | true =>
        have hzero : ∀ t : Thread, t.pc.waits = true ∨ t.pc = .gcStart → rank u.mutators.length t = 0 := by
          intro t ht
          unfold rank
          rcases ht with ht | ht
          · cases hp : t.pc <;> simp_all [Pc.waits]
          · rw [ht]
        refine Finset.sum_congr rfl fun k _ => ?_
        rcases eq_or_ne k m with rfl | hk
        · rw [hzero (s.thread k) (.inl hw)]
          rcases next_of_waits env hw with heq | ⟨pc, heq, hpc⟩
          · rw [heq, hzero _ (.inl hw)]
          · rw [heq]
            exact hzero _ (by simpa using hpc)
        · exact hother k hk

/-- while the world is not stopped, a flag once set for all stays so -/
theorem AllFlagged.step {s : State} (hset : Settled s) (hrun : Running s) (h : AllFlagged s) {o : Op} (ho : NoNew o) :
    AllFlagged (step s o) := by
  cases o with
  | call m c =>
    intro k hk
    rw [Barrier.step, call_mutators] at hk
    rw [Barrier.step, call_takeYield ho, h k hk]
  | next m env =>
    obtain ⟨hmono, -, hsub⟩ := flags_next env (hrun.not_stops m) (hset m).1
    exact fun k hk => hmono k (h k (hsub k hk))

/-- while the world is not stopped, a thread inside a call moves by its own steps only -/
theorem Running.pc_other {s : State} (hrun : Running s) {t : ℕ} (hidle : (s.thread t).pc ≠ .idle)
    (habsent : (s.thread t).pc ≠ .absent) {o : Op} (ho : ∀ env, o ≠ .next t env) :
    ((Barrier.step s o).thread t).pc = (s.thread t).pc := by
  cases o with
  | call m c =>
    rw [Barrier.step]
    rcases eq_or_ne t m with rfl | htm
    · rw [call_eq_self hidle habsent]
    · rw [call_other htm]
  | next m env =>
    have htm : t ≠ m := by
      rintro rfl
      exact ho env rfl
    exact (next_other_stays htm (hrun.not_stops m) env).1

/-- **When nobody is able to go on, everybody is parked.** The controller of a cycle is then in its loop, and the park count
is of all the others. -/
theorem Gathering.all_parked {u : Setup} {s : State} {l : ℕ} (h : Healthy u s) (hg : Gathering s l)
    (hstuck : ∀ m ∈ u.mutators, ¬ Able s m) (hidle : ∀ k, (s.thread k).pc ≠ .idle) :
    (s.thread l).pc.waits = true ∧ s.stwLock = none ∧ s.stwCount + 1 = s.nMutators := by
  obtain ⟨hmutators, hstw, -, hpcs⟩ := stuck h hstuck
  have hwaits : (s.thread l).pc.waits = true := by
    refine (hpcs l).resolve_left fun hrests => ?_
    have hlead := hg.lead
    cases hp : (s.thread l).pc <;> simp_all [Pc.rests, Pc.gathers]
  have hasleep : ∀ k ∈ s.mutators, k ≠ l → (s.thread k).pc = .asleep := by
    intro k hk hkl
    have hreg := (h.base.mem k).1 hk
    rcases hpcs k with hr | hw
    · cases hp : (s.thread k).pc
      all_goals
        simp only [hp, Pc.rests, Bool.false_eq_true] at hr
      case absent =>
        rw [hp] at hreg
        cases hreg
      case idle => exact absurd hp (hidle k)
      case asleep => rfl
      case gcPanicked => exact absurd hp (h.returns k)
      case assertFailed =>
        rcases hg.others k hkl with hc | hj
        · simp [Thread.Calm, hp, Pc.calm] at hc
        · simp [Thread.Joining, hp] at hj
    · -- only the controller waits for the others
      have hleads : (s.thread k).pc.leads = false := by
        rcases hg.others k hkl with hc | hj
        · exact hc.not_leads
        · exact hj.not_leads
      cases hp : (s.thread k).pc <;> simp_all [Pc.waits, Pc.leads, Pc.gathers]
  have hcount : s.stwCount + 1 = s.mutators.length := by
    rw [hg.count, ← List.toFinset_card_of_nodup h.base.nodup]
    apply countIn_all_but _ (List.mem_toFinset.2 (hg.lead_mem h.base))
    · have hnot : (s.thread l).pc ≠ .parkFlag := by
        intro hp
        rw [hp] at hwaits
        cases hwaits
      simp [Thread.counted, hg.unblocked, hnot]
    · intro k hk hkl
      simp [Thread.counted, hg.blocked hkl (hasleep k (List.mem_toFinset.1 hk) hkl)]
  have hsize : s.nMutators = s.mutators.length := by
    have hb := h.base.size
    simpa [State.holderPc, hmutators, Pc.uncounted, Pc.removed] using hb
  exact ⟨hwaits, hstw, hcount.trans hsize.symm⟩

/-! ## The end of a cycle -/

/-- what the controller has to do until it leaves `sync_barrier`, and a mutator until it has left MUTATORS -/
def stopRank (n : ℕ) (s : State) (t : Thread) : ℕ :=
  match t.pc with
  | .gcStart => 2 * n + (s.usedBlocks t.space).length + 14
  | .gcLockRoots => 2 * n + (s.usedBlocks t.space).length + 13
  | .gcDrain => 2 * n + (s.usedBlocks t.space).length + 12
  | .gcTrace => 2 * n + (s.usedBlocks t.space).length + 11
  | .gcSweep _ _ => 2 * n + (s.usedBlocks t.space).length + 10
  | .gcFlip => 2 * n + 9
  | .storeController => 2 * n + 8
  | .clearLock => 2 * n + 7
  | .clearBlocked _ todo => 2 * todo.length + 6
  | .clearYield todo => 2 * todo.length + 5
  | .resumeLock => 3
  | .resumeNotify | .destroySub => 2
  | .resumeUnlock | .destroyUnlock => 1
  | _ => 0

section StopRank
variable {s : State} {m n : ℕ}

/-- **A step of the controller lowers its rank**, but while it traces, and so does one of a mutator that leaves. -/
theorem stopRank_next (env : Env) (h : Able s m) (hpc : (s.thread m).pc.stops = true ∨ (s.thread m).pc = .destroySub ∨
    (s.thread m).pc = .destroyUnlock) (htrace : (s.thread m).pc = .gcTrace → env.tracing ≠ .running)
    (hn : s.mutators.length ≤ n) :
    stopRank n (next s m env) ((next s m env).thread m) < stopRank n s (s.thread m) := by
  obtain ⟨-, -, hblocked⟩ := h
  unfold Blocked at hblocked
  cases hp : (s.thread m).pc
  case' clearYield todo => cases todo
  case' resumeUnlock => cases hret : (s.thread m).ret
  case' gcSweep live usable => cases hused : s.usedBlocks (s.thread m).space
  all_goals
    simp only [hp, Pc.stops, Bool.false_eq_true, reduceCtorEq, or_false, or_self, false_or] at hpc
  all_goals
    simp only [hp, not_not] at hblocked
    simp only [hp, reduceCtorEq, false_implies, true_implies] at htrace
    simp only [next, hp]
  all_goals repeat' split
  all_goals simp_all [stopRank, Ret.pc]
  all_goals omega

/-- the rank of a thread that is not in gc() is its own -/
theorem stopRank_other {s' : State} {t t' : Thread} (hgc : t.pc.inGc = false) (hpc : t'.pc = t.pc ∨ t'.pc = t.pc.wake) :
    stopRank n s' t' = stopRank n s t := by
  unfold stopRank
  rcases hpc with hpc | hpc
  · rw [hpc]
    cases hp : t.pc <;> simp_all [Pc.inGc]
  · rw [hpc]
    cases hp : t.pc <;> simp_all [Pc.inGc, Pc.wake]

end StopRank

/-- while the world is stopped, a thread that is able to go on is the controller, or has left MUTATORS -/
theorem Stopped.able {u : Setup} {s : State} {l m : ℕ} (h : Healthy u s) (hs : Stopped s l) (hable : Able s m) :
    m = l ∨ m ∉ s.mutators ∧ ((s.thread m).pc = .destroySub ∨ (s.thread m).pc = .destroyUnlock) := by
  have hrests := hable.rests
  by_cases hm : m ∈ s.mutators
  · left
    by_contra hml
    have hpc := hs.others m hm hml
    cases hp : (s.thread l).pc
    case resumeUnlock =>
      -- the controller still holds the mutex
      have hlock : s.stwLock = some l := (h.base.stwLock l).2 (by simp [hp, Pc.holdsStw])
      simp only [hp, Pc.others] at hpc
      exact hable.blocked (by simp [Blocked, hpc, hlock])
    all_goals
      simp only [hp, Pc.others] at hpc
      rw [hpc] at hrests
      cases hrests
  · right
    refine ⟨hm, ?_⟩
    have hnew := (h.settled m).1
    rw [h.base.mem] at hm
    cases hp : (s.thread m).pc <;> simp_all [Pc.registered, Pc.rests]

/-- what all mutators have to do until the world runs again -/
def stopPotential (u : Setup) (s : State) : ℕ := ∑ m ∈ u.mutators.toFinset, stopRank u.mutators.length s (s.thread m)

/-- **Step lemma.** In a stopped world a step lowers the potential, or changes nothing. -/
theorem stopPotential_step {u : Setup} {s : State} {l : ℕ} (h : Healthy u s) (hs : Stopped s l) {o : Op} (ho : NoNew o) :
    stopPotential u (step s o) < stopPotential u s ∨
      step s o = s ∧ ∀ m env, o = .next m env → ¬ Able s m ∨ (s.thread m).pc = .gcTrace := by
  cases o with
  | call m c =>
    right
    refine ⟨?_, fun m' env he => by cases he⟩
    rw [step]
    by_cases hm : m ∈ s.mutators
    · obtain ⟨hidle, habsent⟩ := hs.inside hm
      exact call_eq_self hidle habsent c
    · have hidle : (s.thread m).pc ≠ .idle := by
        intro hp
        rw [h.base.mem, hp] at hm
        exact hm rfl
      cases c with
      | new i => exact absurd ho (by simp [NoNew])
      | _ => simp [call, hidle]
  | next m env =>
    by_cases htrace : (s.thread m).pc = .gcTrace ∧ env.tracing = .running
    · right
      refine ⟨by simp only [step, next, htrace], fun m' env' he => ?_⟩
      cases he
      exact .inr htrace.1
    have hends : (s.thread m).pc = .gcTrace → env.tracing ≠ .running := fun hp ht => htrace ⟨hp, ht⟩
    by_cases hable : Able s m
    · left
      rcases hs.able h hable with hml | ⟨hmem, hpc⟩
      · -- the controller goes on, and no other thread is in gc()
        subst hml
        have hlt := stopRank_next env hable (.inl hs.lead) hends h.size
        refine Finset.sum_lt_sum (fun k _ => ?_) ⟨m, List.mem_toFinset.2 ?_, hlt⟩
        · rcases eq_or_ne k m with rfl | hk
          · exact hlt.le
          · obtain ⟨-, -, -, -, -, hother⟩ := next_other (s := s) hk env
            refine (stopRank_other ?_ hother).le
            by_contra hgc
            exact hk (hs.eq_of_leads h.base (leads_of_stops (stops_of_inGc (Bool.eq_true_of_not_eq_false hgc))))
        · by_contra hno
          have hlead := hs.lead
          rw [h.absent m hno] at hlead
          cases hlead
      · have hml : m ≠ l := by
          rintro rfl
          exact hmem (hs.lead_mem h.base)
        have hlt := stopRank_next env hable (.inr hpc) hends h.size
        refine Finset.sum_lt_sum (fun k _ => ?_) ⟨m, List.mem_toFinset.2 ?_, hlt⟩
        · rcases eq_or_ne k m with rfl | hk
          · exact hlt.le
          · have hthread : (next s m env).thread k = s.thread k ∧ (next s m env).usedBlocks = s.usedBlocks := by
              rcases hpc with hpc | hpc <;> simp [next, hpc, hk]
            rw [step, hthread.1]
            unfold stopRank
            rw [hthread.2]
        · by_contra hno
          rw [h.absent m hno] at hpc
          rcases hpc with hpc | hpc <;> cases hpc
    · right
      refine ⟨next_of_not_able hable ?_, fun m' env' he => ?_⟩
      · by_contra hw
        have hleads : (s.thread m).pc.leads = true := by
          cases hp : (s.thread m).pc <;> simp_all [Pc.waits, Pc.leads, Pc.gathers]
        obtain rfl := hs.eq_of_leads h.base hleads
        exact hw (Pc.not_rests_of_stops hs.lead).2
      · cases he
        exact .inl hable

/-! ## Released threads -/

/-- what a thread that has been released has to do until it leaves `sync_barrier` -/
def releaseRank (t : Thread) : ℕ :=
  match t.pc with
  | .woken => 3
  | .parkLoop => 2
  | .parkReset => 1
  | _ => 0

/-- what all released threads have to do -/
def releasePotential (u : Setup) (s : State) : ℕ := ∑ m ∈ u.mutators.toFinset, releaseRank (s.thread m)

section Release
variable {s : State} {m : ℕ} {env : Env}

/-- between cycles nobody comes to be released, and a released thread that is able to go on gets out -/
theorem releaseRank_next (h : (s.thread m).Calm) :
    releaseRank ((next s m env).thread m) ≤ releaseRank (s.thread m) ∧
      (Able s m → 0 < releaseRank (s.thread m) → releaseRank ((next s m env).thread m) < releaseRank (s.thread m)) := by
  obtain ⟨hcalm, hblocked⟩ := h
  cases hp : (s.thread m).pc
  case' trigSet todo => cases todo
  case' yieldpoint | parkReset => cases hret : (s.thread m).ret
  all_goals
    simp only [hp, Pc.calm, Pc.leads, Pc.gathers, Pc.stops, Bool.or_self, Bool.not_true, Bool.not_false, Bool.or_true,
      Bool.or_false, reduceCtorEq] at hcalm
  all_goals simp only [next, hp]
  case woken =>
    split
    · simp [releaseRank, hp]
    · rename_i hlock
      refine ⟨le_rfl, fun hable => absurd ?_ hable.blocked⟩
      simpa [Blocked, hp] using hlock
  all_goals repeat' split
  all_goals simp [releaseRank, State.returnBlock, Ret.pc, *]

theorem releaseRank_call (c : Call) : releaseRank ((call s m c).thread m) ≤ releaseRank (s.thread m) := by
  cases c <;> simp only [call] <;> split <;> simp [releaseRank]

/-- a thread between cycles that is in the barrier, and not about to enter it, has been released -/
theorem Thread.Calm.released {t : Thread} (h : t.Calm) (hin : t.pc.inBarrier = true) (hcas : t.pc ≠ .cas) :
    t.released = true := by
  obtain ⟨hcalm, hblocked⟩ := h
  unfold Thread.released
  cases hp : t.pc <;>
    simp_all [Pc.calm, Pc.leads, Pc.gathers, Pc.stops, Pc.inBarrier, Pc.solo]

theorem releaseRank_pos {t : Thread} (h : t.released = true) : 0 < releaseRank t := by
  unfold Thread.released at h
  unfold releaseRank
  cases hp : t.pc <;> simp_all

/-- a thread in the barrier does not come to its entry again -/
theorem not_cas_step {o : Op} (hin : (s.thread m).pc.inBarrier = true)
    (h : (s.thread m).pc ≠ .cas ∨ ∃ env, o = .next m env) : ((step s o).thread m).pc ≠ .cas := by
  cases o with
  | call k c =>
    have hne : (s.thread m).pc ≠ .cas := by
      rcases h with h | ⟨env, he⟩
      · exact h
      · cases he
    rw [step]
    rcases eq_or_ne m k with rfl | hmk
    · rw [call_eq_self]
      · exact hne
      all_goals
        intro hp
        rw [hp] at hin
        cases hin
    · rw [call_other hmk]
      exact hne
  | next k env =>
    rw [step]
    rcases eq_or_ne m k with rfl | hmk
    · cases hp : (s.thread m).pc
      case' clearYield todo => cases todo
      case' append saw => cases saw
      case' parkReset | resumeUnlock => cases hret : (s.thread m).ret
      all_goals
        simp only [hp, Pc.inBarrier, Pc.solo, Pc.stops, reduceCtorEq, decide_false, Bool.or_self, Bool.false_eq_true]
          at hin
      all_goals simp only [next, hp]
      all_goals repeat' split
      all_goals simp [State.returnBlock, Ret.pc, *]
    · have hne : (s.thread m).pc ≠ .cas := by
        rcases h with h | ⟨env', he⟩
        · exact h
        · cases he
          exact absurd rfl hmk
      obtain ⟨-, -, -, -, -, hpc⟩ := next_other (s := s) hmk env
      rcases hpc with hpc | hpc
      · rw [hpc]
        exact hne
      · rw [hpc]
        cases hp : (s.thread m).pc <;> simp_all [Pc.wake]

/-- a released thread that is not able to go on waits for the mutex of the condition variable -/
theorem blocked_of_released (hrel : (s.thread m).released = true) (h : ¬ Able s m) :
    ∃ k, s.stwLock = some k := by
  refine Option.ne_none_iff_exists'.1 fun hlock => h ⟨?_, ?_, ?_⟩
  all_goals
    unfold Thread.released at hrel
    cases hp : (s.thread m).pc <;> simp_all [Pc.waits, Pc.rests, Blocked]

/-- between cycles the holder of that mutex is a released thread, and able to go on -/
theorem able_of_holdsStw (h : (s.thread m).pc.holdsStw = true) (hcalm : (s.thread m).Calm) :
    Able s m ∧ 0 < releaseRank (s.thread m) := by
  obtain ⟨hcalm, -⟩ := hcalm
  refine ⟨⟨?_, ?_, ?_⟩, ?_⟩
  all_goals
    cases hp : (s.thread m).pc <;>
      simp_all [Pc.holdsStw, Pc.calm, Pc.leads, Pc.gathers, Pc.stops, Pc.waits, Pc.rests, Blocked, releaseRank]

end Release

/-- what all released threads have to do does not grow between cycles, and a step of one that is able to go on lowers it -/
theorem releasePotential_step {u : Setup} {s : State} (h : Healthy u s) (hopen : Open s) (o : Op) :
    releasePotential u (step s o) ≤ releasePotential u s ∧
      ∀ m env, o = .next m env → Able s m → 0 < releaseRank (s.thread m) →
        releasePotential u (step s o) < releasePotential u s := by
  have hle : ∀ k, releaseRank ((step s o).thread k) ≤ releaseRank (s.thread k) := by
    intro k
    cases o with
    | call m c =>
      rw [step]
      rcases eq_or_ne k m with rfl | hk
      · exact releaseRank_call c
      · rw [call_other hk]
    | next m env =>
      rw [step]
      rcases eq_or_ne k m with rfl | hk
      · exact (releaseRank_next (hopen.calm k)).1
      · unfold releaseRank
        rw [(next_other_stays hk (Running.not_stops (.inl hopen) m) env).1]
  refine ⟨Finset.sum_le_sum fun k _ => hle k, ?_⟩
  rintro m env rfl hable hpos
  refine Finset.sum_lt_sum (fun k _ => hle k) ⟨m, List.mem_toFinset.2 ?_, ?_⟩
  · by_contra hno
    simp [releaseRank, h.absent m hno] at hpos
  · rw [step]
    exact (releaseRank_next (hopen.calm m)).2 hable hpos

/-! ## Fair runs -/

/-- the state before step `n` of an infinite run -/
def after (u : Setup) (schedule : ℕ → Op) (n : ℕ) : State := along step u.init schedule n

theorem after_succ (u : Setup) (schedule : ℕ → Op) (n : ℕ) :
    after u schedule (n + 1) = step (after u schedule n) (schedule n) := along_succ step u.init schedule n

/-- a run in which each thread takes steps again and again, no client keeps a mutator in its own code for ever, and every
`start_trace` returns -/
structure FairRun (u : Setup) (schedule : ℕ → Op) : Prop where
  steady : ∀ n, Steady (after u schedule n) (schedule n)
  steps : ∀ m ∈ u.mutators, Recurs (fun o => ∃ env, o = .next m env) schedule
  calls : ∀ m ∈ u.mutators, ∀ k, ∃ i, k ≤ i ∧ ((after u schedule i).thread m).pc ≠ .idle
  traces : ∀ m ∈ u.mutators, ∀ k, ∃ i, k ≤ i ∧ ((after u schedule i).thread m).pc ≠ .gcTrace

section
variable {u : Setup} {schedule : ℕ → Op} (h : FairRun u schedule)
include h

theorem FairRun.healthy (n : ℕ) : Healthy u (after u schedule n) :=
  along_inv (fun _ _ ho hs => hs.step ho) (healthy_init u) h.steady n

/-- a thread that does something is a mutator of the run -/
theorem FairRun.mem {n m : ℕ} (hm : ((after u schedule n).thread m).pc ≠ .absent) : m ∈ u.mutators := by
  by_contra hno
  exact hm ((h.healthy n).absent m hno)

/-! ## Gathering -/

/-- in a cycle in which the controller goes on waiting, somebody comes to have set all flags -/
theorem FairRun.all_flagged {n l : ℕ} (hg : ∀ i, n ≤ i → Gathering (after u schedule i) l) :
    ∃ m, n ≤ m ∧ AllFlagged (after u schedule m) := by
  have hrun : ∀ i, n ≤ i → Running (after u schedule i) := fun i hi => .inr ⟨l, hg i hi⟩
  have hset : ∀ i, n ≤ i → Flagged (after u schedule i) := fun i hi => (h.healthy i).flagged (hrun i hi)
  have htrig : ∀ todo i t, n ≤ i → ((after u schedule i).thread t).pc = .trigSet todo →
      ∃ m, n ≤ m ∧ AllFlagged (after u schedule m) := by
    intro todo
    induction todo with
    | nil =>
      intro i t hi ht
      exact ⟨i, hi, fun k hk => ((hset i hi).trigger t [] ht k hk).resolve_right List.not_mem_nil⟩
    | cons k todo ih =>
      intro i t hi ht
      have hmem : t ∈ u.mutators := h.mem (n := i) (by rw [ht]; simp)
      have hown : ∀ j, i ≤ j → ((after u schedule j).thread t).pc = .trigSet (k :: todo) →
          (∃ env, schedule j = .next t env) → ((after u schedule (j + 1)).thread t).pc = .trigSet todo := by
        rintro j - hpc ⟨env, ho⟩
        rw [after_succ, ho, step]
        simp [next, hpc]
      have hkeep : ∀ j, i ≤ j → ((after u schedule j).thread t).pc = .trigSet (k :: todo) →
          ((after u schedule (j + 1)).thread t).pc = .trigSet (k :: todo) ∨
            ((after u schedule (j + 1)).thread t).pc = .trigSet todo := by
        intro j hj hpc
        by_cases ho : ∃ env, schedule j = .next t env
        · exact .inr (hown j hj hpc ho)
        · left
          rw [after_succ, (hrun j (hi.trans hj)).pc_other (by simp [hpc]) (by simp [hpc]) fun env he => ho ⟨env, he⟩, hpc]
      obtain ⟨j, hij, hj⟩ := (h.steps t hmem).responds
        (P := fun j => ((after u schedule j).thread t).pc = .trigSet (k :: todo))
        (Q := fun j => ((after u schedule j).thread t).pc = .trigSet todo) ht hkeep hown
      exact ih j t (hi.trans hij.le) hj
  have hl := (hg n le_rfl).lead_mem (h.healthy n).base
  rcases (hset n le_rfl).spread l hl ((hset n le_rfl).entered l (.inr (hg n le_rfl).lead)) with ⟨t, todo, ht⟩ | hall
  · exact htrig todo n t le_rfl ht
  · exact ⟨n, le_rfl, hall⟩

/-- with all flags set, the cycle comes to a state that stays as it is, but for the controller's loop -/
theorem FairRun.frozen {n l : ℕ} (hg : ∀ i, n ≤ i → Gathering (after u schedule i) l)
    (hall : ∀ i, n ≤ i → AllFlagged (after u schedule i)) :
    ∃ m, n ≤ m ∧ (∀ i, m ≤ i → Frozen (after u schedule m) (after u schedule i)) ∧
      ∀ k ∈ u.mutators, ¬ Able (after u schedule m) k := by
  have hrun : ∀ i, n ≤ i → Running (after u schedule i) := fun i hi => .inr ⟨l, hg i hi⟩
  have hpot := fun i (hi : n ≤ i) => potential_step (h.healthy i) (hrun i hi) (hall i hi) (h.steady i).1
  obtain ⟨m, hnm, hconst⟩ := exists_constant (f := fun i => potential u (after u schedule i)) (k := n) fun i hi => by
    rw [after_succ]
    rcases hpot i hi with hlt | heq
    · exact hlt.le
    · exact heq.1.le
  have hstep : ∀ i, m ≤ i → (∃ k env, schedule i = .next k env ∧ ¬ Able (after u schedule i) k) ∨
      ∃ k c, schedule i = .call k c ∧ after u schedule (i + 1) = after u schedule i := by
    intro i hi
    have hc := hconst i hi
    rw [after_succ] at hc ⊢
    rcases hpot i (hnm.trans hi) with hlt | heq
    · rw [hc] at hlt
      exact absurd hlt (lt_irrefl _)
    · exact heq.2
  have hfrozen : ∀ i, m ≤ i → Frozen (after u schedule m) (after u schedule i) := by
    intro i hi
    induction i, hi using Nat.le_induction with
    | base => exact .refl _
    | succ i hi ih =>
      refine ih.trans ?_
      rcases hstep i hi with ⟨k, env, ho, hable⟩ | ⟨k, c, -, heq⟩
      · have hstops := (hrun (i + 1) ((hnm.trans hi).trans (Nat.le_succ i))).not_stops k
        rw [after_succ, ho, step] at hstops ⊢
        refine Frozen.next hable fun hpc => ?_
        rw [hpc] at hstops
        cases hstops
      · rw [heq]
        exact .refl _
  refine ⟨m, hnm, hfrozen, fun k hk hable => ?_⟩
  -- the thread has another step, at which it is able to go on
  obtain ⟨i, hi, env, ho⟩ := h.steps k hk m
  rcases hstep i hi with ⟨k', env', ho', hnot⟩ | ⟨k', c, ho', -⟩
  · rw [ho] at ho'
    cases ho'
    exact hnot (((hfrozen i hi).able_iff k).2 hable)
  · rw [ho] at ho'
    cases ho'

/-- a controller that goes on looking sees the whole park count, and leaves its loop -/
theorem FairRun.leaves_loop {m l : ℕ} (hg : ∀ i, m ≤ i → Gathering (after u schedule i) l)
    (hfrozen : ∀ i, m ≤ i → Frozen (after u schedule m) (after u schedule i))
    (hwaits : ((after u schedule m).thread l).pc.waits = true) (hstw : (after u schedule m).stwLock = none)
    (hcount : (after u schedule m).stwCount + 1 = (after u schedule m).nMutators) : False := by
  have hlu : l ∈ u.mutators := h.mem (n := m) fun hp => by
    rw [hp] at hwaits
    cases hwaits
  have hloop : ∀ i, m ≤ i → ((after u schedule i).thread l).pc.waits = true := fun i hi => (hfrozen i hi).waits l hwaits
  have hother : ∀ i, m ≤ i → (∀ env, schedule i ≠ .next l env) →
      ((after u schedule (i + 1)).thread l).pc = ((after u schedule i).thread l).pc := by
    intro i hi ho
    have hw := hloop i hi
    rw [after_succ]
    refine Running.pc_other (.inr ⟨l, hg i hi⟩) (fun hp => ?_) (fun hp => ?_) ho
    · rw [hp] at hw
      cases hw
    · rw [hp] at hw
      cases hw
  have hread : ∀ i, m ≤ i → (∃ c, ((after u schedule i).thread l).pc = .waitRead c) →
      (∃ env, schedule i = .next l env) →
      ((after u schedule (i + 1)).thread l).pc = .waitLoad (after u schedule m).stwCount := by
    rintro i hi ⟨c, hc⟩ ⟨env, ho⟩
    have hlock := (hfrozen i hi).stwLock
    rw [hstw] at hlock
    rw [after_succ, ho, step]
    simp [next, hc, hlock, (hfrozen i hi).stwCount]
  have hload : ∀ i, m ≤ i → ∀ c, ((after u schedule i).thread l).pc = .waitLoad c → (∃ env, schedule i = .next l env) →
      c < (after u schedule m).nMutators - 1 ∧ ((after u schedule (i + 1)).thread l).pc = .waitRead c := by
    rintro i hi c hc ⟨env, ho⟩
    have hw := hloop (i + 1) (Nat.le_succ_of_le hi)
    rw [after_succ, ho, step] at hw ⊢
    simp only [next, hc, (hfrozen i hi).nMutators] at hw ⊢
    split at hw
    · rename_i hlt
      exact ⟨hlt, by simp [hlt]⟩
    · simp [Pc.waits] at hw
  have hsome : ∃ i, m ≤ i ∧ ∃ c, ((after u schedule i).thread l).pc = .waitRead c := by
    obtain ⟨i, hi, ho⟩ := h.steps l hlu m
    have hw := hloop i hi
    cases hp : ((after u schedule i).thread l).pc
    all_goals
      simp only [hp, Pc.waits, Bool.false_eq_true] at hw
    case waitLoad c => exact ⟨i + 1, Nat.le_succ_of_le hi, c, (hload i hi c hp ho).2⟩
    case waitRead c => exact ⟨i, hi, c, hp⟩
  obtain ⟨i, hi, hp⟩ := hsome
  obtain ⟨j, hij, hj⟩ := (h.steps l hlu).responds (P := fun i => ∃ c, ((after u schedule i).thread l).pc = .waitRead c)
    (Q := fun i => ((after u schedule i).thread l).pc = .waitLoad (after u schedule m).stwCount) hp
    (fun k hk hpk => by
      by_cases ho : ∃ env, schedule k = .next l env
      · exact .inr (hread k (hi.trans hk) hpk ho)
      · left
        rw [hother k (hi.trans hk) fun env he => ho ⟨env, he⟩]
        exact hpk)
    fun k hk => hread k (hi.trans hk)
  have hmj := hi.trans hij.le
  obtain ⟨-, -, hfalse⟩ := (h.steps l hlu).responds
    (P := fun i => ((after u schedule i).thread l).pc = .waitLoad (after u schedule m).stwCount) (Q := fun _ => False) hj
    (fun k hk hpk => by
      by_cases ho : ∃ env, schedule k = .next l env
      · have hlt := (hload k (hmj.trans hk) _ hpk ho).1
        omega
      · left
        rw [hother k (hmj.trans hk) fun env he => ho ⟨env, he⟩]
        exact hpk)
    fun k hk hpk ho => by
      have hlt := (hload k (hmj.trans hk) _ hpk ho).1
      omega
  exact hfalse

/-- a controller that waits for the others comes to gc() -/
theorem FairRun.gathering_ends {n l : ℕ} (hn : Gathering (after u schedule n) l) :
    ∃ m, n ≤ m ∧ Stopped (after u schedule m) l := by
  by_contra hno
  push Not at hno
  have hg : ∀ i, n ≤ i → Gathering (after u schedule i) l := by
    refine always_of_keep le_rfl hn fun i hi hi' => ?_
    have hnot := hno (i + 1) (Nat.le_succ_of_le hi)
    rw [after_succ] at hnot ⊢
    exact (gathering_step (h.healthy i).base hi' _ ((h.healthy i).settled.noLateNew _)).resolve_right hnot
  obtain ⟨a, hna, ha⟩ := h.all_flagged hg
  have hall : ∀ i, a ≤ i → AllFlagged (after u schedule i) :=
    always_of_keep le_rfl ha fun i hi hi' => by
      rw [after_succ]
      exact hi'.step (h.healthy i).settled (.inr ⟨l, hg i (hna.trans hi)⟩) (h.steady i).1
  obtain ⟨m, ham, hfrozen, hstuck⟩ := h.frozen (fun i hi => hg i (hna.trans hi)) hall
  -- no client is in its own code: it would call, and nothing changes any more
  have hidle : ∀ k, ((after u schedule m).thread k).pc ≠ .idle := by
    intro k hp
    obtain ⟨i, hi, hne⟩ := h.calls k (h.mem (n := m) (by rw [hp]; simp)) m
    rw [(hfrozen i hi).thread k (by rw [hp]; rfl)] at hne
    exact hne hp
  have hgm : ∀ i, m ≤ i → Gathering (after u schedule i) l := fun i hi => hg i (hna.trans (ham.trans hi))
  obtain ⟨hwaits, hstw, hcount⟩ := (hgm m le_rfl).all_parked (h.healthy m) hstuck hidle
  exact h.leaves_loop hgm hfrozen hwaits hstw hcount

/-- a stopped world runs again -/
theorem FairRun.stopped_ends {n l : ℕ} (hn : Stopped (after u schedule n) l) :
    ∃ m, n ≤ m ∧ Open (after u schedule m) := by
  by_contra hno
  push Not at hno
  have hs : ∀ i, n ≤ i → Stopped (after u schedule i) l := by
    refine always_of_keep le_rfl hn fun i hi hi' => ?_
    have hnot := hno (i + 1) (Nat.le_succ_of_le hi)
    have hreturns := (h.healthy (i + 1)).returns l
    rw [after_succ] at hnot hreturns ⊢
    rcases stopped_step (h.healthy i).base hi' _ ((h.healthy i).settled.noLateNew _) with h' | h' | h'
    · exact h'
    · exact absurd h'.lead hreturns
    · exact absurd h' hnot
  have hpot := fun i (hi : n ≤ i) => stopPotential_step (h.healthy i) (hs i hi) (h.steady i).1
  obtain ⟨m, hnm, hconst⟩ := exists_constant (f := fun i => stopPotential u (after u schedule i)) (k := n) fun i hi => by
    rw [after_succ]
    rcases hpot i hi with hlt | heq
    · exact hlt.le
    · rw [heq.1]
  have hstep : ∀ i, m ≤ i → after u schedule (i + 1) = after u schedule i ∧
      ∀ k env, schedule i = .next k env → ¬ Able (after u schedule i) k ∨
        ((after u schedule i).thread k).pc = .gcTrace := by
    intro i hi
    have hc := hconst i hi
    rw [after_succ] at hc ⊢
    rcases hpot i (hnm.trans hi) with hlt | heq
    · rw [hc] at hlt
      exact absurd hlt (lt_irrefl _)
    · exact heq
  have hsame : ∀ i, m ≤ i → after u schedule i = after u schedule m :=
    always_of_keep le_rfl rfl fun i hi heq => (hstep i hi).1.trans heq
  have htraced : ∀ k ∈ u.mutators, ((after u schedule m).thread k).pc ≠ .gcTrace := by
    intro k hk hp
    obtain ⟨i, hi, hne⟩ := h.traces k hk m
    rw [hsame i hi] at hne
    exact hne hp
  have hstuck : ∀ k ∈ u.mutators, ¬ Able (after u schedule m) k := by
    intro k hk
    obtain ⟨i, hi, env, ho⟩ := h.steps k hk m
    have hnot := (hstep i hi).2 k env ho
    rw [hsame i hi] at hnot
    exact hnot.resolve_right (htraced k hk)
  -- the controller would be able to go on
  obtain ⟨-, -, -, hpcs⟩ := stuck (h.healthy m) hstuck
  obtain ⟨hrests, hwaits⟩ := Pc.not_rests_of_stops (hs m hnm).lead
  rcases hpcs l with hp | hp
  · rw [hrests] at hp
    cases hp
  · rw [hwaits] at hp
    cases hp

/-- a thread released from a cycle that is over stays released until it is out -/
theorem FairRun.stays_released {n m : ℕ} (hopen : Open (after u schedule n))
    (hrel : ((after u schedule n).thread m).released = true)
    (hin : ∀ i, n ≤ i → ((after u schedule i).thread m).pc.inBarrier = true) :
    ∀ i, n ≤ i → Running (after u schedule i) ∧ ((after u schedule i).thread m).released = true := by
  refine always_of_keep le_rfl ⟨.inl hopen, hrel⟩ fun i hi hi' => ?_
  obtain ⟨hrun, hreleased⟩ := hi'
  have hin' := hin (i + 1) (Nat.le_succ_of_le hi)
  have hb := (h.healthy (i + 1)).base
  rw [after_succ] at hin' hb ⊢
  have hreleased' := (hrun.step (schedule i) (hin i hi) hin').2.trans hreleased
  refine ⟨?_, hreleased'⟩
  rcases hrun with hopen | ⟨l, hg⟩
  · exact open_step hopen (schedule i)
  · rcases gathering_step (h.healthy i).base hg _ ((h.healthy i).settled.noLateNew _) with hg' | hs
    · exact .inr ⟨l, hg'⟩
    · -- gc() would begin with the thread parked
      exfalso
      have hml : m ≠ l := by
        rintro rfl
        rw [not_released_of_leads (leads_of_stops hs.lead)] at hreleased'
        cases hreleased'
      have hpc := hs.others m ((hb.mem m).2 (registered_of_inBarrier hin')) hml
      rw [hg.gcStart_of_stopped _ hs] at hpc
      simp [Thread.released, hpc, Pc.others] at hreleased'

/-- a released thread gets out -/
theorem FairRun.released_ends {n m : ℕ} (hopen : Open (after u schedule n))
    (hrel : ((after u schedule n).thread m).released = true) :
    ∃ i, n ≤ i ∧ ((after u schedule i).thread m).pc.inBarrier = false := by
  by_contra hno
  push Not at hno
  have hin : ∀ i, n ≤ i → ((after u schedule i).thread m).pc.inBarrier = true := fun i hi =>
    Bool.eq_true_of_not_eq_false (hno i hi)
  have hstay := h.stays_released hopen hrel hin
  -- no cycle begins: its gc() would come
  have hopen : ∀ i, n ≤ i → Open (after u schedule i) := by
    intro i hi
    refine (hstay i hi).1.resolve_right ?_
    rintro ⟨l, hg⟩
    obtain ⟨j, hij, hs⟩ := h.gathering_ends hg
    have hnot := (hstay j (hi.trans hij)).1.not_stops l
    rw [hs.lead] at hnot
    cases hnot
  have hpot := fun i (hi : n ≤ i) => releasePotential_step (h.healthy i) (hopen i hi) (schedule i)
  obtain ⟨a, hna, hconst⟩ := exists_constant (f := fun i => releasePotential u (after u schedule i)) (k := n) fun i hi => by
    rw [after_succ]
    exact (hpot i hi).1
  have hstuck : ∀ i, a ≤ i → ∀ k env, schedule i = .next k env → 0 < releaseRank ((after u schedule i).thread k) →
      ¬ Able (after u schedule i) k := by
    intro i hi k env ho hpos hable
    have hlt := (hpot i (hna.trans hi)).2 k env ho hable hpos
    have hc := hconst i hi
    rw [after_succ] at hc
    omega
  -- the thread waits for a lock, whose holder is a released thread that is able to go on
  have hmem : m ∈ u.mutators := h.mem (n := n) fun hp => by
    have := hin n le_rfl
    rw [hp] at this
    cases this
  obtain ⟨i, hi, env, ho⟩ := h.steps m hmem a
  have hni := hna.trans hi
  have hblocked := hstuck i hi m env ho (releaseRank_pos (hstay i hni).2)
  obtain ⟨k, hk⟩ := blocked_of_released (hstay i hni).2 hblocked
  have hholds : ((after u schedule i).thread k).pc.holdsStw = true := ((h.healthy i).base.stwLock k).1 hk
  have hheld : ∀ j, i ≤ j → ((after u schedule j).thread k).pc.holdsStw = true →
      Able (after u schedule j) k ∧ 0 < releaseRank ((after u schedule j).thread k) := fun j hj hp =>
    able_of_holdsStw hp ((hopen j (hni.trans hj)).calm k)
  obtain ⟨-, -, hfalse⟩ := (h.steps k (h.mem (n := i) fun hp => by
      rw [hp] at hholds
      cases hholds)).responds
    (P := fun j => ((after u schedule j).thread k).pc.holdsStw = true) (Q := fun _ => False) hholds
    (fun j hj hp => by
      by_cases hown : ∃ env, schedule j = .next k env
      · obtain ⟨env', ho'⟩ := hown
        obtain ⟨hable, hpos⟩ := hheld j hj hp
        exact absurd hable (hstuck j (hi.trans hj) k env' ho' hpos)
      · left
        rw [after_succ, (hstay j (hni.trans hj)).1.pc_other (fun hq => ?_) (fun hq => ?_) fun env he => hown ⟨env, he⟩]
        · exact hp
        all_goals
          rw [hq] at hp
          cases hp)
    fun j hj hp ⟨env', ho'⟩ => by
      obtain ⟨hable, hpos⟩ := hheld j hj hp
      exact hstuck j (hi.trans hj) k env' ho' hpos hable
  exact hfalse

/-- a thread in the barrier gets out -/
theorem FairRun.leaves_barrier {n m : ℕ} (hin : ((after u schedule n).thread m).pc.inBarrier = true) :
    ∃ i, n ≤ i ∧ ((after u schedule i).thread m).pc.inBarrier = false := by
  by_contra hno
  push Not at hno
  have hall : ∀ i, n ≤ i → ((after u schedule i).thread m).pc.inBarrier = true := fun i hi =>
    Bool.eq_true_of_not_eq_false (hno i hi)
  have hmem : m ∈ u.mutators := h.mem (n := n) fun hp => by
    rw [hp] at hin
    cases hin
  -- past its compare_exchange it stays so
  obtain ⟨a, hna, hcas⟩ := (h.steps m hmem).settles (P := fun i => ((after u schedule i).thread m).pc ≠ .cas) (k := n)
    (fun i hi ho => by
      rw [after_succ]
      exact not_cas_step (hall i hi) (.inr ho))
    fun i hi hp => by
      rw [after_succ]
      exact not_cas_step (hall i hi) (.inl hp)
  -- the cycle under way ends
  have hends : ∃ b, a ≤ b ∧ Open (after u schedule b) := by
    rcases (h.healthy a).cycle with (hopen | ⟨l, hg⟩) | ⟨l, hs⟩
    · exact ⟨a, le_rfl, hopen⟩
    · obtain ⟨b, hab, hs⟩ := h.gathering_ends hg
      obtain ⟨c, hbc, hopen⟩ := h.stopped_ends hs
      exact ⟨c, hab.trans hbc, hopen⟩
    · exact h.stopped_ends hs
  obtain ⟨b, hab, hopen⟩ := hends
  have hnb := hna.trans hab
  obtain ⟨c, hbc, hout⟩ := h.released_ends hopen ((hopen.calm m).released (hall b hnb) (hcas b hab))
  exact hno c (hnb.trans hbc) hout

end

/-- **Every call of `sync_barrier` returns.** In every fair run of the mutators registered at the start in which gc() does
not panic and `start_trace` returns, a mutator that is in the barrier leaves it, by a step of its own, to where its `ret`
says. -/
theorem barrier_returns (u : Setup) (schedule : ℕ → Op) (h : FairRun u schedule) {m n : ℕ}
    (hin : ((after u schedule n).thread m).pc.inBarrier = true) :
    ∃ j, n ≤ j ∧ (∀ k, n ≤ k → k ≤ j → ((after u schedule k).thread m).pc.inBarrier = true) ∧
      (∃ env, schedule j = .next m env) ∧
      ((after u schedule (j + 1)).thread m).pc = ((after u schedule n).thread m).ret.pc := by
  obtain ⟨i, hni, hout⟩ := h.leaves_barrier hin
  obtain ⟨e, hne, -, hnot, hall⟩ := exists_first (P := fun k => ((after u schedule k).thread m).pc.inBarrier = true) hni hin
    (by rw [hout]; exact Bool.false_ne_true)
  obtain ⟨j, rfl⟩ := Nat.exists_eq_succ_of_ne_zero (Nat.ne_zero_of_lt hne)
  have hnj : n ≤ j := Nat.le_of_lt_succ hne
  have hduring : ∀ k, n ≤ k → k ≤ j → ((after u schedule k).thread m).pc.inBarrier = true := fun k h1 h2 =>
    hall k h1 (Nat.lt_succ_of_le h2)
  have hret : ∀ k, n ≤ k → k ≤ j → ((after u schedule k).thread m).ret = ((after u schedule n).thread m).ret := by
    intro k hk
    induction k, hk using Nat.le_induction with
    | base => exact fun _ => rfl
    | succ k hk ih =>
      intro hkj
      rw [← ih (Nat.le_of_succ_le hkj), after_succ]
      exact ret_step (hduring k hk (Nat.le_of_succ_le hkj)) (schedule k)
  have hout' := Bool.eq_false_of_not_eq_true hnot
  rw [Nat.succ_eq_add_one, after_succ] at hout'
  obtain ⟨env, ho, hpc⟩ := leave_step (hduring j hnj le_rfl) hout'
  refine ⟨j, hnj, hduring, ⟨env, ho⟩, ?_⟩
  rw [after_succ, hpc, hret j hnj le_rfl]

/-- mutator 0 requests a collection, mutator 1 comes to its yieldpoint and parks, the cycle ends and both are destroyed -/
def oneCycle : List Op :=
  .call 0 .requestGc :: steps 0 9 ++ .call 1 .yieldpoint :: steps 1 9 ++ steps 0 19 ++ steps 1 3 ++
    .call 0 .destroy :: steps 0 4 ++ .call 1 .destroy :: steps 1 4

/-- `oneCycle`, and then the threads in turn for ever -/
def oneCycleThen (n : ℕ) : Op := (oneCycle[n]?).getD (.next (n % 2) {})

theorem after_oneCycle {n : ℕ} (hn : n ≤ 52) : after pair oneCycleThen n = before pair oneCycle n :=
  along_of_prefix (fun i o h => by simp [oneCycleThen, h]) hn

theorem oneCycleThen_of_le {n : ℕ} (hn : 52 ≤ n) : oneCycleThen n = .next (n % 2) {} := by
  have hnone : oneCycle[n]? = none := List.getElem?_eq_none (hn : oneCycle.length ≤ n)
  simp [oneCycleThen, hnone]

theorem oneCycle_absent (n : ℕ) : ((before pair oneCycle 52).thread (n % 2)).pc = .absent := by
  have habsent : ∀ m < 2, ((before pair oneCycle 52).thread m).pc = .absent := by decide +kernel
  exact habsent (n % 2) (Nat.mod_lt n Nat.two_pos)

/-- after the cycle nobody is left, and nothing happens -/
theorem after_oneCycleThen {n : ℕ} (hn : 52 ≤ n) : after pair oneCycleThen n = before pair oneCycle 52 := by
  refine always_of_keep (P := fun i => after pair oneCycleThen i = before pair oneCycle 52) le_rfl
    (after_oneCycle le_rfl) (fun i hi heq => ?_) n hn
  rw [after_succ, heq, oneCycleThen_of_le hi, step]
  simp [next, oneCycle_absent i]

/-- both are destroyed for good -/
theorem gone_oneCycleThen {m n : ℕ} (hm : m ∈ pair.mutators) (hn : 52 ≤ n) :
    m < 2 ∧ ((after pair oneCycleThen n).thread m).pc = .absent := by
  have hm2 : m < 2 := by
    simp only [pair, List.mem_cons, List.not_mem_nil, or_false] at hm
    omega
  have habsent := oneCycle_absent m
  rw [Nat.mod_eq_of_lt hm2] at habsent
  exact ⟨hm2, by rw [after_oneCycleThen hn, habsent]⟩

theorem fair_oneCycleThen : FairRun pair oneCycleThen where
  steady n := by
    rcases Nat.lt_or_ge n 52 with hn | hn
    · rw [after_oneCycle hn.le]
      have hall : LegalRun step Steady pair.init oneCycle := by decide +kernel
      have hlt : n < oneCycle.length := hn
      have hop : oneCycle[n]? = some (oneCycleThen n) := by simp [oneCycleThen, List.getElem?_eq_getElem hlt]
      exact hall n _ hop
    · rw [after_oneCycleThen hn, oneCycleThen_of_le hn]
      exact ⟨trivial, by simp [NoGcPanic, oneCycle_absent n]⟩
  steps m hm k := by
    have hm2 := (gone_oneCycleThen hm le_rfl).1
    refine ⟨2 * (k + 26) + m, by omega, {}, ?_⟩
    have hmod : (2 * (k + 26) + m) % 2 = m := by omega
    rw [oneCycleThen_of_le (by omega), hmod]
  calls m hm k := by
    refine ⟨k + 52, by omega, ?_⟩
    rw [(gone_oneCycleThen hm (Nat.le_add_left 52 k)).2]
    simp
  traces m hm k := by
    refine ⟨k + 52, by omega, ?_⟩
    rw [(gone_oneCycleThen hm (Nat.le_add_left 52 k)).2]
    simp

/-- mutator 1, asleep on the condition variable before step 20, comes back to its client -/
theorem barrier_returns_oneCycle :
    ((before pair oneCycle 20).thread 1).pc = .asleep ∧
    ∃ j, 20 ≤ j ∧ (∀ k, 20 ≤ k → k ≤ j → ((after pair oneCycleThen k).thread 1).pc.inBarrier = true) ∧
      (∃ env, oneCycleThen j = .next 1 env) ∧
      ((after pair oneCycleThen (j + 1)).thread 1).pc =
        ((after pair oneCycleThen 20).thread 1).ret.pc := by
  have hpc : ((before pair oneCycle 20).thread 1).pc = .asleep := by decide +kernel
  refine ⟨hpc, barrier_returns pair oneCycleThen fair_oneCycleThen ?_⟩
  rw [after_oneCycle (by decide), hpc]
  rfl

end Immix.Barrier
