/-
A collection is one step (`sync_barrier` and `gc` of `heap/gc/mod.rs`, `sweep`, the queues of `heap/immix/immix_space.rs`):
the barrier refines the store with an atomic collector.

The queues of a space change in three ways: a mutator gives its block back, takes one, or the controller moves a used block
to the usable queue or aside. Seen from outside gc() the moves of a sweep are one operation, performed at its end: while it
is under way the store shows the queues as they were when it began.
- `Tracks`: how a state of the store shows the queues and the mutators' blocks.
- `emit`: what a step of the barrier does to the store.
- `collections_atomic`: the steps of every run are, in their order, a legal run of the store.
-/
import Immix.Lib.Refine
import Immix.BlockStore
import Immix.SweepAccount
import Immix.Passage

namespace Immix.Barrier

open Immix.Lib

/-! ## What the store shows -/

/-- the block of space `i` that the thread holds -/
def Thread.holds (i : ℕ) (t : Thread) : Option ℕ := if t.space = i then t.block else none

/-- the full blocks that a sweep of space `i` by this thread has set aside -/
def Thread.sweeping (i : ℕ) (t : Thread) : Option (List ℕ) :=
  match t.pc with
  | .gcSweep live _ => if t.space = i then some live else none
  | _ => none

/-- a sweep under way has taken the blocks `swept` from the used queue of the store: `live` are the full ones -/
structure Sweeping (s : State) (i : ℕ) (t : Store ℕ) (live swept : List ℕ) : Prop where
  used : t.used = swept ++ s.usedBlocks i
  usable : s.usableBlocks i = t.usable ++ swept.filter (· ∉ live)
  live : live = (swept.filter (· ∈ live)).reverse

/-- the store shows the blocks of space `i` -/
structure Tracks (i : ℕ) (s : State) (t : Store ℕ) : Prop where
  held : ∀ m, t.held m = (s.thread m).holds i
  rest : (∀ l, (s.thread l).sweeping i = none) → t.usable = s.usableBlocks i ∧ t.used = s.usedBlocks i
  sweep : ∀ l live, (s.thread l).sweeping i = some live → ∃ swept, Sweeping s i t live swept

/-- what the step does to the store of space `i` -/
def emit (i : ℕ) (s : State) : Op → Option (Store.Op ℕ)
  | .call _ _ => none
  | .next m _ =>
    if (s.thread m).space = i then
      match (s.thread m).pc with
      | .allocReturn | .destroyReturn | .prepare _ => some (.giveBack m)
      | .allocSteal => some (.take m)
      | .gcSweep live _ => if s.usedBlocks i = [] then some (.collect live) else none
      | _ => none
    else none

/-- the thread's next step moves no block -/
def Pc.still : Pc → Bool
  | .allocReturn | .destroyReturn | .prepare _ | .allocSteal | .gcTrace | .gcSweep _ _ => false
  | _ => true

/-! ## Steps that move no block -/

theorem holds_congr {i : ℕ} {t t' : Thread} (hspace : t'.space = t.space) (hblock : t'.block = t.block) :
    t'.holds i = t.holds i := by
  unfold Thread.holds
  rw [hspace, hblock]

theorem sweeping_congr {i : ℕ} {t t' : Thread} (hspace : t'.space = t.space) (hpc : t'.pc = t.pc ∨ t'.pc = t.pc.wake) :
    t'.sweeping i = t.sweeping i := by
  unfold Thread.sweeping
  rw [hspace]
  rcases hpc with hpc | hpc
  · rw [hpc]
  · rw [hpc]
    cases t.pc <;> rfl

/-- a step of `m` leaves what the others hold and sweep -/
theorem shown_other {s : State} {m k : ℕ} (i : ℕ) (hk : k ≠ m) (env : Env) :
    ((next s m env).thread k).holds i = (s.thread k).holds i ∧
      ((next s m env).thread k).sweeping i = (s.thread k).sweeping i := by
  obtain ⟨-, -, hspace, hblock, -, hpc⟩ := next_other (s := s) hk env
  exact ⟨holds_congr hspace hblock, sweeping_congr hspace hpc⟩

theorem not_sweeping {i : ℕ} {t : Thread} (h : ∀ live n, t.pc ≠ .gcSweep live n) : t.sweeping i = none := by
  unfold Thread.sweeping
  split
  · rename_i live n hpc
    exact absurd hpc (h live n)
  · rfl

/-- the queues, and what each thread holds and sweeps, stay as they are -/
theorem Tracks.congr {i : ℕ} {s s' : State} {t : Store ℕ} (h : Tracks i s t)
    (hqueues : s'.usableBlocks i = s.usableBlocks i ∧ s'.usedBlocks i = s.usedBlocks i)
    (hshown : ∀ k, (s'.thread k).holds i = (s.thread k).holds i ∧ (s'.thread k).sweeping i = (s.thread k).sweeping i) :
    Tracks i s' t where
  held m := (h.held m).trans (hshown m).1.symm
  rest hno := by
    rw [hqueues.1, hqueues.2]
    exact h.rest fun l => (hshown l).2 ▸ hno l
  sweep l live hl := by
    obtain ⟨swept, hs⟩ := h.sweep l live ((hshown l).2 ▸ hl)
    exact ⟨swept, by rw [hqueues.2]; exact hs.used, by rw [hqueues.1]; exact hs.usable, hs.live⟩

/-- the thread's own step, at a point where it moves no block -/
theorem still_next {s : State} {m : ℕ} (env : Env) (h : (s.thread m).pc.still = true)
    (he : (s.thread m).emptyHanded = true → (s.thread m).block = none) :
    (next s m env).usableBlocks = s.usableBlocks ∧ (next s m env).usedBlocks = s.usedBlocks ∧
      ((next s m env).thread m).space = (s.thread m).space ∧ ((next s m env).thread m).block = (s.thread m).block ∧
      ∀ live n, ((next s m env).thread m).pc ≠ .gcSweep live n := by
  unfold Thread.emptyHanded at he
  cases hpc : (s.thread m).pc
  case' trigSet todo => cases todo
  case' clearYield todo => cases todo
  case' append saw => cases saw
  case' yieldpoint | parkReset | resumeUnlock => cases hret : (s.thread m).ret
  all_goals
    simp only [hpc, Pc.still, Bool.false_eq_true] at h
  all_goals
    simp only [hpc, forall_const] at he
    simp only [next, hpc]
  all_goals repeat' split
  all_goals simp [Ret.pc, *]

theorem tracks_call {i : ℕ} {s : State} {t : Store ℕ} (h : Tracks i s t)
    (he : ∀ k, (s.thread k).emptyHanded = true → (s.thread k).block = none) (m : ℕ) (c : Call) :
    Tracks i (call s m c) t := by
  refine h.congr ?_ fun k => ?_
  · cases c <;> simp only [call] <;> split <;> exact ⟨rfl, rfl⟩
  · rcases eq_or_ne k m with rfl | hk
    · have hk := he k
      cases c
      all_goals
        simp only [call]
        split
        · rename_i hpc
          simp_all [Thread.holds, Thread.sweeping, Thread.emptyHanded]
        · exact ⟨rfl, rfl⟩
    · rw [call_other hk]
      exact ⟨rfl, rfl⟩

/-! ## Sweeps -/

/-- while a thread sweeps, the threads that are about to move a block are it alone -/
theorem Stopped.still {s : State} {l m : ℕ} (hb : Base s) (h : Stopped s l) (hml : m ≠ l) :
    (s.thread m).pc.still = true := by
  by_cases hm : m ∈ s.mutators
  · rcases h.eq_or hm with rfl | hp | hp
    · exact absurd rfl hml
    · rw [hp]
      rfl
    · rw [hp]
      rfl
  · have hreg : (s.thread m).pc.registered ≠ true := fun hr => hm ((hb.mem m).2 hr)
    cases hp : (s.thread m).pc <;> simp_all [Pc.registered, Pc.still]

/-- one more block, on the one side or the other -/
theorem Sweeping.step {s s' : State} {i b : ℕ} {t : Store ℕ} {live swept rest : List ℕ} (h : Sweeping s i t live swept)
    (hnodup : t.used.Nodup) (hused : s.usedBlocks i = b :: rest) (hused' : s'.usedBlocks i = rest) (full : Bool)
    (husable' : s'.usableBlocks i = s.usableBlocks i ++ if full then [] else [b]) :
    Sweeping s' i t (if full then b :: live else live) (swept ++ [b]) := by
  have hsplit := h.used
  rw [hused] at hsplit
  have hb : b ∉ swept := by
    rw [hsplit] at hnodup
    exact fun hb => List.disjoint_of_nodup_append hnodup hb List.mem_cons_self
  have hblive : b ∉ live := by
    intro hbl
    rw [h.live, List.mem_reverse, List.mem_filter] at hbl
    exact hb hbl.1
  have hne : ∀ c ∈ swept, c ≠ b := by
    rintro c hc rfl
    exact hb hc
  refine ⟨?_, ?_, ?_⟩
  · rw [hsplit, hused', List.append_assoc, List.singleton_append]
  · rw [husable', h.usable, List.append_assoc, List.filter_append]
    congr 1
    cases full with
    | false => simp [hblive]
    | true =>
      have hsame : swept.filter (· ∉ live) = swept.filter (· ∉ b :: live) := by
        refine List.filter_congr fun c hc => ?_
        simp [hne c hc]
      simp only [if_true]
      rw [hsame]
      simp
  · cases full with
    | false => simpa [hblive] using h.live
    | true =>
      have hsame : swept.filter (· ∈ live) = swept.filter (· ∈ b :: live) := by
        refine List.filter_congr fun c hc => ?_
        simp [hne c hc]
      have hlive := h.live
      rw [hsame] at hlive
      simp only [if_true, List.filter_append, List.reverse_append]
      simpa using hlive

/-- what the barrier keeps, as far as the store depends on it -/
structure Sound (u : Setup) (i : ℕ) (s : State) (t : Store ℕ) : Prop where
  base : Base s
  phase : Phase s
  emptyHanded : ∀ k, (s.thread k).emptyHanded = true → (s.thread k).block = none
  inv : Store.Inv (List.range (u.spaces i).totalBlocks) t
  tracks : Tracks i s t

section
variable {u : Setup} {i : ℕ} {s : State} {t : Store ℕ} (h : Sound u i s t)
include h

/-- a thread about to move a block, and not in a sweep, does so between sweeps -/
theorem Sound.none_sweeps {m : ℕ} (hm : (s.thread m).pc.still = false) (hno : (s.thread m).sweeping i = none) (l : ℕ) :
    (s.thread l).sweeping i = none := by
  by_contra hl
  have hstops : (s.thread l).pc.stops = true := by
    unfold Thread.sweeping at hl
    cases hp : (s.thread l).pc <;> simp_all [Pc.stops]
  have hml : m ≠ l := by
    rintro rfl
    exact hl hno
  rw [(h.phase.stopped hstops).still h.base hml] at hm
  cases hm

/-- nobody holds a block while a thread is in gc() -/
theorem Sound.none_holds {l : ℕ} (hl : (s.thread l).pc.inGc = true) (m : ℕ) : (s.thread m).block = none := by
  have hs := h.phase.stopped (stops_of_inGc hl)
  refine h.emptyHanded m ?_
  unfold Thread.emptyHanded
  by_cases hm : m ∈ s.mutators
  · rcases hs.eq_or hm with rfl | hp | hp
    · cases hp : (s.thread m).pc <;> simp_all [Pc.inGc]
    · rw [hp]
    · rw [hp]
  · have hreg : (s.thread m).pc.registered ≠ true := fun hr => hm ((h.base.mem m).2 hr)
    cases hp : (s.thread m).pc <;> simp_all [Pc.registered]

/-- a mutator gives its block back -/
theorem Sound.returnBlock {m : ℕ} {pc : Pc} (hm : (s.thread m).pc.still = false) (hno : (s.thread m).sweeping i = none)
    (hspace : (s.thread m).space = i) (hpc : ∀ live n, pc ≠ .gcSweep live n) :
    Tracks i (s.returnBlock m pc) (t.step (.giveBack m)) := by
  have hnone := h.none_sweeps hm hno
  obtain ⟨husable, hused⟩ := h.tracks.rest hnone
  have hsweep : ∀ l, ((s.returnBlock m pc).thread l).sweeping i = none := by
    intro l
    rcases eq_or_ne l m with rfl | hl
    · exact not_sweeping fun live n => by simpa [State.returnBlock] using hpc live n
    · have hsame : (s.returnBlock m pc).thread l = s.thread l := by simp [State.returnBlock, hl]
      rw [hsame]
      exact hnone l
  refine ⟨fun k => ?_, fun _ => ⟨?_, ?_⟩, fun l live hl => ?_⟩
  · rcases eq_or_ne k m with rfl | hk
    · simp [Store.step, Thread.holds, State.returnBlock]
    · simp [Store.step, Thread.holds, State.returnBlock, hk, h.tracks.held k]
  · exact husable
  · simp [Store.step, State.returnBlock, hspace, hused, h.tracks.held m, Thread.holds]
  · rw [hsweep l] at hl
    cases hl

/-- a mutator takes a block, or finds none -/
theorem Sound.take {m : ℕ} {env : Env} (hm : (s.thread m).pc = .allocSteal) (hspace : (s.thread m).space = i) :
    Store.Legal t (.take m) ∧ Tracks i (next s m env) (t.step (.take m)) := by
  have hblock : (s.thread m).block = none := h.emptyHanded m (by simp [Thread.emptyHanded, hm])
  have hheld : t.held m = none := by simp [h.tracks.held m, Thread.holds, hblock]
  have hnone := h.none_sweeps (m := m) (by rw [hm]; rfl) (not_sweeping (by simp [hm]))
  obtain ⟨husable, hused⟩ := h.tracks.rest hnone
  have hsweep : ∀ l, ((next s m env).thread l).sweeping i = none := by
    intro l
    rcases eq_or_ne l m with rfl | hl
    · refine not_sweeping fun live n => ?_
      simp only [next, hm]
      split <;> simp
    · rw [(shown_other i hl env).2]
      exact hnone l
  refine ⟨hheld, fun k => ?_, fun _ => ?_, fun l live hl => ?_⟩
  · rcases eq_or_ne k m with rfl | hk
    · cases hq : s.usableBlocks i with
      | nil => simp [Store.step, husable, hq, next, hm, hspace, Thread.holds, hblock, hheld]
      | cons b rest => simp [Store.step, husable, hq, next, hm, hspace, Thread.holds]
    · rw [(shown_other i hk env).1, ← h.tracks.held k]
      cases hq : s.usableBlocks i with
      | nil => simp [Store.step, husable, hq]
      | cons b rest => simp [Store.step, husable, hq, hk]
  · cases hq : s.usableBlocks i with
    | nil => simp [Store.step, husable, hused, hq, next, hm, hspace]
    | cons b rest => simp [Store.step, husable, hused, hq, next, hm, hspace]
  · rw [hsweep l] at hl
    cases hl

/-- a trace moves no block, and the sweep after it begins with the queues as they are -/
theorem Sound.trace {m : ℕ} {env : Env} (hm : (s.thread m).pc = .gcTrace) : Tracks i (next s m env) t := by
  have hqueues : (next s m env).usableBlocks i = s.usableBlocks i ∧ (next s m env).usedBlocks i = s.usedBlocks i := by
    simp only [next, hm]
    split <;> exact ⟨rfl, rfl⟩
  have hholds : ∀ k, ((next s m env).thread k).holds i = (s.thread k).holds i := by
    intro k
    simp only [next, hm]
    split <;> simp [Thread.holds]
  by_cases hbegins : env.tracing = .returns ∧ (s.thread m).space = i
  · obtain ⟨hreturns, hspace⟩ := hbegins
    have hnone := h.none_sweeps (m := m) (by rw [hm]; rfl) (not_sweeping (by simp [hm]))
    obtain ⟨husable, hused⟩ := h.tracks.rest hnone
    have hsweeping : ((next s m env).thread m).sweeping i = some [] := by
      simp [next, hm, hreturns, Thread.sweeping, hspace]
    refine ⟨fun k => (h.tracks.held k).trans (hholds k).symm, fun hno => ?_, fun l live hl => ?_⟩
    · rw [hno m] at hsweeping
      cases hsweeping
    · rcases eq_or_ne l m with rfl | hlm
      · rw [hsweeping] at hl
        cases hl
        refine ⟨[], ?_, ?_, rfl⟩
        · rw [hqueues.2, hused, List.nil_append]
        · rw [hqueues.1, husable]
          simp
      · rw [(shown_other i hlm env).2, hnone l] at hl
        cases hl
  · -- no sweep begins, or none of this space
    refine h.tracks.congr hqueues fun k => ⟨hholds k, ?_⟩
    rcases eq_or_ne k m with rfl | hk
    · simp only [next, hm]
      cases ht : env.tracing with
      | running => rfl
      | returns =>
        have hspace : (s.thread k).space ≠ i := fun hspace => hbegins ⟨ht, hspace⟩
        simp [Thread.sweeping, hm, hspace]
      | panics => simp [Thread.sweeping, hm]
    · exact (shown_other i hk env).2

/-- a sweep moves one block -/
theorem Sound.sweepOne {m : ℕ} {env : Env} {live : List ℕ} {n b : ℕ} {rest : List ℕ}
    (hm : (s.thread m).pc = .gcSweep live n) (hspace : (s.thread m).space = i) (hq : s.usedBlocks i = b :: rest) :
    Tracks i (next s m env) t := by
  have hsweeping : (s.thread m).sweeping i = some live := by simp [Thread.sweeping, hm, hspace]
  obtain ⟨swept, hs⟩ := h.tracks.sweep m live hsweeping
  have hused : (next s m env).usedBlocks i = rest := by
    simp only [next, hm, hspace, hq]
    split <;> simp
  have husable : (next s m env).usableBlocks i = s.usableBlocks i ++ if env.full then [] else [b] := by
    simp only [next, hm, hspace, hq]
    split <;> simp_all
  have hafter : ((next s m env).thread m).sweeping i = some (if env.full then b :: live else live) := by
    simp only [next, hm, hspace, hq]
    split <;> simp_all [Thread.sweeping]
  have hholds : ∀ k, ((next s m env).thread k).holds i = (s.thread k).holds i := by
    intro k
    simp only [next, hm, hspace, hq]
    split <;> simp [Thread.holds]
  refine ⟨fun k => (h.tracks.held k).trans (hholds k).symm, fun hno => ?_, fun l live' hl => ?_⟩
  · rw [hno m] at hafter
    cases hafter
  · rcases eq_or_ne l m with rfl | hlm
    · rw [hafter] at hl
      cases hl
      exact ⟨swept ++ [b], hs.step (List.nodup_append.1 h.inv.nodup).2.1 hq hused env.full husable⟩
    · -- the other thread would be a controller as well
      rw [(shown_other i hlm env).2] at hl
      obtain ⟨l', hl'⟩ : ∃ n', (s.thread l).pc = .gcSweep live' n' := by
        unfold Thread.sweeping at hl
        cases hp : (s.thread l).pc <;> simp_all
      have hstopped : Stopped s m := h.phase.stopped (by rw [hm]; rfl)
      exact absurd (hstopped.eq_of_leads h.base (by rw [hl']; rfl)) hlm

/-- **The end of a sweep is the collection.** -/
theorem Sound.collect {m : ℕ} {env : Env} {live : List ℕ} {n : ℕ} (hm : (s.thread m).pc = .gcSweep live n)
    (hspace : (s.thread m).space = i) (hq : s.usedBlocks i = []) :
    Store.Legal t (.collect live) ∧ Tracks i (next s m env) (t.step (.collect live)) := by
  have hsweeping : (s.thread m).sweeping i = some live := by simp [Thread.sweeping, hm, hspace]
  obtain ⟨swept, hs⟩ := h.tracks.sweep m live hsweeping
  have hswept : t.used = swept := by rw [hs.used, hq, List.append_nil]
  have hheld : ∀ k, t.held k = none := by
    intro k
    have hblock := h.none_holds (l := m) (by rw [hm]; rfl) k
    simp [h.tracks.held k, Thread.holds, hblock]
  have hlive : ∀ b ∈ live, b ∈ t.used := by
    intro b hb
    rw [hs.live, List.mem_reverse, List.mem_filter] at hb
    rw [hswept]
    exact hb.1
  have hqueues : (next s m env).usableBlocks i = s.usableBlocks i ∧ (next s m env).usedBlocks i = live := by
    simp only [next, hm, hspace, hq]
    split <;> simp
  have hholds : ∀ k, ((next s m env).thread k).holds i = (s.thread k).holds i := by
    intro k
    simp only [next, hm, hspace, hq]
    split <;> simp [Thread.holds]
  have hsweeps : ∀ l, ((next s m env).thread l).sweeping i = none := by
    intro l
    rcases eq_or_ne l m with rfl | hlm
    · refine not_sweeping fun live' n' => ?_
      simp only [next, hm, hspace, hq]
      split <;> simp
    · rw [(shown_other i hlm env).2]
      have hstopped : Stopped s m := h.phase.stopped (by rw [hm]; rfl)
      refine not_sweeping fun live' n' hp => hlm ?_
      exact hstopped.eq_of_leads h.base (by rw [hp]; rfl)
  refine ⟨⟨hheld, hlive⟩, fun k => (h.tracks.held k).trans (hholds k).symm, fun _ => ⟨?_, ?_⟩, fun l live' hl => ?_⟩
  · rw [hqueues.1, hs.usable, ← hswept]
    rfl
  · rw [hqueues.2]
    have heq := hs.live
    rw [← hswept] at heq
    exact heq.symm
  · rw [hsweeps l] at hl
    cases hl

/-- a move in the queues of another space -/
theorem Sound.elsewhere {m : ℕ} {env : Env} (hspace : (s.thread m).space ≠ i) : Tracks i (next s m env) t := by
  by_cases hm : (s.thread m).pc = .gcTrace
  · exact h.trace hm
  have hsame : (next s m env).usableBlocks i = s.usableBlocks i ∧ (next s m env).usedBlocks i = s.usedBlocks i ∧
      ((next s m env).thread m).space = (s.thread m).space := by
    cases hpc : (s.thread m).pc
    case' trigSet todo => cases todo
    case' clearYield todo => cases todo
    all_goals simp only [next, hpc]
    all_goals repeat' split
    all_goals simp [State.returnBlock, Function.update_of_ne hspace.symm]
  obtain ⟨husable, hused, hspace'⟩ := hsame
  refine h.tracks.congr ⟨husable, hused⟩ fun k => ?_
  rcases eq_or_ne k m with rfl | hk
  · have hne : ((next s k env).thread k).space ≠ i := by rw [hspace']; exact hspace
    constructor
    · simp [Thread.holds, hspace, hne]
    · have hnone : ∀ t : Thread, t.space ≠ i → t.sweeping i = none := by
        intro t ht
        unfold Thread.sweeping
        split
        · rw [if_neg ht]
        · rfl
      rw [hnone _ hne, hnone _ hspace]
  · exact shown_other i hk env


end

/-- **Step lemma.** A step of the barrier shows at most one legal operation of the store. -/
theorem sound_step (u : Setup) (i : ℕ) : Simulates step NoLateNew (emit i) Store.step Store.Legal (Sound u i) := by
  have hkeep : ∀ {s t t' o}, NoLateNew s o → Sound u i s t → Store.Inv (List.range (u.spaces i).totalBlocks) t' →
      Tracks i (step s o) t' → Sound u i (step s o) t' := fun ho h hinv htracks =>
    ⟨base_step h.base _, phase_step h.base h.phase ho, emptyHanded_step h.emptyHanded _, hinv, htracks⟩
  constructor
  · intro s t o ho h hemit
    refine hkeep ho h h.inv ?_
    cases o with
    | call m c => exact tracks_call h.tracks h.emptyHanded m c
    | next m env =>
      rw [step]
      by_cases hspace : (s.thread m).space = i
      swap
      · exact h.elsewhere hspace
      simp only [emit, hspace, if_true] at hemit
      by_cases hstill : (s.thread m).pc.still = true
      · obtain ⟨husable, hused, hsame, hblock, hpc⟩ := still_next env hstill (h.emptyHanded m)
        refine h.tracks.congr ⟨by rw [husable], by rw [hused]⟩ fun k => ?_
        rcases eq_or_ne k m with rfl | hk
        · refine ⟨holds_congr hsame hblock, ?_⟩
          rw [not_sweeping hpc, not_sweeping]
          intro live n hp
          rw [hp] at hstill
          cases hstill
        · exact shown_other i hk env
      · cases hp : (s.thread m).pc
        all_goals
          simp only [hp, Pc.still, not_true_eq_false, reduceCtorEq] at hstill hemit
        case gcTrace => exact h.trace hp
        case gcSweep live n =>
          cases hq : s.usedBlocks i with
          | nil => simp [hq] at hemit
          | cons b rest => exact h.sweepOne hp hspace hq
  · intro s t o a ho h hemit
    cases o with
    | call m c => cases hemit
    | next m env =>
      simp only [emit] at hemit
      split at hemit
      swap
      · cases hemit
      rename_i hspace
      have hall : Store.Legal t a ∧ Tracks i (next s m env) (t.step a) := by
        cases hp : (s.thread m).pc
        all_goals
          simp only [hp, reduceCtorEq, Option.some.injEq] at hemit
        case allocSteal =>
          subst hemit
          exact h.take hp hspace
        case gcSweep live n =>
          split at hemit
          · rename_i hq
            cases hemit
            exact h.collect hp hspace hq
          · cases hemit
        all_goals
          subst hemit
          refine ⟨trivial, ?_⟩
          rw [next]
          simp only [hp]
          exact h.returnBlock (by rw [hp]; rfl) (not_sweeping (by simp [hp])) hspace (by simp)
      exact ⟨hall.1, hkeep ho h (Store.inv_step hall.1 h.inv) hall.2⟩

theorem sound_init (u : Setup) (i : ℕ) : Sound u i u.init (Store.init (List.range (u.spaces i).totalBlocks)) where
  base := base_init u
  phase := .inl (open_init u)
  emptyHanded := emptyHanded_before u [] 0
  inv := Store.inv_init List.nodup_range
  tracks := by
    have hsweep : ∀ l, (u.init.thread l).sweeping i = none := by
      intro l
      refine not_sweeping fun live n => ?_
      by_cases hl : l ∈ u.mutators <;> simp [Setup.init, hl]
    refine ⟨fun m => ?_, fun _ => ⟨rfl, rfl⟩, fun l live hl => ?_⟩
    · by_cases hm : m ∈ u.mutators <;> simp [Store.init, Thread.holds, Setup.init, hm]
    · rw [hsweep l] at hl
      cases hl

/-- the operations that a run shows of space `i` -/
def storeOps (u : Setup) (i : ℕ) (ops : List Op) : List (Store.Op ℕ) := emitted step (emit i) u.init ops

/-- **Collections are atomic.** In every run in which no mutator is registered during a collection, for every space: the
steps that move its blocks are, in their order, a legal run of the store in which a collection is one operation, taken when
nobody holds a block; in every state the store has the blocks of the mutators, and the two queues, as they are, or as they
were at the start of the sweep under way. -/
theorem collections_atomic (u : Setup) (ops : List Op) (hops : LegalRun step NoLateNew u.init ops) (i n : ℕ) :
    let start := Store.init (List.range (u.spaces i).totalBlocks)
    LegalRun Store.step Store.Legal start (storeOps u i (ops.take n)) ∧
      Tracks i (before u ops n) (run Store.step start (storeOps u i (ops.take n))) := by
  obtain ⟨hrun, hsound⟩ := (sound_step u i).run (hops.take step u.init n) (sound_init u i)
  exact ⟨hrun, hsound.tracks⟩

/-- the store of `exhaust`: mutator 0 takes the only block, gives it back, finds no other, collects it and takes it again -/
theorem collections_atomic_exhaust :
    storeOps soleMutator 0 (exhaust ++ steps 0 11) =
        [.giveBack 0, .take 0, .giveBack 0, .take 0, .giveBack 0, .collect [], .take 0] ∧
      Tracks 0 (before soleMutator (exhaust ++ steps 0 11) 33)
        (run Store.step (Store.init [0]) (storeOps soleMutator 0 ((exhaust ++ steps 0 11).take 33))) :=
  ⟨by decide +kernel, (collections_atomic soleMutator (exhaust ++ steps 0 11) (by decide +kernel) 0 33).2⟩

end Immix.Barrier
