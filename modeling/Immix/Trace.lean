/-
The parallel trace (`src/heap/gc/multi_thread_trace.rs`) as a step machine: `start_trace` fills an injector with the
roots and runs `cpus` copies of `worker_batch_steal_trace`; an operation `(w, k)` lets worker `w` take its next atomic
step, in any order of workers.

Atomic steps of a worker: the pop of its own deque, one `steal_batch_and_pop` (which moves the first item and `k` more,
`k` as the queue likes; `Steal::Retry` is the worker not being scheduled), each access of `active_threads`, one
`is_empty`, each store of the marking, the load of the encoding, and for each slot the read with the trace-map test and
the push. The injector is linearizable, so its operations are single steps on a list.

`processed` records the objects marked, in order; it is not read by any step.

Results:
- `Count`: the counter is the number of workers that have not gone idle, and a non-empty injector has a worker that
  will look at it again. `count_run`: it holds in every state of every run.
- `trace_termination_safe`: termination detection is safe, whatever the interleaving.
-/
import Immix.SideTables
import Immix.Space
import Immix.Lib.Run
import Immix.Lib.Count

namespace Immix.Trace

open Immix.Lib

/-! ## Model -/

/-- what a trace reads and never writes: the space, its allocation map, the heap, the number of workers -/
structure Env where
  space : Space
  allocMap : ℕ → UInt8
  heap : ℕ → UInt64
  cpus : ℕ
  /-- `num_cpus::get()` is at least 1 -/
  cpus_pos : 0 < cpus

/-- program points of a worker -/
inductive Pc where
  /-- `worker.pop()` -/
  | pop
  /-- `injector.steal_batch_and_pop(&worker)` -/
  | steal
  /-- the steal was `Empty`: before `active_threads.fetch_sub` -/
  | idle
  /-- `while injector.is_empty()` -/
  | spin
  /-- it was empty: before `active_threads.load` -/
  | poll
  /-- it was not empty: before `active_threads.fetch_add` -/
  | wake
  /-- the range assertion and `mark_as_traced` -/
  | enter (obj : ℕ)
  /-- the two stores of `mark_line_live` -/
  | markLive (obj : ℕ)
  | markConserv (obj : ℕ)
  /-- `get_ref_byte` and the match on its low bits -/
  | decode (obj : ℕ)
  /-- the slots at the offsets `offs` are still to be tested; `short` is the short-encode bit -/
  | edges (obj : ℕ) (offs : List ℕ) (short : Bool)
  /-- the test answered true for `v`: before `injector.push` -/
  | push (obj v : ℕ) (offs : List ℕ) (short : Bool)
  | done
  | panicked
deriving DecidableEq, Repr

structure Worker where
  deque : List ℕ
  pc : Pc

structure St where
  injector : List ℕ
  active : ℤ
  worker : ℕ → Worker
  traceMap : TraceMap
  lines : LineMarkTable
  processed : List ℕ

/-- the state in which `start_trace` has spawned its workers -/
def startTrace (e : Env) (roots : List ℕ) (tm : TraceMap) (lines : LineMarkTable) : St :=
  ⟨roots, e.cpus, fun _ => ⟨[], .pop⟩, tm, lines, []⟩

/-- worker `w` goes to `pc` -/
def St.goto (s : St) (w : ℕ) (pc : Pc) : St :=
  { s with worker := Function.update s.worker w { s.worker w with pc := pc } }

/-- the word in the slot at offset `off` of `obj` -/
def slotValue (e : Env) (obj off : ℕ) : ℕ := (e.heap (obj + off)).toNat

/-- the next atomic step of worker `w`; `k` is the batch the injector hands over with a stolen item -/
def stepAt (e : Env) (s : St) (w k : ℕ) : St :=
  match (s.worker w).pc with
  | .pop =>
    match (s.worker w).deque with
    | v :: rest => { s with worker := Function.update s.worker w ⟨rest, .enter v⟩ }
    | [] => s.goto w .steal
  | .steal =>
    match s.injector with
    | [] => s.goto w .idle
    | v :: rest =>
      { s with
        injector := rest.drop k
        worker := Function.update s.worker w ⟨(s.worker w).deque ++ rest.take k, .enter v⟩ }
  | .idle => { s.goto w .spin with active := s.active - 1 }
  | .spin => s.goto w (if s.injector = [] then .poll else .wake)
  | .poll => s.goto w (if s.active = 0 then .done else .spin)
  | .wake => { s.goto w .steal with active := s.active + 1 }
  | .enter obj =>
    if e.space.start ≤ obj ∧ obj < e.space.stop then
      { s.goto w (.markLive obj) with
        traceMap := s.traceMap.markAsTraced obj
        processed := s.processed ++ [obj] }
    else s.goto w .panicked
  | .markLive obj => { s.goto w (.markConserv obj) with lines := s.lines.markLive obj }
  | .markConserv obj => { s.goto w (.decode obj) with lines := s.lines.markConserv obj }
  | .decode obj =>
    let value := getRefByte e.allocMap e.space.start obj
    match refOffsets (refBits value) with
    | some offs => s.goto w (.edges obj offs (shortEncode value))
    | none => s.goto w .panicked
  | .edges obj (off :: offs) short =>
    if s.traceMap.isUntracedAndValid (slotValue e obj off) then s.goto w (.push obj (slotValue e obj off) offs short)
    else s.goto w (.edges obj offs short)
  | .edges _ [] short => s.goto w (if short then .pop else .panicked)
  | .push obj v offs short => { s.goto w (.edges obj offs short) with injector := s.injector ++ [v] }
  | .done => s
  | .panicked => s

def step (e : Env) (s : St) (o : ℕ × ℕ) : St := if o.1 < e.cpus then stepAt e s o.1 o.2 else s

/-- every worker has returned -/
def Finished (e : Env) (s : St) : Prop := ∀ w < e.cpus, (s.worker w).pc = .done

instance (e : Env) (s : St) : Decidable (Finished e s) := by unfold Finished; infer_instance

@[simp] theorem goto_worker (s : St) (w : ℕ) (pc : Pc) :
    (s.goto w pc).worker = Function.update s.worker w ⟨(s.worker w).deque, pc⟩ := rfl
@[simp] theorem goto_injector (s : St) (w : ℕ) (pc : Pc) : (s.goto w pc).injector = s.injector := rfl
@[simp] theorem goto_active (s : St) (w : ℕ) (pc : Pc) : (s.goto w pc).active = s.active := rfl
@[simp] theorem goto_traceMap (s : St) (w : ℕ) (pc : Pc) : (s.goto w pc).traceMap = s.traceMap := rfl
@[simp] theorem goto_lines (s : St) (w : ℕ) (pc : Pc) : (s.goto w pc).lines = s.lines := rfl
@[simp] theorem goto_processed (s : St) (w : ℕ) (pc : Pc) : (s.goto w pc).processed = s.processed := rfl

/-! ## The counter and the outstanding work -/

/-- the worker holds an object: one it has taken and not finished scanning -/
def Pc.holds : Pc → Bool
  | .enter _ | .markLive _ | .markConserv _ | .decode _ | .edges .. | .push .. => true
  | _ => false

/-- the worker is counted in `active_threads`; a worker that panicked never leaves the count -/
def Pc.counted : Pc → Bool
  | .spin | .poll | .wake | .done => false
  | _ => true

/-- the worker is counted and may still own or obtain work without looking at the injector -/
def Pc.working : Pc → Bool
  | .pop | .panicked => true
  | pc => pc.holds

theorem Pc.counted_of_working {pc : Pc} (h : pc.working = true) : pc.counted = true ∧ pc ≠ .idle := by
  cases pc <;> simp_all [working, counted, holds]

/-- no object is queued, owned or held anywhere -/
structure Quiet (e : Env) (s : St) : Prop where
  injector : s.injector = []
  deque : ∀ w < e.cpus, (s.worker w).deque = []
  rest : ∀ w < e.cpus, (s.worker w).pc.working = false

/-- the counting invariant -/
structure Count (e : Env) (s : St) : Prop where
  active : s.active = countThreads (fun x : Worker => x.pc.counted = true) e.cpus s.worker
  /-- a non-empty injector has a counted worker that has not just seen it empty -/
  work : s.injector ≠ [] → ∃ w < e.cpus, (s.worker w).pc.counted = true ∧ (s.worker w).pc ≠ .idle
  /-- only a working worker has items of its own -/
  deque : ∀ w < e.cpus, (s.worker w).deque ≠ [] → (s.worker w).pc.working = true
  done : ∀ w < e.cpus, (s.worker w).pc = .done → Quiet e s

theorem count_start (e : Env) (roots : List ℕ) (tm : TraceMap) (lines : LineMarkTable) :
    Count e (startTrace e roots tm lines) where
  active := by rw [count_all]; rfl; intro w _; rfl
  work := fun _ => ⟨0, e.cpus_pos, rfl, by simp [startTrace]⟩
  deque := by simp [startTrace]
  done := by simp [startTrace]

/-- a state whose worker `w` is the only one changed -/
theorem worker_update {P : Worker → Prop} {f : ℕ → Worker} {n w : ℕ} {v : Worker} (hv : P v)
    (hf : ∀ u < n, u ≠ w → P (f u)) : ∀ u < n, P (Function.update f w v u) := by
  intro u hu
  by_cases h : u = w
  · subst h; rwa [Function.update_self]
  · rw [Function.update_of_ne h]; exact hf u hu h

/-- **A working worker stays working**: whatever it does to the injector, the tables and its own deque. -/
theorem Count.keep_working {e : Env} {s s' : St} {w : ℕ} {v : Worker} (h : Count e s) (hw : w < e.cpus)
    (hpc : (s.worker w).pc.working = true) (hv : v.pc.working = true) (hworker : s'.worker = Function.update s.worker w v)
    (hactive : s'.active = s.active) : Count e s' where
  active := by
    have h1 := (Pc.counted_of_working hv).1
    have h2 := (Pc.counted_of_working hpc).1
    rw [hactive, h.active, hworker, count_update_same _ _ hw (by simp [h1, h2])]
  work := fun _ => ⟨w, hw, by simpa [hworker] using Pc.counted_of_working hv⟩
  deque := by
    rw [hworker]
    exact worker_update (P := fun x => x.deque ≠ [] → x.pc.working = true) (fun _ => hv) fun u hu _ => h.deque u hu
  done := by
    intro u hu hd
    by_cases huw : u = w
    · subst huw
      rw [hworker, Function.update_self] at hd
      rw [hd] at hv; simp [Pc.working, Pc.holds] at hv
    · rw [hworker, Function.update_of_ne huw] at hd
      have := (h.done u hu hd).rest w hw
      rw [hpc] at this; cases this

/-- **A worker that is not working and obtains nothing.** The injector keeps its contents; `v` has no items; if the
injector holds something, the worker is still one that will look at it, or another one is. -/
theorem Count.keep_resting {e : Env} {s s' : St} {w : ℕ} (h : Count e s) (hw : w < e.cpus) (pc : Pc)
    (hd : (s.worker w).deque = []) (hpc : pc.working = false)
    (hworker : s'.worker = Function.update s.worker w ⟨[], pc⟩) (hinj : s'.injector = s.injector)
    (hactive : s'.active + (if (s.worker w).pc.counted then 1 else 0) = s.active + (if pc.counted then 1 else 0))
    (hwork : s.injector ≠ [] → (s.worker w).pc.counted = true → (s.worker w).pc ≠ .idle →
      pc.counted = true ∧ pc ≠ .idle)
    (hdone : pc = .done → Quiet e s) : Count e s' where
  active := by
    have hc := count_update (fun x : Worker => x.pc.counted = true) s.worker hw ⟨[], pc⟩
    rw [← hworker] at hc
    have := h.active
    simp only at hc
    split_ifs at hc hactive <;> omega
  work := by
    intro hne
    rw [hinj] at hne
    obtain ⟨u, hu, h1, h2⟩ := h.work hne
    by_cases huw : u = w
    · subst huw
      exact ⟨u, hu, by simpa [hworker] using hwork hne h1 h2⟩
    · exact ⟨u, hu, by simpa [hworker, Function.update_of_ne huw] using ⟨h1, h2⟩⟩
  deque := by
    rw [hworker]
    exact worker_update (P := fun x => x.deque ≠ [] → x.pc.working = true) (by simp) fun u hu _ => h.deque u hu
  done := by
    intro u hu hdu
    have hq : Quiet e s := by
      by_cases huw : u = w
      · subst huw
        rw [hworker, Function.update_self] at hdu
        exact hdone hdu
      · rw [hworker, Function.update_of_ne huw] at hdu
        exact h.done u hu hdu
    refine ⟨by rw [hinj]; exact hq.injector, ?_, ?_⟩
    · rw [hworker]
      exact worker_update (P := fun x => x.deque = []) rfl fun u hu _ => hq.deque u hu
    · rw [hworker]
      exact worker_update (P := fun x => x.pc.working = false) hpc fun u hu _ => hq.rest u hu

/-- when the counter reads 0 nothing is left to do -/
theorem Count.quiet_of_zero {e : Env} {s : St} (h : Count e s) (h0 : s.active = 0) : Quiet e s := by
  have hzero : countThreads (fun x : Worker => x.pc.counted = true) e.cpus s.worker = 0 := by
    have := h.active; omega
  have hnone := (count_eq_zero _).1 hzero
  have hrest : ∀ w < e.cpus, (s.worker w).pc.working = false := fun w hw => by
    cases hwk : (s.worker w).pc.working
    · rfl
    · exact absurd (Pc.counted_of_working hwk).1 (hnone w hw)
  refine ⟨?_, fun w hw => ?_, hrest⟩
  · by_contra hne
    obtain ⟨w, hw, hc, -⟩ := h.work hne
    exact hnone w hw hc
  · by_contra hne
    have := h.deque w hw hne
    rw [hrest w hw] at this; cases this

/-- a worker that is not working owns nothing -/
theorem Count.deque_nil {e : Env} {s : St} (h : Count e s) {w : ℕ} (hw : w < e.cpus)
    (hpc : (s.worker w).pc.working = false) : (s.worker w).deque = [] := by
  by_contra hne
  have := h.deque w hw hne
  rw [hpc] at this; cases this

/-- **Step lemma.** Every step of every worker keeps the counting invariant. -/
theorem count_stepAt (e : Env) (s : St) (w k : ℕ) (hw : w < e.cpus) (h : Count e s) : Count e (stepAt e s w k) := by
  unfold stepAt
  cases hpc : (s.worker w).pc with
  | pop =>
    cases hd : (s.worker w).deque with
    | cons v rest => exact h.keep_working hw (by rw [hpc]; rfl) rfl rfl rfl
    | nil =>
      -- the worker has nothing of its own left: it is counted, and will look at the injector
      refine h.keep_resting hw .steal hd rfl (by simp [hd]) rfl ?_ ?_ nofun
      · rw [hpc]; rfl
      · exact fun _ _ _ => ⟨rfl, nofun⟩
  | steal =>
    have hd := h.deque_nil hw (by rw [hpc]; rfl)
    cases hinj : s.injector with
    | nil =>
      refine h.keep_resting hw .idle hd rfl (by simp [hd]) rfl ?_ ?_ nofun
      · rw [hpc]; rfl
      · exact fun hne => absurd hinj hne
    | cons v rest =>
      -- the worker was at rest and now holds `v`; nobody had returned, since the injector was not empty
      refine ⟨?_, fun _ => ⟨w, hw, by simp [Pc.counted]⟩, ?_, ?_⟩
      · simp only
        rw [h.active, count_update_same _ _ hw (by simp [hpc, Pc.counted])]
      · exact worker_update (P := fun x => x.deque ≠ [] → x.pc.working = true) (fun _ => rfl) fun u hu _ => h.deque u hu
      · intro u hu hdu
        by_cases huw : u = w
        · subst huw; simp at hdu
        · simp only [Function.update_of_ne huw] at hdu
          have := (h.done u hu hdu).injector
          rw [hinj] at this; cases this
  | idle =>
    have hd := h.deque_nil hw (by rw [hpc]; rfl)
    refine h.keep_resting hw .spin hd rfl (by simp [hd]) rfl ?_ ?_ nofun
    · rw [hpc]; simp [Pc.counted]
    · exact fun _ _ hne => absurd hpc hne
  | spin =>
    have hd := h.deque_nil hw (by rw [hpc]; rfl)
    have hc : (if s.injector = [] then Pc.poll else Pc.wake).counted = false := by split_ifs <;> rfl
    refine h.keep_resting hw (if s.injector = [] then .poll else .wake) hd ?_ (by simp [hd]) rfl ?_ ?_ ?_
    · split_ifs <;> rfl
    · rw [hpc, hc]; rfl
    · rw [hpc]; exact fun _ hc => nomatch hc
    · split_ifs <;> nofun
  | poll =>
    have hd := h.deque_nil hw (by rw [hpc]; rfl)
    have hc : (if s.active = 0 then Pc.done else Pc.spin).counted = false := by split_ifs <;> rfl
    refine h.keep_resting hw (if s.active = 0 then .done else .spin) hd ?_ (by simp [hd]) rfl ?_ ?_ ?_
    · split_ifs <;> rfl
    · rw [hpc, hc]; rfl
    · rw [hpc]; exact fun _ hc => nomatch hc
    · split_ifs with h0
      · exact fun _ => h.quiet_of_zero h0
      · nofun
  | wake =>
    have hd := h.deque_nil hw (by rw [hpc]; rfl)
    refine h.keep_resting hw .steal hd rfl (by simp [hd]) rfl ?_ ?_ nofun
    · rw [hpc]; simp [Pc.counted]
    · exact fun _ _ _ => ⟨rfl, nofun⟩
  | enter obj =>
    simp only
    split_ifs
    · exact h.keep_working hw (by rw [hpc]; rfl) rfl rfl rfl
    · exact h.keep_working hw (by rw [hpc]; rfl) rfl rfl rfl
  | markLive obj => exact h.keep_working hw (by rw [hpc]; rfl) rfl rfl rfl
  | markConserv obj => exact h.keep_working hw (by rw [hpc]; rfl) rfl rfl rfl
  | decode obj =>
    simp only
    split
    · exact h.keep_working hw (by rw [hpc]; rfl) rfl rfl rfl
    · exact h.keep_working hw (by rw [hpc]; rfl) rfl rfl rfl
  | edges obj offs short =>
    cases offs with
    | cons off offs =>
      simp only
      split_ifs
      · exact h.keep_working hw (by rw [hpc]; rfl) rfl rfl rfl
      · exact h.keep_working hw (by rw [hpc]; rfl) rfl rfl rfl
    | nil => exact h.keep_working hw (by rw [hpc]; rfl) (by split_ifs <;> rfl) rfl rfl
  | push obj v offs short => exact h.keep_working hw (by rw [hpc]; rfl) rfl rfl rfl
  | done => exact h
  | panicked => exact h

theorem count_step (e : Env) (s : St) (o : ℕ × ℕ) (h : Count e s) : Count e (step e s o) := by
  unfold step
  split_ifs with hw
  · exact count_stepAt e s o.1 o.2 hw h
  · exact h

theorem count_run (e : Env) (s : St) (ops : List (ℕ × ℕ)) (h : Count e s) : Count e (run (step e) s ops) :=
  run_inv_all ops (count_step e) h

/-! ## Quiet states stay quiet -/

theorem Quiet.goto {e : Env} {s s' : St} {w : ℕ} (h : Quiet e s) (hw : w < e.cpus) (pc : Pc) (hpc : pc.working = false)
    (hworker : s'.worker = (s.goto w pc).worker) (hinj : s'.injector = s.injector) : Quiet e s' where
  injector := hinj.trans h.injector
  deque := by
    rw [hworker, goto_worker]
    exact worker_update (P := fun x => x.deque = []) (h.deque w hw) fun u hu _ => h.deque u hu
  rest := by
    rw [hworker, goto_worker]
    exact worker_update (P := fun x => x.pc.working = false) hpc fun u hu _ => h.rest u hu

/-- what the marking has written so far -/
structure SameMarks (s t : St) : Prop where
  traceMap : t.traceMap = s.traceMap
  lines : t.lines = s.lines
  processed : t.processed = s.processed

/-- once nothing is queued, owned or held, no step of any worker obtains, pushes or marks anything -/
theorem quiet_step (e : Env) (s : St) (o : ℕ × ℕ) (h : Quiet e s) :
    Quiet e (step e s o) ∧ SameMarks s (step e s o) := by
  unfold step
  split_ifs with hw
  swap
  · exact ⟨h, rfl, rfl, rfl⟩
  have hrest := h.rest o.1 hw
  unfold stepAt
  cases hpc : (s.worker o.1).pc with
  | steal =>
    simp only [h.injector]
    exact ⟨h.goto hw .idle rfl rfl rfl, rfl, rfl, rfl⟩
  | idle => exact ⟨h.goto hw .spin rfl rfl rfl, rfl, rfl, rfl⟩
  | spin => exact ⟨h.goto hw (if s.injector = [] then .poll else .wake) (by split_ifs <;> rfl) rfl rfl, rfl, rfl, rfl⟩
  | poll => exact ⟨h.goto hw (if s.active = 0 then .done else .spin) (by split_ifs <;> rfl) rfl rfl, rfl, rfl, rfl⟩
  | wake => exact ⟨h.goto hw .steal rfl rfl rfl, rfl, rfl, rfl⟩
  | done => exact ⟨h, rfl, rfl, rfl⟩
  | _ => rw [hpc] at hrest; simp [Pc.working, Pc.holds] at hrest

theorem quiet_run (e : Env) (s : St) (ops : List (ℕ × ℕ)) (h : Quiet e s) :
    Quiet e (run (step e) s ops) ∧ SameMarks s (run (step e) s ops) := by
  induction ops generalizing s with
  | nil => exact ⟨h, rfl, rfl, rfl⟩
  | cons o ops ih =>
    obtain ⟨h1, h2⟩ := quiet_step e s o h
    obtain ⟨h3, h4⟩ := ih _ h1
    exact ⟨h3, h4.1.trans h2.1, h4.2.trans h2.2, h4.3.trans h2.3⟩

/-- **Termination detection is safe.** For every number of workers and every interleaving (workers that panic
included): the counter is never negative and is positive whenever a worker is about to decrement it; and once some worker
has returned, the injector and every local deque are empty, no worker holds an object, and whatever steps follow, no
worker obtains, pushes or marks anything. -/
theorem trace_termination_safe (e : Env) (roots : List ℕ) (tm : TraceMap) (lines : LineMarkTable) (ops : List (ℕ × ℕ)) :
    let s := run (step e) (startTrace e roots tm lines) ops
    0 ≤ s.active ∧ (∀ w < e.cpus, (s.worker w).pc = .idle → 1 ≤ s.active) ∧
      ∀ w < e.cpus, (s.worker w).pc = .done → ∀ later : List (ℕ × ℕ),
        let t := run (step e) s later
        t.injector = [] ∧ (∀ u < e.cpus, (t.worker u).deque = [] ∧ (t.worker u).pc.holds = false) ∧ SameMarks s t := by
  intro s
  have h : Count e s := count_run e _ ops (count_start e roots tm lines)
  refine ⟨by rw [h.active]; exact Int.natCast_nonneg _, fun w hw hpc => ?_, fun w hw hpc later => ?_⟩
  · have hpos := count_pos (fun x : Worker => x.pc.counted = true) (f := s.worker) hw (by simp [hpc, Pc.counted])
    rw [h.active]
    exact_mod_cast hpos
  · obtain ⟨hq, hm⟩ := quiet_run e s later (h.done w hw hpc)
    refine ⟨hq.injector, fun u hu => ⟨hq.deque u hu, ?_⟩, hm⟩
    have := hq.rest u hu
    cases hu : ((run (step e) s later).worker u).pc <;> simp_all [Pc.working, Pc.holds]

end Immix.Trace
