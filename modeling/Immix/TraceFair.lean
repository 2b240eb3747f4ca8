/-
Fair schedules of the parallel trace (`worker_batch_steal_trace` of `src/heap/gc/multi_thread_trace.rs`): the operating
system runs each worker again and again, in any order.

Whether the trace ends is decided by the heap, not by the schedule.
- `step_idle`: what a step of idle spinning changes.
- `fair_trace_ends`: under a fair schedule every worker returns, unless one of them panics; then none ever returns.
- `Scan`: a processed object is scanned to the end, by a worker that holds it, or one that panicked.
- `fair_trace_total`: under a fair schedule the trace ends exactly when every reached object lies in the space and has an
  encoding the tracer supports; and when it ends it has processed the reached objects.
-/
import Immix.TraceWork
import Immix.TracePanic
import Immix.Lib.Fair

namespace Immix.Trace

open Immix.Lib

/-! ## Idle steps -/

/-- waiting in the spin loop, or returned, or unwound -/
def Pc.rests : Pc → Bool
  | .spin | .poll | .done | .panicked => true
  | _ => false

variable {e : Env} {s : St} {w k : ℕ}

/-- the three steps that are not busy -/
theorem stepAt_idle (hw : w < e.cpus) (hidle : ¬ Busy e s (w, k)) :
    (s.worker w).pc = .spin ∧ s.injector = [] ∧ stepAt e s w k = s.goto w .poll ∨
      (s.worker w).pc = .poll ∧ stepAt e s w k = s.goto w (if s.active = 0 then .done else .spin) ∨
      (s.worker w).pc.running = false ∧ stepAt e s w k = s := by
  unfold Busy at hidle
  unfold stepAt
  cases hpc : (s.worker w).pc with
  | spin =>
    have hinj : s.injector = [] := by
      by_contra hne
      exact hidle ⟨hw, by simpa only [hpc] using hne⟩
    exact .inl ⟨rfl, hinj, by simp only [if_pos hinj]⟩
  | poll => exact .inr (.inl ⟨rfl, rfl⟩)
  | done => exact .inr (.inr ⟨rfl, rfl⟩)
  | panicked => exact .inr (.inr ⟨rfl, rfl⟩)
  | _ => exact absurd ⟨hw, by simp only [hpc]⟩ hidle

/-- what a step that is not busy leaves as it is, and what it brings about -/
structure Idle (e : Env) (s s' : St) : Prop where
  injector : s'.injector = s.injector
  active : s'.active = s.active
  rests : ∀ u < e.cpus, (s.worker u).pc.rests = true → (s'.worker u).pc.rests = true
  done : ∀ u < e.cpus, (s.worker u).pc = .done → (s'.worker u).pc = .done

theorem Idle.refl (e : Env) (s : St) : Idle e s s := ⟨rfl, rfl, fun _ _ h => h, fun _ _ h => h⟩

/-- a worker that waits goes to a program point at which it waits or has returned -/
theorem idle_goto (e : Env) {pc : Pc} (hspins : (s.worker w).pc.spins = true) (hpc : pc.rests = true) :
    Idle e s (s.goto w pc) := by
  refine ⟨rfl, rfl, fun u _ h => ?_, fun u _ h => ?_⟩
  · rw [goto_worker]
    by_cases huw : u = w
    · rw [huw, Function.update_self]
      exact hpc
    · rw [Function.update_of_ne huw]
      exact h
  · have huw : u ≠ w := by
      rintro rfl
      rw [h] at hspins
      cases hspins
    rw [goto_worker, Function.update_of_ne huw]
    exact h

/-- **Idle steps.** -/
theorem step_idle {o : ℕ × ℕ} (hidle : ¬ Busy e s o) : Idle e s (step e s o) := by
  unfold step
  split_ifs with hw
  · rcases stepAt_idle (k := o.2) hw hidle with ⟨hpc, -, heq⟩ | ⟨hpc, heq⟩ | ⟨-, heq⟩
    · rw [heq]
      exact idle_goto e (by rw [hpc]; rfl) rfl
    · rw [heq]
      exact idle_goto e (by rw [hpc]; rfl) (by split_ifs <;> rfl)
    · rw [heq]
      exact Idle.refl e s
  · exact Idle.refl e s

/-- the worker that takes a step that is not busy rests after it -/
theorem step_idle_rests (hw : w < e.cpus) (hidle : ¬ Busy e s (w, k)) : ((step e s (w, k)).worker w).pc.rests = true := by
  have hrests : (s.worker w).pc.rests = true := by
    rcases stepAt_idle hw hidle with ⟨hpc, -, -⟩ | ⟨hpc, -⟩ | ⟨hrun, -⟩
    · rw [hpc]; rfl
    · rw [hpc]; rfl
    · cases hpc : (s.worker w).pc <;> simp_all [Pc.running, Pc.rests]
  exact (step_idle hidle).rests w hw hrests

/-! ## All workers rest -/

/-- a worker that rests is counted only when it has panicked -/
theorem Pc.counted_of_rests {pc : Pc} (h : pc.rests = true) : pc.counted = true ↔ pc = .panicked := by
  cases pc <;> simp_all [rests, counted]

/-- when all workers rest and none has panicked, nothing is queued and the counter reads 0 -/
theorem Count.zero_of_rests (h : Count e s) (hrests : ∀ w < e.cpus, (s.worker w).pc.rests = true)
    (hpanic : ¬ Panicked e s) : s.injector = [] ∧ s.active = 0 := by
  have hnone : ∀ w < e.cpus, ¬ (s.worker w).pc.counted = true := fun w hw hc =>
    hpanic ⟨w, hw, (Pc.counted_of_rests (hrests w hw)).1 hc⟩
  constructor
  · by_contra hne
    obtain ⟨w, hw, hc, -⟩ := h.work hne
    exact hnone w hw hc
  · rw [h.active]
    exact Int.natCast_eq_zero.2 ((count_eq_zero _).2 hnone)

/-- no worker returns in a state in which one has panicked -/
theorem Count.not_done (h : Count e s) (hpanic : Panicked e s) (hw : w < e.cpus) : (s.worker w).pc ≠ .done := by
  intro hd
  obtain ⟨v, hv, hp⟩ := hpanic
  have hrest := (h.done w hw hd).rest v hv
  rw [hp] at hrest
  cases hrest

theorem panicked_step {o : ℕ × ℕ} (h : Panicked e s) : Panicked e (step e s o) := by
  unfold step
  split_ifs with hw
  · exact h.step hw
  · exact h

theorem step_worker_of_ne {u : ℕ} {o : ℕ × ℕ} (hu : o.1 ≠ u) : (step e s o).worker u = s.worker u := by
  unfold step
  split_ifs
  · exact stepAt_worker_of_ne (Ne.symm hu)
  · rfl

/-! ## Fair schedules -/

/-- the steps of each worker come again and again -/
def Fair (e : Env) (schedule : ℕ → ℕ × ℕ) : Prop := ∀ w < e.cpus, Recurs (fun o => o.1 = w) schedule

section Fair

variable {schedule : ℕ → ℕ × ℕ} {n : ℕ}

/-- when no step is busy from `n` on, all workers rest from some step on -/
theorem all_rest_of_fair (hfair : Fair e schedule)
    (hidle : ∀ i, n ≤ i → ¬ Busy e (along (step e) s schedule i) (schedule i)) :
    ∃ m, n ≤ m ∧ ∀ i, m ≤ i → ∀ w < e.cpus, ((along (step e) s schedule i).worker w).pc.rests = true := by
  apply always_of_all
  intro w hw
  refine (hfair w hw).settles (P := fun i => ((along (step e) s schedule i).worker w).pc.rests = true) ?_ ?_
  · intro i hi heq
    rw [along_succ]
    have hbusy := hidle i hi
    rw [← Prod.mk.eta (p := schedule i), heq] at hbusy ⊢
    exact step_idle_rests hw hbusy
  · intro i hi h
    rw [along_succ]
    exact (step_idle (hidle i hi)).rests w hw h

/-- with the counter at 0 and nothing queued, a worker that rests and has not panicked returns -/
theorem returns_of_fair (hfair : Fair e schedule)
    (hidle : ∀ i, n ≤ i → ¬ Busy e (along (step e) s schedule i) (schedule i))
    (hzero : ∀ i, n ≤ i → (along (step e) s schedule i).active = 0) {w : ℕ} (hw : w < e.cpus)
    (hpc : ((along (step e) s schedule n).worker w).pc.rests = true)
    (hpanic : ((along (step e) s schedule n).worker w).pc ≠ .panicked) :
    ∃ m, n ≤ m ∧ ∀ i, m ≤ i → ((along (step e) s schedule i).worker w).pc = .done := by
  -- a step of another worker leaves `w` where it is
  have hother : ∀ i, n ≤ i → ∀ pc, ((along (step e) s schedule i).worker w).pc = pc → (schedule i).1 ≠ w →
      ((along (step e) s schedule (i + 1)).worker w).pc = pc := by
    intro i _ pc hi hne
    rw [along_succ, step_worker_of_ne hne]
    exact hi
  have hown : ∀ i, n ≤ i → (schedule i).1 = w →
      (((along (step e) s schedule i).worker w).pc = .spin →
        ((along (step e) s schedule (i + 1)).worker w).pc = .poll) ∧
      (((along (step e) s schedule i).worker w).pc = .poll →
        ((along (step e) s schedule (i + 1)).worker w).pc = .done) := by
    intro i hi heq
    have hbusy := hidle i hi
    have hact := hzero i hi
    rw [along_succ, step, heq, if_pos hw]
    rw [← Prod.mk.eta (p := schedule i), heq] at hbusy
    rcases stepAt_idle hw hbusy with ⟨hpc, -, hstep⟩ | ⟨hpc, hstep⟩ | ⟨hrun, -⟩
    · rw [hstep, hpc]
      simp
    · rw [hstep, hpc, if_pos hact]
      simp
    · constructor
      · intro hpc
        rw [hpc] at hrun
        cases hrun
      · intro hpc
        rw [hpc] at hrun
        cases hrun
  -- from the test of the counter the worker returns
  have hpoll : ∀ m, n ≤ m → ((along (step e) s schedule m).worker w).pc = .poll →
      ∃ i, n ≤ i ∧ ((along (step e) s schedule i).worker w).pc = .done := by
    intro m hm hpc
    obtain ⟨i, hi, hdone⟩ := (hfair w hw).responds
      (P := fun i => ((along (step e) s schedule i).worker w).pc = .poll)
      (Q := fun i => ((along (step e) s schedule i).worker w).pc = .done) hpc
      (fun i hi h => (em ((schedule i).1 = w)).elim (fun heq => .inr ((hown i (hm.trans hi) heq).2 h))
        fun hne => .inl (hother i (hm.trans hi) _ h hne))
      (fun i hi h heq => (hown i (hm.trans hi) heq).2 h)
    exact ⟨i, hm.trans hi.le, hdone⟩
  have hdone : ∃ i, n ≤ i ∧ ((along (step e) s schedule i).worker w).pc = .done := by
    cases hpc' : ((along (step e) s schedule n).worker w).pc with
    | spin =>
      obtain ⟨i, hi, hp⟩ := (hfair w hw).responds
        (P := fun i => ((along (step e) s schedule i).worker w).pc = .spin)
        (Q := fun i => ((along (step e) s schedule i).worker w).pc = .poll) hpc'
        (fun i hi h => (em ((schedule i).1 = w)).elim (fun heq => .inr ((hown i hi heq).1 h))
          fun hne => .inl (hother i hi _ h hne))
        (fun i hi h heq => (hown i hi heq).1 h)
      exact hpoll i hi.le hp
    | poll => exact hpoll n le_rfl hpc'
    | done => exact ⟨n, le_rfl, hpc'⟩
    | panicked => exact absurd hpc' hpanic
    | _ => rw [hpc'] at hpc; cases hpc
  obtain ⟨m, hm, hd⟩ := hdone
  refine ⟨m, hm, always_of_keep hm hd fun i hi h => ?_⟩
  rw [along_succ]
  exact (step_idle (hidle i hi)).done w hw h

/-- a trace that a fair schedule runs: its steps stop being busy, and then it ends or hangs -/
theorem ends_of_fair (hfair : Fair e schedule) (hcount : ∀ i, Count e (along (step e) s schedule i))
    (hidle : ∀ i, n ≤ i → ¬ Busy e (along (step e) s schedule i) (schedule i)) :
    ((¬ ∃ i, Panicked e (along (step e) s schedule i)) →
        ∃ m, ∀ i, m ≤ i → Finished e (along (step e) s schedule i)) ∧
      ((∃ i, Panicked e (along (step e) s schedule i)) → ∃ m, ∀ i, m ≤ i → ∀ w < e.cpus,
        ((along (step e) s schedule i).worker w).pc.spins = true ∨
          ((along (step e) s schedule i).worker w).pc = .panicked) := by
  obtain ⟨m, hnm, hrests⟩ := all_rest_of_fair hfair hidle
  constructor
  · intro hpanic
    have hnone : ∀ i, ¬ Panicked e (along (step e) s schedule i) := fun i h => hpanic ⟨i, h⟩
    have hzero : ∀ i, m ≤ i → (along (step e) s schedule i).active = 0 := fun i hi =>
      ((hcount i).zero_of_rests (hrests i hi) (hnone i)).2
    obtain ⟨m', -, hdone⟩ := always_of_all (k := m) fun w hw =>
      returns_of_fair hfair (fun i hi => hidle i (hnm.trans hi)) hzero hw (hrests m le_rfl w hw)
        fun hp => hnone m ⟨w, hw, hp⟩
    exact ⟨m', hdone⟩
  · rintro ⟨j, hj⟩
    have hpanic : ∀ i, j ≤ i → Panicked e (along (step e) s schedule i) :=
      always_of_keep le_rfl hj fun i _ h => by
        rw [along_succ]
        exact panicked_step h
    refine ⟨max m j, fun i hi w hw => ?_⟩
    have hrest := hrests i ((le_max_left m j).trans hi) w hw
    have hnot := (hcount i).not_done (hpanic i ((le_max_right m j).trans hi)) hw
    cases hpc : ((along (step e) s schedule i).worker w).pc with
    | spin => exact .inl rfl
    | poll => exact .inl rfl
    | done => exact absurd hpc hnot
    | panicked => exact .inr rfl
    | _ => rw [hpc] at hrest; cases hrest

end Fair

/-- along every schedule the steps of a trace stop being busy -/
theorem idle_from (e : Env) (entries : ℕ → UInt8) (mark : UInt8) (lines : LineMarkTable) (roots : List ℕ)
    (schedule : ℕ → ℕ × ℕ) : ∃ n, ∀ i, n ≤ i →
      ¬ Busy e (along (step e) (startTrace e roots (e.space.traceMap entries mark) lines) schedule i) (schedule i) := by
  have hcover : Cover e (startTrace e roots (e.space.traceMap entries mark) lines).traceMap := cover_start e entries mark
  have hbound := busySteps_le (I := fun s : St => Cover e s.traceMap) (fun _ o => cover_step o)
    (fun _ o => potential_step o) hcover
  exact finitely_many hbound schedule

/-- **Under a fair schedule the trace ends, or hangs after a panic.** For every heap, roots and tables, every number of
workers and every schedule that runs each of them again and again: if no worker ever panics, all workers have returned
from some step on; if one does, then from some step on every worker spins or has panicked, for ever. -/
theorem fair_trace_ends (e : Env) (entries : ℕ → UInt8) (mark : UInt8) (lines : LineMarkTable) (roots : List ℕ)
    (schedule : ℕ → ℕ × ℕ) (hfair : Fair e schedule) :
    let s := along (step e) (startTrace e roots (e.space.traceMap entries mark) lines) schedule
    ((¬ ∃ i, Panicked e (s i)) → ∃ m, ∀ i, m ≤ i → Finished e (s i)) ∧
      ((∃ i, Panicked e (s i)) → ∃ m, ∀ i, m ≤ i → ∀ w < e.cpus,
        ((s i).worker w).pc.spins = true ∨ ((s i).worker w).pc = .panicked) := by
  obtain ⟨n, hidle⟩ := idle_from e entries mark lines roots schedule
  exact ends_of_fair hfair (along_inv_all (count_step e) (count_start e roots _ lines)) hidle

/-- two workers in turn -/
def inTurn (k : ℕ) : ℕ × ℕ := (k % 2, 0)

/-- the only root has an unsupported encoding: one worker panics, the other spins for ever -/
theorem fair_trace_ends_hung : ∃ m, ∀ i, m ≤ i → ∀ w < 2,
    ((along (step (twoWorkers 0xC5)) (startPair 0xC5) inTurn i).worker w).pc.spins = true ∨
      ((along (step (twoWorkers 0xC5)) (startPair 0xC5) inTurn i).worker w).pc = .panicked :=
  (fair_trace_ends (twoWorkers 0xC5) (fun _ => 1) 0 (Space.oneBlock.lineTable fun _ => .free) [524288] inTurn
    (fun _ => recurs_inTurn fun _ => rfl)).2 ⟨16, 0, Nat.two_pos, by decide +kernel⟩

/-! ## Heaps that are traced without a panic -/

/-- the worker has processed `o` and not scanned it to the end -/
def Pc.Scans (o : ℕ) : Pc → Prop
  | .markLive x | .markConserv x | .decode x | .edges x _ _ | .push x _ _ _ => x = o
  | _ => False

/-- the pattern and the short-encode bit a worker goes by are those of its object -/
def Pc.Decoded (e : Env) : Pc → Prop
  | .edges x _ short | .push x _ _ short =>
    (refOffsets (refBits (getRefByte e.allocMap e.space.start x))).isSome = true ∧
      short = shortEncode (getRefByte e.allocMap e.space.start x)
  | _ => True

theorem stepAt_decoded (h : (s.worker w).pc.Decoded e) : ((stepAt e s w k).worker w).pc.Decoded e := by
  unfold stepAt
  cases hpc : (s.worker w).pc with
  | pop => cases (s.worker w).deque <;> simp [Pc.Decoded]
  | steal => cases s.injector <;> simp [Pc.Decoded]
  | spin =>
    simp only [goto_worker, Function.update_self]
    split_ifs <;> trivial
  | poll =>
    simp only [goto_worker, Function.update_self]
    split_ifs <;> trivial
  | enter obj =>
    simp only
    split_ifs <;> simp [Pc.Decoded]
  | decode obj =>
    simp only
    split
    · rename_i offs hoffs
      simp [Pc.Decoded, hoffs]
    · simp [Pc.Decoded]
  | edges obj offs short =>
    rw [hpc] at h
    cases offs with
    | nil => cases short <;> simp [Pc.Decoded]
    | cons off offs =>
      simp only
      split_ifs
      · simpa [Pc.Decoded] using h
      · simpa [Pc.Decoded] using h
  | push obj v offs short =>
    rw [hpc] at h
    simpa [Pc.Decoded] using h
  | done =>
    simp only [hpc]
    trivial
  | panicked =>
    simp only [hpc]
    trivial
  | _ => simp [Pc.Decoded]

/-- the scan of `o` goes on, or it ends, or the worker panics -/
theorem stepAt_scans {o : ℕ} (hdec : (s.worker w).pc.Decoded e) (h : (s.worker w).pc.Scans o) :
    ((stepAt e s w k).worker w).pc.Scans o ∨ Supported (getRefByte e.allocMap e.space.start o) ∨
      ((stepAt e s w k).worker w).pc = .panicked := by
  unfold stepAt
  cases hpc : (s.worker w).pc with
  | markLive obj | markConserv obj =>
    rw [hpc] at h
    exact .inl (by simpa [Pc.Scans] using h)
  | decode obj =>
    rw [hpc] at h
    simp only
    split
    · exact .inl (by simpa [Pc.Scans] using h)
    · exact .inr (.inr (by simp))
  | edges obj offs short =>
    rw [hpc] at h hdec
    cases offs with
    | nil =>
      cases h
      cases short with
      | true => exact .inr (.inl ⟨hdec.1, hdec.2.symm⟩)
      | false => exact .inr (.inr (by simp))
    | cons off offs =>
      simp only
      split_ifs
      · exact .inl (by simpa [Pc.Scans] using h)
      · exact .inl (by simpa [Pc.Scans] using h)
  | push obj v offs short =>
    rw [hpc] at h
    exact .inl (by simpa [Pc.Scans] using h)
  | _ => rw [hpc] at h; exact h.elim

/-- an object whose scan the step begins is one it processes -/
theorem stepAt_scans_new {o : ℕ} (h : ((stepAt e s w k).worker w).pc.Scans o) :
    (s.worker w).pc.Scans o ∨ o ∈ (stepAt e s w k).processed := by
  unfold stepAt at h ⊢
  cases hpc : (s.worker w).pc with
  | pop =>
    rw [hpc] at h
    cases hd : (s.worker w).deque <;> simp [hd, Pc.Scans] at h
  | steal =>
    rw [hpc] at h
    cases hi : s.injector <;> simp [hi, Pc.Scans] at h
  | spin =>
    rw [hpc] at h
    simp only [goto_worker, Function.update_self] at h
    split_ifs at h <;> exact h.elim
  | poll =>
    rw [hpc] at h
    simp only [goto_worker, Function.update_self] at h
    split_ifs at h <;> exact h.elim
  | enter obj =>
    rw [hpc] at h
    simp only at h ⊢
    split_ifs at h ⊢
    · right
      have : obj = o := by simpa [Pc.Scans] using h
      simp [this]
    · simp [Pc.Scans] at h
  | decode obj =>
    rw [hpc] at h
    simp only at h
    left
    split at h
    · simpa [Pc.Scans] using h
    · simp [Pc.Scans] at h
  | edges obj offs short =>
    rw [hpc] at h
    left
    cases offs with
    | nil => cases short <;> simp [Pc.Scans] at h
    | cons off offs =>
      simp only at h
      split_ifs at h <;> simpa [Pc.Scans] using h
  | markLive obj | markConserv obj | push obj v offs short =>
    rw [hpc] at h
    left
    simpa [Pc.Scans] using h
  | done | panicked =>
    rw [hpc] at h
    simp only [hpc] at h
    exact h.elim
  | _ =>
    rw [hpc] at h
    simp [Pc.Scans] at h

/-- every processed object is scanned to the end, being scanned, or was held by a worker that panicked -/
structure Scan (e : Env) (s : St) : Prop where
  decoded : ∀ w < e.cpus, (s.worker w).pc.Decoded e
  held : ∀ w < e.cpus, ∀ o, (s.worker w).pc.Scans o → o ∈ s.processed
  scanned : ∀ o ∈ s.processed, Supported (getRefByte e.allocMap e.space.start o) ∨
    (∃ w < e.cpus, (s.worker w).pc.Scans o) ∨ Panicked e s

theorem scan_start (e : Env) (roots : List ℕ) (tm : TraceMap) (lines : LineMarkTable) :
    Scan e (startTrace e roots tm lines) where
  decoded := fun _ _ => trivial
  held := fun _ _ _ h => h.elim
  scanned := by simp [startTrace]

theorem Scan.stepAt (h : Scan e s) (hw : w < e.cpus) : Scan e (stepAt e s w k) := by
  refine ⟨forall_worker (P := fun x => x.pc.Decoded e) h.decoded (stepAt_decoded (h.decoded w hw)), ?_, fun o ho => ?_⟩
  · refine forall_worker (P := fun x => ∀ o, x.pc.Scans o → o ∈ (Trace.stepAt e s w k).processed)
      (fun u hu o ho => stepAt_processed_sub (h.held u hu o ho)) fun o ho => ?_
    rcases stepAt_scans_new ho with ho | ho
    · exact stepAt_processed_sub (h.held w hw o ho)
    · exact ho
  have hold : o ∈ s.processed ∨ ((Trace.stepAt e s w k).worker w).pc = .markLive o := by
    rcases stepAt_tables (e := e) (s := s) (w := w) (k := k) with ⟨hs, -⟩ | ⟨o', -, hpc', -, -, -, -, hp⟩ |
      ⟨o', -, -, -, -, hp⟩ | ⟨o', -, -, -, -, hp⟩
    · rw [hs.processed] at ho
      exact .inl ho
    · rw [hp, List.mem_append, List.mem_singleton] at ho
      rcases ho with ho | rfl
      · exact .inl ho
      · exact .inr hpc'
    · rw [hp] at ho
      exact .inl ho
    · rw [hp] at ho
      exact .inl ho
  rcases hold with hold | hnew
  · rcases h.scanned o hold with hsup | hscan | hpanic
    · exact .inl hsup
    · have hstep := exists_worker (P := fun x => x.pc.Scans o) hw hscan (stepAt_scans (k := k) (h.decoded w hw))
      rcases hstep with hscan | hsup | hpanic
      · exact .inr (.inl hscan)
      · exact .inl hsup
      · exact .inr (.inr ⟨w, hw, hpanic⟩)
    · exact .inr (.inr (hpanic.step hw))
  · exact .inr (.inl ⟨w, hw, by rw [hnew]; rfl⟩)

theorem scan_step (o : ℕ × ℕ) (h : Scan e s) : Scan e (step e s o) := by
  unfold step
  split_ifs with hw
  · exact h.stepAt hw
  · exact h

/-! ## When the trace ends -/

/-- the tracer gets through `o`: it lies in the space and its encoding is supported -/
def Traceable (e : Env) (o : ℕ) : Prop :=
  (e.space.start ≤ o ∧ o < e.space.stop) ∧ Supported (getRefByte e.allocMap e.space.start o)

instance (e : Env) (o : ℕ) : Decidable (Traceable e o) := by
  unfold Traceable
  infer_instance

variable {tm : TraceMap} {lines : LineMarkTable} {roots : List ℕ}

/-- no worker panics on traceable objects -/
theorem not_panics (hall : ∀ o, Reached e tm roots o → Traceable e o) (hsound : Sound e tm roots s) (hscan : Scan e s)
    (hw : w < e.cpus) : ¬ Panics e s w := by
  have hheld : ∀ o, (s.worker w).pc.Scans o → Traceable e o := fun o ho =>
    hall o (hsound.processed o (hscan.held w hw o ho))
  have hdec := hscan.decoded w hw
  unfold Panics
  cases hpc : (s.worker w).pc with
  | enter obj =>
    rw [not_not]
    exact (hall obj (hsound.queued obj (.inr ⟨w, hw, by simp [Worker.items, hpc, Pc.items]⟩))).1
  | decode obj =>
    have hsup := (hheld obj (by rw [hpc]; rfl)).2
    simp only [hsup.refOffsets_eq]
    exact Option.some_ne_none _
  | edges obj offs short =>
    have hsup := (hheld obj (by rw [hpc]; rfl)).2
    rw [hpc] at hdec
    cases offs with
    | nil =>
      simp only [hdec.2, hsup.2]
      exact Bool.true_eq_false.mp
    | cons off offs => exact id
  | _ => exact id

theorem not_panicked_step {o : ℕ × ℕ} (hall : ∀ o, Reached e tm roots o → Traceable e o) (hsound : Sound e tm roots s)
    (hscan : Scan e s) (h : ¬ Panicked e s) : ¬ Panicked e (step e s o) := by
  unfold step
  split_ifs with hw
  · rintro ⟨v, hv, hp⟩
    rcases eq_or_ne v o.1 with rfl | hne
    · have hnot : (s.worker o.1).pc ≠ .panicked := fun hp' => h ⟨_, hw, hp'⟩
      exact not_panics hall hsound hscan hw ((stepAt_panics hnot).1 hp)
    · rw [stepAt_worker_of_ne hne] at hp
      exact h ⟨v, hv, hp⟩
  · exact h

/-- when all workers have returned, every processed object was traceable -/
theorem traceable_of_finished (hinv : Inv e tm lines roots s) (hscan : Scan e s) (hf : Finished e s) :
    ∀ o ∈ s.processed, Traceable e o := by
  intro o ho
  refine ⟨hinv.sound.inSpace o ho, ?_⟩
  rcases hscan.scanned o ho with hsup | ⟨w, hw, hs⟩ | hpanic
  · exact hsup
  · rw [hf w hw] at hs
    exact hs.elim
  · exact absurd hpanic hf.not_panicked

/-- with the reached addresses 8-aligned, a trace that has ended has processed every one of them -/
theorem processed_of_finished (hfit : tm.Fits) (hoff : tm.offset = e.space.start)
    (hinv : Inv e tm lines roots s) (hf : Finished e s) (halign : ∀ o, Reached e tm roots o → 8 ∣ o) (o : ℕ) :
    o ∈ s.processed ↔ Reached e tm roots o := by
  have htraced := traced_of_finished hinv hf
  refine ⟨htraced.reached o, fun ho => Closure.least (S := fun o => o ∈ s.processed) htraced.roots (fun a v ha hav => ?_) ho⟩
  obtain ⟨p, hp, hg⟩ := htraced.edges a ha v hav
  have hreached := htraced.reached a ha
  -- a target lies inside the map, and shares its granule with no other aligned address
  have hlow : e.space.start ≤ v := by
    obtain ⟨off, hoff', rfl, ht⟩ := hav
    rw [← hoff]
    exact ((TraceMap.isUntracedAndValid_iff hfit (slotValue_lt e a off)).1 ht).1.1
  rw [hoff] at hg
  have heq := granule_inj e.space.dvd_start.2.2 (halign p (htraced.reached p hp)) (halign v (hreached.step hav))
    (htraced.inSpace p hp).1 hlow hg
  rwa [← heq]

/-- **Which heaps are traced to the end.** For every heap and roots whose reached addresses are 8-aligned, every number of
workers and every fair schedule: all workers return, and stay so, if and only if every reached object lies in the space
and has a supported encoding; whenever they have all returned, the processed objects are the reached ones. -/
theorem fair_trace_total (e : Env) (entries : ℕ → UInt8) (mark : UInt8) (lines : LineMarkTable) (roots : List ℕ)
    (schedule : ℕ → ℕ × ℕ) (hfair : Fair e schedule)
    (halign : ∀ o, Reached e (e.space.traceMap entries mark) roots o → 8 ∣ o) :
    let tm := e.space.traceMap entries mark
    let s := along (step e) (startTrace e roots tm lines) schedule
    ((∃ m, ∀ i, m ≤ i → Finished e (s i)) ↔ ∀ o, Reached e tm roots o → Traceable e o) ∧
      ∀ i, Finished e (s i) → ∀ o, o ∈ (s i).processed ↔ Reached e tm roots o := by
  intro tm s
  have hfit := e.space.traceMap_fits entries mark
  have hinv : ∀ i, Inv e tm lines roots (s i) := along_inv_all (fun _ o => inv_step hfit o) (inv_start e tm lines roots)
  have hscan : ∀ i, Scan e (s i) := along_inv_all (fun _ o => scan_step o) (scan_start e roots tm lines)
  have hprocessed : ∀ i, Finished e (s i) → ∀ o, o ∈ (s i).processed ↔ Reached e tm roots o := fun i hf =>
    processed_of_finished hfit rfl (hinv i) hf halign
  refine ⟨⟨?_, fun hall => ?_⟩, hprocessed⟩
  · rintro ⟨m, hm⟩ o ho
    have hf := hm m le_rfl
    exact traceable_of_finished (hinv m) (hscan m) hf o ((hprocessed m hf o).2 ho)
  · obtain ⟨n, hidle⟩ := idle_from e entries mark lines roots schedule
    apply (ends_of_fair hfair (fun i => (hinv i).count) hidle).1
    rintro ⟨i, hpanic⟩
    have hnone : ∀ i, ¬ Panicked e (s i) := by
      intro i
      induction i with
      | zero =>
        rintro ⟨w, -, hp⟩
        cases hp
      | succ i ih =>
        dsimp only [s]
        rw [along_succ]
        exact not_panicked_step hall (hinv i).sound (hscan i) ih
    exact hnone i hpanic

/-- the chain of two objects is traced to the end -/
theorem fair_trace_total_chain : ∃ m, ∀ i, m ≤ i → Finished chain
    (along (step chain) (startTrace chain [524288] (Space.oneBlock.traceMap (fun _ => 1) 0)
      (Space.oneBlock.lineTable fun _ => .free)) inTurn i) := by
  have hreached : ∀ o, Reached chain (Space.oneBlock.traceMap (fun _ => 1) 0) [524288] o → o = 524288 ∨ o = 524544 := by
    intro o ho
    refine Closure.least (S := fun o => o = 524288 ∨ o = 524544) (fun r hr => .inl (List.mem_singleton.1 hr))
      (fun a v ha hav => ?_) ho
    obtain ⟨off, hoff, rfl, ht⟩ := hav
    have hslots : objSlots chain a = [0] := by
      have h : slots 0xC1 = [0] := by decide
      exact h
    obtain rfl : off = 0 := List.mem_singleton.1 (hslots ▸ hoff)
    rcases ha with rfl | rfl
    · exact .inr (by decide +kernel)
    · exact absurd ht (by decide +kernel)
  refine (fair_trace_total chain (fun _ => 1) 0 (Space.oneBlock.lineTable fun _ => .free) [524288] inTurn
    (fun _ => recurs_inTurn fun _ => rfl) fun o ho => ?_).1.2 fun o ho => ?_
  · rcases hreached o ho with rfl | rfl <;> decide
  · rcases hreached o ho with rfl | rfl <;> decide +kernel

end Immix.Trace
