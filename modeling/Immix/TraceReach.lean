/-
What the parallel trace computes, for every graph, every start of its tables and every schedule.

`Edge` leads from an object to the values of its slots that the trace map says are untraced; `Reached` is the least set
that contains the roots and is closed under it.
- `Marks`: the trace map holds the mark state at the granules of the processed objects and is untouched elsewhere.
- `Lines`: the lines of processed objects are marked, or a worker is about to mark them; no other line changes.
- `Sound`: every object queued, owned, held or processed is reached.
- `Complete`: every root, and every target of a processed object, is marked, queued, owned or still to be tested.
- `traced_of_finished`: what these four say when every worker has returned.
- `parallel_trace_reachable`: the processed objects are the reached ones, whatever the schedule.
-/
import Immix.Trace
import Immix.Lib.Closure

namespace Immix.Trace

open Immix.Lib

/-- the offsets of the slots of `obj` -/
def objSlots (e : Env) (obj : ℕ) : List ℕ := slots (getRefByte e.allocMap e.space.start obj)

/-- `v` is the value of a slot of `o`, and untraced in `tm` -/
def Edge (e : Env) (tm : TraceMap) (o v : ℕ) : Prop :=
  ∃ off ∈ objSlots e o, v = slotValue e o off ∧ tm.isUntracedAndValid v = true

/-- the objects reached from the roots -/
def Reached (e : Env) (tm : TraceMap) (roots : List ℕ) : ℕ → Prop := Closure (Edge e tm) (· ∈ roots)

/-! ## What one step does -/

/-- the object a program point is about to mark or push -/
def Pc.items : Pc → List ℕ
  | .enter v => [v]
  | .push _ v _ _ => [v]
  | _ => []

/-- what a worker owns or is about to process or push -/
def Worker.items (x : Worker) : List ℕ := x.deque ++ x.pc.items

/-- the slot of `o` at offset `off` is still to be tested from this program point -/
def Pc.Unscanned (e : Env) (o off : ℕ) : Pc → Prop
  | .markLive o' | .markConserv o' | .decode o' => o = o' ∧ off ∈ objSlots e o
  | .edges o' offs _ | .push o' _ offs _ => o = o' ∧ off ∈ offs
  | _ => False

/-- line `j` of `o` is still to be marked from this program point -/
def Pc.Unmarked (lines : LineMarkTable) (o j : ℕ) : Pc → Prop
  | .markLive o' => o = o'
  | .markConserv o' => o = o' ∧ j = lines.lineOf o + 1
  | _ => False

variable {e : Env} {s : St} {w k : ℕ}

theorem stepAt_worker_of_ne {u : ℕ} (hu : u ≠ w) : (stepAt e s w k).worker u = s.worker u := by
  unfold stepAt
  cases (s.worker w).pc with
  | pop => cases (s.worker w).deque <;> simp [hu]
  | steal => cases s.injector <;> simp [hu]
  | enter obj => simp only; split_ifs <;> simp [hu]
  | decode obj => simp only; split <;> simp [hu]
  | edges obj offs short =>
    cases offs with
    | cons off offs => simp only; split_ifs <;> simp [hu]
    | nil => simp [hu]
  | done => rfl
  | panicked => rfl
  | _ => simp [hu]

/-- a program point that is not about to write a table -/
def Pc.marks : Pc → Bool
  | .markLive _ | .markConserv _ => true
  | _ => false

/-- the tables are written at three program points -/
theorem stepAt_tables :
    (SameMarks s (stepAt e s w k) ∧ (s.worker w).pc.marks = false ∧ ((stepAt e s w k).worker w).pc.marks = false) ∨
    (∃ o, (s.worker w).pc = .enter o ∧ ((stepAt e s w k).worker w).pc = .markLive o ∧
      e.space.start ≤ o ∧ o < e.space.stop ∧
      (stepAt e s w k).traceMap = s.traceMap.markAsTraced o ∧ (stepAt e s w k).lines = s.lines ∧
      (stepAt e s w k).processed = s.processed ++ [o]) ∨
    (∃ o, (s.worker w).pc = .markLive o ∧ ((stepAt e s w k).worker w).pc = .markConserv o ∧
      (stepAt e s w k).traceMap = s.traceMap ∧ (stepAt e s w k).lines = s.lines.markLive o ∧
      (stepAt e s w k).processed = s.processed) ∨
    (∃ o, (s.worker w).pc = .markConserv o ∧ ((stepAt e s w k).worker w).pc = .decode o ∧
      (stepAt e s w k).traceMap = s.traceMap ∧ (stepAt e s w k).lines = s.lines.markConserv o ∧
      (stepAt e s w k).processed = s.processed) := by
  unfold stepAt
  cases hpc : (s.worker w).pc with
  | pop => left; cases hd : (s.worker w).deque <;> exact ⟨⟨rfl, rfl, rfl⟩, rfl, by simp [Pc.marks]⟩
  | steal => left; cases hd : s.injector <;> exact ⟨⟨rfl, rfl, rfl⟩, rfl, by simp [Pc.marks]⟩
  | idle => exact .inl ⟨⟨rfl, rfl, rfl⟩, rfl, by simp [Pc.marks]⟩
  | spin => exact .inl ⟨⟨rfl, rfl, rfl⟩, rfl, by simp only [goto_worker, Function.update_self]; split_ifs <;> rfl⟩
  | poll => exact .inl ⟨⟨rfl, rfl, rfl⟩, rfl, by simp only [goto_worker, Function.update_self]; split_ifs <;> rfl⟩
  | wake => exact .inl ⟨⟨rfl, rfl, rfl⟩, rfl, by simp [Pc.marks]⟩
  | enter obj =>
    simp only
    split_ifs with h
    · exact .inr (.inl ⟨obj, rfl, by simp, h.1, h.2, rfl, rfl, rfl⟩)
    · exact .inl ⟨⟨rfl, rfl, rfl⟩, rfl, by simp [Pc.marks]⟩
  | markLive obj => exact .inr (.inr (.inl ⟨obj, rfl, by simp, rfl, rfl, rfl⟩))
  | markConserv obj => exact .inr (.inr (.inr ⟨obj, rfl, by simp, rfl, rfl, rfl⟩))
  | decode obj => left; simp only; split <;> exact ⟨⟨rfl, rfl, rfl⟩, rfl, by simp [Pc.marks]⟩
  | edges obj offs short =>
    left
    cases offs with
    | cons off offs => simp only; split_ifs <;> exact ⟨⟨rfl, rfl, rfl⟩, rfl, by simp [Pc.marks]⟩
    | nil => exact ⟨⟨rfl, rfl, rfl⟩, rfl, by simp only [goto_worker, Function.update_self]; split_ifs <;> rfl⟩
  | push obj v offs short => exact .inl ⟨⟨rfl, rfl, rfl⟩, rfl, by simp [Pc.marks]⟩
  | done => exact .inl ⟨⟨rfl, rfl, rfl⟩, rfl, by simp [hpc, Pc.marks]⟩
  | panicked => exact .inl ⟨⟨rfl, rfl, rfl⟩, rfl, by simp [hpc, Pc.marks]⟩

/-- an item is never lost: it stays queued or owned, or is processed, or the worker panics -/
theorem stepAt_items {v : ℕ} (hv : v ∈ s.injector ∨ v ∈ (s.worker w).items) :
    v ∈ (stepAt e s w k).injector ∨ v ∈ ((stepAt e s w k).worker w).items ∨ v ∈ (stepAt e s w k).processed ∨
      ((stepAt e s w k).worker w).pc = .panicked := by
  -- a move that touches neither the injector nor the deque and drops no item
  have keep : ∀ (t : St) (pc : Pc), (s.worker w).pc.items = [] → t.injector = s.injector →
      t.worker w = ⟨(s.worker w).deque, pc⟩ →
      v ∈ t.injector ∨ v ∈ (t.worker w).items ∨ v ∈ t.processed ∨ (t.worker w).pc = .panicked := by
    intro t pc hnil hinj hworker
    rw [hinj, hworker]
    simp only [Worker.items, hnil, List.append_nil, List.mem_append] at hv ⊢
    tauto
  unfold stepAt
  cases hpc : (s.worker w).pc with
  | pop =>
    cases hd : (s.worker w).deque with
    | nil => exact keep _ .steal (by rw [hpc]; rfl) rfl (by simp)
    | cons x rest =>
      simp only [Worker.items, hpc, hd, Pc.items, List.append_nil, List.mem_cons] at hv
      simp only [Function.update_self, Worker.items, Pc.items, List.mem_append, List.mem_singleton]
      tauto
  | steal =>
    cases hinj : s.injector with
    | nil => exact keep _ .idle (by rw [hpc]; rfl) rfl (by simp)
    | cons x rest =>
      simp only [Worker.items, hpc, hinj, List.mem_cons, Pc.items, List.append_nil] at hv
      have hsplit : v ∈ rest → v ∈ rest.take k ∨ v ∈ rest.drop k := fun h => by
        rwa [← List.mem_append, List.take_append_drop]
      simp only [Function.update_self, Worker.items, Pc.items, List.mem_append, List.mem_singleton]
      tauto
  | idle => exact keep _ .spin (by rw [hpc]; rfl) rfl (by simp)
  | spin => exact keep _ _ (by rw [hpc]; rfl) rfl (by rw [goto_worker, Function.update_self])
  | poll => exact keep _ _ (by rw [hpc]; rfl) rfl (by rw [goto_worker, Function.update_self])
  | wake => exact keep _ .steal (by rw [hpc]; rfl) rfl (by simp)
  | enter obj =>
    simp only [Worker.items, hpc, Pc.items, List.mem_append, List.mem_singleton] at hv
    simp only
    split_ifs
    · simp only [goto_injector, goto_worker, Function.update_self, Worker.items, Pc.items, List.append_nil,
        List.mem_append, List.mem_singleton]
      tauto
    · simp
  | markLive obj => exact keep _ (.markConserv obj) (by rw [hpc]; rfl) rfl (by simp)
  | markConserv obj => exact keep _ (.decode obj) (by rw [hpc]; rfl) rfl (by simp)
  | decode obj =>
    simp only
    split
    · exact keep _ _ (by rw [hpc]; rfl) rfl (by rw [goto_worker, Function.update_self])
    · simp
  | edges obj offs short =>
    cases offs with
    | cons off offs =>
      simp only
      split_ifs
      · simp only [Worker.items, hpc, Pc.items, List.append_nil] at hv
        simp only [goto_injector, goto_worker, Function.update_self, Worker.items, List.mem_append]
        tauto
      · exact keep _ (.edges obj offs short) (by rw [hpc]; rfl) rfl (by simp)
    | nil => exact keep _ _ (by rw [hpc]; rfl) rfl (by rw [goto_worker, Function.update_self])
  | push obj x offs short =>
    simp only [Worker.items, hpc, Pc.items, List.mem_append, List.mem_singleton] at hv
    simp only [goto_worker, Function.update_self, Worker.items, Pc.items, List.append_nil, List.mem_append,
      List.mem_singleton]
    tauto
  | done => exact keep s .done (by rw [hpc]; rfl) rfl (by rw [← hpc])
  | panicked => exact .inr (.inr (.inr hpc))

/-- a slot still to be tested stays so, or its value is pushed, or is found to be traced, or the worker panics -/
theorem stepAt_unscanned {o off : ℕ} (h : (s.worker w).pc.Unscanned e o off) :
    ((stepAt e s w k).worker w).pc.Unscanned e o off ∨ slotValue e o off ∈ ((stepAt e s w k).worker w).items ∨
      s.traceMap.isUntracedAndValid (slotValue e o off) = false ∨ ((stepAt e s w k).worker w).pc = .panicked := by
  unfold stepAt
  cases hpc : (s.worker w).pc with
  | markLive obj => rw [hpc] at h; left; simpa [Pc.Unscanned] using h
  | markConserv obj => rw [hpc] at h; left; simpa [Pc.Unscanned] using h
  | decode obj =>
    rw [hpc] at h
    obtain ⟨rfl, hoff⟩ := h
    simp only
    split
    · rename_i offs hoffs
      refine .inl ?_
      rw [objSlots, slots, hoffs] at hoff
      simpa [Pc.Unscanned] using hoff
    · simp
  | edges obj offs short =>
    rw [hpc] at h
    cases offs with
    | cons a offs =>
      obtain ⟨rfl, hoff⟩ := h
      simp only
      split_ifs with ht
      · rcases List.mem_cons.1 hoff with rfl | hoff
        · right; left; simp [Worker.items, Pc.items]
        · left; simpa [Pc.Unscanned] using hoff
      · rcases List.mem_cons.1 hoff with rfl | hoff
        · right; right; left; simpa using ht
        · left; simpa [Pc.Unscanned] using hoff
    | nil => exact absurd h.2 List.not_mem_nil
  | push obj v offs short => rw [hpc] at h; left; simpa [Pc.Unscanned] using h
  | _ => rw [hpc] at h; exact h.elim

theorem stepAt_panicked (h : (s.worker w).pc = .panicked) : ((stepAt e s w k).worker w).pc = .panicked := by
  unfold stepAt; rw [h]; exact h

/-- an item that was not there before is the value of a slot just found to be untraced -/
theorem stepAt_items_new {v : ℕ} (hv : v ∈ (stepAt e s w k).injector ∨ v ∈ ((stepAt e s w k).worker w).items) :
    v ∈ s.injector ∨ v ∈ (s.worker w).items ∨
      ∃ o off, (s.worker w).pc.Unscanned e o off ∧ v = slotValue e o off ∧ s.traceMap.isUntracedAndValid v = true := by
  -- a move that touches neither the injector nor the deque and brings no item
  have keep : ∀ {t : St} (pc : Pc), v ∈ t.injector ∨ v ∈ (t.worker w).items → pc.items = [] →
      t.injector = s.injector → t.worker w = ⟨(s.worker w).deque, pc⟩ → v ∈ s.injector ∨ v ∈ (s.worker w).items ∨
        ∃ o off, (s.worker w).pc.Unscanned e o off ∧ v = slotValue e o off ∧ s.traceMap.isUntracedAndValid v = true := by
    intro t pc h hnil hinj hworker
    rw [hinj, hworker] at h
    rw [← or_assoc]
    refine .inl ?_
    simp only [Worker.items, hnil, List.append_nil, List.mem_append] at h ⊢
    tauto
  unfold stepAt at hv
  obtain ⟨pc, hpc⟩ : ∃ pc, (s.worker w).pc = pc := ⟨_, rfl⟩
  rw [hpc] at hv
  cases pc with
  | pop =>
    cases hd : (s.worker w).deque with
    | nil =>
      simp only [hd] at hv
      exact keep .steal hv rfl rfl (by simp)
    | cons x rest =>
      simp only [hd, Function.update_self, Worker.items, Pc.items, List.mem_append, List.mem_singleton] at hv
      simp only [Worker.items, hpc, hd, Pc.items, List.append_nil, List.mem_cons]
      tauto
  | steal =>
    cases hinj : s.injector with
    | nil =>
      simp only [hinj] at hv
      rw [← hinj]
      exact keep .idle hv rfl rfl (by simp)
    | cons x rest =>
      simp only [hinj, Function.update_self, Worker.items, Pc.items, List.mem_append, List.mem_singleton] at hv
      simp only [Worker.items, hpc, List.mem_cons, Pc.items, List.append_nil]
      have htake : v ∈ rest.take k → v ∈ rest := List.mem_of_mem_take
      have hdrop : v ∈ rest.drop k → v ∈ rest := List.mem_of_mem_drop
      tauto
  | idle => exact keep .spin hv rfl rfl (by simp)
  | spin =>
    exact keep (if s.injector = [] then .poll else .wake) hv (by split_ifs <;> rfl) rfl (by simp)
  | poll =>
    exact keep (if s.active = 0 then .done else .spin) hv (by split_ifs <;> rfl) rfl (by simp)
  | wake => exact keep .steal hv rfl rfl (by simp)
  | enter obj =>
    simp only at hv
    split_ifs at hv
    · exact keep (.markLive obj) hv rfl rfl (by simp)
    · exact keep .panicked hv rfl rfl (by simp)
  | markLive obj => exact keep (.markConserv obj) hv rfl rfl (by simp)
  | markConserv obj => exact keep (.decode obj) hv rfl rfl (by simp)
  | decode obj =>
    simp only at hv
    split at hv
    · exact keep _ hv rfl rfl (by rw [goto_worker, Function.update_self])
    · exact keep .panicked hv rfl rfl (by simp)
  | edges obj offs short =>
    cases offs with
    | cons off offs =>
      simp only at hv
      split_ifs at hv with ht
      · simp only [goto_injector, goto_worker, Function.update_self, Worker.items, Pc.items, List.mem_append,
          List.mem_singleton] at hv
        rcases hv with hv | hv | rfl
        · exact .inl hv
        · exact .inr (.inl (by simp [Worker.items, hv]))
        · exact .inr (.inr ⟨obj, off, by rw [hpc]; exact ⟨rfl, List.mem_cons_self⟩, rfl, ht⟩)
      · exact keep (.edges obj offs short) hv rfl rfl (by simp)
    | nil => exact keep (if short then .pop else .panicked) hv (by split_ifs <;> rfl) rfl (by simp)
  | push obj x offs short =>
    simp only [goto_worker, Function.update_self, Worker.items, Pc.items, List.append_nil, List.mem_append,
      List.mem_singleton] at hv
    simp only [Worker.items, hpc, Pc.items, List.mem_append, List.mem_singleton]
    tauto
  | done => exact or_assoc.1 (.inl hv)
  | panicked => exact or_assoc.1 (.inl hv)

/-- a worker has slots to test in an object it has just processed, or had them before -/
theorem stepAt_unscanned_new {o off : ℕ} (h : ((stepAt e s w k).worker w).pc.Unscanned e o off) :
    (s.worker w).pc.Unscanned e o off ∨ o ∈ (stepAt e s w k).processed ∧ off ∈ objSlots e o := by
  unfold stepAt at h ⊢
  cases hpc : (s.worker w).pc with
  | pop => rw [hpc] at h; cases hd : (s.worker w).deque <;> simp [hd, Pc.Unscanned] at h
  | steal => rw [hpc] at h; cases hi : s.injector <;> simp [hi, Pc.Unscanned] at h
  | spin => rw [hpc] at h; simp only at h; split_ifs at h <;> simp [Pc.Unscanned] at h
  | poll => rw [hpc] at h; simp only at h; split_ifs at h <;> simp [Pc.Unscanned] at h
  | enter obj =>
    rw [hpc] at h
    simp only at h ⊢
    split_ifs at h ⊢
    · simp only [goto_worker, Function.update_self, Pc.Unscanned] at h
      exact .inr ⟨by simp [h.1], h.2⟩
    · simp [Pc.Unscanned] at h
  | markLive obj => rw [hpc] at h; left; simpa [Pc.Unscanned] using h
  | markConserv obj => rw [hpc] at h; left; simpa [Pc.Unscanned] using h
  | decode obj =>
    rw [hpc] at h
    simp only at h
    split at h
    · rename_i offs hoffs
      left
      simp only [goto_worker, Function.update_self, Pc.Unscanned] at h ⊢
      refine ⟨h.1, ?_⟩
      rw [objSlots, slots, h.1, hoffs]
      exact h.2
    · simp [Pc.Unscanned] at h
  | edges obj offs short =>
    rw [hpc] at h
    cases offs with
    | cons a offs =>
      simp only at h
      split_ifs at h <;> simp only [goto_worker, Function.update_self, Pc.Unscanned] at h <;>
        exact .inl ⟨h.1, List.mem_cons_of_mem a h.2⟩
    | nil => simp only at h; split_ifs at h <;> simp [Pc.Unscanned] at h
  | push obj x offs short => rw [hpc] at h; left; simpa [Pc.Unscanned] using h
  | done => rw [hpc] at h; simp [hpc, Pc.Unscanned] at h
  | panicked => rw [hpc] at h; simp [hpc, Pc.Unscanned] at h
  | _ => rw [hpc] at h; simp [Pc.Unscanned] at h

/-- what some worker has, it still has after a step of `w`, or `w` had it and it turned into `Q` -/
theorem exists_worker {P : Worker → Prop} {Q : Prop} (hw : w < e.cpus) (h : ∃ u < e.cpus, P (s.worker u))
    (hstep : P (s.worker w) → P ((stepAt e s w k).worker w) ∨ Q) :
    (∃ u < e.cpus, P ((stepAt e s w k).worker u)) ∨ Q := by
  obtain ⟨u, hu, hp⟩ := h
  by_cases huw : u = w
  · subst huw
    rcases hstep hp with h | h
    · exact .inl ⟨u, hu, h⟩
    · exact .inr h
  · exact .inl ⟨u, hu, by rwa [stepAt_worker_of_ne huw]⟩

/-- what holds of every worker still does after a step of `w`, if it holds of `w` -/
theorem forall_worker {P : Worker → Prop} (h : ∀ u < e.cpus, P (s.worker u)) (hstep : P ((stepAt e s w k).worker w)) :
    ∀ u < e.cpus, P ((stepAt e s w k).worker u) := by
  intro u hu
  by_cases huw : u = w
  · subst huw; exact hstep
  · rw [stepAt_worker_of_ne huw]; exact h u hu

/-! ## The tables -/

theorem slotValue_lt (e : Env) (o off : ℕ) : slotValue e o off < usize := by
  unfold slotValue usize
  exact UInt64.toNat_lt _

section Tables

variable (tm : TraceMap) (lines : LineMarkTable)

/-- the trace map, from `tm` on -/
structure Marks (s : St) : Prop where
  table : s.traceMap = { tm with entries := s.traceMap.entries }
  entries : ∀ g, s.traceMap.entries g =
    if ∃ o ∈ s.processed, granule tm.offset o = g then tm.markState else tm.entries g

variable {tm lines}

/-- a word is untraced now when it was at the start and no object of its granule has been processed -/
theorem Marks.untraced_iff (h : Marks tm s) (hfit : tm.Fits) {v : ℕ} (hv : v < usize) :
    s.traceMap.isUntracedAndValid v = true ↔
      tm.isUntracedAndValid v = true ∧ ¬ ∃ p ∈ s.processed, granule tm.offset p = granule tm.offset v := by
  have hfit' : s.traceMap.Fits := by rw [h.table]; exact hfit
  rw [TraceMap.isUntracedAndValid_iff hfit' hv, TraceMap.isUntracedAndValid_iff hfit hv]
  have hoff : s.traceMap.offset = tm.offset := by rw [h.table]
  have hmark : s.traceMap.markState = tm.markState := by rw [h.table]
  have hrange : s.traceMap.InRange v ↔ tm.InRange v := by rw [h.table]; rfl
  rw [hoff, hmark, hrange, h.entries]
  split_ifs with hp <;> simp [hp]

theorem Marks.step (h : Marks tm s) : Marks tm (stepAt e s w k) := by
  rcases stepAt_tables (e := e) (s := s) (w := w) (k := k) with ⟨hs, -⟩ | ⟨o, -, -, -, -, htm, -, hp⟩ |
    ⟨o, -, -, htm, -, hp⟩ | ⟨o, -, -, htm, -, hp⟩
  · exact ⟨by rw [hs.traceMap]; exact h.table, by rw [hs.traceMap, hs.processed]; exact h.entries⟩
  · have hoff : s.traceMap.offset = tm.offset := by rw [h.table]
    have hmark : s.traceMap.markState = tm.markState := by rw [h.table]
    refine ⟨?_, fun g => ?_⟩
    · rw [htm, TraceMap.markAsTraced, h.table]
    · rw [htm, hp, TraceMap.markAsTraced_entries, h.entries, hoff, hmark]
      simp only [List.mem_append, List.mem_singleton, or_and_right, exists_or, exists_eq_left]
      by_cases hg : g = granule tm.offset o
      · simp [hg]
      · simp [hg, Ne.symm hg]
  · exact ⟨by rw [htm]; exact h.table, by rw [htm, hp]; exact h.entries⟩
  · exact ⟨by rw [htm]; exact h.table, by rw [htm, hp]; exact h.entries⟩

variable (e lines) in
/-- the line table, from `lines` on -/
structure Lines (s : St) : Prop where
  len : s.lines.len = lines.len
  spaceStart : s.lines.spaceStart = lines.spaceStart
  unchanged : ∀ j, (∀ o ∈ s.processed, ¬ lines.Covers o j) → s.lines.get j = lines.get j
  covered : ∀ o ∈ s.processed, ∀ j, lines.Covers o j →
    (s.lines.get j).isLive ∨ ∃ w < e.cpus, (s.worker w).pc.Unmarked lines o j
  marking : ∀ w < e.cpus, ∀ o, (s.worker w).pc = .markLive o ∨ (s.worker w).pc = .markConserv o → o ∈ s.processed

theorem lineOf_congr {t u : LineMarkTable} (h : t.spaceStart = u.spaceStart) (a : ℕ) : t.lineOf a = u.lineOf a := by
  unfold LineMarkTable.lineOf; rw [h]

/-- a step that writes the entry of line `i`, one of the two lines of the processed object `o` -/
theorem Lines.mark (h : Lines e lines s) (hw : w < e.cpus) {o i : ℕ} {m : LineMark} (hm : m.isLive) (ho : o ∈ s.processed)
    (hi : i = lines.lineOf o ∨ i = lines.lineOf o + 1) (hlen : (stepAt e s w k).lines.len = s.lines.len)
    (hstart : (stepAt e s w k).lines.spaceStart = s.lines.spaceStart)
    (hget : ∀ j, (stepAt e s w k).lines.get j = if j = i ∧ j < lines.len then m else s.lines.get j)
    (hp : (stepAt e s w k).processed = s.processed)
    (hleft : ∀ o' j, lines.Covers o' j → j ≠ i → (s.worker w).pc.Unmarked lines o' j →
      ((stepAt e s w k).worker w).pc.Unmarked lines o' j)
    (hmarking : ∀ o', ((stepAt e s w k).worker w).pc = .markLive o' ∨ ((stepAt e s w k).worker w).pc = .markConserv o' →
      o' ∈ s.processed) : Lines e lines (stepAt e s w k) := by
  refine ⟨hlen.trans h.len, hstart.trans h.spaceStart, ?_, ?_, ?_⟩
  · rw [hp]
    intro j hj
    have hno : ¬ (j = i ∧ j < lines.len) := fun hji => hj o ho ⟨hji.2, hji.1.symm ▸ hi⟩
    rw [hget, if_neg hno, h.unchanged j hj]
  · rw [hp]
    intro o' ho' j hj
    rw [hget]
    split_ifs with hif
    · exact .inl hm
    · have hji : j ≠ i := fun hji => hif ⟨hji, hj.1⟩
      rcases h.covered o' ho' j hj with hlive | hun
      · exact .inl hlive
      · exact (exists_worker (P := fun x => x.pc.Unmarked lines o' j) hw hun
          fun hu => .inl (hleft o' j hj hji hu)).symm
  · rw [hp]
    exact forall_worker (P := fun x => ∀ o', x.pc = .markLive o' ∨ x.pc = .markConserv o' → o' ∈ s.processed)
      h.marking hmarking

theorem Lines.step (h : Lines e lines s) (hw : w < e.cpus) : Lines e lines (stepAt e s w k) := by
  rcases stepAt_tables (e := e) (s := s) (w := w) (k := k) with ⟨hs, hm, hm'⟩ | ⟨o, hpc, hpc', -, -, -, hl, hp⟩ |
    ⟨o, hpc, hpc', -, hl, hp⟩ | ⟨o, hpc, hpc', -, hl, hp⟩
  · refine ⟨by rw [hs.lines]; exact h.len, by rw [hs.lines]; exact h.spaceStart,
      by rw [hs.lines, hs.processed]; exact h.unchanged, ?_, ?_⟩
    · rw [hs.lines, hs.processed]
      intro o ho j hj
      rcases h.covered o ho j hj with hlive | hun
      · exact .inl hlive
      · refine (exists_worker (P := fun x => x.pc.Unmarked lines o j) hw hun fun hu => ?_).symm
        cases hpc : (s.worker w).pc <;> simp_all [Pc.Unmarked, Pc.marks]
    · rw [hs.processed]
      refine forall_worker (P := fun x => ∀ o, x.pc = .markLive o ∨ x.pc = .markConserv o → o ∈ s.processed)
        h.marking fun o ho => ?_
      rcases ho with ho | ho <;> rw [ho] at hm' <;> cases hm'
  · -- `o` has just been processed: both its lines are still to be marked by `w`
    refine ⟨by rw [hl]; exact h.len, by rw [hl]; exact h.spaceStart, ?_, ?_, ?_⟩
    · rw [hl, hp]
      exact fun j hj => h.unchanged j fun o' ho' => hj o' (List.mem_append_left _ ho')
    · rw [hl, hp]
      intro o' ho' j hj
      rcases List.mem_append.1 ho' with ho' | ho'
      · rcases h.covered o' ho' j hj with hlive | hun
        · exact .inl hlive
        · refine (exists_worker (P := fun x => x.pc.Unmarked lines o' j) hw hun fun hu => ?_).symm
          rw [hpc] at hu; exact hu.elim
      · refine .inr ⟨w, hw, ?_⟩
        rw [hpc']
        exact List.mem_singleton.1 ho'
    · rw [hp]
      refine forall_worker (P := fun x => ∀ o', x.pc = .markLive o' ∨ x.pc = .markConserv o' → o' ∈ s.processed ++ [o])
        (fun u hu o' ho' => List.mem_append_left _ (h.marking u hu o' ho')) fun o' ho' => ?_
      rw [hpc'] at ho'
      rcases ho' with ho' | ho' <;> cases ho'
      simp
  · refine h.mark hw isLive_live (h.marking w hw o (.inl hpc)) (.inl rfl) (by rw [hl]; simp) (by rw [hl]; simp)
      (fun j => ?_) hp (fun o' j hj hji hu => ?_) fun o' ho' => ?_
    · rw [hl, LineMarkTable.get_markLive, lineOf_congr h.spaceStart, h.len]
    · -- the next line is still to be marked
      rw [hpc] at hu
      rw [hpc']
      cases hu
      exact ⟨rfl, hj.2.resolve_left hji⟩
    · rw [hpc'] at ho'
      rcases ho' with ho' | ho' <;> cases ho'
      exact h.marking w hw o (.inl hpc)
  · refine h.mark hw isLive_conservLive (h.marking w hw o (.inr hpc)) (.inr rfl) (by rw [hl]; simp)
      (by rw [hl]; simp) (fun j => ?_) hp (fun o' j hj hji hu => ?_) fun o' ho' => ?_
    · rw [hl, LineMarkTable.get_markConserv, lineOf_congr h.spaceStart, h.len]
    · rw [hpc] at hu
      obtain ⟨rfl, rfl⟩ := hu
      exact absurd rfl hji
    · rw [hpc'] at ho'
      rcases ho' with ho' | ho' <;> cases ho'

end Tables

/-! ## The objects -/

/-- queued in the injector, or owned by a worker -/
def Queued (e : Env) (s : St) (v : ℕ) : Prop := v ∈ s.injector ∨ ∃ w < e.cpus, v ∈ (s.worker w).items

def Panicked (e : Env) (s : St) : Prop := ∃ w < e.cpus, (s.worker w).pc = .panicked

/-- nothing the trace has touched is unreached -/
structure Sound (e : Env) (tm : TraceMap) (roots : List ℕ) (s : St) : Prop where
  queued : ∀ v, Queued e s v → Reached e tm roots v
  processed : ∀ o ∈ s.processed, Reached e tm roots o
  inSpace : ∀ o ∈ s.processed, e.space.start ≤ o ∧ o < e.space.stop
  scanning : ∀ w < e.cpus, ∀ o off, (s.worker w).pc.Unscanned e o off → o ∈ s.processed ∧ off ∈ objSlots e o

/-- nothing reached is forgotten -/
structure Complete (e : Env) (tm : TraceMap) (roots : List ℕ) (s : St) : Prop where
  roots : ∀ r ∈ roots, Queued e s r ∨ r ∈ s.processed ∨ Panicked e s
  edges : ∀ o ∈ s.processed, ∀ off ∈ objSlots e o, tm.isUntracedAndValid (slotValue e o off) = true →
    (∃ p ∈ s.processed, granule tm.offset p = granule tm.offset (slotValue e o off)) ∨
      Queued e s (slotValue e o off) ∨ Panicked e s ∨ ∃ w < e.cpus, (s.worker w).pc.Unscanned e o off

variable {tm : TraceMap} {lines : LineMarkTable} {roots : List ℕ}

theorem stepAt_processed_sub {o : ℕ} (h : o ∈ s.processed) : o ∈ (stepAt e s w k).processed := by
  rcases stepAt_tables (e := e) (s := s) (w := w) (k := k) with ⟨hs, -⟩ | ⟨o', -, -, -, -, -, -, hp⟩ |
    ⟨o', -, -, -, -, hp⟩ | ⟨o', -, -, -, -, hp⟩
  · rw [hs.processed]; exact h
  all_goals rw [hp]; simp [h]

theorem Panicked.step (hw : w < e.cpus) (h : Panicked e s) : Panicked e (stepAt e s w k) :=
  (exists_worker (P := fun x => x.pc = .panicked) (Q := False) hw h fun hp => .inl (stepAt_panicked hp)).resolve_right id

theorem Queued.step (hw : w < e.cpus) {v : ℕ} (h : Queued e s v) :
    Queued e (stepAt e s w k) v ∨ v ∈ (stepAt e s w k).processed ∨ Panicked e (stepAt e s w k) := by
  -- only the injector and `w`'s own items can change
  have own (h : v ∈ s.injector ∨ v ∈ (s.worker w).items) :
      Queued e (stepAt e s w k) v ∨ v ∈ (stepAt e s w k).processed ∨ Panicked e (stepAt e s w k) := by
    rcases stepAt_items (e := e) (k := k) h with h | h | h | h
    · exact .inl (.inl h)
    · exact .inl (.inr ⟨w, hw, h⟩)
    · exact .inr (.inl h)
    · exact .inr (.inr ⟨w, hw, h⟩)
  rcases h with h | ⟨u, hu, h⟩
  · exact own (.inl h)
  · by_cases huw : u = w
    · subst huw; exact own (.inr h)
    · exact .inl (.inr ⟨u, hu, by rwa [stepAt_worker_of_ne huw]⟩)

theorem Sound.step (hm : Marks tm s) (hfit : tm.Fits) (h : Sound e tm roots s) (hw : w < e.cpus) :
    Sound e tm roots (stepAt e s w k) := by
  have hown : ∀ v, v ∈ (stepAt e s w k).injector ∨ v ∈ ((stepAt e s w k).worker w).items → Reached e tm roots v := by
    intro v hv
    rcases stepAt_items_new hv with hv | hv | ⟨o, off, hun, rfl, ht⟩
    · exact h.queued v (.inl hv)
    · exact h.queued v (.inr ⟨w, hw, hv⟩)
    · obtain ⟨ho, hoff⟩ := h.scanning w hw o off hun
      have ht' := ((hm.untraced_iff hfit (slotValue_lt e o off)).1 ht).1
      exact (h.processed o ho).step ⟨off, hoff, rfl, ht'⟩
  have hprocessed : ∀ o ∈ (stepAt e s w k).processed,
      Reached e tm roots o ∧ e.space.start ≤ o ∧ o < e.space.stop := by
    intro o ho
    rcases stepAt_tables (e := e) (s := s) (w := w) (k := k) with ⟨hs, -⟩ | ⟨o', hpc, -, h1, h2, -, -, hp⟩ |
      ⟨o', -, -, -, -, hp⟩ | ⟨o', -, -, -, -, hp⟩
    · rw [hs.processed] at ho; exact ⟨h.processed o ho, h.inSpace o ho⟩
    · rw [hp, List.mem_append, List.mem_singleton] at ho
      rcases ho with ho | rfl
      · exact ⟨h.processed o ho, h.inSpace o ho⟩
      · exact ⟨h.queued o (.inr ⟨w, hw, by simp [Worker.items, hpc, Pc.items]⟩), h1, h2⟩
    · rw [hp] at ho; exact ⟨h.processed o ho, h.inSpace o ho⟩
    · rw [hp] at ho; exact ⟨h.processed o ho, h.inSpace o ho⟩
  refine ⟨fun v hv => ?_, fun o ho => (hprocessed o ho).1, fun o ho => (hprocessed o ho).2, ?_⟩
  · rcases hv with hv | ⟨u, hu, hv⟩
    · exact hown v (.inl hv)
    · by_cases huw : u = w
      · subst huw; exact hown v (.inr hv)
      · rw [stepAt_worker_of_ne huw] at hv
        exact h.queued v (.inr ⟨u, hu, hv⟩)
  · refine forall_worker
      (P := fun x => ∀ o off, x.pc.Unscanned e o off → o ∈ (stepAt e s w k).processed ∧ off ∈ objSlots e o)
      (fun u hu o off hun => ?_) fun o off hun => ?_
    · obtain ⟨ho, hoff⟩ := h.scanning u hu o off hun
      exact ⟨stepAt_processed_sub ho, hoff⟩
    · rcases stepAt_unscanned_new hun with hun | hnew
      · obtain ⟨ho, hoff⟩ := h.scanning w hw o off hun
        exact ⟨stepAt_processed_sub ho, hoff⟩
      · exact hnew

theorem Complete.step (hm : Marks tm s) (hfit : tm.Fits) (h : Complete e tm roots s) (hw : w < e.cpus) :
    Complete e tm roots (stepAt e s w k) := by
  refine ⟨fun r hr => ?_, fun o ho off hoff ht => ?_⟩
  · rcases h.roots r hr with hq | hp | hpan
    · exact hq.step hw
    · exact .inr (.inl (stepAt_processed_sub hp))
    · exact .inr (.inr (hpan.step hw))
  -- an object processed before keeps its obligations; one processed now has all its slots unscanned
  have hold : o ∈ s.processed ∨ ((stepAt e s w k).worker w).pc = .markLive o := by
    rcases stepAt_tables (e := e) (s := s) (w := w) (k := k) with ⟨hs, -⟩ | ⟨o', -, hpc', -, -, -, -, hp⟩ |
      ⟨o', -, -, -, -, hp⟩ | ⟨o', -, -, -, -, hp⟩
    · rw [hs.processed] at ho; exact .inl ho
    · rw [hp, List.mem_append, List.mem_singleton] at ho
      rcases ho with ho | rfl
      · exact .inl ho
      · exact .inr hpc'
    · rw [hp] at ho; exact .inl ho
    · rw [hp] at ho; exact .inl ho
  rcases hold with hold | hnew
  · rcases h.edges o hold off hoff ht with ⟨p, hp, hg⟩ | hq | hpan | hun
    · exact .inl ⟨p, stepAt_processed_sub hp, hg⟩
    · rcases hq.step (k := k) hw with hq | hp | hpan
      · exact .inr (.inl hq)
      · exact .inl ⟨_, hp, rfl⟩
      · exact .inr (.inr (.inl hpan))
    · exact .inr (.inr (.inl (hpan.step hw)))
    · -- the worker that has the slot to test: it tests it now, or later
      obtain ⟨u, hu, hun⟩ := hun
      by_cases huw : u = w
      · subst huw
        rcases stepAt_unscanned (k := k) hun with hun | hit | hf | hpan
        · exact .inr (.inr (.inr ⟨u, hu, hun⟩))
        · exact .inr (.inl (.inr ⟨u, hu, hit⟩))
        · have : ¬ s.traceMap.isUntracedAndValid (slotValue e o off) = true := by simp [hf]
          rw [hm.untraced_iff hfit (slotValue_lt e o off)] at this
          obtain ⟨p, hp, hg⟩ := not_not.1 fun hno => this ⟨ht, hno⟩
          exact .inl ⟨p, stepAt_processed_sub hp, hg⟩
        · exact .inr (.inr (.inl ⟨u, hu, hpan⟩))
      · exact .inr (.inr (.inr ⟨u, hu, by rwa [stepAt_worker_of_ne huw]⟩))
  · exact .inr (.inr (.inr ⟨w, hw, by rw [hnew]; exact ⟨rfl, hoff⟩⟩))

/-! ## Runs -/

/-- the invariant of a trace that started with `roots`, `tm` and `lines` -/
structure Inv (e : Env) (tm : TraceMap) (lines : LineMarkTable) (roots : List ℕ) (s : St) : Prop where
  count : Count e s
  marks : Marks tm s
  lines : Lines e lines s
  sound : Sound e tm roots s
  complete : Complete e tm roots s

theorem inv_start (e : Env) (tm : TraceMap) (lines : LineMarkTable) (roots : List ℕ) :
    Inv e tm lines roots (startTrace e roots tm lines) where
  count := count_start e roots tm lines
  marks := ⟨rfl, by simp [startTrace]⟩
  lines := ⟨rfl, rfl, fun _ _ => rfl, by simp [startTrace], by simp [startTrace]⟩
  sound := by
    refine ⟨fun v hv => ?_, by simp [startTrace], by simp [startTrace], by simp [startTrace, Pc.Unscanned]⟩
    rcases hv with hv | ⟨u, -, hv⟩
    · exact .root hv
    · cases hv
  complete := ⟨fun r hr => .inl (.inl hr), by simp [startTrace]⟩

/-- **Step lemma.** -/
theorem inv_step (hfit : tm.Fits) (o : ℕ × ℕ) (h : Inv e tm lines roots s) : Inv e tm lines roots (step e s o) := by
  have hcount := count_step e s o h.count
  unfold step at hcount ⊢
  split_ifs at hcount ⊢ with hw
  · exact ⟨hcount, h.marks.step, h.lines.step hw, h.sound.step h.marks hfit hw, h.complete.step h.marks hfit hw⟩
  · exact h

theorem inv_run (e : Env) (hfit : tm.Fits) (lines : LineMarkTable) (roots : List ℕ) (ops : List (ℕ × ℕ)) :
    Inv e tm lines roots (run (step e) (startTrace e roots tm lines) ops) :=
  run_inv_all ops (fun _ o => inv_step hfit o) (inv_start e tm lines roots)

/-- the tables and the processed objects of a trace whose workers have all returned -/
structure Traced (e : Env) (tm : TraceMap) (lines : LineMarkTable) (roots : List ℕ) (s : St) : Prop where
  marks : Marks tm s
  len : s.lines.len = lines.len
  spaceStart : s.lines.spaceStart = lines.spaceStart
  unchanged : ∀ j, (∀ o ∈ s.processed, ¬ lines.Covers o j) → s.lines.get j = lines.get j
  covered : ∀ o ∈ s.processed, ∀ j, lines.Covers o j → (s.lines.get j).isLive
  reached : ∀ o ∈ s.processed, Reached e tm roots o
  inSpace : ∀ o ∈ s.processed, e.space.start ≤ o ∧ o < e.space.stop
  roots : ∀ r ∈ roots, r ∈ s.processed
  /-- every target of a processed object shares its granule with a processed object -/
  edges : ∀ o ∈ s.processed, ∀ v, Edge e tm o v → ∃ p ∈ s.processed, granule tm.offset p = granule tm.offset v

/-- when all workers have returned, no object is queued, owned or held -/
theorem Finished.not_queued (hf : Finished e s) (hc : Count e s) (v : ℕ) : ¬ Queued e s v := by
  have hquiet := hc.done 0 e.cpus_pos (hf 0 e.cpus_pos)
  rintro (hv | ⟨w, hw, hv⟩)
  · rw [hquiet.injector] at hv; cases hv
  · simp [Worker.items, hquiet.deque w hw, hf w hw, Pc.items] at hv

theorem Finished.not_panicked (hf : Finished e s) : ¬ Panicked e s := by
  rintro ⟨w, hw, hp⟩
  rw [hf w hw] at hp; cases hp

theorem traced_of_finished (h : Inv e tm lines roots s) (hf : Finished e s) : Traced e tm lines roots s := by
  have hqueued := hf.not_queued h.count
  have hpanic := hf.not_panicked
  refine ⟨h.marks, h.lines.len, h.lines.spaceStart, h.lines.unchanged, fun o ho j hj => ?_, h.sound.processed,
    h.sound.inSpace, fun r hr => ?_, ?_⟩
  · rcases h.lines.covered o ho j hj with hl | ⟨w, hw, hun⟩
    · exact hl
    · rw [hf w hw] at hun; exact hun.elim
  · have := h.complete.roots r hr
    have := hqueued r
    tauto
  · rintro o ho v ⟨off, hoff, rfl, ht⟩
    rcases h.complete.edges o ho off hoff ht with hp | hq | hpan | ⟨w, hw, hun⟩
    · exact hp
    · exact absurd hq (hqueued _)
    · exact absurd hpan hpanic
    · rw [hf w hw] at hun; exact hun.elim

/-! ## Well-formed graphs -/

/-- an 8-aligned address the root test accepts -/
def ObjectStart (e : Env) (v : ℕ) : Prop :=
  8 ∣ v ∧ isValidObject v e.space.start e.space.stop ⟨e.space.start, e.space.stop, e.allocMap⟩ = true

theorem ObjectStart.bounds {v : ℕ} (h : ObjectStart e v) : 8 ∣ v ∧ e.space.start ≤ v ∧ v < e.space.stop := by
  have := isValidObject_iff.1 h.2
  exact ⟨h.1, this.1, this.2.1⟩

/-- the slots of `o` hold words outside the map or object starts the tracer can scan -/
def GoodSlots (e : Env) (tm : TraceMap) (o : ℕ) : Prop :=
  ∀ off ∈ objSlots e o, ¬ tm.InRange (slotValue e o off) ∨
    ObjectStart e (slotValue e o off) ∧ Supported (getRefByte e.allocMap e.space.start (slotValue e o off))

/-- every reached object of a well-formed graph is an object start -/
theorem reached_objectStart (hfit : tm.Fits) (hroots : ∀ r ∈ roots, ObjectStart e r)
    (hslots : ∀ o, Reached e tm roots o → GoodSlots e tm o) {o : ℕ} (h : Reached e tm roots o) : ObjectStart e o := by
  rcases h.root_or_target with hr | ⟨p, hp, off, hoff, rfl, ht⟩
  · exact hroots o hr
  · rcases hslots p hp off hoff with hout | ⟨hobj, -⟩
    · exact absurd ((TraceMap.isUntracedAndValid_iff hfit (slotValue_lt e p off)).1 ht).1 hout
    · exact hobj

/-- in a well-formed graph the processed objects are the reached ones -/
theorem Traced.processed_iff (h : Traced e tm lines roots s) (hfit : tm.Fits) (hoff : tm.offset = e.space.start)
    (hroots : ∀ r ∈ roots, ObjectStart e r) (hslots : ∀ o, Reached e tm roots o → GoodSlots e tm o) (o : ℕ) :
    o ∈ s.processed ↔ Reached e tm roots o := by
  refine ⟨h.reached o, fun ho => ?_⟩
  refine (Closure.least (S := fun o => o ∈ s.processed) h.roots (fun a v ha hav => ?_) ho)
  obtain ⟨p, hp, hg⟩ := h.edges a ha v hav
  -- the processed object in `v`'s granule is `v`: both are aligned
  have hv := (reached_objectStart hfit hroots hslots ((h.reached a ha).step hav)).bounds
  have hp' := (reached_objectStart hfit hroots hslots (h.reached p hp)).bounds
  rw [hoff] at hg
  rwa [← granule_inj e.space.dvd_start.2.2 hp'.1 hv.1 hp'.2.1 hv.2.1 hg]

/-- **The parallel trace computes the reachable set.** For every heap, every initial trace map, mark state and line
table, every number of workers and every schedule: when all workers have returned, the processed objects are the least
set that contains the roots and the untraced targets of its members' slots; the trace map holds the mark state at their
granules and where it did before; their lines and the lines after them are Live or ConservLive, and no other line has
changed. -/
theorem parallel_trace_reachable (e : Env) (entries : ℕ → UInt8) (mark : UInt8) (marks : ℕ → LineMark) (roots : List ℕ)
    (hroots : ∀ r ∈ roots, ObjectStart e r)
    (hslots : ∀ o, Reached e (e.space.traceMap entries mark) roots o → GoodSlots e (e.space.traceMap entries mark) o)
    (ops : List (ℕ × ℕ)) :
    let tm := e.space.traceMap entries mark
    let lines := e.space.lineTable marks
    let s := run (step e) (startTrace e roots tm lines) ops
    Finished e s →
      (∀ o, o ∈ s.processed ↔ Reached e tm roots o) ∧
      (∀ g, s.traceMap.entries g = mark ↔
        (∃ o, Reached e tm roots o ∧ granule e.space.start o = g) ∨ entries g = mark) ∧
      (∀ j, (∃ o, Reached e tm roots o ∧ lines.Covers o j) → (s.lines.get j).isLive) ∧
      (∀ j, (¬ ∃ o, Reached e tm roots o ∧ lines.Covers o j) → s.lines.get j = marks j) := by
  intro tm lines s hf
  have hfit := e.space.traceMap_fits entries mark
  have h : Traced e tm lines roots s := traced_of_finished (inv_run e hfit lines roots ops) hf
  have hproc := h.processed_iff hfit rfl hroots hslots
  refine ⟨hproc, fun g => ?_, fun j hj => ?_, fun j hj => ?_⟩
  · rw [h.marks.entries]
    have hiff : (∃ o ∈ s.processed, granule tm.offset o = g) ↔
        ∃ o, Reached e tm roots o ∧ granule e.space.start o = g := by
      simp only [hproc]; rfl
    rw [← hiff]
    split_ifs with hex
    · exact iff_of_true rfl (.inl hex)
    · exact (or_iff_right hex).symm
  · obtain ⟨o, ho, hc⟩ := hj
    exact h.covered o ((hproc o).2 ho) j hc
  · exact h.unchanged j fun o ho hc => hj ⟨o, (hproc o).1 ho, hc⟩

/-- two workers; the object at the start of the space has one slot, which names the object one line later -/
def chain : Env := ⟨.oneBlock, fun _ => 0xC1, fun a => if a = 524288 then 524544 else 0, 2, by decide⟩

theorem parallel_trace_reachable_chain :
    let s := run (step chain) (startTrace chain [524288] (Space.oneBlock.traceMap (fun _ => 1) 0)
      (Space.oneBlock.lineTable fun _ => .free)) (List.replicate 40 [(0, 0), (1, 0)]).flatten
    (∀ o, o ∈ s.processed ↔ Reached chain (Space.oneBlock.traceMap (fun _ => 1) 0) [524288] o) := by
  have hstart : ObjectStart chain 524288 ∧ ObjectStart chain 524544 := by
    refine ⟨⟨by decide, ?_⟩, ⟨by decide, ?_⟩⟩ <;> decide +kernel
  have hslots : ∀ o, objSlots chain o = [0] := fun o => by
    have : slots 0xC1 = [0] := by decide
    exact this
  have hreached : ∀ o, Reached chain (Space.oneBlock.traceMap (fun _ => 1) 0) [524288] o → o = 524288 ∨ o = 524544 := by
    intro o ho
    refine Closure.least (S := fun o => o = 524288 ∨ o = 524544) (fun r hr => .inl (List.mem_singleton.1 hr))
      (fun a v ha hav => ?_) ho
    obtain ⟨off, hoff, rfl, ht⟩ := hav
    obtain rfl : off = 0 := List.mem_singleton.1 (hslots _ ▸ hoff)
    rcases ha with rfl | rfl
    · exact .inr (by decide +kernel)
    · exact absurd ht (by decide +kernel)
  refine (parallel_trace_reachable chain (fun _ => 1) 0 (fun _ => .free) [524288] ?_ ?_ _ (by decide +kernel)).1
  · intro r hr
    rw [List.mem_singleton.1 hr]; exact hstart.1
  · intro o ho off hoff
    obtain rfl : off = 0 := List.mem_singleton.1 (hslots _ ▸ hoff)
    rcases hreached o ho with rfl | rfl
    · have : slotValue chain 524288 0 = 524544 := by decide +kernel
      rw [this]
      exact .inr ⟨hstart.2, by decide +kernel⟩
    · left
      have : slotValue chain 524544 0 = 0 := by decide +kernel
      rw [this]
      exact fun h => absurd h.1 (by decide)

end Immix.Trace
