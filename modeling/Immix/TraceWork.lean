/-
Tracing terminates: the steps of the workers, idle spinning aside, are bounded (`worker_batch_steal_trace` of
`src/heap/gc/multi_thread_trace.rs`, `TraceMap` of `src/common/address_map.rs`).

An object can be queued many times, and an object whose granule is marked already is scanned again and pushes its
unmarked children again. So a queued item weighs more when its granule is marked: `cost M u` for an item whose granule is
unmarked, with `u` unmarked granules in all, and `cost M (u + 1)` otherwise. When a granule is marked, `u` goes down and
the items of that granule keep their weight.
- `weight_mark_le`: marking raises the weight of no item.
- `potential_step`: every step but idle spinning lowers the sum of all weights and of the workers' energies.
- `trace_work_bounded`: the bound, for every interleaving.
-/
import Immix.TraceReach
import Immix.Lib.Potential

namespace Immix.Trace

open Immix.Lib

/-! ## Steps -/

/-- the step is not one of idle spinning, nor of a worker that has returned -/
def Busy (e : Env) (s : St) (o : ℕ × ℕ) : Prop :=
  o.1 < e.cpus ∧
    match (s.worker o.1).pc with
    | .spin => s.injector ≠ []
    | .poll | .done | .panicked => False
    | _ => True

instance (e : Env) (s : St) (o : ℕ × ℕ) : Decidable (Busy e s o) := by
  unfold Busy
  split <;> infer_instance

/-! ## Weights -/

/-- the work an item with an unmarked granule leads to, when `u` granules are unmarked; `m` pays for the workers that a
push wakes -/
def cost (m : ℕ) : ℕ → ℕ
  | 0 => 2
  | u + 1 => 10 + 4 * (2 + m + cost m u)

theorem cost_mono {m u u' : ℕ} (h : u ≤ u') : cost m u ≤ cost m u' := by
  induction u', h using Nat.le_induction with
  | base => exact le_rfl
  | succ u' _ ih =>
    calc cost m u ≤ cost m u' := ih
      _ ≤ 10 + 4 * (2 + m + cost m u') := by omega

theorem two_le_cost (m u : ℕ) : 2 ≤ cost m u := cost_mono (Nat.zero_le u)

/-- the granule of `v` has an entry, and it is not marked -/
def Fresh (t : TraceMap) (v : ℕ) : Prop := t.InRange v ∧ t.entries (granule t.offset v) ≠ t.markState

instance (t : TraceMap) (v : ℕ) : Decidable (Fresh t v) := by
  unfold Fresh TraceMap.InRange
  infer_instance

/-- the number of unmarked granules -/
def unmarked (t : TraceMap) : ℕ := ((Finset.range t.len).filter fun g => t.entries g ≠ t.markState).card

def weight (m : ℕ) (t : TraceMap) (v : ℕ) : ℕ := if Fresh t v then cost m (unmarked t) else cost m (unmarked t + 1)

theorem two_le_weight (m : ℕ) (t : TraceMap) (v : ℕ) : 2 ≤ weight m t v := by
  unfold weight
  split_ifs <;> exact two_le_cost _ _

section Marking

variable {t : TraceMap} {o : ℕ}

theorem inRange_granule {v : ℕ} (h : t.InRange v) : granule t.offset v < t.len := by
  obtain ⟨h1, h2⟩ := h
  unfold granule
  omega

theorem fresh_mark {v : ℕ} : Fresh (t.markAsTraced o) v ↔ Fresh t v ∧ granule t.offset v ≠ granule t.offset o := by
  unfold Fresh TraceMap.InRange
  rw [TraceMap.markAsTraced_entries, TraceMap.markAsTraced_markState, TraceMap.markAsTraced_offset,
    TraceMap.markAsTraced_len]
  split_ifs with hg
  · simp [hg]
  · simp [hg]

/-- marking takes one granule from the unmarked ones, or none -/
theorem unmarked_mark (h : t.InRange o) :
    unmarked t = unmarked (t.markAsTraced o) + if Fresh t o then 1 else 0 := by
  have hmem : granule t.offset o ∈ Finset.range t.len := Finset.mem_range.2 (inRange_granule h)
  have hset : (Finset.range t.len).filter (fun g => (t.markAsTraced o).entries g ≠ t.markState) =
      ((Finset.range t.len).filter fun g => t.entries g ≠ t.markState).erase (granule t.offset o) := by
    ext g
    rw [Finset.mem_erase, Finset.mem_filter, Finset.mem_filter, TraceMap.markAsTraced_entries]
    split_ifs with hg
    · simp [hg]
    · simp [hg]
  unfold unmarked
  rw [TraceMap.markAsTraced_len, TraceMap.markAsTraced_markState, hset]
  split_ifs with hfresh
  · exact (Finset.card_erase_add_one (Finset.mem_filter.2 ⟨hmem, hfresh.2⟩)).symm
  · rw [Finset.erase_eq_of_notMem, Nat.add_zero]
    exact fun hin => hfresh ⟨h, (Finset.mem_filter.1 hin).2⟩

theorem unmarked_mark_le (h : t.InRange o) : unmarked (t.markAsTraced o) ≤ unmarked t :=
  (Nat.le_add_right _ _).trans (unmarked_mark h).ge

/-- the item that is entered weighs what a marked one does afterwards -/
theorem weight_enter (m : ℕ) (h : t.InRange o) : weight m t o = cost m (unmarked (t.markAsTraced o) + 1) := by
  unfold weight
  rw [unmarked_mark h]
  split_ifs
  · rfl
  · rw [Nat.add_zero]

/-- **Marking raises no weight.** -/
theorem weight_mark_le (m : ℕ) (h : t.InRange o) (v : ℕ) : weight m (t.markAsTraced o) v ≤ weight m t v := by
  have hle := unmarked_mark_le h
  unfold weight
  by_cases hv : Fresh t v
  · rw [if_pos hv]
    by_cases hg : granule t.offset v = granule t.offset o
    · -- `v` lies in the granule that is marked now
      have ho : Fresh t o := ⟨h, hg ▸ hv.2⟩
      rw [if_neg fun hn => (fresh_mark.1 hn).2 hg]
      apply cost_mono
      rw [unmarked_mark h, if_pos ho]
    · rw [if_pos (fresh_mark.2 ⟨hv, hg⟩)]
      exact cost_mono hle
  · rw [if_neg hv, if_neg fun hn => hv (fresh_mark.1 hn).1]
    exact cost_mono (Nat.succ_le_succ hle)

end Marking

/-! ## Energies -/

/-- what a slot that is still to be tested may cost: a push, and the item pushed -/
def slotCost (m : ℕ) (t : TraceMap) : ℕ := 2 + m + cost m (unmarked t)

/-- the steps a worker may still take without another item; `isEmpty` says whether the injector is empty -/
def energy (m : ℕ) (t : TraceMap) (isEmpty : Bool) : Pc → ℕ
  | .pop => 4
  | .steal => 2
  | .idle => if isEmpty then 1 else 5
  | .spin | .poll => if isEmpty then 0 else 4
  | .wake => 3
  | .enter v => weight m t v - 1
  | .markLive _ => 8 + 4 * slotCost m t
  | .markConserv _ => 7 + 4 * slotCost m t
  | .decode _ => 6 + 4 * slotCost m t
  | .edges _ offs _ => 5 + offs.length * slotCost m t
  | .push _ v offs _ => 1 + m + weight m t v + (5 + offs.length * slotCost m t)
  | .done | .panicked => 0

/-- the items of a worker and its energy -/
def load (m : ℕ) (t : TraceMap) (isEmpty : Bool) (x : Worker) : ℕ :=
  (x.deque.map (weight m t)).sum + energy m t isEmpty x.pc

/-- **The potential.** -/
def potential (e : Env) (s : St) : ℕ :=
  (s.injector.map (weight (4 * e.cpus) s.traceMap)).sum +
    ∑ u ∈ Finset.range e.cpus, load (4 * e.cpus) s.traceMap s.injector.isEmpty (s.worker u)

section Energy

variable {m : ℕ} {t : TraceMap} {o : ℕ}

theorem slotCost_mark_le (h : t.InRange o) : slotCost m (t.markAsTraced o) ≤ slotCost m t :=
  Nat.add_le_add_left (cost_mono (unmarked_mark_le h)) _

theorem sum_weight_mark_le (h : t.InRange o) (l : List ℕ) :
    (l.map (weight m (t.markAsTraced o))).sum ≤ (l.map (weight m t)).sum :=
  List.sum_le_sum fun v _ => weight_mark_le m h v

/-- **Marking raises no energy.** -/
theorem load_mark_le (h : t.InRange o) (isEmpty : Bool) (x : Worker) :
    load m (t.markAsTraced o) isEmpty x ≤ load m t isEmpty x := by
  refine Nat.add_le_add (sum_weight_mark_le h x.deque) ?_
  have hslot := slotCost_mark_le (m := m) h
  cases x.pc with
  | enter v => exact Nat.sub_le_sub_right (weight_mark_le m h v) 1
  | edges o' offs short => exact Nat.add_le_add_left (Nat.mul_le_mul_left _ hslot) _
  | push o' v offs short =>
    exact Nat.add_le_add (Nat.add_le_add_left (weight_mark_le m h v) _)
      (Nat.add_le_add_left (Nat.mul_le_mul_left _ hslot) _)
  | markLive o' | markConserv o' | decode o' => exact Nat.add_le_add_left (Nat.mul_le_mul_left 4 hslot) _
  | _ => exact le_rfl

/-- an injector that holds items keeps the idle workers busy, four steps each -/
theorem load_empty (x : Worker) (isEmpty : Bool) :
    load m t true x ≤ load m t isEmpty x ∧ load m t isEmpty x ≤ load m t true x + 4 := by
  have henergy : energy m t true x.pc ≤ energy m t isEmpty x.pc ∧ energy m t isEmpty x.pc ≤ energy m t true x.pc + 4 := by
    cases isEmpty
    · cases x.pc <;> simp [energy]
    · simp
  unfold load
  omega

end Energy

/-! ## One step -/

/-- the trace map covers the space -/
structure Cover (e : Env) (t : TraceMap) : Prop where
  fits : t.Fits
  space : ∀ obj, e.space.start ≤ obj → obj < e.space.stop → t.InRange obj

section Step

variable {e : Env} {s s' : St} {w k c : ℕ}

theorem stepAt_traceMap (e : Env) (s : St) (w k : ℕ) :
    (stepAt e s w k).traceMap = s.traceMap ∨ ∃ o, (stepAt e s w k).traceMap = s.traceMap.markAsTraced o := by
  unfold stepAt
  cases (s.worker w).pc with
  | pop => cases (s.worker w).deque <;> exact .inl rfl
  | steal => cases s.injector <;> exact .inl rfl
  | enter obj =>
    simp only
    split_ifs
    · exact .inr ⟨obj, rfl⟩
    · exact .inl rfl
  | decode obj =>
    simp only
    split <;> exact .inl rfl
  | edges obj offs short =>
    cases offs with
    | nil => exact .inl rfl
    | cons off offs =>
      simp only
      split_ifs <;> exact .inl rfl
  | _ => exact .inl rfl

theorem cover_step (o : ℕ × ℕ) (h : Cover e s.traceMap) : Cover e (step e s o).traceMap := by
  unfold step
  split_ifs
  · rcases stepAt_traceMap e s o.1 o.2 with heq | ⟨v, heq⟩
    · rw [heq]
      exact h
    · rw [heq]
      exact ⟨h.fits, h.space⟩
  · exact h

/-- a step of worker `w` that leaves it as `x`: the other workers may gain `d` each -/
theorem potential_le (d : ℕ) (hw : w < e.cpus) {x : Worker} (hworker : s'.worker = Function.update s.worker w x)
    (hothers : ∀ y, load (4 * e.cpus) s'.traceMap s'.injector.isEmpty y ≤
      load (4 * e.cpus) s.traceMap s.injector.isEmpty y + d)
    (hlocal : (s'.injector.map (weight (4 * e.cpus) s'.traceMap)).sum + c +
        load (4 * e.cpus) s'.traceMap s'.injector.isEmpty x + d * e.cpus ≤
      (s.injector.map (weight (4 * e.cpus) s.traceMap)).sum +
        load (4 * e.cpus) s.traceMap s.injector.isEmpty (s.worker w)) : potential e s' + c ≤ potential e s := by
  have hsum := sum_update_le hw s.worker x hothers hlocal
  unfold potential
  rw [hworker]
  omega

/-- a step that only moves the worker to `pc` -/
theorem potential_goto (hw : w < e.cpus) (pc : Pc) (hworker : s'.worker = (s.goto w pc).worker)
    (htraceMap : s'.traceMap = s.traceMap) (hinj : s'.injector = s.injector)
    (henergy : energy (4 * e.cpus) s.traceMap s.injector.isEmpty pc + c ≤
      energy (4 * e.cpus) s.traceMap s.injector.isEmpty (s.worker w).pc) : potential e s' + c ≤ potential e s := by
  refine potential_le 0 hw hworker (fun y => ?_) ?_
  · rw [htraceMap, hinj]
    exact le_rfl
  · rw [htraceMap, hinj]
    unfold load
    dsimp only
    omega

theorem not_isEmpty {l : List ℕ} (h : l ≠ []) : l.isEmpty = false := by
  cases l with
  | nil => exact absurd rfl h
  | cons v rest => rfl

theorem refOffsets_length {bits : UInt8} {offs : List ℕ} (h : refOffsets bits = some offs) : offs.length ≤ 4 := by
  unfold refOffsets at h
  split_ifs at h <;> cases h <;> decide

/-- the steps that need not be paid for -/
theorem not_busy (h : (s.worker w).pc = .spin ∧ s.injector = [] ∨ (s.worker w).pc = .poll ∨ (s.worker w).pc = .done ∨
    (s.worker w).pc = .panicked) : ¬ Busy e s (w, k) := by
  rintro ⟨-, hbusy⟩
  dsimp only at hbusy
  rcases h with ⟨hpc, hinj⟩ | hpc | hpc | hpc
  · rw [hpc] at hbusy
    exact hbusy hinj
  · rwa [hpc] at hbusy
  · rwa [hpc] at hbusy
  · rwa [hpc] at hbusy

/-- a stolen item and its batch move to the worker, and the injector may be empty now -/
theorem potential_steal (hw : w < e.cpus) (hc : c ≤ 1) (hpc : (s.worker w).pc = .steal) {v : ℕ} {rest : List ℕ}
    (hinj : s.injector = v :: rest) :
    potential e { s with
      injector := rest.drop k
      worker := Function.update s.worker w ⟨(s.worker w).deque ++ rest.take k, .enter v⟩ } + c ≤ potential e s := by
  refine potential_le 0 hw rfl (fun y => ?_) ?_
  · cases hrest : (rest.drop k).isEmpty with
    | false => rw [hinj]; exact le_of_eq (by simp)
    | true => exact (load_empty y s.injector.isEmpty).1.trans (by simp)
  have hweight := two_le_weight (4 * e.cpus) s.traceMap v
  have hsplit : ((rest.take k).map (weight (4 * e.cpus) s.traceMap)).sum +
      ((rest.drop k).map (weight (4 * e.cpus) s.traceMap)).sum = (rest.map (weight (4 * e.cpus) s.traceMap)).sum := by
    rw [← List.sum_append, ← List.map_append, List.take_append_drop]
  simp only [load, hpc, energy, hinj, List.map_cons, List.sum_cons, List.map_append, List.sum_append]
  omega

/-- the weight of the item that is entered pays for the scan of a marked object -/
theorem potential_enter (hw : w < e.cpus) (h : Cover e s.traceMap) (hc : c ≤ 1) {obj : ℕ}
    (hpc : (s.worker w).pc = .enter obj) (hin : e.space.start ≤ obj ∧ obj < e.space.stop) :
    potential e { s.goto w (.markLive obj) with
      traceMap := s.traceMap.markAsTraced obj
      processed := s.processed ++ [obj] } + c ≤ potential e s := by
  have hrange := h.space obj hin.1 hin.2
  refine potential_le 0 hw rfl (fun y => load_mark_le hrange _ y) ?_
  have hweight := two_le_weight (4 * e.cpus) s.traceMap obj
  have henter := weight_enter (4 * e.cpus) hrange
  have hinj := sum_weight_mark_le (m := 4 * e.cpus) hrange s.injector
  have hdeque := sum_weight_mark_le (m := 4 * e.cpus) hrange (s.worker w).deque
  rw [cost] at henter
  simp only [load, goto_injector, hpc, energy, slotCost]
  omega

/-- a push pays for the idle workers, which will look at the injector again -/
theorem potential_push (hw : w < e.cpus) (hc : c ≤ 1) {obj v : ℕ} {offs : List ℕ} {short : Bool}
    (hpc : (s.worker w).pc = .push obj v offs short) :
    potential e { s.goto w (.edges obj offs short) with injector := s.injector ++ [v] } + c ≤ potential e s := by
  refine potential_le 4 hw rfl (fun y => ?_) ?_
  · have h1 := (load_empty (m := 4 * e.cpus) (t := s.traceMap) y s.injector.isEmpty).1
    have h2 := (load_empty (m := 4 * e.cpus) (t := s.traceMap) y (s.injector ++ [v]).isEmpty).2
    exact h2.trans (Nat.add_le_add_right h1 4)
  · simp only [load, goto_traceMap, hpc, energy, List.map_append, List.sum_append, List.map_cons, List.map_nil,
      List.sum_cons, List.sum_nil]
    omega

/-- **Step lemma.** Every busy step lowers the potential, and no step raises it. -/
theorem potential_stepAt (hw : w < e.cpus) (h : Cover e s.traceMap) (hc : c ≤ 1) (hidle : ¬ Busy e s (w, k) → c = 0) :
    potential e (stepAt e s w k) + c ≤ potential e s := by
  unfold stepAt
  cases hpc : (s.worker w).pc with
  | pop =>
    cases hd : (s.worker w).deque with
    | nil => exact potential_goto hw .steal rfl rfl rfl (by rw [hpc]; simp only [energy]; omega)
    | cons v rest =>
      refine potential_le 0 hw rfl (fun y => le_rfl) ?_
      have hweight := two_le_weight (4 * e.cpus) s.traceMap v
      simp only [load, hd, hpc, energy, List.map_cons, List.sum_cons]
      omega
  | steal =>
    dsimp only
    cases hinj : s.injector with
    | nil => exact potential_goto hw .idle rfl rfl rfl (by rw [hpc, hinj]; simp [energy]; omega)
    | cons v rest => exact potential_steal hw hc hpc hinj
  | idle =>
    refine potential_goto hw .spin rfl rfl rfl ?_
    rw [hpc]
    cases s.injector.isEmpty <;> simp only [energy] <;> simp <;> omega
  | spin =>
    by_cases hinj : s.injector = []
    · rw [hidle (not_busy (.inl ⟨hpc, hinj⟩))]
      exact potential_goto hw .poll (by simp only [if_pos hinj]) rfl rfl (by rw [hpc]; exact le_rfl)
    · refine potential_goto hw .wake (by simp only [if_neg hinj]) rfl rfl ?_
      rw [hpc, not_isEmpty hinj]
      exact Nat.add_le_add_left hc 3
  | poll =>
    rw [hidle (not_busy (.inr (.inl hpc)))]
    refine potential_goto hw (if s.active = 0 then .done else .spin) rfl rfl rfl ?_
    rw [hpc]
    split_ifs
    · exact Nat.zero_le _
    · exact le_rfl
  | wake => exact potential_goto hw .steal rfl rfl rfl (by rw [hpc]; exact Nat.add_le_add_left hc 2)
  | enter obj =>
    dsimp only
    have hweight := two_le_weight (4 * e.cpus) s.traceMap obj
    split_ifs with hin
    · exact potential_enter hw h hc hpc hin
    · exact potential_goto hw .panicked rfl rfl rfl (by rw [hpc]; simp only [energy]; omega)
  | markLive obj =>
    exact potential_goto hw (.markConserv obj) rfl rfl rfl (by rw [hpc]; simp only [energy]; omega)
  | markConserv obj => exact potential_goto hw (.decode obj) rfl rfl rfl (by rw [hpc]; simp only [energy]; omega)
  | decode obj =>
    dsimp only
    cases hoffs : refOffsets (refBits (getRefByte e.allocMap e.space.start obj)) with
    | none => exact potential_goto hw .panicked rfl rfl rfl (by rw [hpc]; simp only [energy]; omega)
    | some offs =>
      refine potential_goto hw (.edges obj offs _) rfl rfl rfl ?_
      rw [hpc]
      have hlen := Nat.mul_le_mul_right (slotCost (4 * e.cpus) s.traceMap) (refOffsets_length hoffs)
      simp only [energy]
      omega
  | edges obj offs short =>
    cases offs with
    | nil =>
      refine potential_goto hw (if short then .pop else .panicked) rfl rfl rfl ?_
      rw [hpc]
      split_ifs <;> simp only [energy, List.length_nil] <;> omega
    | cons off offs =>
      dsimp only
      split_ifs with hun
      · -- the slot holds an unmarked object, which is to be pushed
        have hfresh : Fresh s.traceMap (slotValue e obj off) :=
          (TraceMap.isUntracedAndValid_iff h.fits (slotValue_lt e obj off)).1 hun
        refine potential_goto hw (.push obj (slotValue e obj off) offs short) rfl rfl rfl ?_
        rw [hpc]
        simp only [energy, weight, if_pos hfresh, List.length_cons, Nat.succ_mul, slotCost]
        omega
      · refine potential_goto hw (.edges obj offs short) rfl rfl rfl ?_
        rw [hpc]
        simp only [energy, List.length_cons, Nat.succ_mul, slotCost]
        omega
  | push obj v offs short => exact potential_push hw hc hpc
  | done =>
    rw [hidle (not_busy (.inr (.inr (.inl hpc))))]
    exact le_rfl
  | panicked =>
    rw [hidle (not_busy (.inr (.inr (.inr hpc))))]
    exact le_rfl

theorem potential_step (o : ℕ × ℕ) (h : Cover e s.traceMap) :
    potential e (step e s o) + (if Busy e s o then 1 else 0) ≤ potential e s := by
  unfold step
  by_cases hw : o.1 < e.cpus
  · rw [if_pos hw]
    exact potential_stepAt hw h (by split_ifs <;> decide) fun hidle => if_neg hidle
  · rw [if_neg hw, if_neg fun hbusy : Busy e s o => hw hbusy.1]
    exact le_rfl

end Step

/-! ## Runs -/

theorem cover_start (e : Env) (entries : ℕ → UInt8) (mark : UInt8) : Cover e (e.space.traceMap entries mark) where
  fits := e.space.traceMap_fits entries mark
  space := fun _ h1 h2 => e.space.inRange entries mark h1 h2

theorem weight_le (m : ℕ) (t : TraceMap) (v : ℕ) : weight m t v ≤ cost m (t.len + 1) := by
  have hle : unmarked t ≤ t.len := by
    have := Finset.card_filter_le (Finset.range t.len) fun g => t.entries g ≠ t.markState
    rwa [Finset.card_range] at this
  unfold weight
  split_ifs
  · exact cost_mono (hle.trans (Nat.le_succ _))
  · exact cost_mono (Nat.succ_le_succ hle)

/-- each root may weigh as much as an item can, and each worker has its pop -/
theorem potential_start (e : Env) (roots : List ℕ) (tm : TraceMap) (lines : LineMarkTable) :
    potential e (startTrace e roots tm lines) ≤ roots.length * cost (4 * e.cpus) (tm.len + 1) + 4 * e.cpus := by
  have hroots : (roots.map (weight (4 * e.cpus) tm)).sum ≤ roots.length * cost (4 * e.cpus) (tm.len + 1) := by
    calc (roots.map (weight (4 * e.cpus) tm)).sum
        ≤ (roots.map fun _ => cost (4 * e.cpus) (tm.len + 1)).sum := List.sum_le_sum fun v _ => weight_le _ tm v
      _ = roots.length * cost (4 * e.cpus) (tm.len + 1) := by rw [List.map_const', List.sum_replicate, smul_eq_mul]
  have hworkers : ∑ u ∈ Finset.range e.cpus,
      load (4 * e.cpus) tm roots.isEmpty ((startTrace e roots tm lines).worker u) = 4 * e.cpus := by
    calc ∑ u ∈ Finset.range e.cpus, load (4 * e.cpus) tm roots.isEmpty ((startTrace e roots tm lines).worker u)
        = ∑ _u ∈ Finset.range e.cpus, 4 := Finset.sum_congr rfl fun u _ => rfl
      _ = 4 * e.cpus := by rw [Finset.sum_const, Finset.card_range, smul_eq_mul, Nat.mul_comm]
  exact Nat.add_le_add hroots hworkers.le

/-- **Tracing terminates.** For every heap, allocation map, content of the trace map, mark state, list of roots and
number of workers: in every run, whatever the interleaving, the steps other than idle spinning are at most as many as the
bound, so every schedule has a last one. -/
theorem trace_work_bounded (e : Env) (entries : ℕ → UInt8) (mark : UInt8) (lines : LineMarkTable) (roots : List ℕ) :
    (∀ ops, busySteps (step e) (Busy e) (startTrace e roots (e.space.traceMap entries mark) lines) ops ≤
      roots.length * cost (4 * e.cpus) ((e.space.traceMap entries mark).len + 1) + 4 * e.cpus) ∧
    ∀ schedule : ℕ → ℕ × ℕ, ∃ n, ∀ k, n ≤ k →
      ¬ Busy e (run (step e) (startTrace e roots (e.space.traceMap entries mark) lines)
        ((List.range k).map schedule)) (schedule k) := by
  have hbound : ∀ ops, busySteps (step e) (Busy e) (startTrace e roots (e.space.traceMap entries mark) lines) ops ≤
      roots.length * cost (4 * e.cpus) ((e.space.traceMap entries mark).len + 1) + 4 * e.cpus := by
    intro ops
    have hrun := busySteps_le (I := fun s : St => Cover e s.traceMap) (fun s o => cover_step o)
      (fun s o => potential_step o) (s := startTrace e roots (e.space.traceMap entries mark) lines)
      (cover_start e entries mark) ops
    exact hrun.trans (potential_start e roots _ lines)
  exact ⟨hbound, finitely_many hbound⟩

end Immix.Trace
