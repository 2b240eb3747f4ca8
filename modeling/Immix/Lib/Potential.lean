/-
Bounds on the steps of a run by a potential.

Some steps are `busy`. If every busy step lowers the potential by one at least and no other step raises it, a run has no
more busy steps than the potential of its first state.
- `busySteps_le`: the rule, with an invariant.
- `finitely_many`: along an infinite schedule the busy steps stop.
- `sum_update_le`: a sum over components of which one step changes one and loads the others by a constant.
-/
import Mathlib
import Immix.Lib.Run

namespace Immix.Lib

variable {σ ω : Type*} (step : σ → ω → σ) (busy : σ → ω → Prop) [∀ s o, Decidable (busy s o)]

/-- the number of busy steps of a run -/
def busySteps : σ → List ω → ℕ
  | _, [] => 0
  | s, o :: ops => (if busy s o then 1 else 0) + busySteps (step s o) ops

variable {step busy}

/-- **Potential rule.** -/
theorem busySteps_le {I : σ → Prop} {potential : σ → ℕ} (hinv : ∀ s o, I s → I (step s o))
    (hstep : ∀ s o, I s → potential (step s o) + (if busy s o then 1 else 0) ≤ potential s) {s : σ} (hs : I s)
    (ops : List ω) : busySteps step busy s ops ≤ potential s := by
  induction ops generalizing s with
  | nil => exact Nat.zero_le _
  | cons o ops ih =>
    calc busySteps step busy s (o :: ops)
        = (if busy s o then 1 else 0) + busySteps step busy (step s o) ops := rfl
      _ ≤ (if busy s o then 1 else 0) + potential (step s o) := Nat.add_le_add_left (ih (hinv s o hs)) _
      _ ≤ potential s := by
        rw [Nat.add_comm]
        exact hstep s o hs

theorem busySteps_append (s : σ) (a b : List ω) :
    busySteps step busy s (a ++ b) = busySteps step busy s a + busySteps step busy (run step s a) b := by
  induction a generalizing s with
  | nil => exact (Nat.zero_add _).symm
  | cons o a ih =>
    rw [List.cons_append, busySteps, busySteps, ih, run_cons, Nat.add_assoc]

/-- when all finite runs of a schedule have a bounded number of busy steps, there is a last one -/
theorem finitely_many {s : σ} {bound : ℕ} (h : ∀ ops, busySteps step busy s ops ≤ bound) (schedule : ℕ → ω) :
    ∃ n, ∀ k, n ≤ k → ¬ busy (run step s ((List.range k).map schedule)) (schedule k) := by
  by_contra hcon
  push Not at hcon
  -- a prefix with `c` busy steps, for every `c`
  have hmany : ∀ c, ∃ n, c ≤ busySteps step busy s ((List.range n).map schedule) := by
    intro c
    induction c with
    | zero => exact ⟨0, Nat.zero_le _⟩
    | succ c ih =>
      obtain ⟨n, hn⟩ := ih
      obtain ⟨k, hk, hbusy⟩ := hcon n
      refine ⟨k + 1, ?_⟩
      have hmono : busySteps step busy s ((List.range n).map schedule) ≤
          busySteps step busy s ((List.range k).map schedule) := by
        obtain ⟨d, rfl⟩ := Nat.exists_eq_add_of_le hk
        rw [List.range_add, List.map_append, busySteps_append]
        exact Nat.le_add_right _ _
      rw [List.range_succ, List.map_append, busySteps_append]
      have hlast : busySteps step busy (run step s ((List.range k).map schedule)) ([k].map schedule) = 1 := by
        rw [List.map_singleton, busySteps, if_pos hbusy]
        rfl
      omega
  obtain ⟨n, hn⟩ := hmany (bound + 1)
  have := h ((List.range n).map schedule)
  omega

/-- the other components may gain `d` each, if the changed one and the rest of the state pay for it -/
theorem sum_update_le {α : Type*} {n w : ℕ} (hw : w < n) (f : ℕ → α) (x : α) {g g' : α → ℕ} {d a a' : ℕ}
    (hothers : ∀ y, g' y ≤ g y + d) (hlocal : a' + g' x + d * n ≤ a + g (f w)) :
    a' + ∑ u ∈ Finset.range n, g' (Function.update f w x u) ≤ a + ∑ u ∈ Finset.range n, g (f u) := by
  have hmem : w ∈ Finset.range n := Finset.mem_range.2 hw
  rw [← Finset.add_sum_erase _ _ hmem, ← Finset.add_sum_erase _ (fun u => g (f u)) hmem, Function.update_self]
  have hrest : ∑ u ∈ (Finset.range n).erase w, g' (Function.update f w x u) ≤
      ∑ u ∈ (Finset.range n).erase w, (g (f u) + d) := by
    apply Finset.sum_le_sum
    intro u hu
    rw [Function.update_of_ne (Finset.ne_of_mem_erase hu)]
    exact hothers (f u)
  have hcard : ((Finset.range n).erase w).card * d ≤ d * n := by
    rw [Nat.mul_comm]
    apply Nat.mul_le_mul_left
    have := Finset.card_erase_le (s := Finset.range n) (a := w)
    rwa [Finset.card_range] at this
  rw [Finset.sum_add_distrib, Finset.sum_const, smul_eq_mul] at hrest
  omega

end Immix.Lib
