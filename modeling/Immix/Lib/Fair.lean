/-
Infinite runs, and what comes about in them.

`along step s schedule n` is the state before step `n` of the infinite run that takes the operations of `schedule` in
turn. A kind of operation recurs in a schedule when it comes again and again: a fair schedule is one in which the steps of
each thread recur.
- `Recurs.responds`: what an operation of the kind brings about from `P`, if the others keep `P`, is brought about.
- `Recurs.settles`: a property that the operations of the kind establish, and that every step keeps, holds from some step
  on.
- `always_of_all`: finitely many properties that settle one by one settle together.
- `exists_constant`: a number that never goes up stays the same from some step on.
-/
import Mathlib
import Immix.Lib.Run

namespace Immix.Lib

variable {σ ω : Type*}

/-! ## Infinite runs -/

/-- the state before step `n` of the infinite run -/
def along (step : σ → ω → σ) (s : σ) (schedule : ℕ → ω) (n : ℕ) : σ := run step s ((List.range n).map schedule)

section Along

variable (step : σ → ω → σ) (s : σ) (schedule : ℕ → ω)

@[simp] theorem along_zero : along step s schedule 0 = s := rfl

theorem along_succ (n : ℕ) : along step s schedule (n + 1) = step (along step s schedule n) (schedule n) := by
  unfold along
  rw [List.range_succ, List.map_append, run_append]
  rfl

variable {step s schedule}

/-- a schedule that begins with `ops` begins with its run -/
theorem along_of_prefix {ops : List ω} (h : ∀ i o, ops[i]? = some o → schedule i = o) {n : ℕ} (hn : n ≤ ops.length) :
    along step s schedule n = stateAt step s ops n := by
  induction n with
  | zero => rfl
  | succ n ih =>
    have hlt : n < ops.length := hn
    rw [along_succ, ih (Nat.le_of_lt hlt), h n _ (List.getElem?_eq_getElem hlt),
      stateAt_succ _ _ (List.getElem?_eq_getElem hlt)]

/-- an invariant of the legal steps holds all along a run of such steps -/
theorem along_inv {legal : σ → ω → Prop} {I : σ → Prop} (hstep : ∀ s o, legal s o → I s → I (step s o)) (h0 : I s)
    (hlegal : ∀ n, legal (along step s schedule n) (schedule n)) (n : ℕ) : I (along step s schedule n) := by
  induction n with
  | zero => exact h0
  | succ n ih =>
    rw [along_succ]
    exact hstep _ _ (hlegal n) ih

/-- an invariant of every step holds all along -/
theorem along_inv_all {I : σ → Prop} (hstep : ∀ s o, I s → I (step s o)) (h0 : I s) (n : ℕ) :
    I (along step s schedule n) :=
  run_inv_all _ hstep h0

end Along

/-! ## From some step on -/

/-- what the steps from `k` on keep, once it holds it goes on holding -/
theorem always_of_keep {P : ℕ → Prop} {k n : ℕ} (hn : k ≤ n) (h : P n) (hkeep : ∀ i, k ≤ i → P i → P (i + 1)) :
    ∀ i, n ≤ i → P i := by
  intro i hi
  induction i, hi using Nat.le_induction with
  | base => exact h
  | succ i hi ih => exact hkeep i (hn.trans hi) ih

/-- finitely many properties that each hold from some step on hold together from some step on -/
theorem always_of_all {P : ℕ → ℕ → Prop} {n k : ℕ} (h : ∀ w < n, ∃ m, k ≤ m ∧ ∀ i, m ≤ i → P w i) :
    ∃ m, k ≤ m ∧ ∀ i, m ≤ i → ∀ w < n, P w i := by
  induction n with
  | zero => exact ⟨k, le_rfl, fun i _ w hw => absurd hw (Nat.not_lt_zero w)⟩
  | succ n ih =>
    obtain ⟨m, hkm, hm⟩ := ih fun w hw => h w (Nat.lt_succ_of_lt hw)
    obtain ⟨m', -, hm'⟩ := h n (Nat.lt_succ_self n)
    refine ⟨max m m', hkm.trans (le_max_left m m'), fun i hi w hw => ?_⟩
    rcases Nat.lt_succ_iff_lt_or_eq.1 hw with hw | rfl
    · exact hm i ((le_max_left m m').trans hi) w hw
    · exact hm' i ((le_max_right m m').trans hi)

/-- a number that never goes up from step `k` on stays the same from some step on -/
theorem exists_constant {f : ℕ → ℕ} {k : ℕ} (hf : ∀ i, k ≤ i → f (i + 1) ≤ f i) :
    ∃ m, k ≤ m ∧ ∀ i, m ≤ i → f (i + 1) = f i := by
  -- `m` is a step at which the number is least
  have hmin : ∀ c, ∀ m, k ≤ m → f m ≤ c → ∃ m, k ≤ m ∧ ∀ i, m ≤ i → f (i + 1) = f i := by
    intro c
    induction c with
    | zero =>
      intro m hm hc
      have hzero : ∀ i, m ≤ i → f i = 0 := always_of_keep hm (Nat.le_zero.1 hc) fun i hi h =>
        Nat.le_zero.1 (h ▸ hf i hi)
      exact ⟨m, hm, fun i hi => by rw [hzero i hi, hzero (i + 1) (Nat.le_succ_of_le hi)]⟩
    | succ c ih =>
      intro m hm hc
      by_cases hex : ∃ i, m ≤ i ∧ f i ≤ c
      · obtain ⟨i, hi, hfi⟩ := hex
        exact ih i (hm.trans hi) hfi
      · push Not at hex
        have hle : ∀ i, m ≤ i → f i ≤ c + 1 := always_of_keep hm hc fun i hi h => (hf i hi).trans h
        refine ⟨m, hm, fun i hi => ?_⟩
        have h1 := hex i hi
        have h2 := hle i hi
        have h3 := hex (i + 1) (Nat.le_succ_of_le hi)
        have h4 := hle (i + 1) (Nat.le_succ_of_le hi)
        omega
  exact hmin (f k) k le_rfl le_rfl

/-! ## What recurs -/

/-- operations of this kind come again and again -/
def Recurs (kind : ω → Prop) (schedule : ℕ → ω) : Prop := ∀ k, ∃ i, k ≤ i ∧ kind (schedule i)

variable {kind : ω → Prop} {schedule : ℕ → ω}

/-- **Response rule.** Every step from `k` on keeps `P` or brings `Q` about; an operation of the kind brings it about. -/
theorem Recurs.responds (h : Recurs kind schedule) {P Q : ℕ → Prop} {k : ℕ} (hP : P k)
    (hkeep : ∀ i, k ≤ i → P i → P (i + 1) ∨ Q (i + 1))
    (hhelp : ∀ i, k ≤ i → P i → kind (schedule i) → Q (i + 1)) : ∃ i, k < i ∧ Q i := by
  obtain ⟨i, hki, hi⟩ := h k
  -- up to the helpful step either `Q` has come about or `P` still holds
  have hupto : (∃ j, k < j ∧ Q j) ∨ P i := by
    clear hi
    induction i, hki using Nat.le_induction with
    | base => exact .inr hP
    | succ i hki ih =>
      rcases ih with hQ | hP
      · exact .inl hQ
      · rcases hkeep i hki hP with hP | hQ
        · exact .inr hP
        · exact .inl ⟨i + 1, Nat.lt_succ_of_le hki, hQ⟩
  rcases hupto with hQ | hP
  · exact hQ
  · exact ⟨i + 1, Nat.lt_succ_of_le hki, hhelp i hki hP hi⟩

/-- **Settling rule.** A property that holds after each operation of the kind, and that every step keeps, holds from some
step on. -/
theorem Recurs.settles (h : Recurs kind schedule) {P : ℕ → Prop} {k : ℕ}
    (hhelp : ∀ i, k ≤ i → kind (schedule i) → P (i + 1)) (hkeep : ∀ i, k ≤ i → P i → P (i + 1)) :
    ∃ m, k ≤ m ∧ ∀ i, m ≤ i → P i := by
  obtain ⟨i, hki, hi⟩ := h k
  exact ⟨i + 1, hki.trans (Nat.le_succ i), always_of_keep (hki.trans (Nat.le_succ i)) (hhelp i hki hi) hkeep⟩

/-- what is taken in turn by `n` threads recurs for each -/
theorem recurs_inTurn {thread : ω → ℕ} {n : ℕ} (hop : ∀ k, thread (schedule k) = k % n) {w : ℕ} (hw : w < n) :
    Recurs (fun o => thread o = w) schedule := by
  intro k
  refine ⟨k * n + w, ?_, ?_⟩
  · have := Nat.le_mul_of_pos_right k (Nat.zero_lt_of_lt hw)
    omega
  · dsimp only
    rw [hop, Nat.add_comm, Nat.add_mul_mod_self_right, Nat.mod_eq_of_lt hw]

end Immix.Lib
