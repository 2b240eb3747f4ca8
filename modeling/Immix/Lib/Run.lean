/-
Runs of a step function over a list of operations, for any state and any operations.

`run step s ops` is the state after `ops`; `stateAt step s ops k` is the state before operation `k` of the same run.
A property of operations may depend on the state they are performed in (`legal`): `LegalRun` says it of every step.
- `stateAt_inv`: an invariant of the legal steps holds in every state of a legal run.
- `exists_last`: the last operation with a property, if there is one.
- `exists_first`: the first time a property that holds at `i` no longer holds.
- `exists_since`: the last time a property that holds at `j` began to hold.
- `stateAt_until`: a property that starts at step `i` and is kept by the steps up to `j` holds at `j`.
- `count_between`: a counter that the steps with a property increment counts these steps.
- `once_between`: if it goes up by one, it does so at one step.
- `last_event`: a cell that only events write holds what the last one wrote.
-/
import Mathlib

namespace Immix.Lib

variable {σ ω : Type*}

/-- the state after the operations `ops` -/
def run (step : σ → ω → σ) (s : σ) (ops : List ω) : σ := ops.foldl step s

/-- the state in which operation `k` of the run is performed -/
def stateAt (step : σ → ω → σ) (s : σ) (ops : List ω) (k : ℕ) : σ := run step s (ops.take k)

/-- every operation of the run is legal in the state it is performed in -/
def LegalRun (step : σ → ω → σ) (legal : σ → ω → Prop) (s : σ) (ops : List ω) : Prop :=
  ∀ k o, ops[k]? = some o → legal (stateAt step s ops k) o

variable (step : σ → ω → σ) (s : σ)

theorem legalRun_cons {legal : σ → ω → Prop} {o : ω} {ops : List ω} :
    LegalRun step legal s (o :: ops) ↔ legal s o ∧ LegalRun step legal (step s o) ops := by
  constructor
  · intro h
    exact ⟨h 0 o rfl, fun k o' hk => h (k + 1) o' hk⟩
  · rintro ⟨h0, h⟩ k o' hk
    cases k with
    | zero =>
      cases hk
      exact h0
    | succ k => exact h k o' hk

instance LegalRun.decidable {legal : σ → ω → Prop} [∀ s o, Decidable (legal s o)] :
    (s : σ) → (ops : List ω) → Decidable (LegalRun step legal s ops)
  | _, [] => isTrue fun k o hk => by simp at hk
  | s, o :: ops =>
    have : Decidable (LegalRun step legal (step s o) ops) := LegalRun.decidable (step s o) ops
    decidable_of_iff _ (legalRun_cons step s).symm

@[simp] theorem run_nil : run step s [] = s := rfl

@[simp] theorem run_cons (o : ω) (ops : List ω) : run step s (o :: ops) = run step (step s o) ops := rfl

theorem run_append (a b : List ω) : run step s (a ++ b) = run step (run step s a) b := by
  simp [run, List.foldl_append]

@[simp] theorem stateAt_zero (ops : List ω) : stateAt step s ops 0 = s := rfl

theorem stateAt_succ {ops : List ω} {k : ℕ} {o : ω} (h : ops[k]? = some o) :
    stateAt step s ops (k + 1) = step (stateAt step s ops k) o := by
  unfold stateAt
  rw [List.take_add_one, h, run_append]
  rfl

theorem stateAt_of_le {ops : List ω} {k : ℕ} (h : ops.length ≤ k) : stateAt step s ops k = run step s ops := by
  rw [stateAt, List.take_of_length_le h]

/-- the first operations of a run are a run -/
theorem stateAt_take (ops : List ω) {n k : ℕ} (h : k ≤ n) : stateAt step s (ops.take n) k = stateAt step s ops k := by
  rw [stateAt, stateAt, List.take_take, Nat.min_eq_left h]

/-- the beginning of a legal run -/
theorem LegalRun.take {legal : σ → ω → Prop} {ops : List ω} (h : LegalRun step legal s ops) (n : ℕ) :
    LegalRun step legal s (ops.take n) := by
  intro k o hk
  rw [List.getElem?_take] at hk
  split_ifs at hk with hkn
  rw [stateAt_take step s ops hkn.le]
  exact h k o hk

variable {step s}

/-- **Run rule, between two steps.** A property of state and position that holds before step `i` and that every step
from `i` to `j` keeps holds before step `j`. -/
theorem stateAt_until {P : σ → Prop} {ops : List ω} {i j : ℕ} (hij : i ≤ j) (h0 : P (stateAt step s ops i))
    (hstep : ∀ k o, i ≤ k → k < j → ops[k]? = some o → P (stateAt step s ops k) →
      P (step (stateAt step s ops k) o)) :
    P (stateAt step s ops j) := by
  induction j, hij using Nat.le_induction with
  | base => exact h0
  | succ j hij ih =>
    have hj := ih fun k o h1 h2 => hstep k o h1 (by omega)
    cases ho : ops[j]? with
    | none =>
      have hlen : ops.length ≤ j := List.getElem?_eq_none_iff.1 ho
      rw [stateAt_of_le _ _ (by omega : ops.length ≤ j + 1), ← stateAt_of_le step s hlen]
      exact hj
    | some o =>
      rw [stateAt_succ _ _ ho]
      exact hstep j o hij (by omega) ho hj

/-- **Run rule.** An invariant kept by every legal step holds in every state of a legal run. -/
theorem stateAt_inv {legal : σ → ω → Prop} {I : σ → Prop} {ops : List ω}
    (hstep : ∀ s o, legal s o → I s → I (step s o)) (h0 : I s) (hops : LegalRun step legal s ops) (k : ℕ) :
    I (stateAt step s ops k) :=
  stateAt_until (Nat.zero_le k) h0 fun k o _ _ ho hk => hstep _ o (hops k o ho) hk

/-- an invariant kept by every step, legal or not -/
theorem stateAt_inv_all {I : σ → Prop} (ops : List ω) (hstep : ∀ s o, I s → I (step s o)) (h0 : I s) (k : ℕ) :
    I (stateAt step s ops k) :=
  stateAt_until (Nat.zero_le k) h0 fun _ o _ _ _ hk => hstep _ o hk

theorem run_inv_all {I : σ → Prop} (ops : List ω) (hstep : ∀ s o, I s → I (step s o)) (h0 : I s) :
    I (run step s ops) := by
  rw [← stateAt_of_le step s (le_refl ops.length)]
  exact stateAt_inv_all ops hstep h0 _

/-- between two positions either no operation has the property, or there is a last one that has -/
theorem exists_last {P : ℕ → Prop} (i j : ℕ) :
    (∀ k, i < k → k < j → ¬ P k) ∨ ∃ k, i < k ∧ k < j ∧ P k ∧ ∀ u, k < u → u < j → ¬ P u := by
  induction j with
  | zero => exact .inl fun k _ h => absurd h (Nat.not_lt_zero k)
  | succ j ih =>
    by_cases hj : i < j ∧ P j
    · exact .inr ⟨j, hj.1, by omega, hj.2, fun u h1 h2 => by omega⟩
    have hlast : ∀ u, i < u → u < j + 1 → P u → u < j := by
      intro u h1 h2 hu
      rcases Nat.eq_or_lt_of_le (Nat.le_of_lt_succ h2) with rfl | h
      · exact absurd ⟨h1, hu⟩ hj
      · exact h
    rcases ih with hno | ⟨k, h1, h2, hk, hno⟩
    · exact .inl fun k h1 h2 hk => hno k h1 (hlast k h1 h2 hk) hk
    · exact .inr ⟨k, h1, by omega, hk, fun u h3 h4 hu => hno u h3 (hlast u (by omega) h4 hu) hu⟩

/-- a property that holds at `i` and no longer at `j` fails for a first time in between -/
theorem exists_first {P : ℕ → Prop} {i j : ℕ} (hij : i ≤ j) (hi : P i) (hj : ¬ P j) :
    ∃ k, i < k ∧ k ≤ j ∧ ¬ P k ∧ ∀ u, i ≤ u → u < k → P u := by
  classical
  have hex : ∃ k, i ≤ k ∧ ¬ P k := ⟨j, hij, hj⟩
  obtain ⟨hik, hk⟩ := Nat.find_spec hex
  refine ⟨Nat.find hex, lt_of_le_of_ne hik fun heq => hk (heq ▸ hi), Nat.find_le ⟨hij, hj⟩, hk, fun u hiu hu => ?_⟩
  by_contra hnot
  exact Nat.find_min hex hu ⟨hiu, hnot⟩

/-- a property that holds at `j` and not at the start began to hold at some step before `j`, and holds since -/
theorem exists_since {P : ℕ → Prop} {j : ℕ} (h0 : ¬ P 0) (hj : P j) :
    ∃ i < j, ¬ P i ∧ ∀ u, i < u → u ≤ j → P u := by
  induction j with
  | zero => exact absurd hj h0
  | succ j ih =>
    by_cases hP : P j
    · obtain ⟨i, hi, hn, hs⟩ := ih hP
      refine ⟨i, Nat.lt_succ_of_lt hi, hn, fun u h1 h2 => ?_⟩
      rcases Nat.le_succ_iff.1 h2 with h | rfl
      · exact hs u h1 h
      · exact hj
    · refine ⟨j, Nat.lt_succ_self j, hP, fun u h1 h2 => ?_⟩
      rw [Nat.le_antisymm h2 h1]
      exact hj

/-- **Counter rule.** -/
theorem count_between {f : ℕ → ℕ} {E : ℕ → Prop} [DecidablePred E] {i j : ℕ} (hij : i ≤ j)
    (hf : ∀ k, i ≤ k → k < j → f (k + 1) = f k + if E k then 1 else 0) :
    f j = f i + ((Finset.Ico i j).filter E).card := by
  induction j, hij using Nat.le_induction with
  | base => simp
  | succ j hij ih =>
    rw [hf j hij (Nat.lt_succ_self j), ih fun k h1 h2 => hf k h1 (Nat.lt_succ_of_lt h2),
      ← Finset.insert_Ico_right_eq_Ico_add_one hij, Finset.filter_insert]
    split_ifs with hE
    · rw [Finset.card_insert_of_notMem (by simp), Nat.add_assoc]
    · rw [Nat.add_zero]

/-- a counter that goes up by one between two positions does so at one step -/
theorem once_between {f : ℕ → ℕ} {E : ℕ → Prop} [DecidablePred E] {i j : ℕ} (hij : i ≤ j)
    (hf : ∀ k, i ≤ k → k < j → f (k + 1) = f k + if E k then 1 else 0) (h : f j = f i + 1) :
    ∃ g, i ≤ g ∧ g < j ∧ E g ∧ (∀ k, i ≤ k → k < j → E k → k = g) ∧ (∀ k, i ≤ k → k ≤ g → f k = f i) ∧
      ∀ k, g < k → k ≤ j → f k = f i + 1 := by
  have hcount : ∀ k, i ≤ k → k ≤ j → f k = f i + ((Finset.Ico i k).filter E).card := fun k h1 h2 =>
    count_between h1 fun n h3 h4 => hf n h3 (Nat.lt_of_lt_of_le h4 h2)
  have hone : ((Finset.Ico i j).filter E).card = 1 := by
    have hj := hcount j hij (le_refl j)
    omega
  obtain ⟨g, hg⟩ := Finset.card_eq_one.1 hone
  have hmem : ∀ k, (i ≤ k ∧ k < j) ∧ E k ↔ k = g := by
    intro k
    rw [← Finset.mem_Ico, ← Finset.mem_filter, hg, Finset.mem_singleton]
  obtain ⟨⟨hig, hgj⟩, hE⟩ := (hmem g).2 rfl
  refine ⟨g, hig, hgj, hE, fun k h1 h2 hk => (hmem k).1 ⟨⟨h1, h2⟩, hk⟩, fun k h1 h2 => ?_, fun k h1 h2 => ?_⟩
  · have hnone : (Finset.Ico i k).filter E = ∅ := by
      rw [Finset.filter_eq_empty_iff]
      intro n hn hEn
      rw [Finset.mem_Ico] at hn
      have hng := (hmem n).1 ⟨⟨hn.1, by omega⟩, hEn⟩
      omega
    rw [hcount k h1 (by omega), hnone, Finset.card_empty, Nat.add_zero]
  · have hsingle : (Finset.Ico i k).filter E = {g} := by
      ext n
      rw [Finset.mem_filter, Finset.mem_Ico, Finset.mem_singleton]
      constructor
      · rintro ⟨⟨h3, h4⟩, hEn⟩
        exact (hmem n).1 ⟨⟨h3, by omega⟩, hEn⟩
      · rintro rfl
        exact ⟨⟨hig, h1⟩, hE⟩
    rw [hcount k (by omega) h2, hsingle, Finset.card_singleton]

/-- **Last writer.** A cell `f` that changes only at events, and then to the event's value, holds the value of the last
event, or what it held at the start when there was none. -/
theorem last_event {β : Type*} {f : ℕ → β} {E : ℕ → β → Prop}
    (hstep : ∀ k, E k (f (k + 1)) ∨ (∀ v, ¬ E k v) ∧ f (k + 1) = f k) (k : ℕ) :
    (∃ i < k, E i (f k) ∧ ∀ u, i < u → u < k → ∀ v, ¬ E u v) ∨ f k = f 0 ∧ ∀ u < k, ∀ v, ¬ E u v := by
  induction k with
  | zero => exact .inr ⟨rfl, fun u hu => absurd hu (Nat.not_lt_zero u)⟩
  | succ k ih =>
    rcases hstep k with hE | ⟨hno, heq⟩
    · exact .inl ⟨k, Nat.lt_succ_self k, hE, fun u h1 h2 => absurd (Nat.le_of_lt_succ h2) (Nat.not_le_of_lt h1)⟩
    · rw [heq]
      rcases ih with ⟨i, hi, hE, hlast⟩ | ⟨h0, hnever⟩
      · refine .inl ⟨i, Nat.lt_succ_of_lt hi, hE, fun u h1 h2 => ?_⟩
        rcases Nat.eq_or_lt_of_le (Nat.le_of_lt_succ h2) with rfl | h2
        · exact hno
        · exact hlast u h1 h2
      · refine .inr ⟨h0, fun u hu => ?_⟩
        rcases Nat.eq_or_lt_of_le (Nat.le_of_lt_succ hu) with rfl | hu
        · exact hno
        · exact hnever u hu

end Immix.Lib
