/-
Counting the members of a finite set whose local state has a property: `countIn p S f` is the number of `w` in `S` with
`p (f w)`; `countThreads p n f` is the count over a team of `n` threads. A step of one thread changes the count by what
it changes at that thread (`countIn_update`).
-/
import Mathlib

namespace Immix.Lib

variable {ι α : Type*} (p : α → Prop) [DecidablePred p]

/-- how many members of `S` have property `p` -/
def countIn (S : Finset ι) (f : ι → α) : ℕ := (S.filter fun w => p (f w)).card

theorem countIn_congr {S : Finset ι} {f g : ι → α} (h : ∀ w ∈ S, p (f w) ↔ p (g w)) :
    countIn p S f = countIn p S g := by
  unfold countIn
  rw [Finset.filter_congr h]

theorem countIn_pos {S : Finset ι} {f : ι → α} {w : ι} (hw : w ∈ S) (hp : p (f w)) : 0 < countIn p S f :=
  Finset.card_pos.2 ⟨w, Finset.mem_filter.2 ⟨hw, hp⟩⟩

theorem countIn_eq_zero {S : Finset ι} {f : ι → α} : countIn p S f = 0 ↔ ∀ w ∈ S, ¬ p (f w) := by
  simp [countIn, Finset.filter_eq_empty_iff]

theorem countIn_all {S : Finset ι} {f : ι → α} (h : ∀ w ∈ S, p (f w)) : countIn p S f = S.card := by
  rw [countIn, Finset.filter_true_of_mem h]

theorem countIn_mono {q : α → Prop} [DecidablePred q] {S : Finset ι} {f g : ι → α} (h : ∀ w ∈ S, p (f w) → q (g w)) :
    countIn p S f ≤ countIn q S g := by
  apply Finset.card_le_card
  intro w hw
  obtain ⟨hS, hp⟩ := Finset.mem_filter.1 hw
  exact Finset.mem_filter.2 ⟨hS, h w hS hp⟩

/-- members without the property may come and go -/
theorem countIn_eq_of_mem {S T : Finset ι} {f g : ι → α} (h : ∀ w, (w ∈ S ∧ p (f w)) ↔ (w ∈ T ∧ p (g w))) :
    countIn p S f = countIn p T g := by
  unfold countIn
  congr 1
  ext w
  simp only [Finset.mem_filter]
  exact h w

variable [DecidableEq ι]

/-- a full count says that every member but one has the property -/
theorem countIn_erase {S : Finset ι} {f : ι → α} {w : ι} (hw : w ∈ S) (hp : ¬ p (f w))
    (hcount : S.card ≤ countIn p S f + 1) : ∀ v ∈ S, v ≠ w → p (f v) := by
  have hsub : (S.filter fun v => p (f v)) ⊆ S.erase w := by
    intro v hv
    obtain ⟨hS, hv⟩ := Finset.mem_filter.1 hv
    refine Finset.mem_erase.2 ⟨?_, hS⟩
    rintro rfl
    exact hp hv
  have hcard : (S.erase w).card ≤ (S.filter fun v => p (f v)).card := by
    rw [Finset.card_erase_of_mem hw]
    exact Nat.sub_le_of_le_add hcount
  intro v hv hvw
  have hmem : v ∈ S.filter fun v => p (f v) := by
    rw [Finset.eq_of_subset_of_card_le hsub hcard]
    exact Finset.mem_erase.2 ⟨hvw, hv⟩
  exact (Finset.mem_filter.1 hmem).2

/-- every member but one has the property -/
theorem countIn_all_but {S : Finset ι} {f : ι → α} {w : ι} (hw : w ∈ S) (hp : ¬ p (f w))
    (h : ∀ v ∈ S, v ≠ w → p (f v)) : countIn p S f + 1 = S.card := by
  have hfilter : S.filter (fun v => p (f v)) = S.erase w := by
    ext v
    rw [Finset.mem_filter, Finset.mem_erase]
    constructor
    · rintro ⟨hv, hpv⟩
      refine ⟨?_, hv⟩
      rintro rfl
      exact hp hpv
    · rintro ⟨hvw, hv⟩
      exact ⟨hv, h v hv hvw⟩
  rw [countIn, hfilter, Finset.card_erase_add_one hw]

theorem countIn_update {S : Finset ι} (f : ι → α) {w : ι} (hw : w ∈ S) (a : α) :
    countIn p S (Function.update f w a) + (if p (f w) then 1 else 0) = countIn p S f + (if p a then 1 else 0) := by
  have split : ∀ g : ι → α, countIn p S g = (if p (g w) then 1 else 0) + ((S.erase w).filter fun v => p (g v)).card := by
    intro g
    unfold countIn
    conv_lhs => rw [← Finset.insert_erase hw, Finset.filter_insert]
    split_ifs with hg
    · rw [Finset.card_insert_of_notMem (by simp), add_comm]
    · rw [zero_add]
  have hrest : (S.erase w).filter (fun v => p (Function.update f w a v)) = (S.erase w).filter fun v => p (f v) := by
    refine Finset.filter_congr fun v hv => ?_
    rw [Function.update_of_ne (Finset.ne_of_mem_erase hv)]
  rw [split (Function.update f w a), split f, hrest, Function.update_self]
  omega

/-- a step that leaves the property of its thread as it was -/
theorem countIn_update_same {S : Finset ι} (f : ι → α) {w : ι} (hw : w ∈ S) {a : α} (h : p a ↔ p (f w)) :
    countIn p S (Function.update f w a) = countIn p S f := by
  have := countIn_update p f hw a
  simp only [h] at this
  exact Nat.add_right_cancel this

/-! ## A team of threads -/

/-- how many of the threads `0 .. n-1` have property `p` -/
def countThreads (n : ℕ) (f : ℕ → α) : ℕ := countIn p (Finset.range n) f

theorem count_pos {n : ℕ} {f : ℕ → α} {w : ℕ} (hw : w < n) (hp : p (f w)) : 0 < countThreads p n f :=
  countIn_pos p (Finset.mem_range.2 hw) hp

theorem count_eq_zero {n : ℕ} {f : ℕ → α} : countThreads p n f = 0 ↔ ∀ w < n, ¬ p (f w) := by
  simp only [countThreads, countIn_eq_zero, Finset.mem_range]

theorem count_all {n : ℕ} {f : ℕ → α} (h : ∀ w < n, p (f w)) : countThreads p n f = n := by
  rw [countThreads, countIn_all p fun w hw => h w (Finset.mem_range.1 hw), Finset.card_range]

theorem count_update {n : ℕ} (f : ℕ → α) {w : ℕ} (hw : w < n) (a : α) :
    countThreads p n (Function.update f w a) + (if p (f w) then 1 else 0) =
      countThreads p n f + (if p a then 1 else 0) :=
  countIn_update p f (Finset.mem_range.2 hw) a

theorem count_update_same {n : ℕ} (f : ℕ → α) {w : ℕ} (hw : w < n) {a : α} (h : p a ↔ p (f w)) :
    countThreads p n (Function.update f w a) = countThreads p n f :=
  countIn_update_same p f (Finset.mem_range.2 hw) h

end Immix.Lib
