/-
The maximal runs of a predicate on an initial segment of the naturals, as a left-to-right scan finds them.

- `MaximalRun.eq_of_mem`: two maximal runs that share a point are the same.
- `RunsTo`: the runs that end at or before a point, in increasing order.
- `RunsTo.next`, `RunsTo.last`: the scan finds one more run, or none.
-/
import Mathlib

namespace Immix.Lib

/-- `[i, j)` is a maximal run of `p` in `[0, n)` -/
structure MaximalRun (p : ℕ → Prop) (n i j : ℕ) : Prop where
  lt : i < j
  le : j ≤ n
  all : ∀ k, i ≤ k → k < j → p k
  left : ∀ k, k + 1 = i → ¬ p k
  right : j < n → ¬ p j

/-- the first run of `p` in `[m, n)` is `[i, j)` -/
structure FirstRun (p : ℕ → Prop) (n m i j : ℕ) : Prop where
  ge : m ≤ i
  lt : i < j
  le : j ≤ n
  first : ∀ k, m ≤ k → k < i → ¬ p k
  all : ∀ k, i ≤ k → k < j → p k
  stop : j < n → ¬ p j

variable {p q : ℕ → Prop} {n m i j : ℕ}

theorem FirstRun.congr (h : FirstRun p n m i j) (hpq : ∀ k, m ≤ k → k < n → (p k ↔ q k)) : FirstRun q n m i j where
  ge := h.ge
  lt := h.lt
  le := h.le
  first := fun k h1 h2 hq => h.first k h1 h2 ((hpq k h1 (by have := h.lt; have := h.le; omega)).2 hq)
  all := fun k h1 h2 => (hpq k (h.ge.trans h1) (h2.trans_le h.le)).1 (h.all k h1 h2)
  stop := fun hj hq => h.stop hj ((hpq j (h.ge.trans h.lt.le) hj).2 hq)

/-- maximal runs that share a point are the same -/
theorem MaximalRun.eq_of_mem {i' j' k : ℕ} (h : MaximalRun p n i j) (h' : MaximalRun p n i' j') (hi : i ≤ k) (hj : k < j)
    (hi' : i' ≤ k) (hj' : k < j') : i = i' ∧ j = j' := by
  have key : ∀ {a b c d : ℕ}, MaximalRun p n a b → MaximalRun p n c d → a ≤ k → k < b → c ≤ k → k < d → c ≤ a ∧ b ≤ d := by
    intro a b c d hab hcd ha hb hc hd
    constructor
    · by_contra hlt
      exact hcd.left (c - 1) (by omega) (hab.all (c - 1) (by omega) (by omega))
    · by_contra hlt
      exact hcd.right (by have := hab.le; omega) (hab.all d (by omega) (by omega))
  have h1 := key h h' hi hj hi' hj'
  have h2 := key h' h hi' hj' hi hj
  omega

/-- `runs` lists, in increasing order, the maximal runs that end at or before `m`; no run goes on at `m` -/
structure RunsTo (p : ℕ → Prop) (n m : ℕ) (runs : List (ℕ × ℕ)) : Prop where
  mem : ∀ r, r ∈ runs ↔ MaximalRun p n r.1 r.2 ∧ r.2 ≤ m
  sorted : runs.Pairwise fun r s => r.2 < s.1
  cover : ∀ k < m, p k → ∃ r ∈ runs, r.1 ≤ k ∧ k < r.2
  edge : m = 0 ∨ m = n ∨ ¬ p m

theorem RunsTo.nil : RunsTo p n 0 [] where
  mem := by
    intro r
    have hlt : MaximalRun p n r.1 r.2 → r.1 < r.2 := MaximalRun.lt
    simp only [List.not_mem_nil, false_iff, not_and]
    intro h
    have := hlt h
    omega
  sorted := .nil
  cover := fun k hk => absurd hk (Nat.not_lt_zero k)
  edge := .inl rfl

variable {runs : List (ℕ × ℕ)}

/-- a first run after the point that the scan has reached is maximal -/
theorem RunsTo.maximal (h : RunsTo p n m runs) (hf : FirstRun p n m i j) : MaximalRun p n i j where
  lt := hf.lt
  le := hf.le
  all := hf.all
  right := hf.stop
  left := by
    intro k hk hp
    have hge := hf.ge
    have hle := hf.le
    have hlt := hf.lt
    by_cases hmk : m ≤ k
    · exact hf.first k hmk (by omega) hp
    · -- the run starts where the scan stands, and is not the first thing there
      have hmi : m = i := by omega
      have hpi : p i := hf.all i le_rfl hlt
      obtain h0 | hn | hm := h.edge
      · omega
      · omega
      · exact hm (hmi ▸ hpi)

/-- **The scan goes on** behind the first run it finds. -/
theorem RunsTo.next (h : RunsTo p n m runs) (hf : FirstRun p n m i j) : RunsTo p n j (runs ++ [(i, j)]) := by
  have hmax := h.maximal hf
  have hge := hf.ge
  have hlt := hf.lt
  have hle := hf.le
  refine ⟨fun r => ?_, ?_, fun k hk hp => ?_, ?_⟩
  · rw [List.mem_append, List.mem_singleton, h.mem]
    constructor
    · rintro (⟨hr, hm⟩ | rfl)
      · exact ⟨hr, by omega⟩
      · exact ⟨hmax, le_rfl⟩
    · rintro ⟨hr, hj⟩
      by_cases hm : r.2 ≤ m
      · exact .inl ⟨hr, hm⟩
      · -- its last point is behind `m`, so it lies in the run just found
        have hlast : p (r.2 - 1) := hr.all _ (by have := hr.lt; omega) (by have := hr.lt; omega)
        have hi : i ≤ r.2 - 1 := by
          by_contra hlt'
          exact hf.first _ (by omega) (by omega) hlast
        have heq := hr.eq_of_mem hmax (k := r.2 - 1) (by have := hr.lt; omega) (by omega) hi (by omega)
        exact .inr (Prod.ext heq.1 heq.2)
  · rw [List.pairwise_append]
    refine ⟨h.sorted, List.pairwise_singleton _ _, fun r hr s hs => ?_⟩
    obtain rfl := List.mem_singleton.1 hs
    obtain ⟨hrun, hrm⟩ := (h.mem r).1 hr
    show r.2 < i
    by_contra hnot
    have hrj : r.2 = i := by omega
    exact hrun.right (by omega) (hrj ▸ hf.all i le_rfl hlt)
  · by_cases hm : k < m
    · obtain ⟨r, hr, h1, h2⟩ := h.cover k hm hp
      exact ⟨r, List.mem_append_left _ hr, h1, h2⟩
    · have hi : i ≤ k := by
        by_contra hlt'
        exact hf.first k (by omega) (by omega) hp
      exact ⟨(i, j), List.mem_append_right _ (List.mem_singleton_self _), hi, hk⟩
  · by_cases hjn : j < n
    · exact .inr (.inr (hf.stop hjn))
    · exact .inr (.inl (by omega))

/-- **The scan is over** when nothing is left: the list has every maximal run. -/
theorem RunsTo.last (h : RunsTo p n m runs) (hnone : ∀ k, m ≤ k → k < n → ¬ p k) :
    RunsTo p n n runs where
  mem := by
    intro r
    rw [h.mem]
    refine and_congr_right fun hr => ⟨fun _ => hr.le, fun _ => ?_⟩
    by_contra hlt
    have hlast : p (r.2 - 1) := hr.all _ (by have := hr.lt; omega) (by omega)
    exact hnone _ (by omega) (by have := hr.le; omega) hlast
  sorted := h.sorted
  cover := by
    intro k hk hp
    by_cases hkm : k < m
    · exact h.cover k hkm hp
    · exact absurd hp (hnone k (by omega) hk)
  edge := .inr (.inl rfl)

end Immix.Lib
