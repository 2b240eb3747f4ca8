/-
Locks: a lock names its holder, and the program points say which threads hold it. `Guards` says that the two agree;
a thread that keeps, takes or releases the lock as `Passes` says keeps them in agreement (`Guards.step`).
-/
import Mathlib

namespace Immix.Lib

variable {ι : Type*}

/-- exactly the thread that the lock names is at a point where it holds the lock -/
def Guards (lock : Option ι) (holds : ι → Bool) : Prop := ∀ k, lock = some k ↔ holds k = true

/-- a step of thread `m` that takes the lock from `lock` to `lock'` and the thread's own claim to it from `a` to `b` -/
def Passes (lock lock' : Option ι) (m : ι) (a b : Bool) : Prop :=
  (lock' = lock ∧ b = a) ∨ (lock = none ∧ lock' = some m ∧ b = true) ∨ (lock' = none ∧ a = true ∧ b = false)

variable {lock lock' : Option ι} {holds : ι → Bool}

theorem Guards.unique (h : Guards lock holds) {a b : ι} (ha : holds a = true) (hb : holds b = true) : a = b := by
  have hla := (h a).2 ha
  have hlb := (h b).2 hb
  rw [hla] at hlb
  exact Option.some.inj hlb

theorem Guards.free (h : Guards lock holds) (hl : lock = none) (k : ι) : holds k = false := by
  by_contra hk
  have := (h k).2 (by simpa using hk)
  rw [hl] at this
  cases this

theorem Guards.congr (h : Guards lock holds) {holds' : ι → Bool} (hk : ∀ k, holds' k = holds k) :
    Guards lock holds' := by
  intro k
  rw [hk]
  exact h k

/-- **Lock rule.** -/
theorem Guards.step [DecidableEq ι] (h : Guards lock holds) {m : ι} {b : Bool}
    (hp : Passes lock lock' m (holds m) b) : Guards lock' (Function.update holds m b) := by
  intro k
  rcases eq_or_ne k m with rfl | hk
  · rw [Function.update_self]
    rcases hp with ⟨rfl, rfl⟩ | ⟨-, rfl, rfl⟩ | ⟨rfl, -, rfl⟩
    · exact h k
    · simp
    · simp
  · rw [Function.update_of_ne hk]
    rcases hp with ⟨rfl, -⟩ | ⟨rfl, rfl, -⟩ | ⟨rfl, hm, -⟩
    · exact h k
    · have hkf := h.free rfl k
      simp [hkf, hk.symm]
    · have hkf : holds k ≠ true := fun hkt => hk (h.unique hkt hm)
      simp [hkf]

end Immix.Lib
