/-
The least set that contains given roots and is closed under a relation.

`Closure E R x`: `x` is reached from some root by steps of `E`. `Closure.root` and `Closure.step` say that the set
contains the roots and is closed, `Closure.least` that every set with these two properties contains it.
-/
import Mathlib

namespace Immix.Lib

variable {α : Type*}

/-- the elements reached from the roots `R` along `E` -/
def Closure (E : α → α → Prop) (R : α → Prop) (x : α) : Prop := ∃ r, R r ∧ Relation.ReflTransGen E r x

variable {E E' : α → α → Prop} {R R' : α → Prop}

theorem Closure.root {x : α} (h : R x) : Closure E R x := ⟨x, h, .refl⟩

theorem Closure.step {x y : α} (h : Closure E R x) (e : E x y) : Closure E R y :=
  let ⟨r, hr, p⟩ := h
  ⟨r, hr, p.tail e⟩

theorem Closure.least {S : α → Prop} (hroot : ∀ x, R x → S x) (hstep : ∀ x y, S x → E x y → S y) {x : α}
    (h : Closure E R x) : S x := by
  obtain ⟨r, hr, p⟩ := h
  induction p with
  | refl => exact hroot r hr
  | tail _ e ih => exact hstep _ _ ih e

/-- fewer edges out of the elements reached, and fewer roots, reach no more -/
theorem Closure.mono (hR : ∀ x, R x → R' x) (hE : ∀ x y, Closure E' R' x → E x y → E' x y) {x : α}
    (h : Closure E R x) : Closure E' R' x :=
  h.least (fun x hx => .root (hR x hx)) fun x y hx e => hx.step (hE x y hx e)

/-- every element of the closure is a root or the target of an edge -/
theorem Closure.root_or_target {x : α} (h : Closure E R x) : R x ∨ ∃ y, Closure E R y ∧ E y x := by
  obtain ⟨r, hr, p⟩ := h
  cases p with
  | refl => exact .inl hr
  | tail q e => exact .inr ⟨_, ⟨r, hr, q⟩, e⟩

end Immix.Lib
