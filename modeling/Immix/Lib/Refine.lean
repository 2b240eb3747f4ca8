/-
Refinement of one machine by another. A step of the concrete machine shows at most one operation of the abstract one;
`emitted` is the list of those a run shows, in order.

- `Simulates`: what a step has to do, for a relation between the states.
- `Simulates.run`: the emitted operations of a legal run are a legal run, and the relation holds between the last states.
-/
import Immix.Lib.Run

namespace Immix.Lib

variable {σ ω τ α : Type*}

/-- the operations of the abstract machine that a run shows -/
def emitted (step : σ → ω → σ) (emit : σ → ω → Option α) : σ → List ω → List α
  | _, [] => []
  | s, o :: ops => (emit s o).toList ++ emitted step emit (step s o) ops

/-- a legal step that shows nothing leaves the abstract state related; one that shows an operation is matched by it -/
structure Simulates (step : σ → ω → σ) (legal : σ → ω → Prop) (emit : σ → ω → Option α) (astep : τ → α → τ)
    (alegal : τ → α → Prop) (R : σ → τ → Prop) : Prop where
  silent : ∀ s t o, legal s o → R s t → emit s o = none → R (step s o) t
  shown : ∀ s t o a, legal s o → R s t → emit s o = some a → alegal t a ∧ R (step s o) (astep t a)

variable {step : σ → ω → σ} {legal : σ → ω → Prop} {emit : σ → ω → Option α} {astep : τ → α → τ}
  {alegal : τ → α → Prop} {R : σ → τ → Prop}

/-- **Refinement of runs.** -/
theorem Simulates.run (h : Simulates step legal emit astep alegal R) {ops : List ω} {s : σ} {t : τ}
    (hops : LegalRun step legal s ops) (hR : R s t) :
    LegalRun astep alegal t (emitted step emit s ops) ∧
      R (Lib.run step s ops) (Lib.run astep t (emitted step emit s ops)) := by
  induction ops generalizing s t with
  | nil => exact ⟨fun k a ha => by simp [emitted] at ha, hR⟩
  | cons o ops ih =>
    obtain ⟨hlegal, hops⟩ := (legalRun_cons step s).1 hops
    rw [emitted]
    cases he : emit s o with
    | none => exact ih hops (h.silent s t o hlegal hR he)
    | some a =>
      obtain ⟨hlegal', hR'⟩ := h.shown s t o a hlegal hR he
      obtain ⟨hrun, hlast⟩ := ih hops hR'
      exact ⟨(legalRun_cons astep t).2 ⟨hlegal', hrun⟩, hlast⟩

end Immix.Lib
