/-
A depth-first marking with a stack and no test on what it pops, for any elements, keys and successors.

A round takes the top of the stack, marks its key and pushes those of its successors whose keys are unmarked, so one
element can lie on the stack several times, and an element whose key is marked already is visited again.
- `Search.Inv`: the marked keys are those marked at the start and those of visited elements; everything on the stack or
  visited is reached; what a visited element leads to is on the stack, or its key is that of a visited element.
- `Search.halts`: with finitely many keys to reach, the stack runs empty.
- `Search.visited_iff`: then the visited elements are the reached ones.
-/
import Mathlib
import Immix.Lib.Closure

namespace Immix.Lib

variable {α κ : Type*}

/-- the stack, its top first; the marked keys; the elements visited so far -/
structure Search (α κ : Type*) where
  stack : List α
  marked : κ → Bool
  visited : List α

namespace Search

variable (key : α → κ) (succ : α → List α)

/-- `v` is a successor of `a` with a key that is not marked at the start -/
def Leads (m : κ → Bool) (a v : α) : Prop := v ∈ succ a ∧ m (key v) = false

/-- the elements to be visited -/
def Reach (m : κ → Bool) (roots : List α) : α → Prop := Closure (Leads key succ m) (· ∈ roots)

structure Inv (m : κ → Bool) (roots : List α) (s : Search α κ) : Prop where
  marked : ∀ k, s.marked k = true ↔ m k = true ∨ ∃ x ∈ s.visited, key x = k
  stack : ∀ x ∈ s.stack, Reach key succ m roots x
  visited : ∀ x ∈ s.visited, Reach key succ m roots x
  roots : ∀ r ∈ roots, r ∈ s.stack ∨ r ∈ s.visited
  leads : ∀ a ∈ s.visited, ∀ v, Leads key succ m a v → v ∈ s.stack ∨ ∃ p ∈ s.visited, key p = key v

variable {key succ} {m : κ → Bool} {roots : List α} {s : Search α κ}

theorem inv_start (m : κ → Bool) (roots : List α) : Inv key succ m roots ⟨roots.reverse, m, []⟩ where
  marked := by simp
  stack := fun x hx => .root (List.mem_reverse.1 hx)
  visited := by simp
  roots := fun r hr => .inl (List.mem_reverse.2 hr)
  leads := by simp

/-- when the stack is empty and no visited element shares its key with what a visited one leads to, every reached
element is visited -/
theorem visited_of_reach (h : Inv key succ m roots s) (hs : s.stack = [])
    (hinj : ∀ p ∈ s.visited, ∀ a ∈ s.visited, ∀ v, Leads key succ m a v → key p = key v → p = v) {x : α}
    (hx : Reach key succ m roots x) : x ∈ s.visited := by
  refine Closure.least (S := fun x => x ∈ s.visited) (fun r hr => ?_) (fun a v ha hav => ?_) hx
  · exact (h.roots r hr).resolve_left (by rw [hs]; exact List.not_mem_nil)
  · obtain ⟨p, hp, hk⟩ := (h.leads a ha v hav).resolve_left (by rw [hs]; exact List.not_mem_nil)
    rwa [← hinj p hp a ha v hav hk]

/-- **The search is complete.** When the stack is empty and no two reached elements share a key, the visited elements
are the reached ones. -/
theorem visited_iff (h : Inv key succ m roots s) (hs : s.stack = [])
    (hinj : ∀ x y, Reach key succ m roots x → Reach key succ m roots y → key x = key y → x = y) (x : α) :
    x ∈ s.visited ↔ Reach key succ m roots x :=
  ⟨h.visited x, visited_of_reach h hs fun p hp a ha v hav =>
    hinj p v (h.visited p hp) ((h.visited a ha).step hav)⟩

/-! ## Rounds -/

variable [DecidableEq κ]

variable (key succ) in
/-- one round -/
def step (s : Search α κ) : Search α κ :=
  match s.stack with
  | [] => s
  | x :: rest =>
    let marked := Function.update s.marked (key x) true
    ⟨((succ x).filter fun v => !marked (key v)).reverse ++ rest, marked, s.visited ++ [x]⟩

theorem step_cons {x : α} {rest : List α} (h : s.stack = x :: rest) :
    step key succ s = ⟨((succ x).filter fun v => !Function.update s.marked (key x) true (key v)).reverse ++ rest,
      Function.update s.marked (key x) true, s.visited ++ [x]⟩ := by
  unfold step
  rw [h]

theorem step_nil (h : s.stack = []) : step key succ s = s := by
  unfold step
  rw [h]

/-- what a round pushes: the successors with unmarked keys -/
theorem mem_pushed {x v : α} : v ∈ ((succ x).filter fun v => !Function.update s.marked (key x) true (key v)).reverse ↔
    v ∈ succ x ∧ s.marked (key v) = false ∧ key v ≠ key x := by
  rw [List.mem_reverse, List.mem_filter]
  apply and_congr_right
  intro _
  by_cases hk : key v = key x
  · simp [hk]
  · simp [hk]

/-- **Step lemma.** -/
theorem inv_step (h : Inv key succ m roots s) : Inv key succ m roots (step key succ s) := by
  cases hs : s.stack with
  | nil => rwa [step_nil hs]
  | cons x rest =>
    have hx := h.stack x (by rw [hs]; exact List.mem_cons_self)
    rw [step_cons hs]
    refine ⟨fun k => ?_, fun v hv => ?_, fun v hv => ?_, fun r hr => ?_, fun a ha v hav => ?_⟩
    · simp only [Function.update_apply, List.mem_append, List.mem_singleton]
      by_cases hk : k = key x
      · simp only [hk, if_true, true_iff]
        exact .inr ⟨x, .inr rfl, rfl⟩
      · rw [if_neg hk, h.marked k]
        apply or_congr_right
        constructor
        · rintro ⟨y, hy, hyk⟩
          exact ⟨y, .inl hy, hyk⟩
        · rintro ⟨y, hy | rfl, hyk⟩
          · exact ⟨y, hy, hyk⟩
          · exact absurd hyk.symm hk
    · rcases List.mem_append.1 hv with hv | hv
      · -- pushed now: its key is unmarked now, so it was at the start
        obtain ⟨hsucc, hun, -⟩ := mem_pushed.1 hv
        refine hx.step ⟨hsucc, ?_⟩
        cases hm : m (key v)
        · rfl
        · rw [(h.marked _).2 (.inl hm)] at hun
          cases hun
      · exact h.stack v (by rw [hs]; exact List.mem_cons_of_mem x hv)
    · rcases List.mem_append.1 hv with hv | hv
      · exact h.visited v hv
      · rw [List.mem_singleton.1 hv]
        exact hx
    · simp only [List.mem_append, List.mem_singleton]
      rcases h.roots r hr with hr | hr
      · rw [hs] at hr
        rcases List.mem_cons.1 hr with rfl | hr
        · exact .inr (.inr rfl)
        · exact .inl (.inr hr)
      · exact .inr (.inl hr)
    · have hold : a ∈ s.visited → v ∈ s.stack ∨ ∃ p ∈ s.visited, key p = key v := fun ha => h.leads a ha v hav
      have hnew : a = x → (∃ p ∈ s.visited ++ [x], key p = key v) ∨
          v ∈ ((succ x).filter fun v => !Function.update s.marked (key x) true (key v)).reverse := by
        rintro rfl
        by_cases hk : key v = key a
        · exact .inl ⟨a, by simp, hk.symm⟩
        cases hm : s.marked (key v)
        · exact .inr (mem_pushed.2 ⟨hav.1, hm, hk⟩)
        · rcases (h.marked _).1 hm with hm | ⟨p, hp, hpk⟩
          · rw [hav.2] at hm
            cases hm
          · exact .inl ⟨p, List.mem_append_left _ hp, hpk⟩
      rcases List.mem_append.1 ha with ha | ha
      · rcases hold ha with hv | ⟨p, hp, hpk⟩
        · rw [hs] at hv
          rcases List.mem_cons.1 hv with rfl | hv
          · exact .inr ⟨v, by simp, rfl⟩
          · exact .inl (List.mem_append_right _ hv)
        · exact .inr ⟨p, List.mem_append_left _ hp, hpk⟩
      · rcases hnew (List.mem_singleton.1 ha) with hp | hv
        · exact .inr hp
        · exact .inl (List.mem_append_left _ hv)

theorem inv_iterate (h : Inv key succ m roots s) (n : ℕ) : Inv key succ m roots ((step key succ)^[n] s) := by
  induction n generalizing s with
  | zero => exact h
  | succ n ih => exact ih (inv_step h)

/-! ## The stack runs empty -/

/-- the stack of `s` runs empty -/
def Halts (key : α → κ) (succ : α → List α) (s : Search α κ) : Prop := ∃ n, ((step key succ)^[n] s).stack = []

theorem halts_of_step (h : Halts key succ (step key succ s)) : Halts key succ s :=
  let ⟨n, hn⟩ := h
  ⟨n + 1, hn⟩

/-- the keys of `K` not marked yet -/
def unmarked (K : Finset κ) (s : Search α κ) : Finset κ := K.filter fun k => s.marked k = false

/-- a round marks the key of the top, and unmarks none -/
theorem unmarked_step (K : Finset κ) {x : α} {rest : List α} (hs : s.stack = x :: rest) :
    unmarked K (step key succ s) = (unmarked K s).erase (key x) := by
  rw [step_cons hs]
  ext k
  simp only [unmarked, Finset.mem_filter, Finset.mem_erase, Function.update_apply]
  by_cases hk : k = key x
  · simp [hk]
  · simp [hk]

/-- a top with a marked key: what is pushed on the rest has unmarked keys, so the next round marks one, or nothing is -/
theorem halts_of_fewer {K : Finset κ} (hK : ∀ x, Reach key succ m roots x → key x ∈ K)
    (hfewer : ∀ t : Search α κ, Inv key succ m roots t → (unmarked K t).card < (unmarked K s).card → Halts key succ t)
    (h : Inv key succ m roots s) : Halts key succ s := by
  -- a round that marks a key
  have mark : ∀ {t : Search α κ} x rest, Inv key succ m roots t → unmarked K t = unmarked K s → t.stack = x :: rest →
      t.marked (key x) = false → Halts key succ t := by
    intro t x rest ht hu hs hx
    apply halts_of_step
    apply hfewer _ (inv_step ht)
    have hmem : key x ∈ unmarked K t :=
      Finset.mem_filter.2 ⟨hK x (ht.stack x (by rw [hs]; exact List.mem_cons_self)), hx⟩
    rw [unmarked_step K hs, ← hu]
    exact Finset.card_erase_lt_of_mem hmem
  -- the rounds that mark none pop the stack, until one pushes something
  have pops : ∀ (l : ℕ) (t : Search α κ), Inv key succ m roots t → unmarked K t = unmarked K s → t.stack.length = l →
      Halts key succ t := by
    intro l
    induction l with
    | zero => exact fun t _ _ hl => ⟨0, List.length_eq_zero_iff.1 hl⟩
    | succ l ih =>
      intro t ht hu hl
      obtain ⟨x, rest, hs⟩ := List.exists_cons_of_length_eq_add_one hl
      cases hx : t.marked (key x) with
      | false => exact mark x rest ht hu hs hx
      | true =>
        have hu' : unmarked K (step key succ t) = unmarked K s := by
          rw [unmarked_step K hs, ← hu]
          apply Finset.erase_eq_of_notMem
          intro hmem
          rw [(Finset.mem_filter.1 hmem).2] at hx
          cases hx
        apply halts_of_step
        cases hp : ((succ x).filter fun v => !Function.update t.marked (key x) true (key v)).reverse with
        | nil =>
          apply ih _ (inv_step ht) hu'
          rw [step_cons hs, hp]
          rw [hs] at hl
          exact Nat.succ_injective hl
        | cons v pushed =>
          have hv : v ∈ ((succ x).filter fun v => !Function.update t.marked (key x) true (key v)).reverse := by
            rw [hp]
            exact List.mem_cons_self
          obtain ⟨-, hun, hne⟩ := mem_pushed.1 hv
          apply mark v (pushed ++ rest) (inv_step ht) hu'
          · rw [step_cons hs, hp]
            rfl
          · rw [step_cons hs]
            simp only
            rw [Function.update_of_ne hne, hun]
  exact pops _ s h rfl rfl

/-- **The search halts** when the keys to be reached are finitely many. -/
theorem halts {K : Finset κ} (hK : ∀ x, Reach key succ m roots x → key x ∈ K) (h : Inv key succ m roots s) :
    Halts key succ s := by
  induction hn : (unmarked K s).card using Nat.strong_induction_on generalizing s with
  | _ n ih =>
    apply halts_of_fewer hK _ h
    intro t ht hlt
    exact ih _ (hn ▸ hlt) ht rfl

end Search

end Immix.Lib
