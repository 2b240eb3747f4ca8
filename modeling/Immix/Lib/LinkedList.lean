/-
Linked lists in a heap: the nodes that a chain of `next` pointers visits until it ends.

`Chain next p nodes`: from the pointer `p`, the chain visits `nodes` and then ends in the null pointer (`none`).
- `Chain.unique`: a pointer has one chain at most.
- `Chain.nodup`: it visits no node twice.
- `Chain.last`: the next pointer of its final node is null.

`DoublyLinked next prev before p nodes`: besides, each node's `prev` is the node before it, and `before` for the first.
- `DoublyLinked.of_getElem`: a list given by its positions.
- `DoublyLinked.congr`: it depends on the links of its nodes only.
- `DoublyLinked.setPrev`: the `prev` of the first node can be changed.
- `DoublyLinked.push`: a node put before the first.
-/
import Mathlib

namespace Immix.Lib

variable {α : Type*}

def Chain (next : α → Option α) : Option α → List α → Prop
  | p, [] => p = none
  | p, q :: nodes => p = some q ∧ Chain next (next q) nodes

variable {next : α → Option α} {p : Option α} {nodes nodes' : List α}

theorem Chain.unique (h : Chain next p nodes) (h' : Chain next p nodes') : nodes = nodes' := by
  induction nodes generalizing p nodes' with
  | nil =>
    obtain rfl : p = none := h
    cases nodes' with
    | nil => rfl
    | cons q nodes' => cases h'.1
  | cons q nodes ih =>
    obtain ⟨rfl, hrest⟩ := h
    cases nodes' with
    | nil => cases (h' : some q = none)
    | cons q' nodes' =>
      obtain ⟨heq, hrest'⟩ := h'
      cases heq
      rw [ih hrest hrest']

/-- the chain from a node that it visits -/
theorem Chain.drop (h : Chain next p nodes) {q : α} {before after : List α} (heq : nodes = before ++ q :: after) :
    Chain next (some q) (q :: after) := by
  induction before generalizing p nodes with
  | nil =>
    subst heq
    exact ⟨rfl, h.2⟩
  | cons r before ih =>
    subst heq
    exact ih h.2 rfl

theorem Chain.head_mem (h : Chain next p nodes) {q : α} (hq : p = some q) : q ∈ nodes := by
  cases nodes with
  | nil => cases hq.symm.trans h
  | cons r nodes =>
    obtain rfl : r = q := Option.some.inj (h.1.symm.trans hq)
    exact List.mem_cons_self

/-- a chain is closed under `next` -/
theorem Chain.next_mem (h : Chain next p nodes) {q r : α} (hq : q ∈ nodes) (hr : next q = some r) : r ∈ nodes := by
  induction nodes generalizing p with
  | nil => cases hq
  | cons s nodes ih =>
    rcases List.mem_cons.1 hq with rfl | hq
    · exact List.mem_cons_of_mem _ (h.2.head_mem hr)
    · exact List.mem_cons_of_mem _ (ih h.2 hq)

/-- the final node has no next -/
theorem Chain.last (h : Chain next p nodes) {q : α} (hq : nodes.getLast? = some q) : next q = none := by
  obtain ⟨before, rfl⟩ := List.getLast?_eq_some_iff.1 hq
  exact (h.drop rfl).2

/-- a node visited twice would be visited again and again -/
theorem Chain.nodup (h : Chain next p nodes) : nodes.Nodup := by
  induction nodes generalizing p with
  | nil => exact List.nodup_nil
  | cons q nodes ih =>
    refine List.nodup_cons.2 ⟨fun hq => ?_, ih h.2⟩
    obtain ⟨before, after, rfl⟩ := List.append_of_mem hq
    have hagain : Chain next (some q) (q :: after) := h.2.drop rfl
    have hlen := congrArg List.length (h.2.unique hagain.2)
    simp only [List.length_append, List.length_cons] at hlen
    omega

theorem Chain.eq_nil (h : Chain next none nodes) : nodes = [] := h.unique rfl

/-! ## Doubly linked -/

def DoublyLinked (next prev : α → Option α) : Option α → Option α → List α → Prop
  | _, p, [] => p = none
  | before, p, q :: nodes => p = some q ∧ prev q = before ∧ DoublyLinked next prev (some q) (next q) nodes

section DoublyLinked

variable {prev next' prev' : α → Option α} {before before' : Option α}

theorem DoublyLinked.chain (h : DoublyLinked next prev before p nodes) : Chain next p nodes := by
  induction nodes generalizing before p with
  | nil => exact h
  | cons q nodes ih => exact ⟨h.1, ih h.2.2⟩

/-- a list whose links are read off the positions -/
theorem DoublyLinked.of_getElem (h : ∀ (i : ℕ) (q : α), nodes[i]? = some q →
    next q = nodes[i + 1]? ∧ prev q = if i = 0 then before else nodes[i - 1]?) :
    DoublyLinked next prev before nodes.head? nodes := by
  induction nodes generalizing before with
  | nil => rfl
  | cons q nodes ih =>
    obtain ⟨hnext, hprev⟩ := h 0 q rfl
    refine ⟨rfl, hprev, ?_⟩
    have hhead : next q = nodes.head? := by
      rw [hnext, List.head?_eq_getElem?]
      rfl
    rw [hhead]
    apply ih
    intro i r hr
    obtain ⟨h1, h2⟩ := h (i + 1) r hr
    refine ⟨h1, h2.trans ?_⟩
    cases i with
    | zero => rfl
    | succ i => rfl

/-- the links of two neighbours agree -/
theorem DoublyLinked.prev_eq (h : DoublyLinked next prev before p nodes) {q r : α} (hq : q ∈ nodes)
    (hr : next q = some r) : prev r = some q := by
  induction nodes generalizing before p with
  | nil => cases hq
  | cons s nodes ih =>
    rcases List.mem_cons.1 hq with rfl | hq
    · cases nodes with
      | nil => cases hr.symm.trans h.2.2
      | cons t nodes =>
        obtain ⟨hnext, hprev, -⟩ := h.2.2
        obtain rfl : t = r := Option.some.inj (hnext.symm.trans hr)
        exact hprev
    · exact ih h.2.2 hq

/-- links that agree on the nodes -/
theorem DoublyLinked.congr (h : DoublyLinked next prev before p nodes)
    (heq : ∀ q ∈ nodes, next' q = next q ∧ prev' q = prev q) : DoublyLinked next' prev' before p nodes := by
  induction nodes generalizing before p with
  | nil => exact h
  | cons q nodes ih =>
    obtain ⟨hnext, hprev⟩ := heq q List.mem_cons_self
    refine ⟨h.1, hprev.trans h.2.1, ?_⟩
    rw [hnext]
    exact ih h.2.2 fun r hr => heq r (List.mem_cons_of_mem q hr)

/-- links that agree but for the first node's `prev` -/
theorem DoublyLinked.setPrev (h : DoublyLinked next prev before p nodes)
    (heq : ∀ q ∈ nodes, next' q = next q ∧ (p ≠ some q → prev' q = prev q))
    (hfirst : ∀ q, p = some q → prev' q = before') : DoublyLinked next' prev' before' p nodes := by
  cases nodes with
  | nil => exact h
  | cons q nodes =>
    obtain ⟨hnotin, -⟩ := List.nodup_cons.1 h.chain.nodup
    obtain ⟨rfl, hprev, hrest⟩ := h
    refine ⟨rfl, hfirst q rfl, ?_⟩
    rw [(heq q List.mem_cons_self).1]
    refine hrest.congr fun r hr => ?_
    obtain ⟨h1, h2⟩ := heq r (List.mem_cons_of_mem q hr)
    refine ⟨h1, h2 fun hqr => hnotin ?_⟩
    cases hqr
    exact hr

/-- a new first node, which the old one names -/
theorem DoublyLinked.push (h : DoublyLinked next prev before p nodes) {q : α} (hnext : next' q = p)
    (hprev : prev' q = before') (heq : ∀ r ∈ nodes, next' r = next r ∧ (p ≠ some r → prev' r = prev r))
    (hfirst : ∀ r, p = some r → prev' r = some q) : DoublyLinked next' prev' before' (some q) (q :: nodes) := by
  refine ⟨rfl, hprev, ?_⟩
  rw [hnext]
  exact h.setPrev heq hfirst

end DoublyLinked

end Immix.Lib
