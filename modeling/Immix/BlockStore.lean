/-
What the two block queues of a space are for, without threads, locks and line marks: a store of blocks with an atomic
collector.

A mutator takes the first usable block, or finds that there is none, and gives its block back. A collection is one step,
taken when nobody holds a block: the used blocks that are full stay used, in reverse order, the others become usable, in
the order in which they were used. Which blocks are full is the collector's choice.
- `Store.Inv`: each block is in one queue or with one mutator, and once.
- `Store.inv_step`: every legal operation keeps it.
-/
import Immix.Lib.Run

namespace Immix

open Immix.Lib

structure Store (β : Type*) where
  usable : List β
  used : List β
  /-- the block each mutator holds -/
  held : ℕ → Option β

namespace Store

inductive Op (β : Type*)
  | giveBack (m : ℕ)
  | take (m : ℕ)
  /-- the blocks of `full` have no line left -/
  | collect (full : List β)
deriving DecidableEq, Repr

variable {β : Type*}

/-- a mutator takes a block when it holds none; a collection sweeps used blocks, and nobody holds a block -/
def Legal (t : Store β) : Op β → Prop
  | .giveBack _ => True
  | .take m => t.held m = none
  | .collect full => (∀ m, t.held m = none) ∧ ∀ b ∈ full, b ∈ t.used

def init (blocks : List β) : Store β := ⟨blocks, [], fun _ => none⟩

/-- **The blocks of the store**, each in one place. -/
structure Inv (blocks : List β) (t : Store β) : Prop where
  nodup : (t.usable ++ t.used).Nodup
  mem : ∀ b, b ∈ blocks ↔ b ∈ t.usable ∨ b ∈ t.used ∨ ∃ m, t.held m = some b
  held : ∀ m b, t.held m = some b → b ∉ t.usable ∧ b ∉ t.used
  owner : ∀ m n b, t.held m = some b → t.held n = some b → m = n

variable {blocks : List β} {t : Store β}

theorem inv_init (h : blocks.Nodup) : Inv blocks (init blocks) where
  nodup := by simpa [init] using h
  mem := by simp [init]
  held := by simp [init]
  owner := by simp [init]

/-- the two parts of a queue that a predicate splits -/
theorem nodup_split {l : List β} (p : β → Prop) [DecidablePred p] (h : l.Nodup) :
    (l.filter (¬ p ·) ++ (l.filter (p ·)).reverse).Nodup := by
  refine List.nodup_append.2 ⟨h.filter _, List.nodup_reverse.2 (h.filter _), ?_⟩
  rintro a ha b hb rfl
  simp only [List.mem_filter, List.mem_reverse, decide_eq_true_eq] at ha hb
  exact ha.2 hb.2

variable [DecidableEq β]

def step (t : Store β) : Op β → Store β
  | .giveBack m => { t with used := t.used ++ (t.held m).toList, held := Function.update t.held m none }
  | .take m =>
    match t.usable with
    | [] => t
    | b :: rest => { t with usable := rest, held := Function.update t.held m (some b) }
  | .collect full =>
    { t with
      usable := t.usable ++ t.used.filter (· ∉ full)
      used := (t.used.filter (· ∈ full)).reverse }

theorem Inv.giveBack (h : Inv blocks t) (m : ℕ) : Inv blocks (t.step (.giveBack m)) := by
  cases hm : t.held m with
  | none =>
    have hsame : t.step (.giveBack m) = t := by
      have hheld : Function.update t.held m none = t.held := by rw [← hm, Function.update_eq_self]
      simp [step, hm, hheld]
    rw [hsame]
    exact h
  | some b =>
    obtain ⟨husable, hused⟩ := h.held m b hm
    have hb := (h.mem b).2 (.inr (.inr ⟨m, hm⟩))
    simp only [step, hm, Option.toList_some]
    refine ⟨?_, fun c => ?_, fun n c hn => ?_, fun n k c hn hk => ?_⟩
    · rw [← List.append_assoc]
      refine List.nodup_append.2 ⟨h.nodup, by simp, ?_⟩
      rintro a ha c hc rfl
      simp only [List.mem_append, List.mem_singleton] at ha hc
      subst hc
      exact ha.elim husable hused
    · rw [h.mem c]
      simp only [List.mem_append, List.mem_singleton, Function.update_apply]
      constructor
      · rintro (hc | hc | ⟨n, hn⟩)
        · exact .inl hc
        · exact .inr (.inl (.inl hc))
        · by_cases hnm : n = m
          · subst hnm
            rw [hm] at hn
            cases hn
            exact .inr (.inl (.inr rfl))
          · exact .inr (.inr ⟨n, by rw [if_neg hnm, hn]⟩)
      · rintro (hc | (hc | rfl) | ⟨n, hn⟩)
        · exact .inl hc
        · exact .inr (.inl hc)
        · exact .inr (.inr ⟨m, hm⟩)
        · split_ifs at hn
          exact .inr (.inr ⟨n, hn⟩)
    · simp only [Function.update_apply] at hn
      split_ifs at hn with hnm
      obtain ⟨h1, h2⟩ := h.held n c hn
      refine ⟨h1, ?_⟩
      rw [List.mem_append, List.mem_singleton]
      rintro (hc | rfl)
      · exact h2 hc
      · exact hnm (h.owner n m c hn hm)
    · simp only [Function.update_apply] at hn hk
      split_ifs at hn hk
      exact h.owner n k c hn hk

theorem Inv.take (h : Inv blocks t) {m : ℕ} (hm : t.held m = none) : Inv blocks (t.step (.take m)) := by
  rw [step]
  cases hu : t.usable with
  | nil => exact h
  | cons b rest =>
    have hnodup := h.nodup
    rw [hu, List.cons_append, List.nodup_cons] at hnodup
    obtain ⟨hb, hnodup⟩ := hnodup
    simp only
    have hother : ∀ n c, t.held n = some c → c ≠ b := by
      rintro n c hn rfl
      exact (h.held n c hn).1 (by simp [hu])
    refine ⟨hnodup, fun c => ?_, fun n c hn => ?_, fun n k c hn hk => ?_⟩
    · rw [h.mem c, hu, List.mem_cons]
      simp only [Function.update_apply]
      constructor
      · rintro ((rfl | hc) | hc | ⟨n, hn⟩)
        · exact .inr (.inr ⟨m, by simp⟩)
        · exact .inl hc
        · exact .inr (.inl hc)
        · refine .inr (.inr ⟨n, ?_⟩)
          rw [if_neg, hn]
          rintro rfl
          rw [hm] at hn
          cases hn
      · rintro (hc | hc | ⟨n, hn⟩)
        · exact .inl (.inr hc)
        · exact .inr (.inl hc)
        · split_ifs at hn
          · cases hn
            exact .inl (.inl rfl)
          · exact .inr (.inr ⟨n, hn⟩)
    · simp only [Function.update_apply] at hn
      split_ifs at hn
      · cases hn
        rw [List.mem_append, not_or] at hb
        exact hb
      · obtain ⟨h1, h2⟩ := h.held n c hn
        rw [hu, List.mem_cons, not_or] at h1
        exact ⟨h1.2, h2⟩
    · simp only [Function.update_apply] at hn hk
      split_ifs at hn hk with h1 h2 h2
      · rw [h1, h2]
      · cases hn
        exact absurd rfl (hother k _ hk)
      · cases hk
        exact absurd rfl (hother n _ hn)
      · exact h.owner n k c hn hk

theorem Inv.collect (h : Inv blocks t) (hnone : ∀ m, t.held m = none) (full : List β) :
    Inv blocks (t.step (.collect full)) := by
  obtain ⟨husable, hused, hdisjoint⟩ := List.nodup_append.1 h.nodup
  rw [step]
  refine ⟨?_, fun c => ?_, fun n c hn => ?_, fun n k c hn => ?_⟩
  · rw [List.append_assoc]
    refine List.nodup_append.2 ⟨husable, nodup_split (· ∈ full) hused, ?_⟩
    rintro a ha b hb rfl
    simp only [List.mem_append, List.mem_reverse, List.mem_filter] at hb
    exact hdisjoint a ha a (hb.elim And.left And.left) rfl
  · rw [h.mem c]
    simp only [hnone, reduceCtorEq, exists_false, or_false, List.mem_append, List.mem_filter, List.mem_reverse,
      decide_eq_true_eq]
    tauto
  · rw [hnone n] at hn
    cases hn
  · rw [hnone n] at hn
    cases hn

/-- **Step lemma.** -/
theorem inv_step {o : Op β} (ho : Legal t o) (h : Inv blocks t) : Inv blocks (t.step o) := by
  cases o with
  | giveBack m => exact h.giveBack m
  | take m => exact h.take ho
  | collect full => exact h.collect ho.1 full

end Store

end Immix
