/-
The free-list space of the C program (`FreeListSpace_new` and `FreeListSpace_alloc` of `c_src/freelist.c`).

Node pointers are numbers, with `none` for NULL; `malloc n` and `memalign n` are the answers of the two library calls for
the allocation after `n` others. A sum of two `int`s that does not fit is undefined behaviour, and so is everything after
it: the state is then `none`. `returned` records what the calls that returned an address were given.
- `WellFormed`: the list from `head`, the pointer `last` and the budget, in one state.
- `free_list_iff`: the runs all of whose states are well-formed.
- `last_is_left_behind`: three allocations that fit.
-/
import Immix.Lib.LinkedList
import Immix.Lib.Run

namespace Immix.C

open Immix.Lib

/-! ## Model -/

/-- `a + b` of two `int`s -/
def intAdd (a b : ℤ) : Option ℤ := if -2 ^ 31 ≤ a + b ∧ a + b < 2 ^ 31 then some (a + b) else none

structure FreeListNode where
  next : Option ℕ
  addr : ℕ
  size : ℤ

structure FreeListSpace where
  head : Option ℕ
  last : Option ℕ
  usedSize : ℤ
  totalSize : ℤ
  /-- the nodes, by their pointers -/
  node : ℕ → FreeListNode
  /-- the address and the size of each allocation that returned one, in order -/
  returned : List (ℕ × ℤ)

/-- the arguments of one call -/
structure Large where
  size : Int32
  align : Int32

namespace FreeListSpace

/-- `FreeListSpace_new` -/
def new (spaceSize : Int32) : FreeListSpace := ⟨none, none, 0, spaceSize.toInt, fun _ => ⟨none, 0, 0⟩, []⟩

section

variable (malloc memalign : ℕ → ℕ)

/-- `FreeListSpace_alloc`: the address returned and the space after the call; `none` when a sum overflows -/
def alloc (s : FreeListSpace) (call : Large) : Option (ℕ × FreeListSpace) :=
  match intAdd s.usedSize call.size.toInt with
  | none => none
  | some sum =>
    if sum > s.totalSize then some (0, s)
    else
      let addr := memalign s.returned.length
      let node := malloc s.returned.length
      let nodes := Function.update s.node node ⟨none, addr, call.size.toInt⟩
      let s' := { s with usedSize := sum, returned := s.returned ++ [(addr, call.size.toInt)] }
      match s.last with
      | none => some (addr, { s' with head := some node, last := some node, node := nodes })
      | some last =>
        some (addr, { s' with node := Function.update nodes last { nodes last with next := some node } })

/-- one call, in a program that may have run into undefined behaviour before -/
def step (s : Option FreeListSpace) (call : Large) : Option FreeListSpace :=
  s.bind fun s => (s.alloc malloc memalign call).map Prod.snd

/-- the state before call `k` -/
def before (spaceSize : Int32) (calls : List Large) (k : ℕ) : Option FreeListSpace :=
  stateAt (step malloc memalign) (some (new spaceSize)) calls k

/-- **A well-formed space.** -/
structure WellFormed (s : FreeListSpace) : Prop where
  /-- the list from `head` ends, with one node for each allocation, in order, and `last` is its final node -/
  list : ∃ nodes, Chain (fun p => (s.node p).next) s.head nodes ∧
    nodes.map (fun p => ((s.node p).addr, (s.node p).size)) = s.returned ∧ s.last = nodes.getLast?
  used : s.usedSize = (s.returned.map Prod.snd).sum
  budget : 0 ≤ s.usedSize ∧ s.usedSize ≤ s.totalSize

/-- what is to hold of a run: every state is reached without overflow and well-formed, and a call that returns 0 changes
nothing -/
structure Holds (spaceSize : Int32) (calls : List Large) : Prop where
  states : ∀ k ≤ calls.length, ∃ s, before malloc memalign spaceSize calls k = some s ∧ s.WellFormed
  refused : ∀ k call s s', calls[k]? = some call → before malloc memalign spaceSize calls k = some s →
    s.alloc malloc memalign call = some (0, s') → s' = s

end

/-- the call is refused, without overflow; or it is the first one served, with a size that is not negative -/
def Meets (s : FreeListSpace) (call : Large) : Prop :=
  (s.totalSize < s.usedSize + call.size.toInt ∧ s.usedSize + call.size.toInt < 2 ^ 31) ∨
    (s.head = none ∧ 0 ≤ call.size.toInt ∧ call.size.toInt ≤ s.totalSize)

/-! ## One call -/

variable {malloc memalign : ℕ → ℕ} {s : FreeListSpace} {call : Large}

theorem intAdd_some {a b sum : ℤ} (h : intAdd a b = some sum) : sum = a + b ∧ a + b < 2 ^ 31 := by
  unfold intAdd at h
  split_ifs at h with hfits
  cases h
  exact ⟨rfl, hfits.2⟩

theorem intAdd_of_fits {a b : ℤ} (h1 : -2 ^ 31 ≤ a + b) (h2 : a + b < 2 ^ 31) : intAdd a b = some (a + b) :=
  if_pos ⟨h1, h2⟩

theorem wellFormed_new {spaceSize : Int32} (h : 0 ≤ spaceSize.toInt) : (new spaceSize).WellFormed where
  list := ⟨[], rfl, rfl, rfl⟩
  used := rfl
  budget := ⟨le_rfl, h⟩

/-- an empty list has no last node, and nothing is used -/
theorem WellFormed.empty (h : s.WellFormed) (hhead : s.head = none) :
    s.last = none ∧ s.returned = [] ∧ s.usedSize = 0 := by
  obtain ⟨nodes, hchain, hmap, hlast⟩ := h.list
  rw [hhead] at hchain
  obtain rfl := hchain.eq_nil
  have hret : s.returned = [] := hmap.symm
  exact ⟨hlast, hret, by rw [h.used, hret]; rfl⟩

/-- a list with a last node has a first -/
theorem WellFormed.last_some (h : s.WellFormed) (hhead : s.head ≠ none) : ∃ last, s.last = some last := by
  obtain ⟨nodes, hchain, -, hlast⟩ := h.list
  cases nodes with
  | nil => exact absurd hchain hhead
  | cons q nodes => exact ⟨_, hlast.trans (List.getLast?_eq_some_getLast (List.cons_ne_nil q nodes))⟩

/-- **A call that meets the condition** keeps the space well-formed. -/
theorem WellFormed.alloc (h : s.WellFormed) (hmeets : Meets s call) :
    ∃ a s', s.alloc malloc memalign call = some (a, s') ∧ s'.WellFormed := by
  have hlow := call.size.le_toInt
  have hhigh := call.size.toInt_lt
  obtain ⟨hpos, hle⟩ := h.budget
  unfold FreeListSpace.alloc
  rw [intAdd_of_fits (by omega) ?_]
  · dsimp only
    obtain ⟨hgt, -⟩ | ⟨hhead, h0, htotal⟩ := hmeets
    · rw [if_pos hgt]
      exact ⟨_, _, rfl, h⟩
    · obtain ⟨hlast, hret, hused⟩ := h.empty hhead
      rw [if_neg (by omega), hlast]
      refine ⟨_, _, rfl, ⟨[malloc s.returned.length], ⟨rfl, ?_⟩, ?_, rfl⟩, ?_, ?_⟩
      · dsimp only
        rw [Function.update_self]
        rfl
      · dsimp only
        rw [hret, List.map_singleton, Function.update_self]
        rfl
      · dsimp only
        rw [hret, hused]
        exact (List.sum_singleton.trans (zero_add _).symm).symm
      · dsimp only
        omega
  · obtain ⟨-, hfits⟩ | ⟨hhead, -, -⟩ := hmeets
    · exact hfits
    · have hused := (h.empty hhead).2.2
      omega

/-- **A call that leaves the space well-formed** meets the condition. -/
theorem WellFormed.meets (h : s.WellFormed) {a : ℕ} {s' : FreeListSpace}
    (hcall : s.alloc malloc memalign call = some (a, s')) (h' : s'.WellFormed) : Meets s call := by
  unfold FreeListSpace.alloc at hcall
  cases hsum : intAdd s.usedSize call.size.toInt with
  | none =>
    rw [hsum] at hcall
    cases hcall
  | some sum =>
    obtain ⟨rfl, hfits⟩ := intAdd_some hsum
    rw [hsum] at hcall
    dsimp only at hcall
    split_ifs at hcall with hgt
    · exact .inl ⟨hgt, hfits⟩
    by_cases hhead : s.head = none
    · -- the first node
      obtain ⟨hlast, hret, hused⟩ := h.empty hhead
      rw [hlast] at hcall
      cases hcall
      have hbudget := h'.budget
      dsimp only at hbudget
      exact .inr ⟨hhead, by omega, by omega⟩
    · -- the old last node points to the new one, and is still `last`
      obtain ⟨last, hlast⟩ := h.last_some hhead
      rw [hlast] at hcall
      cases hcall
      obtain ⟨nodes, hchain, -, hfinal⟩ := h'.list
      dsimp only at hchain hfinal
      have hnext := hchain.last hfinal.symm
      rw [Function.update_self] at hnext
      cases hnext

theorem alloc_zero (hmem : ∀ n, memalign n ≠ 0) {s' : FreeListSpace}
    (hcall : s.alloc malloc memalign call = some (0, s')) : s' = s := by
  unfold FreeListSpace.alloc at hcall
  cases hsum : intAdd s.usedSize call.size.toInt with
  | none =>
    rw [hsum] at hcall
    cases hcall
  | some sum =>
    rw [hsum] at hcall
    dsimp only at hcall
    split_ifs at hcall
    · cases hcall
      rfl
    · cases hlast : s.last with
      | none =>
        rw [hlast] at hcall
        exact absurd (congrArg Prod.fst (Option.some.inj hcall)) (hmem _)
      | some last =>
        rw [hlast] at hcall
        exact absurd (congrArg Prod.fst (Option.some.inj hcall)) (hmem _)

/-! ## Runs -/

theorem before_succ {spaceSize : Int32} {calls : List Large} {k : ℕ} (hk : calls[k]? = some call) :
    before malloc memalign spaceSize calls (k + 1) =
      (before malloc memalign spaceSize calls k).bind fun s => (s.alloc malloc memalign call).map Prod.snd :=
  stateAt_succ _ _ hk

/-- **The runs of the free-list space that keep what they are to keep.** For all answers of `malloc`, all addresses other
than null that `posix_memalign` returns, every total size and every list of calls with any sizes and alignments: every
state is well-formed and no sum overflows, if and only if the total size is not negative and every call is either refused
without an overflow, or made on the empty list with a size from 0 to the total. -/
theorem free_list_iff (malloc memalign : ℕ → ℕ) (hmem : ∀ n, memalign n ≠ 0) (spaceSize : Int32) (calls : List Large) :
    Holds malloc memalign spaceSize calls ↔
      0 ≤ spaceSize.toInt ∧ ∀ k call s, calls[k]? = some call →
        before malloc memalign spaceSize calls k = some s → Meets s call := by
  constructor
  · intro h
    constructor
    · obtain ⟨s, hs, hwf⟩ := h.states 0 (Nat.zero_le _)
      cases hs
      exact hwf.budget.2
    · intro k call s hk hs
      have hlen := (List.getElem?_eq_some_iff.1 hk).1
      obtain ⟨s0, hs0, hwf⟩ := h.states k hlen.le
      obtain rfl : s0 = s := Option.some.inj (hs0.symm.trans hs)
      obtain ⟨s', hs', hwf'⟩ := h.states (k + 1) hlen
      rw [before_succ hk, hs, Option.bind_some, Option.map_eq_some_iff] at hs'
      obtain ⟨⟨a, s''⟩, hcall, rfl⟩ := hs'
      exact hwf.meets hcall hwf'
  · rintro ⟨htotal, hmeets⟩
    refine ⟨fun k hk => ?_, fun k call s s' _ _ hcall => alloc_zero hmem hcall⟩
    induction k with
    | zero => exact ⟨_, rfl, wellFormed_new htotal⟩
    | succ k ih =>
      obtain ⟨s, hs, hwf⟩ := ih (Nat.le_of_succ_le hk)
      have hcall : calls[k]? = some calls[k] := List.getElem?_eq_getElem hk
      have hreturns : ∃ a s', s.alloc malloc memalign calls[k] = some (a, s') ∧ s'.WellFormed :=
        hwf.alloc (hmeets k _ s hcall hs)
      obtain ⟨a, s', halloc, hwf'⟩ := hreturns
      refine ⟨s', ?_, hwf'⟩
      rw [before_succ hcall, hs, Option.bind_some, halloc]
      rfl

/-- fresh pages, in turn for a node and for an object -/
def nodePage (n : ℕ) : ℕ := 4096 * (2 * n + 1)

def objectPage (n : ℕ) : ℕ := 4096 * (2 * n + 2)

theorem objectPage_ne (n : ℕ) : objectPage n ≠ 0 := by
  unfold objectPage
  omega

/-- the second call is refused -/
theorem free_list_iff_refused : Holds nodePage objectPage 100 [⟨60, 8⟩, ⟨60, 8⟩] := by
  refine (free_list_iff nodePage objectPage objectPage_ne 100 [⟨60, 8⟩, ⟨60, 8⟩]).2 ⟨by decide, fun k call s hk hs => ?_⟩
  have hlen : k < 2 := (List.getElem?_eq_some_iff.1 hk).1
  interval_cases k
  · cases hk
    cases hs
    exact .inr ⟨rfl, by decide, by decide⟩
  · cases hk
    have hsizes : (before nodePage objectPage 100 [⟨60, 8⟩, ⟨60, 8⟩] 1).map (fun s => (s.usedSize, s.totalSize)) =
        some (60, 100) := by decide +kernel
    rw [hs, Option.map_some, Option.some.injEq, Prod.mk.injEq] at hsizes
    refine .inl ?_
    rw [hsizes.1, hsizes.2]
    decide

/-- **The last pointer is left behind.** Three allocations that fit: `last` still names the first node, so the second
node is replaced by the third. -/
theorem last_is_left_behind : ¬ Holds nodePage objectPage 100 [⟨8, 8⟩, ⟨8, 8⟩, ⟨8, 8⟩] ∧
    ∃ s, before nodePage objectPage 100 [⟨8, 8⟩, ⟨8, 8⟩, ⟨8, 8⟩] 3 = some s ∧ s.last = some (nodePage 0) ∧
      s.returned = [(8192, 8), (16384, 8), (24576, 8)] ∧
      Chain (fun p => (s.node p).next) s.head [nodePage 0, nodePage 2] := by
  have hrun : (before nodePage objectPage 100 [⟨8, 8⟩, ⟨8, 8⟩, ⟨8, 8⟩] 3).map (fun s =>
      (s.last, s.returned, s.head, (s.node (nodePage 0)).next, (s.node (nodePage 2)).next)) =
      some (some (nodePage 0), [(8192, 8), (16384, 8), (24576, 8)], some (nodePage 0), some (nodePage 2), none) := by
    decide +kernel
  obtain ⟨s, hs, hfields⟩ := Option.map_eq_some_iff.1 hrun
  simp only [Prod.mk.injEq] at hfields
  obtain ⟨hlast, hret, hhead, hnext, hend⟩ := hfields
  have hchain : Chain (fun p => (s.node p).next) s.head [nodePage 0, nodePage 2] := ⟨hhead, hnext, hend⟩
  refine ⟨fun h => ?_, s, hs, hlast, hret, hchain⟩
  obtain ⟨s', hs', hwf⟩ := h.states 3 (le_refl 3)
  obtain rfl : s' = s := Option.some.inj (hs'.symm.trans hs)
  obtain ⟨nodes, hnodes, hmap, -⟩ := hwf.list
  have hlen := congrArg List.length hmap
  rw [hnodes.unique hchain, hret] at hlen
  cases hlen

end FreeListSpace

end Immix.C
