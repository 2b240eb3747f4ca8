/-
The registry of mutators: `MUTATORS`, a generational arena, and the counter `N_MUTATORS` beside it
(`ImmixMutatorLocal::new` and `destroy` of `src/heap/immix/immix_mutator.rs`).

Each step of the two functions that touches shared state is a step of the machine, taken by any thread at any time; the
lock of MUTATORS is held over several of them. `destroy` can be called again on the same mutator. The answer of
`Arena::insert` is given with the step, and `ArenaOk` says what is assumed of it: an index that was never returned
before, in a slot that is free. `Arena::remove` of an index that is not in the arena removes nothing.
- `Registered`: the counter, the entries and the controller's bound, in one state.
- `registry_count`: it holds in every state of a run in which no mutator is destroyed twice.
- `destroyed_twice`: a run in which one is.
-/
import Immix.Lib.Run
import Immix.Lib.Lock
import Immix.Common

namespace Immix.Registry

open Immix.Lib

/-! ## Model -/

/-- an index of the arena -/
structure Index where
  slot : ℕ
  generation : ℕ
deriving DecidableEq

/-- program points of the thread that owns a mutator -/
inductive Pc where
  | absent
  /-- in `new`, holding the lock: before `insert` -/
  | newInsert
  | newAdd
  | newUnlock
  | idle
  /-- in `destroy`, holding the lock: before `remove` -/
  | destroyRemove
  | destroySub
  | destroyUnlock
  /-- `destroy` has returned -/
  | destroyed
deriving DecidableEq

namespace Pc

def holds : Pc → Bool
  | newInsert | newAdd | newUnlock | destroyRemove | destroySub | destroyUnlock => true
  | _ => false

/-- inserted, and not yet removed -/
def live : Pc → Bool
  | newAdd | newUnlock | idle | destroyRemove => true
  | _ => false

/-- removed -/
def gone : Pc → Bool
  | destroySub | destroyUnlock | destroyed => true
  | _ => false

/-- how far the counter is ahead of the arena while the lock is held here -/
def ahead : Pc → ℤ
  | newAdd => -1
  | destroySub => 1
  | _ => 0

theorem ne_of_holds {pc : Pc} (h : pc.holds = true) : pc ≠ idle ∧ pc ≠ destroyed := by
  constructor
  · rintro rfl
    cases h
  · rintro rfl
    cases h

end Pc

structure Thread where
  pc : Pc
  id : Index

structure St where
  lock : Option ℕ
  /-- the entries of MUTATORS -/
  mutators : List Index
  /-- the indexes that the arena has returned so far -/
  issued : List Index
  nMutators : ℕ
  /-- the mutator that acts as controller in `sync_barrier` -/
  controller : Option ℕ
  thread : ℕ → Thread

inductive Op where
  /-- `ImmixMutatorLocal::new` gets the lock -/
  | new (m : ℕ)
  /-- `destroy` gets the lock -/
  | destroy (m : ℕ)
  /-- the next step of the call that `m` is in; `answer` is what an `insert` returns -/
  | tick (m : ℕ) (answer : Index)
  | lead (m : ℕ)
  | resign (m : ℕ)

def init : St := ⟨none, [], [], 0, none, fun _ => ⟨.absent, ⟨0, 0⟩⟩⟩

def St.goto (s : St) (m : ℕ) (pc : Pc) : ℕ → Thread := Function.update s.thread m ⟨pc, (s.thread m).id⟩

def tick (s : St) (m : ℕ) (answer : Index) : St :=
  match (s.thread m).pc with
  | .newInsert =>
    { s with mutators := answer :: s.mutators, issued := answer :: s.issued,
             thread := Function.update s.thread m ⟨.newAdd, answer⟩ }
  | .newAdd => { s with nMutators := (s.nMutators + 1) % usize, thread := s.goto m .newUnlock }
  | .newUnlock => { s with lock := none, thread := s.goto m .idle }
  | .destroyRemove => { s with mutators := s.mutators.erase (s.thread m).id, thread := s.goto m .destroySub }
  | .destroySub => { s with nMutators := (s.nMutators + (usize - 1)) % usize, thread := s.goto m .destroyUnlock }
  | .destroyUnlock => { s with lock := none, thread := s.goto m .destroyed }
  | _ => s

def step (s : St) : Op → St
  | .new m =>
    if s.lock = none ∧ (s.thread m).pc = .absent then { s with lock := some m, thread := s.goto m .newInsert } else s
  | .destroy m =>
    if s.lock = none ∧ s.controller ≠ some m ∧ ((s.thread m).pc = .idle ∨ (s.thread m).pc = .destroyed) then
      { s with lock := some m, thread := s.goto m .destroyRemove }
    else s
  | .tick m answer => tick s m answer
  | .lead m =>
    if s.controller = none ∧ ((s.thread m).pc = .idle ∨ (s.thread m).pc = .destroyed) then
      { s with controller := some m }
    else s
  | .resign m => if s.controller = some m then { s with controller := none } else s

/-- what is assumed of `Arena::insert`; a vector has at most `isize::MAX` entries -/
def ArenaOk (s : St) : Op → Prop
  | .tick m answer => (s.thread m).pc = .newInsert →
      answer ∉ s.issued ∧ answer.slot ∉ s.mutators.map Index.slot ∧ answer.slot < 2 ^ 63
  | _ => True

/-- no mutator is destroyed that has been destroyed before -/
def Once (s : St) : Op → Prop
  | .destroy m => (s.thread m).pc ≠ .destroyed
  | _ => True

instance (s : St) : (o : Op) → Decidable (ArenaOk s o)
  | .tick m answer => inferInstanceAs (Decidable ((s.thread m).pc = .newInsert →
      answer ∉ s.issued ∧ answer.slot ∉ s.mutators.map Index.slot ∧ answer.slot < 2 ^ 63))
  | .new _ | .destroy _ | .lead _ | .resign _ => isTrue trivial

instance (s : St) : (o : Op) → Decidable (Once s o)
  | .destroy m => inferInstanceAs (Decidable ((s.thread m).pc ≠ .destroyed))
  | .new _ | .tick _ _ | .lead _ | .resign _ => isTrue trivial

/-- **The registry and its counter agree** -/
structure Registered (s : St) : Prop where
  count : s.lock = none → s.nMutators = s.mutators.length
  /-- every mutator not yet destroyed is registered under its id -/
  live : ∀ m, (s.thread m).pc.live = true → (s.thread m).id ∈ s.mutators
  /-- the controller's bound does not underflow -/
  bound : ∀ m, s.controller = some m → (s.thread m).id ∈ s.mutators → 1 ≤ s.nMutators

/-! ## The invariant -/

/-- how far the counter is ahead of the arena -/
def ahead (lock : Option ℕ) (thread : ℕ → Thread) : ℤ :=
  match lock with
  | none => 0
  | some m => (thread m).pc.ahead

structure Inv (s : St) : Prop where
  guards : Guards s.lock fun m => (s.thread m).pc.holds
  count : (s.nMutators : ℤ) = s.mutators.length + ahead s.lock s.thread
  live : ∀ m, (s.thread m).pc.live = true → (s.thread m).id ∈ s.mutators
  gone : ∀ m, (s.thread m).pc.gone = true → (s.thread m).id ∉ s.mutators ∧ (s.thread m).id ∈ s.issued
  apart : ∀ m n, (s.thread m).pc.live = true → (s.thread n).pc.live = true → (s.thread m).id = (s.thread n).id → m = n
  issued : ∀ i ∈ s.mutators, i ∈ s.issued
  slots : (s.mutators.map Index.slot).Nodup
  small : ∀ i ∈ s.mutators, i.slot < 2 ^ 63
  controller : ∀ m, s.controller = some m → (s.thread m).pc = .idle ∨ (s.thread m).pc = .destroyed

theorem inv_init : Inv init where
  guards := fun k => by simp [init, Pc.holds]
  count := rfl
  live := fun m h => absurd h Bool.false_ne_true
  gone := fun m h => absurd h Bool.false_ne_true
  apart := fun m n h => absurd h Bool.false_ne_true
  issued := fun i hi => absurd hi List.not_mem_nil
  slots := List.nodup_nil
  small := fun i hi => absurd hi List.not_mem_nil
  controller := fun m h => by cases h

variable {s : St} {m : ℕ}

theorem Inv.nodup (h : Inv s) : s.mutators.Nodup := h.slots.of_map _

theorem Inv.lock_eq (h : Inv s) (hpc : (s.thread m).pc.holds = true) : s.lock = some m := (h.guards m).2 hpc

/-- distinct slots of a vector -/
theorem Inv.length_le (h : Inv s) : s.mutators.length ≤ 2 ^ 63 := by
  have hsub : (s.mutators.map Index.slot).toFinset ⊆ Finset.range (2 ^ 63) := by
    intro i hi
    obtain ⟨j, hj, rfl⟩ := List.mem_map.1 (List.mem_toFinset.1 hi)
    exact Finset.mem_range.2 (h.small j hj)
  have hcard := Finset.card_le_card hsub
  rwa [List.toFinset_card_of_nodup h.slots, List.length_map, Finset.card_range] at hcard

/-- the lock after a step of `m` -/
theorem Inv.guards_set (h : Inv s) {pc : Pc} {lock : Option ℕ} (id : Index)
    (hpass : Passes s.lock lock m (s.thread m).pc.holds pc.holds) :
    Guards lock fun k => (Function.update s.thread m ⟨pc, id⟩ k).pc.holds := by
  refine (h.guards.step hpass).congr fun k => ?_
  by_cases hk : k = m
  · rw [hk, Function.update_self, Function.update_self]
  · rw [Function.update_of_ne hk, Function.update_of_ne hk]

/-- the controller after a step of `m` -/
theorem Inv.controller_set (h : Inv s) {pc : Pc} (id : Index)
    (hcontroller : s.controller = some m → pc = .idle ∨ pc = .destroyed) (k : ℕ) (hk : s.controller = some k) :
    (Function.update s.thread m ⟨pc, id⟩ k).pc = .idle ∨ (Function.update s.thread m ⟨pc, id⟩ k).pc = .destroyed := by
  by_cases hkm : k = m
  · subst hkm
    rw [Function.update_self]
    exact hcontroller hk
  · rw [Function.update_of_ne hkm]
    exact h.controller k hk

theorem Inv.not_controller (h : Inv s) (hpc : (s.thread m).pc ≠ .idle ∧ (s.thread m).pc ≠ .destroyed) :
    s.controller ≠ some m := fun hm => (h.controller m hm).elim hpc.1 hpc.2

/-- a step of `m` that leaves the arena alone and the mutator on the same side of it -/
theorem Inv.move (h : Inv s) {pc : Pc} {lock : Option ℕ} {n : ℕ} (hlive : pc.live = (s.thread m).pc.live)
    (hgone : pc.gone = (s.thread m).pc.gone) (hpass : Passes s.lock lock m (s.thread m).pc.holds pc.holds)
    (hcount : (n : ℤ) = s.mutators.length + ahead lock (s.goto m pc))
    (hcontroller : s.controller = some m → pc = .idle ∨ pc = .destroyed) :
    Inv { s with lock := lock, nMutators := n, thread := s.goto m pc } := by
  have hself : s.goto m pc m = ⟨pc, (s.thread m).id⟩ := Function.update_self ..
  have hother : ∀ k, k ≠ m → s.goto m pc k = s.thread k := fun k hk => Function.update_of_ne hk _ _
  have hid : ∀ k, (s.goto m pc k).id = (s.thread k).id := by
    intro k
    by_cases hk : k = m
    · rw [hk, hself]
    · rw [hother k hk]
  have hpcLive : ∀ k, (s.goto m pc k).pc.live = (s.thread k).pc.live := by
    intro k
    by_cases hk : k = m
    · rw [hk, hself]
      exact hlive
    · rw [hother k hk]
  have hpcGone : ∀ k, (s.goto m pc k).pc.gone = (s.thread k).pc.gone := by
    intro k
    by_cases hk : k = m
    · rw [hk, hself]
      exact hgone
    · rw [hother k hk]
  refine ⟨h.guards_set _ hpass, hcount, fun k hk => ?_, fun k hk => ?_, fun k l hk hl hkl => ?_, h.issued, h.slots,
    h.small, h.controller_set _ hcontroller⟩
  · dsimp only at hk ⊢
    rw [hpcLive] at hk
    rw [hid]
    exact h.live k hk
  · dsimp only at hk ⊢
    rw [hpcGone] at hk
    rw [hid]
    exact h.gone k hk
  · dsimp only at hk hl hkl
    rw [hpcLive] at hk hl
    rw [hid, hid] at hkl
    exact h.apart k l hk hl hkl

/-- `insert` -/
theorem Inv.insert (h : Inv s) (hpc : (s.thread m).pc = .newInsert) {answer : Index} (hnew : answer ∉ s.issued)
    (hslot : answer.slot ∉ s.mutators.map Index.slot) (hsmall : answer.slot < 2 ^ 63) : Inv (tick s m answer) := by
  have hlock : s.lock = some m := h.lock_eq (by rw [hpc]; rfl)
  have hnotMem : answer ∉ s.mutators := fun hmem => hnew (h.issued answer hmem)
  have hself : Function.update s.thread m ⟨.newAdd, answer⟩ m = ⟨.newAdd, answer⟩ := Function.update_self ..
  have hother : ∀ k, k ≠ m → Function.update s.thread m ⟨.newAdd, answer⟩ k = s.thread k :=
    fun k hk => Function.update_of_ne hk _ _
  unfold tick
  rw [hpc]
  refine ⟨h.guards_set _ (.inl ⟨rfl, by rw [hpc]; rfl⟩), ?_, fun k hk => ?_, fun k hk => ?_, fun k l hk hl hkl => ?_,
    fun i hi => ?_, ?_, fun i hi => ?_,
    h.controller_set _ fun hm => absurd hm (h.not_controller (Pc.ne_of_holds (by rw [hpc]; rfl)))⟩
  · have hcount := h.count
    rw [hlock, ahead, hpc] at hcount
    dsimp only
    rw [hlock, ahead, hself, hcount, List.length_cons]
    show ((s.mutators.length : ℤ) + 0) = ((s.mutators.length + 1 : ℕ) : ℤ) + -1
    push_cast
    ring
  · dsimp only at hk ⊢
    by_cases hkm : k = m
    · rw [hkm, hself]
      exact List.mem_cons_self
    · rw [hother k hkm] at hk ⊢
      exact List.mem_cons_of_mem _ (h.live k hk)
  · dsimp only at hk ⊢
    by_cases hkm : k = m
    · rw [hkm, hself] at hk
      cases hk
    · rw [hother k hkm] at hk ⊢
      obtain ⟨h1, h2⟩ := h.gone k hk
      refine ⟨fun hmem => ?_, List.mem_cons_of_mem _ h2⟩
      obtain heq | hmem := List.mem_cons.1 hmem
      · exact hnew (heq ▸ h2)
      · exact h1 hmem
  · -- the new index is none of the live ones
    dsimp only at hk hl hkl
    have hne : ∀ k, k ≠ m → (Function.update s.thread m ⟨.newAdd, answer⟩ k).pc.live = true →
        (Function.update s.thread m ⟨.newAdd, answer⟩ k).id ≠ answer := by
      intro k hkm hk heq
      rw [hother k hkm] at hk heq
      exact hnotMem (heq ▸ h.live k hk)
    by_cases hkm : k = m
    · by_cases hlm : l = m
      · rw [hkm, hlm]
      · rw [hkm, hself] at hkl
        exact absurd hkl.symm (hne l hlm hl)
    · by_cases hlm : l = m
      · rw [hlm, hself] at hkl
        exact absurd hkl (hne k hkm hk)
      · rw [hother k hkm] at hk hkl
        rw [hother l hlm] at hl hkl
        exact h.apart k l hk hl hkl
  · obtain rfl | hi := List.mem_cons.1 hi
    · exact List.mem_cons_self
    · exact List.mem_cons_of_mem _ (h.issued i hi)
  · exact List.nodup_cons.2 ⟨hslot, h.slots⟩
  · obtain rfl | hi := List.mem_cons.1 hi
    · exact hsmall
    · exact h.small i hi

/-- `remove` of a registered mutator -/
theorem Inv.remove (h : Inv s) (hpc : (s.thread m).pc = .destroyRemove) (answer : Index) : Inv (tick s m answer) := by
  have hlock : s.lock = some m := h.lock_eq (by rw [hpc]; rfl)
  have hlive : (s.thread m).pc.live = true := by rw [hpc]; rfl
  have hmem := h.live m hlive
  have hself : s.goto m .destroySub m = ⟨.destroySub, (s.thread m).id⟩ := Function.update_self ..
  have hother : ∀ k, k ≠ m → s.goto m .destroySub k = s.thread k := fun k hk => Function.update_of_ne hk _ _
  have herase : ∀ i, i ∈ s.mutators.erase (s.thread m).id ↔ i ≠ (s.thread m).id ∧ i ∈ s.mutators :=
    fun i => h.nodup.mem_erase_iff
  unfold tick
  rw [hpc]
  refine ⟨h.guards_set _ (.inl ⟨rfl, by rw [hpc]; rfl⟩), ?_, fun k hk => ?_, fun k hk => ?_, fun k l hk hl hkl => ?_,
    fun i hi => ?_, ?_, fun i hi => ?_,
    h.controller_set _ fun hm => absurd hm (h.not_controller (Pc.ne_of_holds (by rw [hpc]; rfl)))⟩
  · have hcount := h.count
    rw [hlock, ahead, hpc] at hcount
    have hpos := List.length_pos_of_mem hmem
    dsimp only
    rw [hlock, ahead, hself, hcount, List.length_erase_of_mem hmem]
    show ((s.mutators.length : ℤ) + 0) = ((s.mutators.length - 1 : ℕ) : ℤ) + 1
    omega
  · dsimp only at hk ⊢
    by_cases hkm : k = m
    · rw [hkm, hself] at hk
      cases hk
    · rw [hother k hkm] at hk ⊢
      exact (herase _).2 ⟨fun heq => hkm (h.apart k m hk hlive heq), h.live k hk⟩
  · dsimp only at hk ⊢
    by_cases hkm : k = m
    · rw [hkm, hself]
      exact ⟨fun hin => ((herase _).1 hin).1 rfl, h.issued _ hmem⟩
    · rw [hother k hkm] at hk ⊢
      exact ⟨fun hin => (h.gone k hk).1 ((herase _).1 hin).2, (h.gone k hk).2⟩
  · dsimp only at hk hl hkl
    by_cases hkm : k = m
    · rw [hkm, hself] at hk
      cases hk
    by_cases hlm : l = m
    · rw [hlm, hself] at hl
      cases hl
    rw [hother k hkm] at hk hkl
    rw [hother l hlm] at hl hkl
    exact h.apart k l hk hl hkl
  · exact h.issued i ((herase i).1 hi).2
  · exact h.slots.sublist (List.erase_sublist.map _)
  · exact h.small i ((herase i).1 hi).2

/-- the counter where the holder of the lock stands -/
theorem Inv.count_at (h : Inv s) (hpc : (s.thread m).pc.holds = true) :
    (s.nMutators : ℤ) = s.mutators.length + (s.thread m).pc.ahead := by
  have hcount := h.count
  rwa [h.lock_eq hpc] at hcount

theorem ahead_goto (s : St) (m : ℕ) (pc : Pc) : ahead (some m) (s.goto m pc) = pc.ahead :=
  congrArg (fun t => t.pc.ahead) (Function.update_self m _ s.thread)

/-- the counter catches up with the arena -/
theorem Inv.settle (h : Inv s) {pc : Pc} {n : ℕ} (hholds : (s.thread m).pc.holds = true) (hholds' : pc.holds = true)
    (hlive : pc.live = (s.thread m).pc.live) (hgone : pc.gone = (s.thread m).pc.gone) (hahead : pc.ahead = 0)
    (hn : n = s.mutators.length) : Inv { s with nMutators := n, thread := s.goto m pc } := by
  refine h.move hlive hgone (.inl ⟨rfl, hholds'.trans hholds.symm⟩) ?_ fun hm => absurd hm (h.not_controller ?_)
  · rw [h.lock_eq hholds, ahead_goto, hahead, hn, add_zero]
  · exact Pc.ne_of_holds hholds

/-- **Step lemma**, inside a call. -/
theorem inv_tick (h : Inv s) (answer : Index) (harena : ArenaOk s (.tick m answer)) : Inv (tick s m answer) := by
  cases hpc : (s.thread m).pc with
  | newInsert =>
    obtain ⟨h1, h2, h3⟩ := harena hpc
    exact h.insert hpc h1 h2 h3
  | destroyRemove => exact h.remove hpc answer
  | newAdd =>
    have hholds : (s.thread m).pc.holds = true := by rw [hpc]; rfl
    have hcount := h.count_at hholds
    have hlen := h.length_le
    rw [hpc] at hcount
    change (s.nMutators : ℤ) = s.mutators.length + -1 at hcount
    have hsum : (s.nMutators + 1) % usize = s.mutators.length := by
      unfold usize
      omega
    unfold tick
    rw [hpc]
    exact h.settle hholds rfl (by rw [hpc]; rfl) (by rw [hpc]; rfl) rfl hsum
  | destroySub =>
    have hholds : (s.thread m).pc.holds = true := by rw [hpc]; rfl
    have hcount := h.count_at hholds
    have hlen := h.length_le
    rw [hpc] at hcount
    change (s.nMutators : ℤ) = s.mutators.length + 1 at hcount
    have hsum : (s.nMutators + (usize - 1)) % usize = s.mutators.length := by
      unfold usize
      omega
    unfold tick
    rw [hpc]
    exact h.settle hholds rfl (by rw [hpc]; rfl) (by rw [hpc]; rfl) rfl hsum
  | newUnlock =>
    have hholds : (s.thread m).pc.holds = true := by rw [hpc]; rfl
    have hcount := h.count_at hholds
    rw [hpc] at hcount
    unfold tick
    rw [hpc]
    exact h.move (by rw [hpc]; rfl) (by rw [hpc]; rfl) (.inr (.inr ⟨rfl, hholds, rfl⟩)) hcount fun _ => .inl rfl
  | destroyUnlock =>
    have hholds : (s.thread m).pc.holds = true := by rw [hpc]; rfl
    have hcount := h.count_at hholds
    rw [hpc] at hcount
    unfold tick
    rw [hpc]
    exact h.move (by rw [hpc]; rfl) (by rw [hpc]; rfl) (.inr (.inr ⟨rfl, hholds, rfl⟩)) hcount fun _ => .inr rfl
  | absent | idle | destroyed =>
    unfold tick
    rw [hpc]
    exact h

/-- **Step lemma.** -/
theorem inv_step (s : St) (o : Op) (harena : ArenaOk s o) (honce : Once s o) (h : Inv s) : Inv (step s o) := by
  cases o with
  | new m =>
    dsimp only [step]
    split_ifs with hc
    swap
    · exact h
    obtain ⟨hlock, hpc⟩ := hc
    have hcount := h.count
    rw [hlock, ahead] at hcount
    refine h.move (by rw [hpc]; rfl) (by rw [hpc]; rfl) (.inr (.inl ⟨hlock, rfl, rfl⟩)) ?_ fun hm => ?_
    · rw [ahead_goto, hcount]
      rfl
    · refine absurd hm (h.not_controller ?_)
      rw [hpc]
      exact ⟨Pc.noConfusion, Pc.noConfusion⟩
  | destroy m =>
    dsimp only [step]
    split_ifs with hc
    swap
    · exact h
    obtain ⟨hlock, hlead, hpc⟩ := hc
    -- not a second time
    have hidle : (s.thread m).pc = .idle := hpc.resolve_right honce
    have hcount := h.count
    rw [hlock, ahead] at hcount
    refine h.move (by rw [hidle]; rfl) (by rw [hidle]; rfl) (.inr (.inl ⟨hlock, rfl, rfl⟩)) ?_
      fun hm => absurd hm hlead
    rw [ahead_goto, hcount]
    rfl
  | tick m answer => exact inv_tick h answer harena
  | lead m =>
    dsimp only [step]
    split_ifs with hc
    swap
    · exact h
    refine { h with controller := fun k hk => ?_ }
    cases hk
    exact hc.2
  | resign m =>
    dsimp only [step]
    split_ifs with hc
    swap
    · exact h
    exact { h with controller := fun k hk => by cases hk }

/-- the invariant says that the registry and the counter agree -/
theorem Inv.registered (h : Inv s) : Registered s where
  count := by
    intro hlock
    have hcount := h.count
    rw [hlock, ahead] at hcount
    omega
  live := h.live
  bound := by
    intro m hm hmem
    -- the controller is registered and not in a call, so it is not the entry that is not yet counted
    have hidle : (s.thread m).pc = .idle := by
      obtain hpc | hpc := h.controller m hm
      · exact hpc
      · exact absurd hmem (h.gone m (by rw [hpc]; rfl)).1
    have hpos := List.length_pos_of_mem hmem
    have hcount := h.count
    cases hlock : s.lock with
    | none =>
      rw [hlock, ahead] at hcount
      omega
    | some k =>
      rw [hlock, ahead] at hcount
      cases hpc : (s.thread k).pc with
      | newAdd =>
        have hk := h.live k (by rw [hpc]; rfl)
        have hne : (s.thread k).id ≠ (s.thread m).id := by
          intro heq
          have hkm := h.apart k m (by rw [hpc]; rfl) (by rw [hidle]; rfl) heq
          rw [hkm, hidle] at hpc
          cases hpc
        have hlen := List.length_erase_of_mem hk
        have hpos' := List.length_pos_of_mem ((List.mem_erase_of_ne hne.symm).2 hmem)
        rw [hpc] at hcount
        change (s.nMutators : ℤ) = s.mutators.length + -1 at hcount
        omega
      | destroySub =>
        rw [hpc] at hcount
        change (s.nMutators : ℤ) = s.mutators.length + 1 at hcount
        omega
      | absent | newInsert | newUnlock | idle | destroyRemove | destroyUnlock | destroyed =>
        rw [hpc] at hcount
        change (s.nMutators : ℤ) = s.mutators.length + 0 at hcount
        omega

/-- **The registry and its counter agree in every run without a second destroy.** For any number of mutators and every
interleaving of the steps of `new` and `destroy`, when no `destroy` is made on a mutator that has been destroyed: while
the lock is free the counter is the number of entries, every mutator not yet destroyed is registered, and the
controller's bound does not underflow. -/
theorem registry_count (ops : List Op) (harena : LegalRun step ArenaOk init ops) (honce : LegalRun step Once init ops)
    (k : ℕ) : Registered (stateAt step init ops k) := by
  have hlegal : LegalRun step (fun s o => ArenaOk s o ∧ Once s o) init ops :=
    fun k o ho => ⟨harena k o ho, honce k o ho⟩
  exact (stateAt_inv (I := Inv) (fun s o hl h => inv_step s o hl.1 hl.2 h) inv_init hlegal k).registered

/-- a call of `new` or `destroy` to its end -/
def call (o : Op) (m : ℕ) (answer : Index) : List Op := o :: List.replicate 3 (.tick m answer)

/-- two mutators, and the first one destroyed -/
def oneOfTwo : List Op := call (.new 0) 0 ⟨0, 0⟩ ++ call (.new 1) 1 ⟨1, 0⟩ ++ call (.destroy 0) 0 ⟨0, 0⟩

theorem registry_count_oneOfTwo : Registered (stateAt step init oneOfTwo 12) :=
  registry_count oneOfTwo (by decide +kernel) (by decide +kernel) 12

/-- **A second destroy.** Mutator 0 is destroyed twice, and mutator 1 becomes controller: one mutator is registered, the
counter is 0, and the controller's bound underflows. -/
theorem destroyed_twice :
    ¬ Registered (stateAt step init (oneOfTwo ++ call (.destroy 0) 0 ⟨0, 0⟩ ++ [.lead 1]) 17) := by
  intro h
  have hbound := h.bound 1 (by decide +kernel) (by decide +kernel)
  exact absurd hbound (by decide +kernel)

end Immix.Registry
