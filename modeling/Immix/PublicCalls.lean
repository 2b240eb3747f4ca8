/-
The public methods of a mutator in any order (`alloc`, `yieldpoint`, `request_gc`, `prepare_for_gc`, `reset`, `destroy` of
`src/heap/immix/immix_mutator.rs`), with other mutators and collections running.

`Calls` is the heap with the methods that `Heap.step` performs only inside the barrier made callable: `prepare_for_gc` and
`destroy` give the block back and leave `cursor`, `limit` and `line`, `reset` clears them. A `yieldpoint` or `request_gc`
whose flag is not set does nothing; one that takes the slow path is a `stop` and, after a collection, a `resume`. The ids
of the heap are the registered mutators; a destroyed one can still be called.

`gaveBack` records, until a reset, the mutator as it was when `prepare_for_gc` or `destroy` took its block.
- `MutatorInv`: the state between two calls of a mutator that has not given its block back.
- `Calls.forget`: the heap with what such a mutator has left over cleared; it keeps `Heap.Inv`.
- `mutator_invariant`: in every run that does not allocate from what is left over and does not use a destroyed mutator.
- `left_over_region`: runs that do.
-/
import Immix.Heap

namespace Immix

open Immix.Lib

/-- what holds of a mutator between two calls -/
structure MutatorInv (t : LineMarkTable) (x : ImmixMutatorLocal) : Prop where
  empty : x.block = none → x.cursor = x.limit ∧ x.line = linesInBlock
  region : ∀ b, x.block = some b →
    b.start ≤ x.cursor ∧ x.cursor ≤ x.limit ∧ x.limit ≤ Address.plus b.start (x.line <<< logBytesInLine)
  fresh : ∀ b, x.block = some b → ∀ a, x.cursor ≤ a → a < x.limit → t.get (t.lineOf a) = .freshAlloc

theorem Shape.mutatorInv {t : LineMarkTable} {x : ImmixMutatorLocal} (h : Shape t x) : MutatorInv t x := by
  refine ⟨fun hb => ?_, fun b hb => ?_, fun b _ a h1 h2 => h.fresh a h1 h2⟩
  · obtain ⟨h1, h2, h3⟩ := h.empty hb
    exact ⟨by rw [h1, h2], by rw [h3, linesInBlock_eq]⟩
  · obtain ⟨h1, h2, h3, -⟩ := h.region b hb
    rw [Address.plus, shiftLeft_line]
    exact ⟨h1, h2, h3⟩

/-! ## Model -/

structure Calls where
  heap : Heap
  /-- the mutators made so far, destroyed ones included -/
  created : List ℕ
  gaveBack : ℕ → Option ImmixMutatorLocal

inductive Call where
  | new (m : ℕ)
  | alloc (m : ℕ) (layout : Layout)
  /-- the next step of the allocation mutator `m` is in -/
  | tick (m : ℕ)
  /-- `yieldpoint`, `request_gc` or the loop of `alloc_from_global` takes the slow path -/
  | stop (m : ℕ)
  | gc (roots : List ℕ) (cpus : ℕ+) (schedule : List (ℕ × ℕ))
  | resume (m : ℕ)
  | prepareForGc (m : ℕ)
  | reset (m : ℕ)
  | destroy (m : ℕ)
  | initObject (m addr : ℕ) (encode : UInt8)
  | write (m addr : ℕ) (value : UInt64)

namespace Calls

def new (sp : Space) : Calls := ⟨Heap.new sp, [], fun _ => none⟩

/-- mutator `m` is between two calls -/
def Idle (s : Calls) (m : ℕ) : Prop := m ∈ s.created ∧ (s.heap.mutator m).pc = .idle

instance (s : Calls) (m : ℕ) : Decidable (s.Idle m) := by unfold Idle; infer_instance

/-- `return_block`, called between two calls -/
def giveBack (s : Calls) (m : ℕ) : Calls :=
  { s with
    heap := { s.heap.setMutator m ⟨((s.heap.mutator m).loc.returnBlock s.heap.used).1, (s.heap.mutator m).pc⟩ with
      used := ((s.heap.mutator m).loc.returnBlock s.heap.used).2 }
    gaveBack :=
      if (s.heap.mutator m).loc.block.isSome then Function.update s.gaveBack m (some (s.heap.mutator m).loc)
      else s.gaveBack }

def step (sp : Space) (s : Calls) (c : Call) : Calls :=
  if s.heap.crashed then s else
  match c with
  | .new m =>
    if m ∈ s.created then s
    else
      { s with
        heap := { s.heap.setMutator m ⟨.new, .idle⟩ with ids := m :: s.heap.ids }
        created := m :: s.created }
  | .alloc m layout =>
    if s.Idle m then { s with heap := s.heap.setMutator m ⟨(s.heap.mutator m).loc, .alloc layout⟩ } else s
  | .tick m => if m ∈ s.created then { s with heap := s.heap.tick m } else s
  | .stop m => if m ∈ s.created then { s with heap := s.heap.stop m } else s
  | .gc roots cpus schedule => { s with heap := s.heap.gc sp roots cpus schedule }
  | .resume m =>
    if m ∈ s.created then
      match (s.heap.mutator m).pc with
      | .released _ => { s with heap := s.heap.resume m, gaveBack := Function.update s.gaveBack m none }
      | _ => s
    else s
  | .prepareForGc m => if s.Idle m then s.giveBack m else s
  | .reset m =>
    if s.Idle m then
      { s with
        heap := s.heap.setMutator m ⟨(s.heap.mutator m).loc.reset, .idle⟩
        gaveBack := Function.update s.gaveBack m none }
    else s
  | .destroy m =>
    if s.Idle m then
      { s.giveBack m with heap := { (s.giveBack m).heap with ids := s.heap.ids.filter (· ≠ m) } }
    else s
  | .initObject m addr encode =>
    if s.Idle m ∧ sp.start ≤ addr ∧ addr < sp.stop then
      { s with heap := { s.heap with allocMap := Immix.initObject s.heap.allocMap sp.start addr encode } }
    else s
  | .write m addr value =>
    if s.Idle m ∧ 8 ∣ addr then
      { s with heap := { s.heap with memory := Function.update s.heap.memory addr value } }
    else s

/-- no allocation from what a mutator that gave its block back has left over; a destroyed mutator neither allocates nor
comes to a yieldpoint, and is not destroyed again -/
def Legal (s : Calls) : Call → Prop
  | .alloc m _ => m ∈ s.heap.ids ∧ s.gaveBack m = none
  | .stop m | .destroy m => m ∈ s.heap.ids
  | _ => True

instance (s : Calls) : (c : Call) → Decidable (s.Legal c)
  | .alloc _ _ => inferInstanceAs (Decidable (_ ∧ _))
  | .stop m | .destroy m => inferInstanceAs (Decidable (m ∈ s.heap.ids))
  | .new _ | .tick _ | .gc _ _ _ | .resume _ | .prepareForGc _ | .reset _ | .initObject _ _ _ | .write _ _ _ => isTrue trivial

end Calls

/-! ## Heaps -/

namespace Heap

variable {sp : Space} {s : Heap} {m : ℕ}

/-- of the mutators, the step reads and writes only `m` -/
def Own (op : Heap → Heap) (m : ℕ) (s : Heap) : Prop :=
  ∃ x, (op s).mutator = Function.update s.mutator m x ∧ (op s).ids = s.ids ∧
    ∀ f : ℕ → Mutator, f m = s.mutator m → op { s with mutator := f } = { op s with mutator := Function.update f m x }

theorem own_tick (s : Heap) (m : ℕ) : Own (·.tick m) m s := by
  have same : ∃ x, s.mutator = Function.update s.mutator m x ∧ s.ids = s.ids ∧ ∀ f : ℕ → Mutator, f m = s.mutator m →
      ({ s with mutator := f } : Heap) = { s with mutator := Function.update f m x } := by
    refine ⟨s.mutator m, (Function.update_eq_self m s.mutator).symm, rfl, fun f hf => ?_⟩
    rw [← hf, Function.update_eq_self]
  unfold Own
  dsimp only
  unfold Heap.tick
  cases hpc : (s.mutator m).pc with
  | alloc layout =>
    dsimp only
    cases hb : (s.mutator m).loc.bump layout with
    | some p =>
      refine ⟨⟨p.2, .idle⟩, rfl, rfl, fun f hf => ?_⟩
      simp only [hf, hpc, hb]
      rfl
    | none =>
      refine ⟨⟨(s.mutator m).loc, .tryAllocFromLocal layout⟩, rfl, rfl, fun f hf => ?_⟩
      simp only [hf, hpc, hb]
      rfl
  | tryAllocFromLocal layout =>
    dsimp only
    cases ht : (s.mutator m).loc.tryAllocFromLocal s.lines with
    | hole loc lines =>
      refine ⟨⟨loc, .alloc layout⟩, rfl, rfl, fun f hf => ?_⟩
      simp only [hf, hpc, ht]
      rfl
    | none =>
      refine ⟨⟨(s.mutator m).loc, .allocFromGlobal layout⟩, rfl, rfl, fun f hf => ?_⟩
      simp only [hf, hpc, ht]
      rfl
    | panicked =>
      refine ⟨⟨(s.mutator m).loc, .panicked⟩, rfl, rfl, fun f hf => ?_⟩
      simp only [hf, hpc, ht]
      rfl
  | allocFromGlobal layout =>
    refine ⟨⟨((s.mutator m).loc.returnBlock s.used).1, .loop layout⟩, rfl, rfl, fun f hf => ?_⟩
    simp only [hf, hpc]
    rfl
  | loop layout =>
    dsimp only
    cases hu : s.usable with
    | cons b usable =>
      refine ⟨⟨(s.mutator m).loc.useBlock b, .alloc layout⟩, rfl, rfl, fun f hf => ?_⟩
      simp only [hf, hpc]
      rfl
    | nil =>
      obtain ⟨x, h1, h2, h3⟩ := same
      refine ⟨x, h1, h2, fun f hf => ?_⟩
      simp only [hf, hpc]
      rw [← hu]
      exact h3 f hf
  | _ =>
    obtain ⟨x, h1, h2, h3⟩ := same
    refine ⟨x, h1, h2, fun f hf => ?_⟩
    simp only [hf, hpc]
    exact h3 f hf

theorem own_stop (s : Heap) (m : ℕ) : Own (·.stop m) m s := by
  unfold Own
  dsimp only
  unfold Heap.stop
  cases hpc : (s.mutator m).pc with
  | idle =>
    refine ⟨⟨((s.mutator m).loc.returnBlock s.used).1, .stopped none⟩, rfl, rfl, fun f hf => ?_⟩
    simp only [hf, hpc, park]
    rfl
  | loop layout =>
    refine ⟨⟨((s.mutator m).loc.returnBlock s.used).1, .stopped (some layout)⟩, rfl, rfl, fun f hf => ?_⟩
    simp only [hf, hpc, park]
    rfl
  | _ =>
    refine ⟨s.mutator m, (Function.update_eq_self m s.mutator).symm, rfl, fun f hf => ?_⟩
    simp only [hf, hpc]
    rw [← hf, Function.update_eq_self]

/-- `reset` of a mutator that holds a block drops the block -/
theorem Inv.drop (h : Inv sp s) {loc : ImmixMutatorLocal} (hloc : loc = ImmixMutatorLocal.new) :
    Inv sp (s.setMutator m ⟨loc, .idle⟩) := by
  subst hloc
  have hmut : ∀ n, n ≠ m → (s.setMutator m ⟨.new, .idle⟩).mutator n = s.mutator n := fun n hn =>
    Function.update_of_ne hn _ _
  have hself : (s.setMutator m ⟨.new, .idle⟩).mutator m = ⟨.new, .idle⟩ := Function.update_self ..
  refine ⟨h.traceMap, h.lines, h.nodup, h.blocks, fun n hn b hb => ?_, fun n hn n' hn' b hb hb' => ?_, fun n hn hp => ?_,
    fun n hn hp => ?_, fun n hn => ?_⟩
  · by_cases hnm : n = m
    · subst hnm
      rw [hself] at hb
      cases hb
    · rw [hmut n hnm] at hb
      exact h.held n hn b hb
  · by_cases hnm : n = m
    · subst hnm
      rw [hself] at hb
      cases hb
    by_cases hnm' : n' = m
    · subst hnm'
      rw [hself] at hb'
      cases hb'
    rw [hmut n hnm] at hb
    rw [hmut n' hnm'] at hb'
    exact h.owner n hn n' hn' b hb hb'
  · by_cases hnm : n = m
    · subst hnm
      rw [hself]
      exact shape_reset s.lines .new
    · rw [hmut n hnm] at hp ⊢
      exact h.shape n hn hp
  · by_cases hnm : n = m
    · subst hnm
      rw [hself]
      rfl
    · rw [hmut n hnm] at hp ⊢
      exact h.returned n hn hp
  · by_cases hnm : n = m
    · subst hnm
      rw [hself]
      exact nofun
    · rw [hmut n hnm]
      exact h.running n hn

/-- a block given back by a mutator that goes on as if reset -/
theorem Inv.giveBack (h : Inv sp s) (hm : m ∈ s.ids) {b : ImmixBlock} (hb : (s.mutator m).loc.block = some b) :
    Inv sp { s.setMutator m ⟨(s.mutator m).loc.reset, .idle⟩ with used := s.used ++ [b] } := by
  refine h.frame hm ⟨(s.mutator m).loc.reset, .idle⟩ h.lines ?_ (fun n hn _ => h.shape n hn)
    (fun _ => shape_reset s.lines (s.mutator m).loc) (fun _ => rfl) nofun
  rw [hb]
  show (s.usable ++ (s.used ++ [b]) ++ []).Perm (s.usable ++ s.used ++ [b])
  rw [List.append_nil, List.append_assoc]

end Heap

namespace Calls

variable {sp : Space} {s : Calls} {m : ℕ}

/-! ## The heap without what was left over -/

/-- a mutator that gave its block back, as if it had been reset -/
def forgetOne (x : Mutator) : Option ImmixMutatorLocal → Mutator
  | none => x
  | some _ => ⟨x.loc.reset, x.pc⟩

@[simp] theorem forgetOne_pc (x : Mutator) (back : Option ImmixMutatorLocal) : (forgetOne x back).pc = x.pc := by
  cases back <;> rfl

def forget (s : Calls) : Heap := { s.heap with mutator := fun m => forgetOne (s.heap.mutator m) (s.gaveBack m) }

theorem forget_mutator (h : s.gaveBack m = none) : s.forget.mutator m = s.heap.mutator m := by
  show forgetOne (s.heap.mutator m) (s.gaveBack m) = s.heap.mutator m
  rw [h]
  rfl

theorem forgetOne_update (f : ℕ → Mutator) (g : ℕ → Option ImmixMutatorLocal) (m : ℕ) (x : Mutator)
    (back : Option ImmixMutatorLocal) :
    (fun n => forgetOne (Function.update f m x n) (Function.update g m back n)) =
      Function.update (fun n => forgetOne (f n) (g n)) m (forgetOne x back) := by
  funext n
  by_cases hn : n = m
  · subst hn
    simp only [Function.update_self]
  · simp only [Function.update_of_ne hn]

/-! ## The invariant -/

/-- what is known of a mutator that gave its block back or is destroyed -/
structure Record (registered : Prop) (given : Option ImmixMutatorLocal) (x : Mutator) : Prop where
  back : ∀ y, given = some y → y.block.isSome = true ∧ x.loc = { y with block := none } ∧ x.pc.layout = none ∧
    x.pc ≠ .panicked
  gone : ¬ registered → x.pc = .idle ∧
    (given = none → x.loc.block = none ∧ x.loc.cursor = x.loc.limit ∧ x.loc.line = linesInBlock)

theorem Record.registered {registered : Prop} (h : registered) (x : Mutator) : Record registered none x :=
  ⟨nofun, fun hn => absurd h hn⟩

structure Inv (sp : Space) (s : Calls) : Prop where
  heap : Heap.Inv sp s.forget
  unknown : ∀ m, m ∉ s.created → m ∉ s.heap.ids ∧ s.gaveBack m = none
  record : ∀ m ∈ s.created, Record (m ∈ s.heap.ids) (s.gaveBack m) (s.heap.mutator m)

theorem inv_new (sp : Space) : Inv sp (new sp) where
  heap := Heap.inv_new sp
  unknown := fun _ _ => ⟨List.not_mem_nil, rfl⟩
  record := fun _ hm => absurd hm List.not_mem_nil

theorem Inv.created (h : Inv sp s) (hm : m ∈ s.heap.ids) : m ∈ s.created := by
  by_contra hn
  exact (h.unknown m hn).1 hm

/-- a mutator that is not idle is registered -/
theorem Inv.registered (h : Inv sp s) (hm : m ∈ s.created) (hpc : (s.heap.mutator m).pc ≠ .idle) : m ∈ s.heap.ids := by
  by_contra hn
  exact hpc ((h.record m hm).gone hn).1

/-- a mutator that holds a block has not given it back, and is registered -/
theorem Inv.holds (h : Inv sp s) (hm : m ∈ s.created) {b : ImmixBlock} (hb : (s.heap.mutator m).loc.block = some b) :
    s.gaveBack m = none ∧ m ∈ s.heap.ids := by
  have hrec := h.record m hm
  have hback : s.gaveBack m = none := by
    cases hy : s.gaveBack m with
    | none => rfl
    | some y =>
      obtain ⟨-, hloc, -⟩ := hrec.back y hy
      rw [hloc] at hb
      cases hb
  refine ⟨hback, ?_⟩
  by_contra hn
  rw [((hrec.gone hn).2 hback).1] at hb
  cases hb

/-- a step that changes what is known of one mutator -/
theorem Inv.one (h : Inv sp s) (hm : m ∈ s.created) (heap : Heap) (x : Mutator) (back : Option ImmixMutatorLocal)
    (hmut : heap.mutator = Function.update s.heap.mutator m x) (hids : ∀ n, n ≠ m → (n ∈ heap.ids ↔ n ∈ s.heap.ids))
    (hinv : Heap.Inv sp { heap with mutator := Function.update s.forget.mutator m (forgetOne x back) })
    (hrec : Record (m ∈ heap.ids) back x) :
    Inv sp { s with heap := heap, gaveBack := Function.update s.gaveBack m back } := by
  refine ⟨?_, fun n hn => ?_, fun n hn => ?_⟩
  · unfold forget
    dsimp only
    rw [hmut, forgetOne_update]
    exact hinv
  · have hnm : n ≠ m := fun hnm => hn (by rw [hnm]; exact hm)
    dsimp only
    rw [hids n hnm, Function.update_of_ne hnm]
    exact h.unknown n hn
  · dsimp only
    by_cases hnm : n = m
    · subst hnm
      rw [hmut, Function.update_self, Function.update_self]
      exact hrec
    · have hold := h.record n hn
      rw [← hids n hnm] at hold
      rw [hmut, Function.update_of_ne hnm, Function.update_of_ne hnm]
      exact hold

/-- a step of a registered mutator with nothing left over -/
theorem Inv.own (h : Inv sp s) (hm : m ∈ s.heap.ids) (hback : s.gaveBack m = none) (op : Heap → Heap)
    (hown : Heap.Own op m s.heap) (hinv : Heap.Inv sp (op s.forget)) : Inv sp { s with heap := op s.heap } := by
  obtain ⟨x, hmut, hids, hf⟩ := hown
  have hforget : op s.forget = { op s.heap with mutator := Function.update s.forget.mutator m x } :=
    hf s.forget.mutator (forget_mutator hback)
  rw [hforget] at hinv
  have hrec : Record (m ∈ (op s.heap).ids) none x := Record.registered (by rw [hids]; exact hm) x
  have hone := h.one (h.created hm) (op s.heap) x none hmut (fun n _ => by rw [hids]) hinv hrec
  rw [← hback, Function.update_eq_self] at hone
  exact hone

/-! ## The calls -/

theorem Inv.new (h : Inv sp s) (hm : m ∉ s.created) :
    Inv sp { s with
      heap := { s.heap.setMutator m ⟨.new, .idle⟩ with ids := m :: s.heap.ids }
      created := m :: s.created } := by
  obtain ⟨hids, hback⟩ := h.unknown m hm
  refine ⟨?_, fun n hn => ?_, fun n hn => ?_⟩
  · have hinv := h.heap.newMutator hids
    have hforget := forgetOne_update s.heap.mutator s.gaveBack m ⟨.new, .idle⟩ none
    rw [← hback, Function.update_eq_self, hback] at hforget
    unfold forget
    dsimp only [Heap.setMutator]
    rw [hforget]
    exact hinv
  · rw [List.mem_cons, not_or] at hn
    obtain ⟨h1, h2⟩ := h.unknown n hn.2
    exact ⟨by rw [List.mem_cons, not_or]; exact ⟨hn.1, h1⟩, h2⟩
  · by_cases hnm : n = m
    · subst hnm
      dsimp only
      rw [hback]
      exact Record.registered List.mem_cons_self _
    · have hold := h.record n ((List.mem_cons.1 hn).resolve_left hnm)
      dsimp only [Heap.setMutator]
      rw [Function.update_of_ne hnm, List.mem_cons, or_iff_right hnm]
      exact hold

theorem Inv.alloc (h : Inv sp s) (hm : m ∈ s.heap.ids) (hback : s.gaveBack m = none)
    (hpc : (s.heap.mutator m).pc = .idle) (layout : Layout) :
    Inv sp { s with heap := s.heap.setMutator m ⟨(s.heap.mutator m).loc, .alloc layout⟩ } := by
  have hmut : s.forget.mutator m = s.heap.mutator m := forget_mutator hback
  refine h.own hm hback (fun t => t.setMutator m ⟨(t.mutator m).loc, .alloc layout⟩) ?_ ?_
  · refine ⟨⟨(s.heap.mutator m).loc, .alloc layout⟩, rfl, rfl, fun f hf => ?_⟩
    dsimp only [Heap.setMutator]
    rw [hf]
  · refine h.heap.setMutator hm ⟨(s.forget.mutator m).loc, .alloc layout⟩ rfl (fun _ => ?_) nofun nofun
    exact h.heap.shape m hm (by rw [hmut, hpc]; rfl)

theorem tick_of_layout {t : Heap} (h : (t.mutator m).pc.layout = none) : t.tick m = t := by
  unfold Heap.tick
  cases hpc : (t.mutator m).pc with
  | alloc | tryAllocFromLocal | allocFromGlobal | loop =>
    rw [hpc] at h
    cases h
  | _ => rfl

theorem Inv.tick (h : Inv sp s) (hm : m ∈ s.created) : Inv sp { s with heap := s.heap.tick m } := by
  by_cases hlayout : (s.heap.mutator m).pc.layout = none
  · rw [tick_of_layout hlayout]
    exact h
  have hreg : m ∈ s.heap.ids := h.registered hm fun hpc => hlayout (by rw [hpc]; rfl)
  cases hback : s.gaveBack m with
  | none => exact h.own hreg hback (·.tick m) (Heap.own_tick s.heap m) (h.heap.tick hreg)
  | some y =>
    obtain ⟨-, -, hnone, -⟩ := (h.record m hm).back y hback
    exact absurd hnone hlayout

theorem Inv.stop (h : Inv sp s) (hm : m ∈ s.heap.ids) : Inv sp { s with heap := s.heap.stop m } := by
  cases hback : s.gaveBack m with
  | none => exact h.own hm hback (·.stop m) (Heap.own_stop s.heap m) (h.heap.stop hm)
  | some y =>
    -- it has no block left to return
    obtain ⟨hy, hloc, hlayout, hpan⟩ := (h.record m (h.created hm)).back y hback
    have hret : (s.heap.mutator m).loc.returnBlock s.heap.used = ((s.heap.mutator m).loc, s.heap.used) := by
      rw [hloc]
      rfl
    unfold Heap.stop
    cases hpc : (s.heap.mutator m).pc with
    | idle =>
      dsimp only [Heap.park]
      rw [hret]
      have hrec : Record (m ∈ s.heap.ids) (some y) ⟨(s.heap.mutator m).loc, .stopped none⟩ :=
        ⟨fun y' hy' => ⟨by cases hy'; exact hy, by cases hy'; exact hloc, rfl, nofun⟩, fun hn => absurd hm hn⟩
      have hinv : Heap.Inv sp (s.forget.setMutator m ⟨(s.heap.mutator m).loc.reset, .stopped none⟩) := by
        refine h.heap.setMutator hm _ ?_ nofun (fun _ => rfl) nofun
        show _ = (forgetOne (s.heap.mutator m) (s.gaveBack m)).loc.block
        rw [hback]
        rfl
      have hone := h.one (h.created hm) (s.heap.setMutator m ⟨(s.heap.mutator m).loc, .stopped none⟩) _ (some y) rfl
        (fun _ _ => Iff.rfl) hinv hrec
      rw [← hback, Function.update_eq_self] at hone
      exact hone
    | loop layout =>
      rw [hpc] at hlayout
      cases hlayout
    | _ => exact h

theorem layout_release (pc : MutPc) : pc.release.layout = pc.layout := by
  cases pc <;> rfl

theorem release_ne_panicked {pc : MutPc} (h : pc ≠ .panicked) : pc.release ≠ .panicked := by
  cases pc with
  | panicked => exact absurd rfl h
  | _ => exact nofun

theorem forgetOne_release (x : Mutator) (given : Option ImmixMutatorLocal) :
    forgetOne { x with pc := x.pc.release } given = { forgetOne x given with pc := (forgetOne x given).pc.release } := by
  cases given <;> rfl

theorem Inv.gc (h : Inv sp s) (roots : List ℕ) (cpus : ℕ+) (schedule : List (ℕ × ℕ)) :
    Inv sp { s with heap := s.heap.gc sp roots cpus schedule } := by
  have hinv := h.heap.gc roots cpus schedule
  have hall : s.forget.AllStopped ↔ s.heap.AllStopped := by
    refine forall₂_congr fun n _ => ?_
    show (forgetOne (s.heap.mutator n) (s.gaveBack n)).pc.isStopped = true ↔ _
    rw [forgetOne_pc]
  unfold Heap.gc at hinv ⊢
  by_cases hc : s.heap.AllStopped ∧ Trace.Finished (s.heap.env sp cpus) (s.heap.startTrace sp roots cpus schedule)
  · rw [if_pos hc]
    rw [if_pos ⟨hall.2 hc.1, hc.2⟩] at hinv
    refine ⟨?_, h.unknown, fun n hn => ?_⟩
    · unfold forget
      dsimp only [Heap.collect]
      simp only [forgetOne_release]
      exact hinv
    · have hrec := h.record n hn
      refine ⟨fun y hy => ?_, fun hgone => ?_⟩
      · obtain ⟨h1, h2, h3, h4⟩ := hrec.back y hy
        exact ⟨h1, h2, (layout_release _).trans h3, release_ne_panicked h4⟩
      · obtain ⟨h1, h2⟩ := hrec.gone hgone
        refine ⟨?_, h2⟩
        show (s.heap.mutator n).pc.release = .idle
        rw [h1]
        rfl
  · rw [if_neg hc]
    exact h

theorem Inv.resume (h : Inv sp s) (hm : m ∈ s.created) {layout : Option Layout}
    (hpc : (s.heap.mutator m).pc = .released layout) :
    Inv sp { s with heap := s.heap.resume m, gaveBack := Function.update s.gaveBack m none } := by
  have hreg : m ∈ s.heap.ids := h.registered hm fun hidle => by rw [hidle] at hpc; cases hpc
  have hinv := h.heap.resume hreg
  have hpc' : (s.forget.mutator m).pc = .released layout := by
    show (forgetOne (s.heap.mutator m) (s.gaveBack m)).pc = _
    rw [forgetOne_pc, hpc]
  unfold Heap.resume at hinv ⊢
  rw [hpc'] at hinv
  rw [hpc]
  cases layout with
  | none => exact h.one hm (s.heap.setMutator m _) _ none rfl (fun _ _ => Iff.rfl) hinv (Record.registered hreg _)
  | some layout => exact h.one hm (s.heap.setMutator m _) _ none rfl (fun _ _ => Iff.rfl) hinv (Record.registered hreg _)

theorem giveBack_of_none (hb : (s.heap.mutator m).loc.block = none) : s.giveBack m = s := by
  have hret : (s.heap.mutator m).loc.returnBlock s.heap.used = ((s.heap.mutator m).loc, s.heap.used) := by
    unfold ImmixMutatorLocal.returnBlock
    rw [hb]
  unfold giveBack
  rw [hret, hb]
  dsimp only [Heap.setMutator]
  rw [Function.update_eq_self]
  rfl

theorem giveBack_of_some {b : ImmixBlock} (hb : (s.heap.mutator m).loc.block = some b) :
    s.giveBack m =
      { s with
        heap := { s.heap.setMutator m ⟨{ (s.heap.mutator m).loc with block := none }, (s.heap.mutator m).pc⟩ with
          used := s.heap.used ++ [b] }
        gaveBack := Function.update s.gaveBack m (some (s.heap.mutator m).loc) } := by
  have hret : (s.heap.mutator m).loc.returnBlock s.heap.used =
      ({ (s.heap.mutator m).loc with block := none }, s.heap.used ++ [b]) := by
    unfold ImmixMutatorLocal.returnBlock
    rw [hb]
  unfold giveBack
  rw [hret, hb]
  rfl

theorem Inv.giveBack (h : Inv sp s) (hm : m ∈ s.created) (hpc : (s.heap.mutator m).pc = .idle) :
    Inv sp (s.giveBack m) := by
  cases hb : (s.heap.mutator m).loc.block with
  | none =>
    rw [giveBack_of_none hb]
    exact h
  | some b =>
    obtain ⟨hback, hreg⟩ := h.holds hm hb
    have hmut : s.forget.mutator m = s.heap.mutator m := forget_mutator hback
    have hinv := h.heap.giveBack hreg (b := b) (by rw [hmut]; exact hb)
    rw [hmut] at hinv
    rw [giveBack_of_some hb, hpc]
    refine h.one hm _ _ _ rfl (fun _ _ => Iff.rfl) hinv ⟨fun y hy => ?_, fun hn => absurd hreg hn⟩
    cases hy
    exact ⟨by rw [hb]; rfl, rfl, rfl, nofun⟩

theorem Inv.reset (h : Inv sp s) (hm : m ∈ s.created) :
    Inv sp { s with
      heap := s.heap.setMutator m ⟨(s.heap.mutator m).loc.reset, .idle⟩
      gaveBack := Function.update s.gaveBack m none } :=
  h.one hm _ _ none rfl (fun _ _ => Iff.rfl) (h.heap.drop rfl) ⟨nofun, fun _ => ⟨rfl, fun _ => ⟨rfl, rfl, rfl⟩⟩⟩

theorem Inv.destroy (h : Inv sp s) (hm : m ∈ s.heap.ids) (hpc : (s.heap.mutator m).pc = .idle) :
    Inv sp { s.giveBack m with heap := { (s.giveBack m).heap with ids := s.heap.ids.filter (· ≠ m) } } := by
  have hback := h.giveBack (h.created hm) hpc
  have hids : ∀ n, n ≠ m → (n ∈ s.heap.ids.filter (· ≠ m) ↔ n ∈ s.heap.ids) := fun n hn => by
    rw [List.mem_filter, decide_eq_true hn, eq_self_iff_true, and_true]
  refine ⟨hback.heap.mono_ids _ fun n hn => (List.mem_filter.1 hn).1, fun n hn => ?_, fun n hn => ?_⟩
  · obtain ⟨h1, h2⟩ := hback.unknown n hn
    exact ⟨fun hin => h1 (List.mem_filter.1 hin).1, h2⟩
  have hrec := hback.record n hn
  by_cases hnm : n = m
  · subst hnm
    cases hb : (s.heap.mutator n).loc.block with
    | some b =>
      -- it leaves with its block given back
      rw [giveBack_of_some hb] at hrec ⊢
      dsimp only at hrec ⊢
      rw [Function.update_self] at hrec ⊢
      refine ⟨hrec.back, fun _ => ⟨?_, nofun⟩⟩
      dsimp only [Heap.setMutator]
      rw [Function.update_self]
      exact hpc
    | none =>
      rw [giveBack_of_none hb] at hrec ⊢
      refine ⟨hrec.back, fun _ => ⟨hpc, fun hnone => ?_⟩⟩
      have hmut : s.forget.mutator n = s.heap.mutator n := forget_mutator hnone
      have hshape := h.heap.shape n hm (by rw [hmut, hpc]; rfl)
      rw [hmut] at hshape
      obtain ⟨hcursor, hlimit, hline⟩ := hshape.empty hb
      exact ⟨hb, by rw [hcursor, hlimit], by rw [hline, linesInBlock_eq]⟩
  · have hiff : n ∈ (s.giveBack m).heap.ids ↔ n ∈ s.heap.ids.filter (· ≠ m) := (hids n hnm).symm
    rw [hiff] at hrec
    exact hrec

/-- **Step lemma.** -/
theorem inv_step (sp : Space) (s : Calls) (c : Call) (hlegal : s.Legal c) (h : Inv sp s) : Inv sp (s.step sp c) := by
  unfold step
  split_ifs with hcr
  · exact h
  cases c with
  | new m =>
    dsimp only
    split_ifs with hm
    · exact h
    · exact h.new hm
  | alloc m layout =>
    dsimp only
    split_ifs with hidle
    · exact h.alloc hlegal.1 hlegal.2 hidle.2 layout
    · exact h
  | tick m =>
    dsimp only
    split_ifs with hm
    · exact h.tick hm
    · exact h
  | stop m =>
    dsimp only
    split_ifs with hm
    · exact h.stop hlegal
    · exact h
  | gc roots cpus schedule => exact h.gc roots cpus schedule
  | resume m =>
    dsimp only
    split_ifs with hm
    · cases hpc : (s.heap.mutator m).pc with
      | released layout => exact h.resume hm hpc
      | _ => exact h
    · exact h
  | prepareForGc m =>
    dsimp only
    split_ifs with hidle
    · exact h.giveBack hidle.1 hidle.2
    · exact h
  | reset m =>
    dsimp only
    split_ifs with hidle
    · exact h.reset hidle.1
    · exact h
  | destroy m =>
    dsimp only
    split_ifs with hidle
    · exact h.destroy hlegal hidle.2
    · exact h
  | initObject m addr encode =>
    have hi := h.heap
    dsimp only
    split_ifs
    · exact ⟨⟨hi.traceMap, hi.lines, hi.nodup, hi.blocks, hi.held, hi.owner, hi.shape, hi.returned, hi.running⟩,
        h.unknown, h.record⟩
    · exact h
  | write m addr value =>
    have hi := h.heap
    dsimp only
    split_ifs
    · exact ⟨⟨hi.traceMap, hi.lines, hi.nodup, hi.blocks, hi.held, hi.owner, hi.shape, hi.returned, hi.running⟩,
        h.unknown, h.record⟩
    · exact h

/-- the state before call `k` of a run of a new space -/
def before (sp : Space) (calls : List Call) (k : ℕ) : Calls := stateAt (step sp) (new sp) calls k

/-- **Run lemma.** -/
theorem inv_run {calls : List Call} (hlegal : LegalRun (step sp) Legal (new sp) calls) (k : ℕ) :
    Inv sp (before sp calls k) := stateAt_inv (inv_step sp) (inv_new sp) hlegal k

/-! ## What it says of a mutator -/

/-- the allocation `m` is in returns `a` -/
def HandsOut (s : Calls) (m : ℕ) (layout : Layout) (a : ℕ) : Prop :=
  (s.heap.mutator m).pc = .alloc layout ∧ ((s.heap.mutator m).loc.bump layout).map Prod.fst = some a

instance (s : Calls) (m : ℕ) (layout : Layout) (a : ℕ) : Decidable (s.HandsOut m layout a) := by
  unfold HandsOut
  infer_instance

theorem Inv.mutatorInv (h : Inv sp s) (hidle : s.Idle m) (hback : s.gaveBack m = none) :
    MutatorInv s.heap.lines (s.heap.mutator m).loc := by
  by_cases hreg : m ∈ s.heap.ids
  · have hmut : s.forget.mutator m = s.heap.mutator m := forget_mutator hback
    have hshape := h.heap.shape m hreg (by rw [hmut, hidle.2]; rfl)
    rw [hmut] at hshape
    exact hshape.mutatorInv
  · obtain ⟨hb, hempty⟩ := ((h.record m hidle.1).gone hreg).2 hback
    refine ⟨fun _ => hempty, fun b hb' => ?_, fun b hb' => ?_⟩
    · rw [hb] at hb'
      cases hb'
    · rw [hb] at hb'
      cases hb'

theorem Inv.not_panicked (h : Inv sp s) (hm : m ∈ s.created) : (s.heap.mutator m).pc ≠ .panicked := by
  intro hpc
  have hreg : m ∈ s.heap.ids := h.registered hm (by rw [hpc]; exact nofun)
  refine h.heap.running m hreg ?_
  show (forgetOne (s.heap.mutator m) (s.gaveBack m)).pc = .panicked
  rw [forgetOne_pc, hpc]

/-- what is handed out is memory of the block the mutator holds -/
theorem Inv.handsOut (h : Inv sp s) (hm : m ∈ s.created) {layout : Layout} {a : ℕ} (hsize : 0 < layout.size)
    (ha : s.HandsOut m layout a) :
    ∃ b, (s.heap.mutator m).loc.block = some b ∧ b.start ≤ a ∧ a + layout.size ≤ b.start + bytesInBlock ∧
      b ∉ s.heap.usable ++ s.heap.used := by
  obtain ⟨hpc, hbump⟩ := ha
  have hreg : m ∈ s.heap.ids := h.registered hm (by rw [hpc]; exact nofun)
  have hback : s.gaveBack m = none := by
    cases hy : s.gaveBack m with
    | none => rfl
    | some y =>
      obtain ⟨-, -, hlayout, -⟩ := (h.record m hm).back y hy
      rw [hpc] at hlayout
      cases hlayout
  have hmut : s.forget.mutator m = s.heap.mutator m := forget_mutator hback
  have hact : (s.forget.mutator m).pc.active = true := by rw [hmut, hpc]; rfl
  have hshape := h.heap.shape m hreg hact
  have hcursor := h.heap.cursor_le hreg hact
  rw [hmut] at hshape hcursor
  obtain ⟨r, hr, rfl⟩ := Option.map_eq_some_iff.1 hbump
  obtain ⟨h1, h2, -, -⟩ := bump_spec hcursor hr
  obtain ⟨b, hb⟩ := hshape.block_of_lt (by omega)
  obtain ⟨h3, -, h4, h5⟩ := hshape.region b hb
  have hheld := h.heap.held m hreg b (by rw [hmut]; exact hb)
  exact ⟨b, hb, by omega, by rw [bytesInBlock_eq]; omega, hheld.2⟩

/-- **The mutator invariant over the public methods.** In every run whose calls do not allocate from what a given-back
block has left over, a mutator between two calls satisfies it, unless `prepare_for_gc` or `destroy` has taken its block
and no reset has followed: then it is as it was, without the block. No `block()` unwraps `None`, and `alloc` returns only
memory of the block the mutator holds, which is in neither queue. -/
theorem mutator_invariant (sp : Space) (calls : List Call) (hlegal : LegalRun (step sp) Legal (new sp) calls) (k : ℕ) :
    (∀ m, (before sp calls k).Idle m →
      ((before sp calls k).gaveBack m = none →
        MutatorInv (before sp calls k).heap.lines ((before sp calls k).heap.mutator m).loc) ∧
      ∀ y, (before sp calls k).gaveBack m = some y →
        y.block.isSome = true ∧ ((before sp calls k).heap.mutator m).loc = { y with block := none }) ∧
    (∀ m ∈ (before sp calls k).created, ((before sp calls k).heap.mutator m).pc ≠ .panicked) ∧
    ∀ m ∈ (before sp calls k).created, ∀ layout a, 0 < layout.size → (before sp calls k).HandsOut m layout a →
      ∃ b, ((before sp calls k).heap.mutator m).loc.block = some b ∧ b.start ≤ a ∧
        a + layout.size ≤ b.start + bytesInBlock ∧
        b ∉ (before sp calls k).heap.usable ++ (before sp calls k).heap.used := by
  have h := inv_run hlegal k
  refine ⟨fun m hidle => ⟨h.mutatorInv hidle, fun y hy => ?_⟩, fun m hm => h.not_panicked hm,
    fun m hm layout a hsize ha => h.handsOut hm hsize ha⟩
  obtain ⟨h1, h2, -, -⟩ := (h.record m hidle.1).back y hy
  exact ⟨h1, h2⟩

/-! ## Runs -/

/-- a call of `alloc` and `n` steps of it -/
def allocate (m : ℕ) (layout : Layout) (n : ℕ) : List Call := .alloc m layout :: List.replicate n (.tick m)

def fiveLines : Layout := ⟨1280, 8, Heap.lineLayout.pow, by norm_num⟩

def eightLines : Layout := ⟨2048, 8, Heap.lineLayout.pow, by norm_num⟩

/-- the block is given back between two allocations -/
def leftOver : List Call := .new 0 :: allocate 0 Heap.lineLayout 7 ++ .prepareForGc 0 :: allocate 0 Heap.lineLayout 1

/-- the same, in the hole in front of an object that has survived a collection -/
def leftOverHole : List Call :=
  .new 0 :: allocate 0 fiveLines 7 ++ allocate 0 Heap.lineLayout 1 ++ [.initObject 0 525568 0xC1, .stop 0,
    .gc [525568] 1 (List.replicate 20 (0, 0)), .resume 0] ++ allocate 0 Heap.lineLayout 7 ++
    .prepareForGc 0 :: allocate 0 eightLines 2

/-- a destroyed mutator goes on -/
def afterDestroy : List Call :=
  [.new 0, .new 1, .destroy 0] ++ allocate 0 Heap.lineLayout 7 ++ [.initObject 0 524288 0xC1, .stop 1,
    .gc [524288] 1 (List.replicate 20 (0, 0))]

/-- with the block given back and the mutator reset -/
def resetBetween : List Call :=
  .new 0 :: allocate 0 Heap.lineLayout 7 ++ [.prepareForGc 0, .reset 0] ++ allocate 0 Heap.lineLayout 1

/-- a line is allocated, so the mutator holds the block -/
theorem mutator_invariant_resetBetween :
    MutatorInv (before .oneBlock resetBetween 9).heap.lines ((before .oneBlock resetBetween 9).heap.mutator 0).loc := by
  have hlegal : LegalRun (step .oneBlock) Legal (new .oneBlock) resetBetween := by decide +kernel
  have hidle : (before .oneBlock resetBetween 9).Idle 0 ∧ (before .oneBlock resetBetween 9).gaveBack 0 = none := by
    decide +kernel
  exact ((mutator_invariant .oneBlock resetBetween hlegal 9).1 0 hidle.1).1 hidle.2

/-- **What is left over.** After `prepare_for_gc` a mutator without a block has a bump region, and the next `alloc` returns
memory of the block it gave back; where the hole ended before the block, `try_alloc_from_local` unwraps `None`. A destroyed
mutator that goes on holds a block through a collection, which marks a line of its bump region. -/
theorem left_over_region :
    ((before .oneBlock leftOver 10).Idle 0 ∧
      ¬ MutatorInv (before .oneBlock leftOver 10).heap.lines ((before .oneBlock leftOver 10).heap.mutator 0).loc) ∧
    ((before .oneBlock leftOver 11).HandsOut 0 Heap.lineLayout 524544 ∧
      (before .oneBlock leftOver 11).heap.used = [Space.oneBlock.block 0]) ∧
    ((before .oneBlock leftOverHole 27).heap.mutator 0).pc = .panicked ∧
    ((before .oneBlock afterDestroy 14).Idle 0 ∧
      ¬ MutatorInv (before .oneBlock afterDestroy 14).heap.lines
        ((before .oneBlock afterDestroy 14).heap.mutator 0).loc) := by
  have hgiven : (before .oneBlock leftOver 10).Idle 0 ∧
      ((before .oneBlock leftOver 10).heap.mutator 0).loc.block = none ∧
      ((before .oneBlock leftOver 10).heap.mutator 0).loc.cursor ≠
        ((before .oneBlock leftOver 10).heap.mutator 0).loc.limit ∧
      (before .oneBlock leftOver 11).HandsOut 0 Heap.lineLayout 524544 ∧
      (before .oneBlock leftOver 11).heap.used = [Space.oneBlock.block 0] := by decide +kernel
  have hpanic : ((before .oneBlock leftOverHole 27).heap.mutator 0).pc = .panicked := by decide +kernel
  have hgone : (before .oneBlock afterDestroy 14).Idle 0 ∧
      ((before .oneBlock afterDestroy 14).heap.mutator 0).loc.block = some (Space.oneBlock.block 0) ∧
      ((before .oneBlock afterDestroy 14).heap.mutator 0).loc.cursor ≤ 524544 ∧
      524544 < ((before .oneBlock afterDestroy 14).heap.mutator 0).loc.limit ∧
      (before .oneBlock afterDestroy 14).heap.lines.get ((before .oneBlock afterDestroy 14).heap.lines.lineOf 524544) =
        .conservLive := by decide +kernel
  obtain ⟨hidle, hnone, hne, hout, hused⟩ := hgiven
  obtain ⟨hidle', hblock, hcursor, hlimit, hmark⟩ := hgone
  refine ⟨⟨hidle, fun hinv => hne (hinv.empty hnone).1⟩, ⟨hout, hused⟩, hpanic, hidle', fun hinv => ?_⟩
  have hfresh := hinv.fresh _ hblock 524544 hcursor hlimit
  rw [hmark] at hfresh
  cases hfresh

end Calls

end Immix
