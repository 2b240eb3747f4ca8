/-
The heap as a state machine: mutators that allocate, initialise objects and store references, and collections made while
every mutator is stopped (`ImmixSpace`, `ImmixMutatorLocal`, `gc` of `src/heap/gc/mod.rs`).

An operation is one atomic step of one mutator, or one whole collection. The three allocation functions are split at the
points where other mutators can run: the bump pointer and the lines of its block belong to one mutator, so each access of
the shared queues is a step of its own. A mutator stops at a yieldpoint, between two calls or in the loop of
`alloc_from_global`; `prepare_for_gc` has then returned its block, and it resets itself when it goes on. That nothing else
runs during a collection is the business of the barrier (`Immix.Barrier`).

The operation `gc` carries the root list, the number of trace workers and their schedule; it is performed when every
registered mutator is stopped and the schedule lets every worker return. A mutator registered while a collection is
under way (`Immix.Barrier.late_registration`) is outside these runs. A sweep that finds every block full panics:
`crashed` is then set, and nothing runs any more, since every mutator is parked.

Results:
- `Inv`: every block is in one queue or held by one mutator, and every bump region lies in FreshAlloc lines of the block.
- `inv_step`, `inv_run`: it holds in every state of every run.
-/
import Immix.Mutator
import Immix.TraceReach

namespace Immix

open Immix.Lib

/-! ## Model -/

/-- program points of a mutator -/
inductive MutPc where
  /-- between two calls -/
  | idle
  /-- before the bump of `alloc(layout)` -/
  | alloc (layout : Layout)
  | tryAllocFromLocal (layout : Layout)
  | allocFromGlobal (layout : Layout)
  /-- at the yieldpoint of `alloc_from_global`'s loop -/
  | loop (layout : Layout)
  /-- parked in `sync_barrier`, called from the loop for `layout` or between two calls -/
  | stopped (layout : Option Layout)
  /-- the collection is over: before `reset` -/
  | released (layout : Option Layout)
  | panicked
deriving DecidableEq

namespace MutPc

/-- the bump region is in use -/
def active : MutPc → Bool
  | .idle | .alloc _ | .tryAllocFromLocal _ => true
  | _ => false

/-- the block has been returned -/
def returned : MutPc → Bool
  | .loop _ | .stopped _ | .released _ => true
  | _ => false

def isStopped : MutPc → Bool
  | .stopped _ => true
  | _ => false

def release : MutPc → MutPc
  | .stopped l => .released l
  | pc => pc

/-- the layout an allocation in progress was called with -/
def layout : MutPc → Option Layout
  | .alloc l | .tryAllocFromLocal l | .allocFromGlobal l | .loop l => some l
  | .stopped l | .released l => l
  | _ => none

theorem returned_of_isStopped {pc : MutPc} (h : pc.isStopped = true) : pc.returned = true := by
  cases pc <;> simp_all [isStopped, returned]

end MutPc

structure Mutator where
  loc : ImmixMutatorLocal
  pc : MutPc

structure Heap where
  allocMap : ℕ → UInt8
  traceMap : TraceMap
  lines : LineMarkTable
  usable : List ImmixBlock
  used : List ImmixBlock
  /-- the word at each aligned address of the space -/
  memory : ℕ → UInt64
  /-- the mutators registered in `MUTATORS` -/
  ids : List ℕ
  mutator : ℕ → Mutator
  crashed : Bool

/-- the proof in the literal `(1 : ℕ+)` -/
instance one_neZero : NeZero (1 : ℕ) := ⟨Nat.one_ne_zero⟩

inductive Op where
  | new (m : ℕ)
  | alloc (m : ℕ) (layout : Layout)
  /-- the next step of the allocation mutator `m` is in -/
  | tick (m : ℕ)
  /-- the mutator takes the slow path of a yieldpoint and parks -/
  | stop (m : ℕ)
  | gc (roots : List ℕ) (cpus : ℕ+) (schedule : List (ℕ × ℕ))
  | resume (m : ℕ)
  | destroy (m : ℕ)
  | initObject (m addr : ℕ) (encode : UInt8)
  /-- the program stores the word `value` at the aligned address `addr` -/
  | write (m addr : ℕ) (value : UInt64)

namespace Heap

/-- `ImmixSpace::new` on fresh pages, before any mutator is registered -/
def new (sp : Space) : Heap where
  allocMap := (AddressMap.new sp.start sp.stop).ptr
  traceMap := TraceMap.new sp.start sp.stop
  lines := LineMarkTable.new sp.start sp.stop
  usable := sp.initBlocks
  used := []
  memory := fun _ => 0
  ids := []
  mutator := fun _ => ⟨.new, .idle⟩
  crashed := false

def setMutator (s : Heap) (m : ℕ) (x : Mutator) : Heap := { s with mutator := Function.update s.mutator m x }

@[simp] theorem setMutator_usable (s : Heap) (m : ℕ) (x : Mutator) : (s.setMutator m x).usable = s.usable := rfl
@[simp] theorem setMutator_ids (s : Heap) (m : ℕ) (x : Mutator) : (s.setMutator m x).ids = s.ids := rfl
@[simp] theorem setMutator_mutator (s : Heap) (m : ℕ) (x : Mutator) :
    (s.setMutator m x).mutator = Function.update s.mutator m x := rfl

/-- one step of an allocation -/
def tick (s : Heap) (m : ℕ) : Heap :=
  match (s.mutator m).pc with
  | .alloc layout =>
    match (s.mutator m).loc.bump layout with
    | some (_, loc) => s.setMutator m ⟨loc, .idle⟩
    | none => s.setMutator m ⟨(s.mutator m).loc, .tryAllocFromLocal layout⟩
  | .tryAllocFromLocal layout =>
    match (s.mutator m).loc.tryAllocFromLocal s.lines with
    | .hole loc lines => { s.setMutator m ⟨loc, .alloc layout⟩ with lines := lines }
    | .none => s.setMutator m ⟨(s.mutator m).loc, .allocFromGlobal layout⟩
    | .panicked => s.setMutator m ⟨(s.mutator m).loc, .panicked⟩
  | .allocFromGlobal layout =>
    { s.setMutator m ⟨((s.mutator m).loc.returnBlock s.used).1, .loop layout⟩ with
      used := ((s.mutator m).loc.returnBlock s.used).2 }
  | .loop layout =>
    match s.usable with
    | b :: usable => { s.setMutator m ⟨(s.mutator m).loc.useBlock b, .alloc layout⟩ with usable := usable }
    | [] => s
  | _ => s

/-- `sync_barrier` up to the park: `prepare_for_gc` -/
def park (s : Heap) (m : ℕ) (layout : Option Layout) : Heap :=
  { s.setMutator m ⟨((s.mutator m).loc.returnBlock s.used).1, .stopped layout⟩ with
    used := ((s.mutator m).loc.returnBlock s.used).2 }

def stop (s : Heap) (m : ℕ) : Heap :=
  match (s.mutator m).pc with
  | .idle => s.park m none
  | .loop layout => s.park m (some layout)
  | _ => s

def resume (s : Heap) (m : ℕ) : Heap :=
  match (s.mutator m).pc with
  | .released none => s.setMutator m ⟨(s.mutator m).loc.reset, .idle⟩
  | .released (some layout) => s.setMutator m ⟨(s.mutator m).loc.reset, .loop layout⟩
  | _ => s

def destroy (s : Heap) (m : ℕ) : Heap :=
  match (s.mutator m).pc with
  | .idle => { s with used := ((s.mutator m).loc.returnBlock s.used).2, ids := s.ids.filter (· ≠ m) }
  | _ => s

/-- what a trace of this heap reads -/
def env (sp : Space) (s : Heap) (cpus : ℕ+) : Trace.Env := ⟨sp, s.allocMap, s.memory, cpus, cpus.pos⟩

/-- `start_trace` under a schedule -/
def startTrace (sp : Space) (s : Heap) (roots : List ℕ) (cpus : ℕ+) (schedule : List (ℕ × ℕ)) : Trace.St :=
  run (Trace.step (s.env sp cpus)) (Trace.startTrace (s.env sp cpus) roots s.traceMap s.lines) schedule

/-- every registered mutator is parked -/
def AllStopped (s : Heap) : Prop := ∀ m ∈ s.ids, (s.mutator m).pc.isStopped = true

instance (s : Heap) : Decidable s.AllStopped := by unfold AllStopped; infer_instance

/-- the tables and queues after the trace `t` and the sweep -/
def collect (sp : Space) (s : Heap) (t : Trace.St) : Heap :=
  let sw := sweep t.lines s.usable s.used
  { s with
    lines := sw.lines
    usable := sw.usable
    used := sw.liveBlocks
    traceMap := if sw.fullBlocks = sp.totalBlocks then t.traceMap else t.traceMap.flipMarkState
    crashed := decide (sw.fullBlocks = sp.totalBlocks)
    mutator := fun m => { s.mutator m with pc := (s.mutator m).pc.release } }

def gc (sp : Space) (s : Heap) (roots : List ℕ) (cpus : ℕ+) (schedule : List (ℕ × ℕ)) : Heap :=
  if s.AllStopped ∧ Trace.Finished (s.env sp cpus) (s.startTrace sp roots cpus schedule) then
    s.collect sp (s.startTrace sp roots cpus schedule)
  else s

def step (sp : Space) (s : Heap) (o : Op) : Heap :=
  if s.crashed then s else
  match o with
  | .new m => if m ∈ s.ids then s else { s.setMutator m ⟨.new, .idle⟩ with ids := m :: s.ids }
  | .alloc m layout =>
    if m ∈ s.ids then
      match (s.mutator m).pc with
      | .idle => s.setMutator m ⟨(s.mutator m).loc, .alloc layout⟩
      | _ => s
    else s
  | .tick m => if m ∈ s.ids then s.tick m else s
  | .stop m => if m ∈ s.ids then s.stop m else s
  | .gc roots cpus schedule => s.gc sp roots cpus schedule
  | .resume m => if m ∈ s.ids then s.resume m else s
  | .destroy m => if m ∈ s.ids then s.destroy m else s
  | .initObject m addr encode =>
    if m ∈ s.ids ∧ sp.start ≤ addr ∧ addr < sp.stop then
      match (s.mutator m).pc with
      | .idle => { s with allocMap := Immix.initObject s.allocMap sp.start addr encode }
      | _ => s
    else s
  | .write m addr value =>
    if m ∈ s.ids ∧ 8 ∣ addr then
      match (s.mutator m).pc with
      | .idle => { s with memory := Function.update s.memory addr value }
      | _ => s
    else s

/-- the state in which operation `k` of a run of a new space is performed -/
def before (sp : Space) (ops : List Op) (k : ℕ) : Heap := stateAt (step sp) (new sp) ops k

theorem before_succ {sp : Space} {ops : List Op} {k : ℕ} {o : Op} (h : ops[k]? = some o) :
    before sp ops (k + 1) = step sp (before sp ops k) o := stateAt_succ _ _ h

/-- a property that holds before operation `i` and that every operation from `i` to `j` keeps holds before operation `j` -/
theorem before_until {sp : Space} {P : Heap → Prop} {ops : List Op} {i j : ℕ} (hij : i ≤ j) (h0 : P (before sp ops i))
    (hstep : ∀ k o, i ≤ k → k < j → ops[k]? = some o → P (before sp ops k) → P (step sp (before sp ops k) o)) :
    P (before sp ops j) := stateAt_until hij h0 hstep

/-- the range `[address, address + size)` an operation returns from `alloc` -/
def allocated (s : Heap) : Op → Option (ℕ × ℕ)
  | .tick m =>
    if s.crashed = false ∧ m ∈ s.ids then
      match (s.mutator m).pc with
      | .alloc layout => ((s.mutator m).loc.bump layout).map fun r => (r.1, layout.size)
      | _ => none
    else none
  | _ => none

/-- the operation is a collection that is carried out -/
def Collects (sp : Space) (s : Heap) (roots : List ℕ) (cpus : ℕ+) (schedule : List (ℕ × ℕ)) : Prop :=
  s.crashed = false ∧ s.AllStopped ∧ Trace.Finished (s.env sp cpus) (s.startTrace sp roots cpus schedule)

instance (sp : Space) (s : Heap) (roots : List ℕ) (cpus : ℕ+) (schedule : List (ℕ × ℕ)) :
    Decidable (s.Collects sp roots cpus schedule) := by unfold Collects; infer_instance

/-- a line, aligned as objects are -/
def lineLayout : Layout := ⟨256, 8, ⟨3, rfl⟩, by norm_num⟩

/-- one call of `alloc` for a line by mutator 0, which holds no block -/
def allocLine : List Op := .alloc 0 lineLayout :: List.replicate 7 (.tick 0)

/-! ## The block invariant -/

/-- **The block invariant.** -/
structure Inv (sp : Space) (s : Heap) : Prop where
  traceMap : s.traceMap = sp.traceMap s.traceMap.entries s.traceMap.markState
  lines : s.lines = sp.lineTable s.lines.get
  nodup : (s.usable ++ s.used).Nodup
  blocks : ∀ b ∈ s.usable ++ s.used, b ∈ sp.initBlocks
  held : ∀ m ∈ s.ids, ∀ b, (s.mutator m).loc.block = some b → b ∈ sp.initBlocks ∧ b ∉ s.usable ++ s.used
  owner : ∀ m ∈ s.ids, ∀ n ∈ s.ids, ∀ b, (s.mutator m).loc.block = some b → (s.mutator n).loc.block = some b → m = n
  shape : ∀ m ∈ s.ids, (s.mutator m).pc.active = true → Shape s.lines (s.mutator m).loc
  returned : ∀ m ∈ s.ids, (s.mutator m).pc.returned = true → (s.mutator m).loc.block = none
  running : ∀ m ∈ s.ids, (s.mutator m).pc ≠ .panicked

theorem inv_new (sp : Space) : Inv sp (new sp) where
  traceMap := rfl
  lines := rfl
  nodup := by simpa [new] using initBlocks_nodup sp
  blocks := by simp [new]
  held := by simp [new]
  owner := by simp [new]
  shape := by simp [new]
  returned := by simp [new]
  running := by simp [new]

variable {sp : Space} {s : Heap}

theorem Inv.spaceStart (h : Inv sp s) : s.lines.spaceStart = sp.start := by rw [h.lines]; rfl

theorem Inv.lines_len (h : Inv sp s) : s.lines.len = sp.size / 256 := by rw [h.lines]; simp

/-- a block some mutator or queue has is one of the space's -/
theorem Inv.block_eq (h : Inv sp s) {m : ℕ} (hm : m ∈ s.ids) {b : ImmixBlock} (hb : (s.mutator m).loc.block = some b) :
    ∃ k < sp.size / 65536, b = sp.block k := mem_initBlocks.1 (h.held m hm b hb).1

/-- a bump region never leaves the lower half of the address space -/
theorem Inv.cursor_le (h : Inv sp s) {m : ℕ} (hm : m ∈ s.ids) (hact : (s.mutator m).pc.active = true) :
    (s.mutator m).loc.cursor ≤ 2 ^ 63 := by
  have hs := h.shape m hm hact
  cases hb : (s.mutator m).loc.block with
  | none => rw [(hs.empty hb).1]; exact Nat.zero_le _
  | some b =>
    obtain ⟨k, hk, rfl⟩ := h.block_eq hm hb
    have hregion := hs.region _ hb
    have huser := sp.user
    simp only [Space.block] at hregion
    omega

/-- **The frame of a mutator step.** Mutator `m` becomes `x`, its own block and the queues are rearranged without loss,
and the bump regions of the others keep their lines. -/
theorem Inv.frame (h : Inv sp s) {m : ℕ} (hm : m ∈ s.ids) (x : Mutator) {lines : LineMarkTable}
    {usable used : List ImmixBlock} (hlines : lines = sp.lineTable lines.get)
    (hperm : (usable ++ used ++ x.loc.block.toList).Perm (s.usable ++ s.used ++ (s.mutator m).loc.block.toList))
    (hothers : ∀ n ∈ s.ids, n ≠ m → (s.mutator n).pc.active = true → Shape lines (s.mutator n).loc)
    (hshape : x.pc.active = true → Shape lines x.loc) (hreturned : x.pc.returned = true → x.loc.block = none)
    (hrunning : x.pc ≠ .panicked) :
    Inv sp { s.setMutator m x with lines := lines, usable := usable, used := used } := by
  have hnodup : (usable ++ used ++ x.loc.block.toList).Nodup := by
    refine hperm.nodup_iff.2 (List.nodup_append.2 ⟨h.nodup, ?_, ?_⟩)
    · cases (s.mutator m).loc.block <;> simp
    · intro b hb c hc hbc
      exact (h.held m hm c (by simpa using hc)).2 (hbc ▸ hb)
  have hmem : ∀ b ∈ usable ++ used ++ x.loc.block.toList, b ∈ sp.initBlocks := by
    intro b hb
    rcases List.mem_append.1 (hperm.mem_iff.1 hb) with hb | hb
    · exact h.blocks b hb
    · exact (h.held m hm b (by simpa using hb)).1
  -- the blocks of the other mutators are none of these
  have hother : ∀ n ∈ s.ids, n ≠ m → ∀ b, (s.mutator n).loc.block = some b → b ∉ usable ++ used ++ x.loc.block.toList := by
    intro n hn hnm b hb hmem
    rcases List.mem_append.1 (hperm.mem_iff.1 hmem) with hb' | hb'
    · exact (h.held n hn b hb).2 hb'
    · exact hnm (h.owner n hn m hm b hb (by simpa using hb'))
  have hx : ∀ b, x.loc.block = some b → b ∈ usable ++ used ++ x.loc.block.toList ∧ b ∉ usable ++ used := by
    intro b hb
    refine ⟨List.mem_append_right _ (by simpa using hb), fun hq => ?_⟩
    exact (List.nodup_append.1 hnodup).2.2 b hq b (by simpa using hb) rfl
  refine ⟨h.traceMap, hlines, (List.nodup_append.1 hnodup).1, fun b hb => hmem b (List.mem_append_left _ hb), ?_, ?_, ?_,
    ?_, ?_⟩
  · intro n hn b hb
    by_cases hnm : n = m
    · subst hnm
      simp only [setMutator, Function.update_self] at hb
      exact ⟨hmem b (hx b hb).1, (hx b hb).2⟩
    · simp only [setMutator, Function.update_of_ne hnm] at hb
      exact ⟨(h.held n hn b hb).1, fun hq => hother n hn hnm b hb (List.mem_append_left _ hq)⟩
  · intro n hn n' hn' b hb hb'
    by_cases hnm : n = m <;> by_cases hnm' : n' = m
    · rw [hnm, hnm']
    · subst hnm
      simp only [setMutator, Function.update_self] at hb
      simp only [setMutator, Function.update_of_ne hnm'] at hb'
      exact absurd (hx b hb).1 (hother n' hn' hnm' b hb')
    · subst hnm'
      simp only [setMutator, Function.update_of_ne hnm] at hb
      simp only [setMutator, Function.update_self] at hb'
      exact absurd (hx b hb').1 (hother n hn hnm b hb)
    · simp only [setMutator, Function.update_of_ne hnm] at hb
      simp only [setMutator, Function.update_of_ne hnm'] at hb'
      exact h.owner n hn n' hn' b hb hb'
  · intro n hn
    by_cases hnm : n = m
    · subst hnm; simpa only [setMutator, Function.update_self] using hshape
    · simpa only [setMutator, Function.update_of_ne hnm] using hothers n hn hnm
  · intro n hn
    by_cases hnm : n = m
    · subst hnm; simpa only [setMutator, Function.update_self] using hreturned
    · simpa only [setMutator, Function.update_of_ne hnm] using h.returned n hn
  · intro n hn
    by_cases hnm : n = m
    · subst hnm; simpa only [setMutator, Function.update_self] using hrunning
    · simpa only [setMutator, Function.update_of_ne hnm] using h.running n hn

/-- a step that changes nothing but one mutator, which keeps its block -/
theorem Inv.setMutator (h : Inv sp s) {m : ℕ} (hm : m ∈ s.ids) (x : Mutator)
    (hblock : x.loc.block = (s.mutator m).loc.block) (hshape : x.pc.active = true → Shape s.lines x.loc)
    (hreturned : x.pc.returned = true → x.loc.block = none) (hrunning : x.pc ≠ .panicked) :
    Inv sp (s.setMutator m x) :=
  h.frame hm x h.lines (by rw [hblock]) (fun n hn _ => h.shape n hn) hshape hreturned hrunning

/-- `return_block` -/
theorem Inv.returnBlock (h : Inv sp s) {m : ℕ} (hm : m ∈ s.ids) (pc : MutPc) (hact : pc.active = false)
    (hrunning : pc ≠ .panicked) :
    Inv sp { s.setMutator m ⟨((s.mutator m).loc.returnBlock s.used).1, pc⟩ with
      used := ((s.mutator m).loc.returnBlock s.used).2 } := by
  refine h.frame hm ⟨((s.mutator m).loc.returnBlock s.used).1, pc⟩ h.lines ?_ (fun n hn _ => h.shape n hn)
    (fun hp => by rw [hact] at hp; cases hp) (fun _ => by simp) hrunning
  rw [ImmixMutatorLocal.returnBlock_used, ImmixMutatorLocal.returnBlock_block]
  simp

/-- the lines of a bump region are not touched when another block's lines are -/
theorem Inv.shape_of_other (h : Inv sp s) {m n : ℕ} (hm : m ∈ s.ids) (hn : n ∈ s.ids) (hnm : n ≠ m) {k i j : ℕ}
    (hk : k < sp.size / 65536) (hb : (s.mutator m).loc.block = some (sp.block k)) (hj : j ≤ 256)
    (hact : (s.mutator n).pc.active = true) :
    Shape ((sp.block k).lineMarkTable.freshen s.lines i j) (s.mutator n).loc := by
  have hs := h.shape n hn hact
  refine ⟨hs.empty, hs.region, fun a h1 h2 => ?_⟩
  rw [get_freshen_block hk h.lines_len hj]
  have hline : ((sp.block k).lineMarkTable.freshen s.lines i j).lineOf a = s.lines.lineOf a :=
    Trace.lineOf_congr (by simp) a
  obtain ⟨c, hc⟩ := hs.block_of_lt (by omega)
  obtain ⟨k', hk', rfl⟩ := h.block_eq hn hc
  have hne : k' ≠ k := by
    rintro rfl
    exact hnm (h.owner n hn m hm _ hc hb)
  have hin := lineOf_block h.spaceStart (hs.has hc h1 h2)
  rw [hline, if_neg (by omega)]
  exact hs.fresh a h1 h2

theorem Inv.tick (h : Inv sp s) {m : ℕ} (hm : m ∈ s.ids) : Inv sp (s.tick m) := by
  unfold Heap.tick
  cases hpc : (s.mutator m).pc with
  | alloc layout =>
    have hact : (s.mutator m).pc.active = true := by rw [hpc]; rfl
    have hs := h.shape m hm hact
    simp only
    cases hb : (s.mutator m).loc.bump layout with
    | none =>
      exact h.setMutator hm ⟨(s.mutator m).loc, .tryAllocFromLocal layout⟩ rfl (fun _ => hs) (by rintro ⟨⟩) (by rintro ⟨⟩)
    | some r =>
      have hs' := hs.bump (h.cursor_le hm hact) hb
      obtain ⟨-, -, -, hr⟩ := bump_spec (h.cursor_le hm hact) hb
      exact h.setMutator hm ⟨r.2, .idle⟩ (by simp only [hr]) (fun _ => hs') (by rintro ⟨⟩) (by rintro ⟨⟩)
  | tryAllocFromLocal layout =>
    have hs := h.shape m hm (by rw [hpc]; rfl)
    simp only
    cases hl : (s.mutator m).loc.tryAllocFromLocal s.lines with
    | none =>
      exact h.setMutator hm ⟨(s.mutator m).loc, .allocFromGlobal layout⟩ rfl (by rintro ⟨⟩) (by rintro ⟨⟩)
        (by rintro ⟨⟩)
    | panicked => exact absurd hl hs.not_panicked
    | hole loc lines =>
      obtain ⟨b, hb⟩ := tryAllocFromLocal_block hl
      obtain ⟨k, hk, rfl⟩ := h.block_eq hm hb
      obtain ⟨i, j, -, hij, hj, -, rfl, rfl⟩ := tryAllocFromLocal_hole hb rfl hl
      refine h.frame hm ⟨⟨_, _, j, some (sp.block k)⟩, .alloc layout⟩ ?_ ?_ ?_
        (fun _ => Shape.hole h.spaceStart hk h.lines_len hij hj) (by rintro ⟨⟩) (by rintro ⟨⟩)
      · have hlen := LineMarkTableSlice.freshen_len (sp.block k).lineMarkTable s.lines i j
        have hstart := LineMarkTableSlice.freshen_spaceStart (sp.block k).lineMarkTable s.lines i j
        rw [h.spaceStart] at hstart
        rw [h.lines_len] at hlen
        cases hf : (sp.block k).lineMarkTable.freshen s.lines i j with
        | mk a c f =>
          rw [hf] at hlen hstart
          simp only at hlen hstart
          subst hlen hstart
          simp [Space.lineTable, LineMarkTable.new, Address.diff]
      · simp only [hb]; exact List.Perm.refl _
      · exact fun n hn hnm => h.shape_of_other hm hn hnm hk hb hj
  | allocFromGlobal layout => exact h.returnBlock hm (.loop layout) rfl (by rintro ⟨⟩)
  | loop layout =>
    have hnone := h.returned m hm (by rw [hpc]; rfl)
    simp only
    cases hu : s.usable with
    | nil => exact h
    | cons b usable =>
      refine h.frame hm ⟨(s.mutator m).loc.useBlock b, .alloc layout⟩ h.lines ?_ (fun n hn _ => h.shape n hn)
        (fun _ => shape_useBlock s.lines (s.mutator m).loc b) (by rintro ⟨⟩) (by rintro ⟨⟩)
      simp only [ImmixMutatorLocal.useBlock, hnone, hu, Option.toList_some, Option.toList_none, List.append_nil]
      exact (List.perm_append_singleton b (usable ++ s.used))
  | _ => exact h

theorem Inv.park (h : Inv sp s) {m : ℕ} (hm : m ∈ s.ids) (layout : Option Layout) : Inv sp (s.park m layout) :=
  h.returnBlock hm (.stopped layout) rfl (by rintro ⟨⟩)

theorem Inv.stop (h : Inv sp s) {m : ℕ} (hm : m ∈ s.ids) : Inv sp (s.stop m) := by
  unfold Heap.stop
  split
  · exact h.park hm none
  · exact h.park hm _
  · exact h

theorem Inv.resume (h : Inv sp s) {m : ℕ} (hm : m ∈ s.ids) : Inv sp (s.resume m) := by
  unfold Heap.resume
  cases hpc : (s.mutator m).pc with
  | released layout =>
    have hnone := h.returned m hm (by rw [hpc]; rfl)
    cases layout with
    | none =>
      exact h.setMutator hm ⟨(s.mutator m).loc.reset, .idle⟩ hnone.symm (fun _ => shape_reset s.lines (s.mutator m).loc)
        (by rintro ⟨⟩) (by rintro ⟨⟩)
    | some layout =>
      exact h.setMutator hm ⟨(s.mutator m).loc.reset, .loop layout⟩ hnone.symm (by rintro ⟨⟩) (fun _ => rfl)
        (by rintro ⟨⟩)
  | _ => exact h

/-- dropping mutators from the registry -/
theorem Inv.mono_ids (h : Inv sp s) (ids : List ℕ) (hsub : ∀ m ∈ ids, m ∈ s.ids) : Inv sp { s with ids := ids } :=
  ⟨h.traceMap, h.lines, h.nodup, h.blocks, fun m hm => h.held m (hsub m hm),
    fun m hm n hn => h.owner m (hsub m hm) n (hsub n hn), fun m hm => h.shape m (hsub m hm),
    fun m hm => h.returned m (hsub m hm), fun m hm => h.running m (hsub m hm)⟩

theorem Inv.destroy (h : Inv sp s) {m : ℕ} (hm : m ∈ s.ids) : Inv sp (s.destroy m) := by
  unfold Heap.destroy
  split
  · -- the block is returned, then the mutator is no longer registered
    have hret := (h.returnBlock hm (.stopped none) rfl (by rintro ⟨⟩)).mono_ids (s.ids.filter (· ≠ m))
      fun n hn => (List.mem_filter.1 hn).1
    have hne : ∀ n ∈ s.ids.filter (· ≠ m), n ≠ m := fun n hn => by simpa using (List.mem_filter.1 hn).2
    have hmut : ∀ n ∈ s.ids.filter (· ≠ m), Function.update s.mutator m
        ⟨((s.mutator m).loc.returnBlock s.used).1, .stopped none⟩ n = s.mutator n :=
      fun n hn => Function.update_of_ne (hne n hn) _ _
    refine ⟨hret.traceMap, hret.lines, hret.nodup, hret.blocks, fun n hn b hb => ?_, fun n hn n' hn' b hb hb' => ?_,
      fun n hn => ?_, fun n hn => ?_, fun n hn => ?_⟩
    · exact hret.held n hn b (by simpa only [setMutator_mutator, hmut n hn] using hb)
    · exact hret.owner n hn n' hn' b (by simpa only [setMutator_mutator, hmut n hn] using hb)
        (by simpa only [setMutator_mutator, hmut n' hn'] using hb')
    · have := hret.shape n hn
      simp only [setMutator_mutator, hmut n hn] at this
      exact this
    · have := hret.returned n hn; simpa only [setMutator_mutator, hmut n hn] using this
    · have := hret.running n hn; simpa only [setMutator_mutator, hmut n hn] using this
  · exact h

theorem Inv.newMutator (h : Inv sp s) {m : ℕ} (hm : m ∉ s.ids) :
    Inv sp { s.setMutator m ⟨.new, .idle⟩ with ids := m :: s.ids } := by
  have hne : ∀ n ∈ s.ids, n ≠ m := fun n hn hnm => hm (hnm ▸ hn)
  have hmut : ∀ n ∈ s.ids, Function.update s.mutator m ⟨.new, .idle⟩ n = s.mutator n :=
    fun n hn => Function.update_of_ne (hne n hn) _ _
  have hnew : (Function.update s.mutator m ⟨.new, .idle⟩ m).loc.block = none := by
    rw [Function.update_self]; rfl
  have hold : ∀ n ∈ m :: s.ids, n = m ∨ n ∈ s.ids := fun n hn => List.mem_cons.1 hn
  refine ⟨h.traceMap, h.lines, h.nodup, h.blocks, fun n hn b hb => ?_, fun n hn n' hn' b hb hb' => ?_, fun n hn => ?_,
    fun n hn => ?_, fun n hn => ?_⟩
  · rcases hold n hn with rfl | hn
    · rw [setMutator_mutator, hnew] at hb; cases hb
    · rw [setMutator_mutator, hmut n hn] at hb
      exact h.held n hn b hb
  · rcases hold n hn with rfl | hn
    · rw [setMutator_mutator, hnew] at hb; cases hb
    rcases hold n' hn' with rfl | hn'
    · rw [setMutator_mutator, hnew] at hb'; cases hb'
    rw [setMutator_mutator, hmut n hn] at hb
    rw [setMutator_mutator, hmut n' hn'] at hb'
    exact h.owner n hn n' hn' b hb hb'
  · rcases hold n hn with rfl | hn
    · rw [setMutator_mutator, Function.update_self]
      exact fun _ => shape_reset s.lines .new
    · rw [setMutator_mutator, hmut n hn]; exact h.shape n hn
  · rcases hold n hn with rfl | hn
    · rw [setMutator_mutator, hnew]; exact fun _ => rfl
    · rw [setMutator_mutator, hmut n hn]; exact h.returned n hn
  · rcases hold n hn with rfl | hn
    · rw [setMutator_mutator, Function.update_self]; rintro ⟨⟩
    · rw [setMutator_mutator, hmut n hn]; exact h.running n hn

/-! ## Collections -/

/-- what the trace of a collection computes -/
theorem Inv.traced (h : Inv sp s) {roots : List ℕ} {cpus : ℕ+} {schedule : List (ℕ × ℕ)}
    (hf : Trace.Finished (s.env sp cpus) (s.startTrace sp roots cpus schedule)) :
    Trace.Traced (s.env sp cpus) s.traceMap s.lines roots (s.startTrace sp roots cpus schedule) :=
  Trace.traced_of_finished
    (Trace.inv_run _ (by rw [h.traceMap]; exact sp.traceMap_fits _ _) s.lines roots schedule) hf

/-- what the sweep of a collection computes -/
theorem Inv.swept (h : Inv sp s) {t : LineMarkTable} (hlen : t.len = s.lines.len) :
    Swept t ⟨t, s.usable, [], 0, 0⟩ s.used (sweep t s.usable s.used) := by
  refine sweep_spec t s.usable s.used fun b hb => ?_
  obtain ⟨k, hk, rfl⟩ := mem_initBlocks.1 (h.blocks b (List.mem_append_right _ hb))
  have := slice_in_table hk
  rw [hlen, h.lines_len]
  simp only [Space.block]
  omega

theorem Inv.gc (h : Inv sp s) (roots : List ℕ) (cpus : ℕ+) (schedule : List (ℕ × ℕ)) :
    Inv sp (s.gc sp roots cpus schedule) := by
  unfold Heap.gc
  split_ifs with hc
  swap
  · exact h
  obtain ⟨hstop, hf⟩ := hc
  have ht := h.traced hf
  have hsw := h.swept ht.len
  have hnone : ∀ m ∈ s.ids, (s.mutator m).loc.block = none :=
    fun m hm => h.returned m hm (MutPc.returned_of_isStopped (hstop m hm))
  have hperm : ((s.collect sp (s.startTrace sp roots cpus schedule)).usable ++
      (s.collect sp (s.startTrace sp roots cpus schedule)).used).Perm (s.usable ++ s.used) := by
    have := hsw.perm
    simp only [List.append_nil] at this
    exact this
  have htable : ∀ {t : LineMarkTable}, t.len = s.lines.len → t.spaceStart = s.lines.spaceStart →
      t = sp.lineTable t.get := by
    rintro ⟨a, c, f⟩ h1 h2
    simp only at h1 h2
    rw [h1, h2, h.lines_len, h.spaceStart]
    simp [Space.lineTable, LineMarkTable.new, Address.diff]
  refine ⟨?_, htable (hsw.len.trans ht.len) (hsw.spaceStart.trans ht.spaceStart), hperm.nodup_iff.2 h.nodup,
    fun b hb => h.blocks b (hperm.mem_iff.1 hb), fun m hm b hb => ?_, fun m hm n hn b hb => ?_, fun m hm hact => ?_,
    fun m hm _ => hnone m hm, fun m hm hp => ?_⟩
  · have htm := ht.marks.table
    rw [h.traceMap] at htm
    simp only [collect]
    split_ifs <;> rw [htm] <;> rfl
  · have := hnone m hm
    simp only [collect] at hb
    rw [this] at hb; cases hb
  · have := hnone m hm
    simp only [collect] at hb
    rw [this] at hb; cases hb
  · have := hstop m hm
    simp only [collect] at hact
    cases hpc : (s.mutator m).pc <;> rw [hpc] at this hact <;> cases this
    cases hact
  · have := hstop m hm
    simp only [collect] at hp
    cases hpc : (s.mutator m).pc <;> rw [hpc] at this hp <;> cases this
    cases hp

/-- **Step lemma.** Every operation keeps the block invariant. -/
theorem inv_step (sp : Space) (s : Heap) (o : Op) (h : Inv sp s) : Inv sp (step sp s o) := by
  unfold step
  split_ifs with hcr
  · exact h
  cases o with
  | new m =>
    simp only
    split_ifs with hm
    · exact h
    · exact h.newMutator hm
  | alloc m layout =>
    simp only
    split_ifs with hm
    · split
      · rename_i hpc
        exact h.setMutator hm ⟨(s.mutator m).loc, .alloc layout⟩ rfl (fun _ => h.shape m hm (by rw [hpc]; rfl))
          (by rintro ⟨⟩) (by rintro ⟨⟩)
      · exact h
    · exact h
  | tick m => simp only; split_ifs with hm; exacts [h.tick hm, h]
  | stop m => simp only; split_ifs with hm; exacts [h.stop hm, h]
  | gc roots cpus schedule => exact h.gc roots cpus schedule
  | resume m => simp only; split_ifs with hm; exacts [h.resume hm, h]
  | destroy m => simp only; split_ifs with hm; exacts [h.destroy hm, h]
  | initObject m addr encode =>
    simp only
    split_ifs with hm
    · split
      · exact ⟨h.traceMap, h.lines, h.nodup, h.blocks, h.held, h.owner, h.shape, h.returned, h.running⟩
      · exact h
    · exact h
  | write m addr value =>
    simp only
    split_ifs with hm
    · split
      · exact ⟨h.traceMap, h.lines, h.nodup, h.blocks, h.held, h.owner, h.shape, h.returned, h.running⟩
      · exact h
    · exact h

/-- **Run lemma.** The block invariant holds in every state of every run of a new space. -/
theorem inv_run (sp : Space) (ops : List Op) (k : ℕ) : Inv sp (before sp ops k) :=
  stateAt_inv_all ops (inv_step sp) (inv_new sp) k

end Heap

end Immix
