/-
The stop-the-world barrier (`heap/gc/mod.rs`, `ImmixMutatorLocal` of `heap/immix/immix_mutator.rs`), one shared access
at a time.

A thread is a mutator, named by a number; its program point is a `Pc`. One step of thread `m` is `next s m env`: it
performs the next access of `m` to the shared state (an atomic, a lock, a queue) with the thread's own work up to the
one after it. A thread that waits for a lock, or sleeps on the condition variable, takes a step that changes nothing.
What the data of a lock holds is read and written only while the lock is held, so taking a lock and the first access
to its data are one step, and so are the last access and the release.

- MUTATORS is `mutators` (the mutators in the order of their arena slots) with `mutatorsLock`; N_MUTATORS is
  `nMutators`; CONTROLLER is `controller`; the mutex of STW_COND is `stwLock` with `stwCount`, and the threads in
  `cvar.wait` are those at `asleep`; ROOTS is `roots` with `rootsLock`; GC_COUNT is `gcCount`.
- ROOTS is kept as the list of the pieces appended to it, each with the thread that appended it (the vector is
  their concatenation); `drained` is what the last `start_trace` took, `gcDone` counts the calls of gc() that returned.
- These are process-wide. Each mutator is made for one of any number of spaces; `usableBlocks i` and `usedBlocks i` are
  the queues of space `i`, with the ids of its blocks. A controller collects its own space.
- `alloc` is modelled from `alloc_from_global` on: the paths before it touch only the mutator's own block. Taking a
  block ends the call; the `alloc` that follows on it is the next call of the client.
- What tracing does to the heap is not here: `env` says whether `start_trace` is still running, has returned, or panics
  (`join` of a worker that panicked, unwrapped). A sweep moves the used blocks, `env` says which of them are full.
- A thread whose gc() panics is gone: its locks are released, nothing else is undone.
- A mutator that has been destroyed is not used again: nothing is called on it, but for a `new` under its name.
-/
import Immix.Space
import Immix.Lib.Run

namespace Immix.Barrier

/-! ## State -/

/-- where a yieldpoint returns to: the client, or the loop of `alloc_from_global` -/
inductive Ret
  | client
  | allocLoop
deriving DecidableEq, Repr

/-- the next shared access of a thread -/
inductive Pc
  /-- no mutator of this name -/
  | absent
  /-- `ImmixMutatorLocal::new`: lock MUTATORS and insert; `fetch_add`; unlock -/
  | newInsert
  | newAdd
  | newUnlock
  /-- in the client's code -/
  | idle
  | yieldpoint
  /-- `trigger_gc`: lock MUTATORS; set the flags of `todo` -/
  | trigLock
  | trigSet (todo : List ℕ)
  /-- `alloc_from_global`: give the block back; after the yieldpoint, `get_next_usable_block` -/
  | allocReturn
  | allocSteal
  /-- `destroy`: give the block back; lock MUTATORS and remove; `fetch_sub`; unlock -/
  | destroyReturn
  | destroyRemove
  | destroySub
  | destroyUnlock
  /-- `sync_barrier`: `saw` is the controller that a failed `compare_exchange` returned -/
  | cas
  | prepare (saw : Option ℤ)
  | scan (saw : Option ℤ)
  | append (saw : Option ℤ)
  /-- `Err(controller)`: the assertion, then `block_current_thread` -/
  | assertNe (saw : ℤ)
  | parkLock
  | parkFlag
  | parkLoop
  | asleep
  | woken
  | parkReset
  /-- `Ok(_)`: the loop that waits for the others, with its local `count` -/
  | waitLoad (count : ℕ)
  | waitRead (count : ℕ)
  /-- `gc` -/
  | gcStart
  | gcLockRoots
  | gcDrain
  | gcTrace
  | gcSweep (live : List ℕ) (usable : ℕ)
  | gcFlip
  /-- the controller's end of the cycle -/
  | storeController
  | clearLock
  | clearYield (todo : List ℕ)
  | clearBlocked (k : ℕ) (todo : List ℕ)
  | resumeLock
  | resumeNotify
  | resumeUnlock
  | gcPanicked
  | assertFailed
deriving DecidableEq, Repr

/-- a mutator: `ImmixMutatorLocal` with its `ImmixMutatorGlobal`, as far as the barrier uses them -/
structure Thread where
  pc : Pc := .absent
  ret : Ret := .client
  /-- the slot of its `id` in the arena -/
  slot : ℕ := 0
  /-- the space it was made for -/
  space : ℕ := 0
  takeYield : Bool := false
  stillBlocked : Bool := false
  block : Option ℕ := none
  /-- `thread_roots`; `append` empties it and nothing reads it afterwards, so the model keeps it -/
  threadRoots : List ℕ := []
deriving DecidableEq, Repr

abbrev Threads := ℕ → Thread

structure State where
  controller : ℤ
  stwCount : ℕ
  stwLock : Option ℕ
  mutators : List ℕ
  mutatorsLock : Option ℕ
  nMutators : ℕ
  roots : List (ℕ × List ℕ)
  rootsLock : Option ℕ
  drained : List (ℕ × List ℕ)
  gcCount : ℕ
  gcDone : ℕ
  spaces : ℕ → Space
  usableBlocks : ℕ → List ℕ
  usedBlocks : ℕ → List ℕ
  debugAssertions : Bool
  thread : Threads

def noController : ℤ := -1

/-- what becomes of `start_trace` in a step: it may run for ever -/
inductive Tracing
  | running
  | returns
  | panics
deriving DecidableEq, Repr

/-- what a step reads from outside the model -/
structure Env where
  /-- the free slot that the arena hands out -/
  slot : ℕ := 0
  /-- the words on the stack and in the registers, and the allocation map that `stack_scan` reads -/
  words : List ℕ := []
  allocMap : ℕ → UInt8 := fun _ => 0
  tracing : Tracing := .returns
  /-- no line of the block that the sweep looks at is free -/
  full : Bool := false

/-- the functions a client calls -/
inductive Call
  | new (space : ℕ)
  | alloc
  | yieldpoint
  | requestGc
  | destroy
deriving DecidableEq, Repr

inductive Op
  | call (m : ℕ) (c : Call)
  | next (m : ℕ) (env : Env)

/-! ## Steps -/

/-- where the thread goes on when its yieldpoint returns -/
def Ret.pc : Ret → Pc
  | .client => .idle
  | .allocLoop => .allocSteal

/-- a thread on the condition variable goes on to take the mutex again -/
def Pc.wake : Pc → Pc
  | .asleep => .woken
  | pc => pc

namespace Threads

variable (ts : Threads)

def set (m : ℕ) (t : Thread) : Threads := Function.update ts m t

def goto (m : ℕ) (pc : Pc) : Threads := ts.set m { ts m with pc := pc }

def setTakeYield (k : ℕ) (b : Bool) : Threads := ts.set k { ts k with takeYield := b }

def setStillBlocked (k : ℕ) (b : Bool) : Threads := ts.set k { ts k with stillBlocked := b }

def setBlock (m : ℕ) (b : Option ℕ) : Threads := ts.set m { ts m with block := b }

/-- `cvar.notify_all()` -/
def notifyAll : Threads := fun k => { ts k with pc := (ts k).pc.wake }

end Threads

/-- `return_block`, and on to `pc` -/
def State.returnBlock (s : State) (m : ℕ) (pc : Pc) : State :=
  { s with
    usedBlocks := Function.update s.usedBlocks (s.thread m).space
      (s.usedBlocks (s.thread m).space ++ (s.thread m).block.toList)
    thread := (s.thread.setBlock m none).goto m pc }

/-- the arena keeps its entries in the order of their slots -/
def insertBySlot (slot : ℕ → ℕ) (m : ℕ) (l : List ℕ) : List ℕ := l.orderedInsert (fun a b => slot a ≤ slot b) m

/-- the panics at the end of `sweep`: out of memory, or (in a debug build) the assertion on the number of blocks -/
def State.sweepPanics (s : State) (i full usable : ℕ) : Bool :=
  full = (s.spaces i).totalBlocks || (s.debugAssertions && full + usable ≠ (s.spaces i).totalBlocks)

/-- `stack_scan(space)` -/
def stackScan (sp : Space) (env : Env) : List ℕ :=
  env.words.filter fun w => isValidObject w sp.start sp.stop ⟨sp.start, sp.stop, env.allocMap⟩

/-- a call by the client: a mutator makes one call at a time, and none before `new` or after `destroy` -/
def call (s : State) (m : ℕ) (c : Call) : State :=
  let t := s.thread m
  match c with
  | .new i => if t.pc = .absent then { s with thread := s.thread.set m { pc := .newInsert, space := i } } else s
  | .alloc =>
    if t.pc = .idle then { s with thread := s.thread.set m { t with pc := .allocReturn, ret := .allocLoop } } else s
  | .yieldpoint =>
    if t.pc = .idle then { s with thread := s.thread.set m { t with pc := .yieldpoint, ret := .client } } else s
  | .requestGc =>
    if t.pc = .idle then { s with thread := s.thread.set m { t with pc := .trigLock, ret := .client } } else s
  | .destroy => if t.pc = .idle then { s with thread := s.thread.goto m .destroyReturn } else s

/-- the next step of thread `m` -/
def next (s : State) (m : ℕ) (env : Env) : State :=
  let t := s.thread m
  let goto := s.thread.goto m
  match t.pc with
  | .absent => s
  | .newInsert =>
    if s.mutatorsLock = none ∧ ∀ k ∈ s.mutators, (s.thread k).slot ≠ env.slot then
      { s with
        mutatorsLock := some m
        mutators := insertBySlot (Function.update (fun k => (s.thread k).slot) m env.slot) m s.mutators
        thread := s.thread.set m { t with pc := .newAdd, slot := env.slot } }
    else s
  | .newAdd => { s with nMutators := s.nMutators + 1, thread := goto .newUnlock }
  | .newUnlock => { s with mutatorsLock := none, thread := goto .idle }
  | .idle => s
  | .yieldpoint => { s with thread := goto (if t.takeYield then .cas else t.ret.pc) }
  | .trigLock =>
    if s.mutatorsLock = none then { s with mutatorsLock := some m, thread := goto (.trigSet s.mutators) } else s
  | .trigSet (k :: todo) => { s with thread := (s.thread.setTakeYield k true).goto m (.trigSet todo) }
  | .trigSet [] => { s with mutatorsLock := none, thread := goto .yieldpoint }
  | .allocReturn => s.returnBlock m .yieldpoint
  | .allocSteal =>
    match s.usableBlocks t.space with
    | [] => { s with thread := goto .trigLock }
    | b :: rest =>
      { s with
        usableBlocks := Function.update s.usableBlocks t.space rest
        thread := (s.thread.setBlock m (some b)).goto m .idle }
  | .destroyReturn => s.returnBlock m .destroyRemove
  | .destroyRemove =>
    if s.mutatorsLock = none then
      { s with mutatorsLock := some m, mutators := s.mutators.erase m, thread := goto .destroySub }
    else s
  | .destroySub => { s with nMutators := s.nMutators - 1, thread := goto .destroyUnlock }
  | .destroyUnlock => { s with mutatorsLock := none, thread := goto .absent }
  | .cas =>
    if s.controller = noController then { s with controller := t.slot, thread := goto (.prepare none) }
    else { s with thread := goto (.prepare (some s.controller)) }
  | .prepare saw => s.returnBlock m (.scan saw)
  | .scan saw => { s with thread := s.thread.set m { t with pc := .append saw, threadRoots := stackScan (s.spaces t.space) env } }
  | .append saw =>
    if s.rootsLock = none then
      { s with
        roots := s.roots ++ [(m, t.threadRoots)]
        thread := goto (match saw with | none => .waitLoad 0 | some c => .assertNe c) }
    else s
  | .assertNe saw => { s with thread := goto (if saw = t.slot then .assertFailed else .parkLock) }
  | .parkLock =>
    if s.stwLock = none then
      { s with stwLock := some m, stwCount := s.stwCount + 1, thread := goto .parkFlag }
    else s
  | .parkFlag => { s with thread := (s.thread.setStillBlocked m true).goto m .parkLoop }
  | .parkLoop => { s with stwLock := none, thread := goto (if t.stillBlocked then .asleep else .parkReset) }
  | .asleep => s
  | .woken => if s.stwLock = none then { s with stwLock := some m, thread := goto .parkLoop } else s
  | .parkReset => { s with thread := (s.thread.setBlock m none).goto m t.ret.pc }
  | .waitLoad count => { s with thread := goto (if count < s.nMutators - 1 then .waitRead count else .gcStart) }
  | .waitRead _ => if s.stwLock = none then { s with thread := goto (.waitLoad s.stwCount) } else s
  | .gcStart => { s with gcCount := s.gcCount + 1, thread := goto .gcLockRoots }
  | .gcLockRoots => if s.rootsLock = none then { s with rootsLock := some m, thread := goto .gcDrain } else s
  | .gcDrain => { s with roots := [], drained := s.roots, thread := goto .gcTrace }
  | .gcTrace =>
    match env.tracing with
    | .running => s
    | .returns => { s with thread := goto (.gcSweep [] 0) }
    | .panics => { s with rootsLock := none, thread := goto .gcPanicked }
  | .gcSweep live usable =>
    match s.usedBlocks t.space with
    | b :: rest =>
      let s' := { s with usedBlocks := Function.update s.usedBlocks t.space rest }
      if env.full then { s' with thread := goto (.gcSweep (b :: live) usable) }
      else
        { s' with
          usableBlocks := Function.update s.usableBlocks t.space (s.usableBlocks t.space ++ [b])
          thread := goto (.gcSweep live (usable + 1)) }
    | [] =>
      let s' := { s with usedBlocks := Function.update s.usedBlocks t.space live }
      if s.sweepPanics t.space live.length usable then { s' with rootsLock := none, thread := goto .gcPanicked }
      else { s' with thread := goto .gcFlip }
  | .gcFlip => { s with rootsLock := none, gcDone := s.gcDone + 1, thread := goto .storeController }
  | .storeController => { s with controller := noController, thread := goto .clearLock }
  | .clearLock =>
    if s.mutatorsLock = none then { s with mutatorsLock := some m, thread := goto (.clearYield s.mutators) } else s
  | .clearYield (k :: todo) => { s with thread := (s.thread.setTakeYield k false).goto m (.clearBlocked k todo) }
  | .clearBlocked k todo => { s with thread := (s.thread.setStillBlocked k false).goto m (.clearYield todo) }
  | .clearYield [] => { s with mutatorsLock := none, thread := (s.thread.setBlock m none).goto m .resumeLock }
  | .resumeLock =>
    if s.stwLock = none then { s with stwLock := some m, stwCount := 0, thread := goto .resumeNotify } else s
  | .resumeNotify => { s with thread := s.thread.notifyAll.goto m .resumeUnlock }
  | .resumeUnlock => { s with stwLock := none, thread := goto t.ret.pc }
  | .gcPanicked => s
  | .assertFailed => s

def step (s : State) : Op → State
  | .call m c => call s m c
  | .next m env => next s m env

/-- where a run starts: new spaces, and any number of mutators that have just been registered -/
structure Setup where
  spaces : ℕ → Space
  mutators : List ℕ
  slot : ℕ → ℕ
  space : ℕ → ℕ
  debugAssertions : Bool
  nodup : mutators.Nodup
  slot_inj : ∀ a ∈ mutators, ∀ b ∈ mutators, slot a = slot b → a = b

def Setup.init (u : Setup) : State where
  controller := noController
  stwCount := 0
  stwLock := none
  mutators := u.mutators
  mutatorsLock := none
  nMutators := u.mutators.length
  roots := []
  rootsLock := none
  drained := []
  gcCount := 0
  gcDone := 0
  spaces := u.spaces
  usableBlocks := fun i => List.range (u.spaces i).totalBlocks
  usedBlocks := fun _ => []
  debugAssertions := u.debugAssertions
  thread k := if k ∈ u.mutators then { pc := .idle, slot := u.slot k, space := u.space k } else {}

/-- the state in which step `k` of a run is taken -/
def before (u : Setup) (ops : List Op) (k : ℕ) : State := Lib.stateAt step u.init ops k

theorem before_succ {u : Setup} {ops : List Op} {k : ℕ} {o : Op} (h : ops[k]? = some o) :
    before u ops (k + 1) = step (before u ops k) o := Lib.stateAt_succ _ _ h

/-- nothing happens after the last operation -/
theorem before_succ_none {u : Setup} {ops : List Op} {k : ℕ} (h : ops[k]? = none) :
    before u ops (k + 1) = before u ops k := by
  have hlen : ops.length ≤ k := List.getElem?_eq_none_iff.1 h
  exact (Lib.stateAt_of_le step u.init (by omega : ops.length ≤ k + 1)).trans (Lib.stateAt_of_le step u.init hlen).symm

/-- an invariant of every step holds in every state of every run -/
theorem before_inv_all {P : State → Prop} (u : Setup) (ops : List Op) (h0 : P u.init)
    (hstep : ∀ s o, P s → P (step s o)) (k : ℕ) : P (before u ops k) := Lib.stateAt_inv_all ops hstep h0 k

/-- an invariant of the legal steps holds in every state of a run of such steps -/
theorem before_inv {legal : State → Op → Prop} {P : State → Prop} (u : Setup) {ops : List Op} (h0 : P u.init)
    (hstep : ∀ s o, legal s o → P s → P (step s o)) (hops : Lib.LegalRun step legal u.init ops) (k : ℕ) :
    P (before u ops k) := Lib.stateAt_inv hstep h0 hops k

/-! ## What the updates do to a thread -/

namespace Threads

variable (ts : Threads)

theorem set_apply (m : ℕ) (t : Thread) (j : ℕ) : ts.set m t j = if j = m then t else ts j := Function.update_apply ..

@[simp] theorem set_self (m : ℕ) (t : Thread) : ts.set m t m = t := Function.update_self ..

theorem set_of_ne {m j : ℕ} (h : j ≠ m) (t : Thread) : ts.set m t j = ts j := Function.update_of_ne h ..

@[simp] theorem goto_apply (m : ℕ) (pc : Pc) (j : ℕ) :
    ts.goto m pc j = { ts j with pc := if j = m then pc else (ts j).pc } := by
  rw [goto, set_apply]
  split_ifs with h
  · rw [h]
  · rfl

@[simp] theorem setTakeYield_apply (k : ℕ) (b : Bool) (j : ℕ) :
    ts.setTakeYield k b j = { ts j with takeYield := if j = k then b else (ts j).takeYield } := by
  rw [setTakeYield, set_apply]
  split_ifs with h
  · rw [h]
  · rfl

@[simp] theorem setStillBlocked_apply (k : ℕ) (b : Bool) (j : ℕ) :
    ts.setStillBlocked k b j = { ts j with stillBlocked := if j = k then b else (ts j).stillBlocked } := by
  rw [setStillBlocked, set_apply]
  split_ifs with h
  · rw [h]
  · rfl

@[simp] theorem setBlock_apply (m : ℕ) (b : Option ℕ) (j : ℕ) :
    ts.setBlock m b j = { ts j with block := if j = m then b else (ts j).block } := by
  rw [setBlock, set_apply]
  split_ifs with h
  · rw [h]
  · rfl

@[simp] theorem notifyAll_apply (j : ℕ) : ts.notifyAll j = { ts j with pc := (ts j).pc.wake } := rfl

end Threads

end Immix.Barrier
