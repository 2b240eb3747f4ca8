/-
The C tracer (`c_src/gc.c`, `c_src/gc.h`, `is_traced`, `mark_as_traced` and `get_ref_byte` of `c_src/objectmodel.h`,
`mark_line_live` of `c_src/immix.h`) and its agreement with the Rust one.

`start_trace` pops objects from the vector that holds the roots until it is empty; `trace_object` marks what it is given,
traced or not, and pushes the untraced targets of its slots. `none` stands for `exit(1)`, for a store past the end of
the vector's array, and for a loop out of fuel. Lengths and capacities are assumed to fit in an `int`, and `malloc` to
succeed; what a new array holds is arbitrary (`malloc`).
- `AddressVector.push_spec`, `AddressVector.pop_spec`: the growing array is a list.
- `sim_step`: a round of the loop is a round of `Search`.
- `tracers_agree`: the loop terminates, with the trace map and the live lines of every complete Rust trace.
-/
import Immix.TraceReach
import Immix.CScalars
import Immix.Lib.Search

namespace Immix.C

open Immix.Lib Immix.Trace

/-! ## The vector -/

/-- `data` stands for the words behind the pointer; those from `currentCapacity` on are not part of the array -/
structure AddressVector where
  currentCapacity : ℕ
  length : ℕ
  data : ℕ → ℕ

namespace AddressVector

variable (malloc : ℕ → ℕ → ℕ)

def new (initCapacity : ℕ) : AddressVector := ⟨initCapacity, 0, malloc initCapacity⟩

def grow (list : AddressVector) : AddressVector :=
  let oldCapacity := list.currentCapacity
  let newCapacity := oldCapacity * 2
  { list with
    data := fun i => if i < oldCapacity then list.data i else malloc newCapacity i
    currentCapacity := newCapacity }

/-- `none` when the store is past the end of the array -/
def push (list : AddressVector) (value : ℕ) : Option AddressVector :=
  let list := if list.length = list.currentCapacity then list.grow malloc else list
  if list.length < list.currentCapacity then
    some { list with data := Function.update list.data list.length value, length := list.length + 1 }
  else none

def pop (list : AddressVector) : ℕ × AddressVector :=
  (list.data (list.length - 1), { list with length := list.length - 1 })

def isEmpty (list : AddressVector) : Bool := list.length == 0

/-- what the vector holds, the oldest first -/
def toList (list : AddressVector) : List ℕ := (List.range list.length).map list.data

structure WellFormed (list : AddressVector) : Prop where
  capacity : 1 ≤ list.currentCapacity
  length : list.length ≤ list.currentCapacity

variable {list : AddressVector}

theorem wellFormed_new {initCapacity : ℕ} (h : 1 ≤ initCapacity) : (new malloc initCapacity).WellFormed :=
  ⟨h, Nat.zero_le _⟩

theorem isEmpty_iff : list.isEmpty = true ↔ list.toList = [] := by
  simp [isEmpty, toList]

/-- the array before the store: it holds the same list and has room -/
theorem grow_spec (h : list.WellFormed) {l : AddressVector}
    (hl : l = if list.length = list.currentCapacity then list.grow malloc else list) :
    l.WellFormed ∧ l.toList = list.toList ∧ l.length < l.currentCapacity := by
  obtain ⟨hc, hlen⟩ := h
  subst hl
  split_ifs with hfull
  · refine ⟨⟨?_, ?_⟩, ?_, ?_⟩
    · show 1 ≤ list.currentCapacity * 2
      omega
    · show list.length ≤ list.currentCapacity * 2
      omega
    · apply List.map_congr_left
      intro i hi
      have hlt : i < list.currentCapacity := by
        rw [← hfull]
        exact List.mem_range.1 hi
      exact if_pos hlt
    · show list.length < list.currentCapacity * 2
      omega
  · exact ⟨⟨hc, hlen⟩, rfl, by omega⟩

/-- **The store is inside the array**, and appends. -/
theorem push_spec (h : list.WellFormed) (value : ℕ) :
    ∃ list', list.push malloc value = some list' ∧ list'.WellFormed ∧ list'.toList = list.toList ++ [value] := by
  obtain ⟨l, hl⟩ : ∃ l, l = if list.length = list.currentCapacity then list.grow malloc else list := ⟨_, rfl⟩
  obtain ⟨hwf, hto, hroom⟩ := grow_spec malloc h hl
  refine ⟨{ l with data := Function.update l.data l.length value, length := l.length + 1 }, ?_,
    ⟨hwf.capacity, hroom⟩, ?_⟩
  · unfold push
    simp only [← hl]
    exact if_pos hroom
  · rw [← hto]
    simp only [toList, List.range_succ, List.map_append, List.map_cons, List.map_nil, Function.update_self]
    congr 1
    apply List.map_congr_left
    intro i hi
    exact Function.update_of_ne (Nat.ne_of_lt (List.mem_range.1 hi)) _ _

/-- `pop` takes the newest entry -/
theorem pop_spec (h : list.WellFormed) {l : List ℕ} {x : ℕ} (hl : list.toList = l ++ [x]) :
    list.pop.1 = x ∧ list.pop.2.WellFormed ∧ list.pop.2.toList = l := by
  obtain ⟨n, hn⟩ : ∃ n, list.length = n + 1 := by
    refine Nat.exists_eq_succ_of_ne_zero fun h0 => ?_
    simp [toList, h0] at hl
  rw [toList, hn, List.range_succ, List.map_append, List.map_cons, List.map_nil] at hl
  obtain ⟨h1, h2⟩ := List.append_inj' hl rfl
  refine ⟨?_, ⟨h.capacity, (Nat.sub_le _ _).trans h.length⟩, ?_⟩
  · show list.data (list.length - 1) = x
    rw [hn]
    exact (List.cons.inj h2).1
  · show (List.range (list.length - 1)).map list.data = l
    rw [hn]
    exact h1

/-- the roots go into a new vector one by one -/
def pushAll : List ℕ → AddressVector → Option AddressVector
  | [], list => some list
  | r :: roots, list => (list.push malloc r).bind (pushAll roots)

theorem pushAll_spec (roots : List ℕ) (h : list.WellFormed) :
    ∃ list', pushAll malloc roots list = some list' ∧ list'.WellFormed ∧ list'.toList = list.toList ++ roots := by
  induction roots generalizing list with
  | nil => exact ⟨list, rfl, h, by simp⟩
  | cons r roots ih =>
    obtain ⟨l1, h1, hwf1, hto1⟩ := push_spec malloc h r
    obtain ⟨l2, h2, hwf2, hto2⟩ := ih hwf1
    refine ⟨l2, ?_, hwf2, ?_⟩
    · rw [pushAll, h1]
      exact h2
    · rw [hto2, hto1, List.append_assoc]
      rfl

end AddressVector

/-! ## The tracer -/

/-- the fields of `ImmixSpace` that a trace uses -/
structure ImmixSpace where
  start : ℕ
  stop : ℕ
  allocMap : ℕ → UInt8
  traceMap : ℕ → UInt8
  lineMarkTable : ℕ → LineMark
  lineMarkTableLen : ℤ

def lowerBits (value len : UInt8) : UInt8 := value &&& ((1 <<< len) - 1)
def testNthBit (value index : UInt8) : Bool := value &&& (1 <<< index) != 0

def isTraced (space : ImmixSpace) (obj : ℕ) (markState : UInt8) : Bool :=
  space.traceMap (wrappingSub obj space.start >>> logPointerSize) == markState

def markAsTraced (traceMap : ℕ → UInt8) (obj spaceStart : ℕ) (markState : UInt8) : ℕ → UInt8 :=
  Function.update traceMap (wrappingSub obj spaceStart >>> logPointerSize) markState

def getRefByte (space : ImmixSpace) (obj : ℕ) : UInt8 :=
  space.allocMap (wrappingSub obj space.start >>> logPointerSize)

def markLineLive (lineMarkTable : ℕ → LineMark) (lineMarkTableLen : ℤ) (start addr : ℕ) : ℕ → LineMark :=
  let markTableIndex := wrappingSub addr start >>> logBytesInLine
  let lineMarkTable := Function.update lineMarkTable markTableIndex .live
  if markTableIndex < uintptr (lineMarkTableLen - 1) then
    Function.update lineMarkTable (markTableIndex + 1) .conservLive
  else lineMarkTable

section Tracer

variable (malloc : ℕ → ℕ → ℕ) (heap : ℕ → UInt64)

def processEdge (space : ImmixSpace) (markState : UInt8) (addr : ℕ) (workQueue : AddressVector) :
    Option AddressVector :=
  let obj := (heap addr).toNat
  if obj ≠ 0 ∧ isTraced space obj markState = false then workQueue.push malloc obj else some workQueue

/-- the `switch` on the ref_bits; the default arm exits -/
def processEdges (space : ImmixSpace) (markState : UInt8) (refBits : UInt8) (base : ℕ) (workQueue : AddressVector) :
    Option AddressVector :=
  if refBits = 0b00000001 then processEdge malloc heap space markState base workQueue
  else if refBits = 0b00000011 then do
    let workQueue ← processEdge malloc heap space markState base workQueue
    processEdge malloc heap space markState (base + 8) workQueue
  else if refBits = 0b00001111 then do
    let workQueue ← processEdge malloc heap space markState base workQueue
    let workQueue ← processEdge malloc heap space markState (base + 8) workQueue
    let workQueue ← processEdge malloc heap space markState (base + 16) workQueue
    processEdge malloc heap space markState (base + 24) workQueue
  else none

/-- the loop of the source returns or exits in its first round -/
def traceObject (space : ImmixSpace) (obj : ℕ) (workQueue : AddressVector) (markState : UInt8) :
    Option (ImmixSpace × AddressVector) :=
  let space := { space with traceMap := markAsTraced space.traceMap obj space.start markState }
  let space :=
    if space.start ≤ obj ∧ obj < space.stop then
      { space with lineMarkTable := markLineLive space.lineMarkTable space.lineMarkTableLen space.start obj }
    else space
  let value := getRefByte space obj
  match processEdges malloc heap space markState (lowerBits value refBitsLen) obj workQueue with
  | none => none
  | some workQueue => if testNthBit value shortEncodeBit then some (space, workQueue) else none

def startTrace (markState : UInt8) : ℕ → ImmixSpace → AddressVector → Option (ImmixSpace × AddressVector)
  | 0, _, _ => none
  | fuel + 1, space, roots =>
    if roots.isEmpty then some (space, roots)
    else
      match traceObject malloc heap space roots.pop.1 roots.pop.2 markState with
      | none => none
      | some (space, roots) => startTrace markState fuel space roots

end Tracer

/-! ## One object -/

section Object

variable {malloc : ℕ → ℕ → ℕ} {heap : ℕ → UInt64} {space : ImmixSpace} {markState : UInt8} {q : AddressVector}

/-- the test of `process_edge` on a slot value -/
def wanted (space : ImmixSpace) (markState : UInt8) (v : ℕ) : Bool := v != 0 && !isTraced space v markState

variable (malloc heap space markState) in
theorem processEdge_spec (h : q.WellFormed) (addr : ℕ) :
    ∃ q', processEdge malloc heap space markState addr q = some q' ∧ q'.WellFormed ∧
      q'.toList = q.toList ++ [(heap addr).toNat].filter (wanted space markState) := by
  unfold processEdge
  by_cases hw : wanted space markState (heap addr).toNat = true
  · have hif : (heap addr).toNat ≠ 0 ∧ isTraced space (heap addr).toNat markState = false := by
      simpa [wanted] using hw
    obtain ⟨q', hq', hwf, hto⟩ := AddressVector.push_spec malloc h (heap addr).toNat
    refine ⟨q', ?_, hwf, ?_⟩
    · rw [← hq']
      exact if_pos hif
    · rw [hto, List.filter_cons_of_pos hw, List.filter_nil]
  · have hif : ¬ ((heap addr).toNat ≠ 0 ∧ isTraced space (heap addr).toNat markState = false) := by
      simpa [wanted] using hw
    refine ⟨q, if_neg hif, h, ?_⟩
    rw [List.filter_cons_of_neg hw, List.filter_nil, List.append_nil]

/-- an edge, and then the rest -/
theorem processEdge_bind {addr : ℕ} {rest : AddressVector → Option AddressVector} {l : List ℕ}
    (hrest : ∀ q1 : AddressVector, q1.WellFormed → ∃ q', rest q1 = some q' ∧ q'.WellFormed ∧
      q'.toList = q1.toList ++ l.filter (wanted space markState)) (h : q.WellFormed) :
    ∃ q', (processEdge malloc heap space markState addr q).bind rest = some q' ∧ q'.WellFormed ∧
      q'.toList = q.toList ++ ((heap addr).toNat :: l).filter (wanted space markState) := by
  obtain ⟨q1, h1, hwf1, hto1⟩ := processEdge_spec malloc heap space markState h addr
  obtain ⟨q2, h2, hwf2, hto2⟩ := hrest q1 hwf1
  refine ⟨q2, ?_, hwf2, ?_⟩
  · rw [h1]
    exact h2
  · rw [hto2, hto1, List.append_assoc, ← List.filter_append]
    rfl

variable (malloc heap space markState) in
/-- the offsets of the `switch` are those of the Rust tracer's `match` -/
theorem processEdges_spec {bits : UInt8} {offs : List ℕ} (hoffs : refOffsets bits = some offs) (h : q.WellFormed)
    (base : ℕ) : ∃ q', processEdges malloc heap space markState bits base q = some q' ∧ q'.WellFormed ∧
      q'.toList = q.toList ++ (offs.map fun off => (heap (base + off)).toNat).filter (wanted space markState) := by
  unfold refOffsets at hoffs
  unfold processEdges
  split_ifs at hoffs ⊢ with h1 h2 h3
  · cases hoffs
    exact processEdge_spec malloc heap space markState h base
  · cases hoffs
    exact processEdge_bind (fun q1 hq1 => processEdge_spec malloc heap space markState hq1 (base + 8)) h
  · cases hoffs
    apply processEdge_bind _ h
    intro q1 hq1
    apply processEdge_bind _ hq1
    intro q2 hq2
    exact processEdge_bind (fun q3 hq3 => processEdge_spec malloc heap space markState hq3 (base + 24)) hq2

/-- the lines that are live after `mark_line_live`, for the table `lines` of a space -/
theorem markLineLive_isLive {lines : LineMarkTable} (t : ℕ → LineMark) (addr : ℕ) {j : ℕ} (hlen : lines.len < 2 ^ 63)
    (ha : lines.spaceStart ≤ addr) (hj : j < lines.len) :
    (markLineLive t lines.len lines.spaceStart addr j).isLive ↔ lines.Covers addr j ∨ (t j).isLive := by
  have hindex : wrappingSub addr lines.spaceStart >>> logBytesInLine = lines.lineOf addr := by
    unfold wrappingSub LineMarkTable.lineOf
    rw [if_pos ha]
    rfl
  have hbound : uintptr ((lines.len : ℤ) - 1) = lines.len - 1 := by
    rw [uintptr_of_lt (by omega) (by omega)]
    omega
  unfold markLineLive LineMarkTable.Covers
  simp only [hindex, hbound]
  split_ifs with hnext
  · by_cases h1 : j = lines.lineOf addr + 1
    · simp [h1, h1 ▸ hj]
    · rw [Function.update_of_ne h1]
      by_cases h2 : j = lines.lineOf addr
      · simp [h2, h2 ▸ hj]
      · rw [Function.update_of_ne h2]
        simp [h1, h2]
  · by_cases h2 : j = lines.lineOf addr
    · simp [h2, h2 ▸ hj]
    · have h1 : j ≠ lines.lineOf addr + 1 := by omega
      rw [Function.update_of_ne h2]
      simp [h1, h2]

end Object

/-! ## The loop is a search -/

section Simulation

variable {malloc : ℕ → ℕ → ℕ} {e : Env} {entries : ℕ → UInt8} {mark : UInt8} {marks : ℕ → LineMark} {roots : List ℕ}

/-- the start of an object the tracers can scan -/
def Good (e : Env) (v : ℕ) : Prop := ObjectStart e v ∧ Supported (Immix.getRefByte e.allocMap e.space.start v)

/-- the slots of such objects are null or name such objects -/
def GoodHeap (e : Env) : Prop :=
  ∀ o, Good e o → ∀ off ∈ objSlots e o, slotValue e o off = 0 ∨ Good e (slotValue e o off)

/-- the space of `e`, as the C program sees it -/
def ImmixSpace.ofEnv (e : Env) (entries : ℕ → UInt8) (marks : ℕ → LineMark) : ImmixSpace :=
  ⟨e.space.start, e.space.stop, e.allocMap, entries, marks, (e.space.lineTable marks).len⟩

/-- the slots of `o` that are not null -/
def targets (e : Env) (o : ℕ) : List ℕ := ((objSlots e o).map (slotValue e o)).filter (· != 0)

variable (e entries mark marks) in
/-- the space and the vector of the loop, for a state of the search over granules -/
structure Sim (space : ImmixSpace) (q : AddressVector) (s : Search ℕ ℕ) : Prop where
  wellFormed : q.WellFormed
  contents : q.toList = s.stack.reverse
  static : space = { ImmixSpace.ofEnv e entries marks with
    traceMap := space.traceMap, lineMarkTable := space.lineMarkTable }
  marked : ∀ g, s.marked g = (space.traceMap g == mark)
  traceMap : ∀ g, space.traceMap g = if ∃ o ∈ s.visited, granule e.space.start o = g then mark else entries g
  lines : ∀ j < e.space.size / 256, (space.lineMarkTable j).isLive ↔
    (∃ o ∈ s.visited, (e.space.lineTable marks).Covers o j) ∨ (marks j).isLive

theorem wrappingSub_granule {start a : ℕ} (h : start ≤ a) :
    wrappingSub a start >>> logPointerSize = granule start a := by
  rw [shiftRight_pointer, wrappingSub, if_pos h]
  rfl

theorem sim_start {q : AddressVector} (hq : q.WellFormed) (hto : q.toList = roots) :
    Sim e entries mark marks (ImmixSpace.ofEnv e entries marks) q ⟨roots.reverse, fun g => entries g == mark, []⟩ where
  wellFormed := hq
  contents := by rw [hto, List.reverse_reverse]
  static := rfl
  marked := fun g => rfl
  traceMap := by simp [ImmixSpace.ofEnv]
  lines := by simp [ImmixSpace.ofEnv]

variable (malloc) in
/-- **Step lemma.** Tracing the top of the vector is a round of the search. -/
theorem sim_step {space : ImmixSpace} {q : AddressVector} {s : Search ℕ ℕ} {x : ℕ} {rest : List ℕ}
    (h : Sim e entries mark marks space q s) (hs : s.stack = x :: rest) (hx : Good e x)
    (hslots : ∀ off ∈ objSlots e x, slotValue e x off = 0 ∨ Good e (slotValue e x off)) :
    ∃ space' q', traceObject malloc e.heap space q.pop.1 q.pop.2 mark = some (space', q') ∧
      Sim e entries mark marks space' q' (Search.step (granule e.space.start) (targets e) s) := by
  obtain ⟨hobj, hsup⟩ := hx
  obtain ⟨-, hlo, hhi⟩ := hobj.bounds
  have hcontents : q.toList = rest.reverse ++ [x] := by rw [h.contents, hs, List.reverse_cons]
  obtain ⟨hpop, hwf, hto⟩ := AddressVector.pop_spec h.wellFormed hcontents
  -- the tables after the marking
  obtain ⟨marked, hmarked⟩ : ∃ m : ImmixSpace, m = { ImmixSpace.ofEnv e entries marks with
      traceMap := Function.update space.traceMap (granule e.space.start x) mark
      lineMarkTable := markLineLive space.lineMarkTable (e.space.lineTable marks).len e.space.start x } := ⟨_, rfl⟩
  have hstatic : marked = { ImmixSpace.ofEnv e entries marks with
      traceMap := marked.traceMap, lineMarkTable := marked.lineMarkTable } := by
    rw [hmarked]
  have htable : ∀ g, Function.update s.marked (granule e.space.start x) true g = (marked.traceMap g == mark) := by
    intro g
    rw [hmarked]
    simp only [Function.update_apply]
    split_ifs
    · exact (beq_self_eq_true mark).symm
    · exact h.marked g
  -- the scan
  obtain ⟨q', hq', hwf', hto'⟩ := processEdges_spec malloc e.heap marked mark hsup.refOffsets_eq hwf x
  have hrun : traceObject malloc e.heap space q.pop.1 q.pop.2 mark = some (marked, q') := by
    have hspace : space.start = e.space.start ∧ space.stop = e.space.stop ∧ space.allocMap = e.allocMap ∧
        space.lineMarkTableLen = (e.space.lineTable marks).len := by
      rw [h.static]
      exact ⟨rfl, rfl, rfl, rfl⟩
    have hbyte : getRefByte marked x = Immix.getRefByte e.allocMap e.space.start x := by
      rw [hstatic]
      unfold getRefByte ImmixSpace.ofEnv
      simp only
      rw [wrappingSub_granule hlo]
      rfl
    unfold ImmixSpace.ofEnv at hmarked
    unfold traceObject
    simp only [hpop, markAsTraced, hspace, wrappingSub_granule hlo]
    rw [if_pos ⟨hlo, hhi⟩, ← hmarked, hbyte]
    have hedges : processEdges malloc e.heap marked mark
        (lowerBits (Immix.getRefByte e.allocMap e.space.start x) refBitsLen) x q.pop.2 = some q' := hq'
    rw [hedges]
    exact if_pos hsup.2
  refine ⟨marked, q', hrun, ⟨hwf', ?_, hstatic, ?_, ?_, ?_⟩⟩
  · -- what was pushed
    rw [hto', hto, Search.step_cons hs, List.reverse_append, List.reverse_reverse]
    congr 1
    rw [targets, List.filter_filter]
    apply List.filter_congr
    intro v hv
    rw [htable]
    by_cases h0 : v = 0
    · simp [wanted, h0]
    obtain ⟨off, hoff, rfl⟩ := List.mem_map.1 hv
    have hgood := (hslots off hoff).resolve_left h0
    have htraced : isTraced marked (slotValue e x off) mark =
        (marked.traceMap (granule e.space.start (slotValue e x off)) == mark) := by
      unfold isTraced
      rw [hstatic]
      simp only [ImmixSpace.ofEnv]
      rw [wrappingSub_granule hgood.1.bounds.2.1]
    show wanted marked mark (slotValue e x off) = _
    rw [wanted, htraced, Bool.and_comm]
    rfl
  · rw [Search.step_cons hs]
    exact htable
  · intro g
    rw [Search.step_cons hs, hmarked]
    simp only [Function.update_apply, h.traceMap, List.mem_append, List.mem_singleton, or_and_right, exists_or,
      exists_eq_left]
    by_cases hg : g = granule e.space.start x
    · simp [hg]
    · simp [hg, Ne.symm hg]
  · intro j hj
    have hlen : (e.space.lineTable marks).len < 2 ^ 63 := by
      have := e.space.user
      rw [Space.lineTable_len]
      omega
    have hline := markLineLive_isLive space.lineMarkTable x hlen hlo
      (by rw [Space.lineTable_len]; exact hj)
    rw [Search.step_cons hs, hmarked]
    simp only
    rw [← Space.lineTable_spaceStart e.space marks, hline, h.lines j hj]
    simp only [List.mem_append, List.mem_singleton, or_and_right, exists_or, exists_eq_left]
    rw [or_left_comm, or_assoc]

/-- what the search reaches is what the Rust tracer reaches, when slots hold null or objects -/
theorem reach_iff (hroots : ∀ r ∈ roots, Good e r) (hheap : GoodHeap e) {o : ℕ} :
    (Search.Reach (granule e.space.start) (targets e) (fun g => entries g == mark) roots o →
      Good e o ∧ Reached e (e.space.traceMap entries mark) roots o) ∧
    (Reached e (e.space.traceMap entries mark) roots o →
      Search.Reach (granule e.space.start) (targets e) (fun g => entries g == mark) roots o) := by
  have hfit := e.space.traceMap_fits entries mark
  -- for a slot of a good object, the two tests agree
  have hedge : ∀ a v, Good e a → (Search.Leads (granule e.space.start) (targets e) (fun g => entries g == mark) a v ↔
      Edge e (e.space.traceMap entries mark) a v ∧ Good e v) := by
    intro a v ha
    have hmem : v ∈ targets e a ↔ ∃ off ∈ objSlots e a, slotValue e a off = v ∧ v ≠ 0 := by
      simp only [targets, List.mem_filter, List.mem_map, bne_iff_ne]
      constructor
      · rintro ⟨⟨off, hoff, rfl⟩, hne⟩
        exact ⟨off, hoff, rfl, hne⟩
      · rintro ⟨off, hoff, rfl, hne⟩
        exact ⟨⟨off, hoff, rfl⟩, hne⟩
    have hunmarked : (fun g => entries g == mark) (granule e.space.start v) = false ↔
        entries (granule e.space.start v) ≠ mark := by
      simp
    unfold Search.Leads
    rw [hmem, hunmarked]
    constructor
    · rintro ⟨⟨off, hoff, rfl, hne⟩, hun⟩
      have hgood := (hheap a ha off hoff).resolve_left hne
      obtain ⟨-, h1, h2⟩ := hgood.1.bounds
      refine ⟨⟨off, hoff, rfl, ?_⟩, hgood⟩
      exact (TraceMap.isUntracedAndValid_iff hfit (slotValue_lt e a off)).2 ⟨e.space.inRange entries mark h1 h2, hun⟩
    · rintro ⟨⟨off, hoff, rfl, hun⟩, hgood⟩
      obtain ⟨-, h1, -⟩ := hgood.1.bounds
      have hpos := e.space.pos
      exact ⟨⟨off, hoff, rfl, by omega⟩, ((TraceMap.isUntracedAndValid_iff hfit (slotValue_lt e a off)).1 hun).2⟩
  constructor
  · intro h
    refine Closure.least (S := fun o => Good e o ∧ Reached e (e.space.traceMap entries mark) roots o)
      (fun r hr => ⟨hroots r hr, .root hr⟩) (fun a v ha hav => ?_) h
    obtain ⟨hav, hv⟩ := (hedge a v ha.1).1 hav
    exact ⟨hv, ha.2.step hav⟩
  · intro h
    refine (Closure.least (S := fun o => Good e o ∧
      Search.Reach (granule e.space.start) (targets e) (fun g => entries g == mark) roots o)
      (fun r hr => ⟨hroots r hr, .root hr⟩) (fun a v ha hav => ?_) h).2
    have hv : Good e v := by
      obtain ⟨off, hoff, rfl, hun⟩ := hav
      refine (hheap a ha.1 off hoff).resolve_left fun h0 => ?_
      have hin := ((TraceMap.isUntracedAndValid_iff hfit (slotValue_lt e a off)).1 hun).1.1
      rw [h0, Space.traceMap_offset] at hin
      exact absurd hin (by have := e.space.pos; omega)
    exact ⟨hv, ha.2.step ((hedge a v ha.1).2 ⟨hav, hv⟩)⟩

variable (malloc) in
/-- when the search runs empty after `n` rounds, the loop returns with more fuel than that -/
theorem startTrace_sim (hroots : ∀ r ∈ roots, Good e r) (hheap : GoodHeap e) (n : ℕ)
    {space : ImmixSpace} {q : AddressVector} {s : Search ℕ ℕ} (h : Sim e entries mark marks space q s)
    (hinv : Search.Inv (granule e.space.start) (targets e) (fun g => entries g == mark) roots s)
    (hn : ((Search.step (granule e.space.start) (targets e))^[n] s).stack = []) :
    ∃ space' q', (∀ fuel, n < fuel → startTrace malloc e.heap mark fuel space q = some (space', q')) ∧
      Sim e entries mark marks space' q' ((Search.step (granule e.space.start) (targets e))^[n] s) := by
  induction n generalizing space q s with
  | zero =>
    refine ⟨space, q, fun fuel hfuel => ?_, h⟩
    obtain ⟨fuel, rfl⟩ := Nat.exists_eq_succ_of_ne_zero (Nat.ne_of_gt hfuel)
    have hempty : q.isEmpty = true := by
      rw [AddressVector.isEmpty_iff, h.contents]
      exact List.reverse_eq_nil_iff.2 hn
    exact if_pos hempty
  | succ n ih =>
    cases hs : s.stack with
    | nil =>
      refine ⟨space, q, fun fuel hfuel => ?_, ?_⟩
      · obtain ⟨fuel, rfl⟩ := Nat.exists_eq_succ_of_ne_zero (by omega : fuel ≠ 0)
        have hempty : q.isEmpty = true := by
          rw [AddressVector.isEmpty_iff, h.contents, hs, List.reverse_nil]
        exact if_pos hempty
      · rw [Function.iterate_fixed (Search.step_nil hs)]
        exact h
    | cons x rest =>
      have hx : Good e x :=
        ((reach_iff hroots hheap).1 (hinv.stack x (by rw [hs]; exact List.mem_cons_self))).1
      obtain ⟨space1, q1, htrace, hsim1⟩ := sim_step malloc h hs hx (hheap x hx)
      obtain ⟨space2, q2, hrun, hsim2⟩ := ih hsim1 (Search.inv_step hinv) hn
      refine ⟨space2, q2, fun fuel hfuel => ?_, hsim2⟩
      obtain ⟨fuel, rfl⟩ := Nat.exists_eq_succ_of_ne_zero (by omega : fuel ≠ 0)
      have hempty : ¬ q.isEmpty = true := by
        rw [AddressVector.isEmpty_iff, h.contents, hs]
        simp
      rw [startTrace, if_neg hempty, htrace]
      exact hrun fuel (by omega)

end Simulation

/-! ## Agreement -/

/-- **The two tracers agree.** For every space, heap of null and object slots, list of objects as roots, initial trace
map, mark state and line table, and every initial capacity of at least 1: the roots go into the vector, the C loop
returns, and every complete run of the Rust workers ends with the same trace map and the same live lines. -/
theorem tracers_agree (malloc : ℕ → ℕ → ℕ) (e : Env) (entries : ℕ → UInt8) (mark : UInt8) (marks : ℕ → LineMark)
    (roots : List ℕ) (initCapacity : ℕ) (hcap : 1 ≤ initCapacity) (hroots : ∀ r ∈ roots, Good e r) (hheap : GoodHeap e) :
    ∃ q space' q', AddressVector.pushAll malloc roots (AddressVector.new malloc initCapacity) = some q ∧
      (∃ n, ∀ fuel, n < fuel →
        startTrace malloc e.heap mark fuel (ImmixSpace.ofEnv e entries marks) q = some (space', q')) ∧
      ∀ ops : List (ℕ × ℕ),
        let s := run (step e) (Trace.startTrace e roots (e.space.traceMap entries mark) (e.space.lineTable marks)) ops
        Finished e s → space'.traceMap = s.traceMap.entries ∧
          ∀ j < e.space.size / 256, (space'.lineMarkTable j).isLive ↔ (s.lines.get j).isLive := by
  obtain ⟨q, hpush, hwf, hto⟩ := AddressVector.pushAll_spec malloc roots
    (AddressVector.wellFormed_new malloc hcap)
  have hinv : Search.Inv (granule e.space.start) (targets e) (fun g => entries g == mark) roots
      ⟨roots.reverse, fun g => entries g == mark, []⟩ := Search.inv_start _ roots
  have hgood : ∀ o, Search.Reach (granule e.space.start) (targets e) (fun g => entries g == mark) roots o → Good e o :=
    fun o ho => ((reach_iff hroots hheap).1 ho).1
  -- the granules of the space are finitely many
  obtain ⟨n, hn⟩ : Search.Halts (granule e.space.start) (targets e) ⟨roots.reverse, fun g => entries g == mark, []⟩ := by
    refine Search.halts (K := Finset.range e.space.size) (fun x hx => Finset.mem_range.2 ?_) hinv
    obtain ⟨-, h1, h2⟩ := (hgood x hx).1.bounds
    rw [Space.stop_eq] at h2
    unfold granule
    omega
  obtain ⟨space', q', hrun, hsim⟩ := startTrace_sim malloc hroots hheap n
    (sim_start hwf (by rw [hto]; rfl)) hinv hn
  refine ⟨q, space', q', hpush, ⟨n, hrun⟩, ?_⟩
  intro ops s hf
  -- both have processed the reached objects
  have hfit := e.space.traceMap_fits entries mark
  have htraced : Traced e _ _ roots s := traced_of_finished (inv_run e hfit (e.space.lineTable marks) roots ops) hf
  have hreached : ∀ o, Reached e (e.space.traceMap entries mark) roots o → Good e o := fun o ho =>
    hgood o ((reach_iff hroots hheap).2 ho)
  have hslots : ∀ o, Reached e (e.space.traceMap entries mark) roots o →
      GoodSlots e (e.space.traceMap entries mark) o := by
    intro o ho off hoff
    rcases hheap o (hreached o ho) off hoff with h0 | hv
    · left
      rw [h0]
      intro hin
      have hlo := hin.1
      rw [Space.traceMap_offset] at hlo
      have := e.space.pos
      omega
    · exact .inr hv
  have hvisited : ∀ o, o ∈ ((Search.step (granule e.space.start) (targets e))^[n]
      ⟨roots.reverse, fun g => entries g == mark, []⟩).visited ↔ o ∈ s.processed := by
    intro o
    rw [htraced.processed_iff hfit rfl (fun r hr => (hroots r hr).1) hslots,
      Search.visited_iff (Search.inv_iterate hinv n) hn ?_]
    · exact ⟨fun h => ((reach_iff hroots hheap).1 h).2, (reach_iff hroots hheap).2⟩
    · intro x y hx hy hxy
      have hxb := (hgood x hx).1.bounds
      have hyb := (hgood y hy).1.bounds
      exact granule_inj e.space.dvd_start.2.2 hxb.1 hyb.1 hxb.2.1 hyb.2.1 hxy
  refine ⟨funext fun g => ?_, fun j hj => ?_⟩
  · rw [hsim.traceMap, htraced.marks.entries]
    simp only [hvisited]
    rfl
  · rw [hsim.lines j hj]
    simp only [hvisited]
    by_cases hc : ∃ o ∈ s.processed, (e.space.lineTable marks).Covers o j
    · obtain ⟨o, ho, hcov⟩ := hc
      exact iff_of_true (.inl ⟨o, ho, hcov⟩) (htraced.covered o ho j hcov)
    · rw [htraced.unchanged j fun o ho hcov => hc ⟨o, ho, hcov⟩, or_iff_right hc]
      rfl

/-- three roots, two of them the same object, in a vector that grows twice -/
theorem tracers_agree_chain :
    ∃ q space' q', AddressVector.pushAll (fun _ _ => 7) [524288, 524544, 524288] (AddressVector.new (fun _ _ => 7) 1) =
        some q ∧
      (∃ n, ∀ fuel, n < fuel → startTrace (fun _ _ => 7) chain.heap 0 fuel
        (ImmixSpace.ofEnv chain (fun _ => 1) fun _ => .free) q = some (space', q')) ∧
      ∀ ops : List (ℕ × ℕ),
        let s := run (step chain) (Trace.startTrace chain [524288, 524544, 524288]
          (chain.space.traceMap (fun _ => 1) 0) (chain.space.lineTable fun _ => .free)) ops
        Finished chain s → space'.traceMap = s.traceMap.entries ∧
          ∀ j < chain.space.size / 256, (space'.lineMarkTable j).isLive ↔ (s.lines.get j).isLive := by
  have hgood : Good chain 524288 ∧ Good chain 524544 := by
    refine ⟨⟨⟨by decide, ?_⟩, by decide +kernel⟩, ⟨by decide, ?_⟩, by decide +kernel⟩ <;> decide +kernel
  refine tracers_agree (fun _ _ => 7) chain (fun _ => 1) 0 (fun _ => .free) [524288, 524544, 524288] 1 (by decide) ?_ ?_
  · intro r hr
    simp only [List.mem_cons, List.not_mem_nil, or_false] at hr
    rcases hr with rfl | rfl | rfl
    · exact hgood.1
    · exact hgood.2
    · exact hgood.1
  · intro o _ off _
    have hvalue : slotValue chain o off = if o + off = 524288 then 524544 else 0 := by
      unfold slotValue chain
      simp only
      split_ifs <;> rfl
    rw [hvalue]
    split_ifs
    · exact .inr hgood.2
    · exact .inl rfl

end Immix.C
