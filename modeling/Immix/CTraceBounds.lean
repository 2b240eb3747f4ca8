/-
The indexes that the C tracer uses, on heaps of both spaces (`start_trace` of `c_src/gc.c`, `trace_object` and
`process_edge` of `c_src/gc.h`, `is_traced`, `mark_as_traced` and `get_ref_byte` of `c_src/objectmodel.h`).

`startTraceUses` lists the accesses of a trace to the three tables, in order. What lies behind a table is arbitrary, so
the list says what the program does up to its first access outside a table.
- `uses_of_reach`: every access is one that tracing a reached object makes.
- `uses_of_visited`: as long as all accesses are inside, the trace visits what the search visits.
- `trace_in_tables_iff`: all accesses are inside if and only if no large object is reached, nor one in the part of the
  space that the tables round off.
- `large_child`: an object with a slot that holds a large one.
-/
import Immix.CTrace
import Immix.CBlocks

namespace Immix.C.Tables

open Immix.Lib

/-! ## Model -/

inductive Table where
  | traceMap
  | allocMap
  | lineMarkTable
deriving DecidableEq

structure Use where
  table : Table
  index : ℕ
deriving DecidableEq

/-- the length of a table of a space -/
def tableLen (s : Blocks.ImmixSpace) : Table → ℤ
  | .traceMap => s.mapLen
  | .allocMap => s.mapLen
  | .lineMarkTable => s.lineMarkTableLen

def Use.Inside (s : Blocks.ImmixSpace) (u : Use) : Prop := (u.index : ℤ) < tableLen s u.table

/-- what the tracer reads of a space, with any contents of its tables -/
def tracerSpace (s : Blocks.ImmixSpace) (allocMap traceMap : ℕ → UInt8) (marks : ℕ → LineMark) : ImmixSpace :=
  ⟨s.start, s.stop, allocMap, traceMap, marks, s.lineMarkTableLen⟩

/-- `(obj - start) >> LOG_POINTER_SIZE` -/
def mapIndex (start obj : ℕ) : ℕ := wrappingSub obj start >>> logPointerSize

section Uses

variable (heap : ℕ → UInt64) (space : ImmixSpace)

/-- `is_traced` on a slot that is not null -/
def processEdgeUses (addr : ℕ) : List Use :=
  let obj := (heap addr).toNat
  if obj ≠ 0 then [⟨.traceMap, mapIndex space.start obj⟩] else []

def processEdgesUses (refBits : UInt8) (base : ℕ) : List Use :=
  if refBits = 0b00000001 then processEdgeUses heap space base
  else if refBits = 0b00000011 then processEdgeUses heap space base ++ processEdgeUses heap space (base + 8)
  else if refBits = 0b00001111 then
    processEdgeUses heap space base ++ processEdgeUses heap space (base + 8) ++
      processEdgeUses heap space (base + 16) ++ processEdgeUses heap space (base + 24)
  else []

def markLineLiveUses (addr : ℕ) : List Use :=
  let markTableIndex := wrappingSub addr space.start >>> logBytesInLine
  ⟨.lineMarkTable, markTableIndex⟩ ::
    if markTableIndex < uintptr (space.lineMarkTableLen - 1) then [⟨.lineMarkTable, markTableIndex + 1⟩] else []

/-- `mark_as_traced`, `mark_line_live`, `get_ref_byte` and the edges -/
def traceObjectUses (obj : ℕ) : List Use :=
  ⟨.traceMap, mapIndex space.start obj⟩ ::
    (if space.start ≤ obj ∧ obj < space.stop then markLineLiveUses space obj else []) ++
      ⟨.allocMap, mapIndex space.start obj⟩ ::
        processEdgesUses heap space (lowerBits (getRefByte space obj) refBitsLen) obj

end Uses

/-- the accesses of `start_trace`, in the rounds that the fuel allows -/
def startTraceUses (malloc : ℕ → ℕ → ℕ) (heap : ℕ → UInt64) (markState : UInt8) :
    ℕ → ImmixSpace → AddressVector → List Use
  | 0, _, _ => []
  | fuel + 1, space, roots =>
    if roots.isEmpty then []
    else
      traceObjectUses heap space roots.pop.1 ++
        match traceObject malloc heap space roots.pop.1 roots.pop.2 markState with
        | none => []
        | some (space, roots) => startTraceUses malloc heap markState fuel space roots

/-! ## Heaps -/

section Heaps

variable (s : Blocks.ImmixSpace) (allocMap : ℕ → UInt8) (heap : ℕ → UInt64)

/-- the slots of `o` that are not null -/
def children (o : ℕ) : List ℕ :=
  ((slots (allocMap (mapIndex s.start o))).map fun off => (heap (o + off)).toNat).filter (· != 0)

/-- the objects that a trace reaches from the roots through untraced ones -/
def Reached (entries : ℕ → UInt8) (markState : UInt8) (roots : List ℕ) (o : ℕ) : Prop :=
  Search.Reach (mapIndex s.start) (children s allocMap heap) (fun g => entries g == markState) roots o

/-- **A heap of both spaces.** -/
structure MixedHeap where
  /-- the objects of `ImmixMutatorLocal_alloc` -/
  immix : Set ℕ
  /-- the objects of `alloc_large` -/
  large : Set ℕ
  inBlock : ∀ o ∈ immix, ∃ p ∈ s.blocks, (s.block p).start ≤ o ∧ o < (s.block p).start + bytesInBlock
  outside : ∀ o ∈ large, 0 < o ∧ o < 2 ^ 63 ∧ ¬ (s.start ≤ o ∧ o < s.stop)
  /-- objects do not overlap, and hold at least a word -/
  apart : ∀ o ∈ immix ∪ large, ∀ o' ∈ immix ∪ large, o < o' → o + 8 ≤ o'
  slots : ∀ o ∈ immix, ∀ v ∈ children s allocMap heap o, v ∈ immix ∪ large

variable {s allocMap heap} (h : MixedHeap s allocMap heap) (spaceSize : Int32)

/-- **No large object is reached**, nor one that the tables round off: every reached object is an Immix object in a line
of the table, and every slot of a reached object that is not null holds an Immix object in a word of the maps. -/
structure MixedHeap.ImmixOnly (entries : ℕ → UInt8) (markState : UInt8) (roots : List ℕ) : Prop where
  traced : ∀ o, Reached s allocMap heap entries markState roots o →
    o ∈ h.immix ∧ o < s.start + spaceSize.toInt.toNat / 256 * 256
  tested : ∀ o, Reached s allocMap heap entries markState roots o → ∀ v ∈ children s allocMap heap o,
    v ∈ h.immix ∧ v < s.start + spaceSize.toInt.toNat / 8 * 8

/-- the tracer does not exit at an Immix object in a word of the maps -/
def MixedHeap.Scannable : Prop :=
  ∀ o ∈ h.immix, o < s.start + spaceSize.toInt.toNat / 8 * 8 → Supported (allocMap (mapIndex s.start o))

end Heaps

/-! ## Tracing one object -/

section Object

variable {s : Blocks.ImmixSpace} {allocMap entries : ℕ → UInt8} {marks : ℕ → LineMark} {heap : ℕ → UInt64}

theorem processEdgeUses_eq (space : ImmixSpace) (addr : ℕ) :
    processEdgeUses heap space addr =
      ([(heap addr).toNat].filter (· != 0)).map fun v => ⟨.traceMap, mapIndex space.start v⟩ := by
  unfold processEdgeUses
  by_cases h0 : (heap addr).toNat = 0 <;> simp [h0]

/-- the edges of an object are its slots that are not null -/
theorem processEdgesUses_eq (s : Blocks.ImmixSpace) (allocMap entries : ℕ → UInt8) (marks : ℕ → LineMark) (o : ℕ) :
    processEdgesUses heap (tracerSpace s allocMap entries marks)
        (lowerBits (getRefByte (tracerSpace s allocMap entries marks) o) refBitsLen) o =
      (children s allocMap heap o).map fun v => ⟨.traceMap, mapIndex s.start v⟩ := by
  have hbits : lowerBits (getRefByte (tracerSpace s allocMap entries marks) o) refBitsLen =
      refBits (allocMap (mapIndex s.start o)) := rfl
  rw [hbits]
  unfold processEdgesUses children slots refOffsets
  simp only [processEdgeUses_eq]
  split_ifs
  · rfl
  · rw [← List.map_append, ← List.filter_append]
    rfl
  · rw [← List.map_append, ← List.map_append, ← List.map_append, ← List.filter_append, ← List.filter_append,
      ← List.filter_append]
    rfl
  · rfl

/-- the accesses depend on nothing that a trace changes -/
theorem traceObjectUses_eq (o : ℕ) :
    traceObjectUses heap (tracerSpace s allocMap entries marks) o =
      ⟨.traceMap, mapIndex s.start o⟩ ::
        (if s.start ≤ o ∧ o < s.stop then markLineLiveUses (tracerSpace s allocMap entries marks) o else []) ++
          ⟨.allocMap, mapIndex s.start o⟩ ::
            (children s allocMap heap o).map fun v => ⟨.traceMap, mapIndex s.start v⟩ := by
  rw [traceObjectUses, processEdgesUses_eq]
  rfl

variable {malloc : ℕ → ℕ} {raw : Blocks.ImmixSpace} {mmapStart : ℕ} {spaceSize : Int32}

theorem mapIndex_of_le {start o : ℕ} (h : start ≤ o) : mapIndex start o = (o - start) / 8 :=
  wrappingSub_granule h

/-- an Immix object is after the start -/
theorem MixedHeap.start_le (hs : Blocks.Constructed malloc raw mmapStart spaceSize s) (h : MixedHeap s allocMap heap)
    {o : ℕ} (ho : o ∈ h.immix) : s.start ≤ o ∧ o < s.start + spaceSize.toInt.toNat + 65536 := by
  obtain ⟨p, hp, h1, h2⟩ := h.inBlock o ho
  rw [hs.blocks, List.mem_map] at hp
  obtain ⟨i, hi, rfl⟩ := hp
  rw [List.mem_range] at hi
  rw [hs.block i hi] at h1 h2
  unfold Blocks.numBlocks at hi
  change s.start + 65536 * i ≤ o at h1
  change o < s.start + 65536 * i + 65536 at h2
  omega

theorem MixedHeap.immix_index (hs : Blocks.Constructed malloc raw mmapStart spaceSize s)
    (h : MixedHeap s allocMap heap) {o : ℕ} (ho : o ∈ h.immix) :
    (mapIndex s.start o : ℤ) < s.mapLen ↔ o < s.start + spaceSize.toInt.toNat / 8 * 8 := by
  have hle := (h.start_le hs ho).1
  rw [mapIndex_of_le hle, hs.mapLen, Int.ofNat_lt]
  omega

/-- no two Immix objects lie in one granule -/
theorem MixedHeap.index_inj (hs : Blocks.Constructed malloc raw mmapStart spaceSize s) (h : MixedHeap s allocMap heap)
    {o o' : ℕ} (ho : o ∈ h.immix) (ho' : o' ∈ h.immix) (heq : mapIndex s.start o = mapIndex s.start o') : o = o' := by
  have hle := (h.start_le hs ho).1
  have hle' := (h.start_le hs ho').1
  rw [mapIndex_of_le hle, mapIndex_of_le hle'] at heq
  rcases lt_trichotomy o o' with hlt | rfl | hgt
  · have := h.apart o (.inl ho) o' (.inl ho') hlt
    omega
  · rfl
  · have := h.apart o' (.inl ho') o (.inl ho) hgt
    omega

/-- a large object has no entry in the maps, below the space or above it -/
theorem MixedHeap.large_index (hs : Blocks.Constructed malloc raw mmapStart spaceSize s) (h : MixedHeap s allocMap heap)
    (hstart : s.start < 2 ^ 63 + 2 ^ 16) {o : ℕ} (ho : o ∈ h.large) : ¬ (mapIndex s.start o : ℤ) < s.mapLen := by
  obtain ⟨-, -, hout⟩ := h.outside o ho
  have hsize := spaceSize.toInt_lt
  rw [hs.stop] at hout
  rw [hs.mapLen, Int.ofNat_lt]
  by_cases hle : s.start ≤ o
  · rw [mapIndex_of_le hle]
    omega
  · rw [mapIndex, shiftRight_pointer, wrappingSub, if_neg hle]
    unfold usize
    omega

theorem markLineLiveUses_inside (hs : Blocks.Constructed malloc raw mmapStart spaceSize s) {o : ℕ} (hle : s.start ≤ o) :
    (∀ u ∈ markLineLiveUses (tracerSpace s allocMap entries marks) o, u.Inside s) ↔
      o < s.start + spaceSize.toInt.toNat / 256 * 256 := by
  have hindex : wrappingSub o s.start >>> logBytesInLine = (o - s.start) / 256 := by
    rw [shiftRight_line, wrappingSub, if_pos hle]
  have hsize := spaceSize.toInt_lt
  have hlen : s.lineMarkTableLen = (spaceSize.toInt.toNat / 256 : ℕ) := hs.lineMarkTableLen
  unfold markLineLiveUses
  show (∀ u ∈ (⟨.lineMarkTable, wrappingSub o s.start >>> logBytesInLine⟩ :: if wrappingSub o s.start >>> logBytesInLine <
    uintptr (s.lineMarkTableLen - 1) then [⟨.lineMarkTable, wrappingSub o s.start >>> logBytesInLine + 1⟩] else [] :
      List Use), u.Inside s) ↔ _
  rw [hindex]
  have hfirst : Use.Inside s ⟨.lineMarkTable, (o - s.start) / 256⟩ ↔ o < s.start + spaceSize.toInt.toNat / 256 * 256 := by
    show ((o - s.start) / 256 : ℕ) < s.lineMarkTableLen ↔ _
    rw [hlen]
    omega
  rw [List.forall_mem_cons, hfirst]
  refine and_iff_left_of_imp fun hlt u hu => ?_
  split_ifs at hu with hnext
  · -- the next line is one of the table's
    rw [List.mem_singleton.1 hu]
    show (((o - s.start) / 256 + 1 : ℕ) : ℤ) < s.lineMarkTableLen
    rw [hlen] at hnext ⊢
    rw [uintptr_of_lt (by omega) (by omega)] at hnext
    omega
  · cases hu

variable (s allocMap heap) in
/-- the accesses of tracing `o` -/
def usesOf (o : ℕ) : List Use := traceObjectUses heap (tracerSpace s allocMap (fun _ => 0) fun _ => .free) o

theorem traceObjectUses_static (o : ℕ) :
    traceObjectUses heap (tracerSpace s allocMap entries marks) o = usesOf s allocMap heap o := by
  rw [usesOf, traceObjectUses_eq, traceObjectUses_eq]
  rfl

/-- **The accesses of tracing one object** are inside the tables just when it is an Immix object in a line, and its
slots hold such objects, or those whose mark is tested only, in a word. -/
theorem usesOf_inside (hs : Blocks.Constructed malloc raw mmapStart spaceSize s) (h : MixedHeap s allocMap heap)
    (hstart : s.start < 2 ^ 63 + 2 ^ 16) {o : ℕ} (ho : o ∈ h.immix ∪ h.large) :
    (∀ u ∈ usesOf s allocMap heap o, u.Inside s) ↔
      (o ∈ h.immix ∧ o < s.start + spaceSize.toInt.toNat / 256 * 256) ∧
        ∀ v ∈ children s allocMap heap o, v ∈ h.immix ∧ v < s.start + spaceSize.toInt.toNat / 8 * 8 := by
  have hmap : ∀ v ∈ h.immix ∪ h.large,
      (mapIndex s.start v : ℤ) < s.mapLen ↔ v ∈ h.immix ∧ v < s.start + spaceSize.toInt.toNat / 8 * 8 := by
    intro v hv
    constructor
    · intro hlt
      have himm := hv.resolve_right fun hlarge => h.large_index hs hstart hlarge hlt
      exact ⟨himm, (h.immix_index hs himm).1 hlt⟩
    · rintro ⟨himm, hlt⟩
      exact (h.immix_index hs himm).2 hlt
  rw [usesOf, traceObjectUses_eq, List.forall_mem_append, List.forall_mem_cons, List.forall_mem_cons, List.forall_mem_map]
  constructor
  · rintro ⟨⟨hobj, hline⟩, -, hchildren⟩
    obtain ⟨himm, hlt⟩ := (hmap o ho).1 hobj
    have hle := (h.start_le hs himm).1
    rw [if_pos ⟨hle, by rw [hs.stop]; omega⟩, markLineLiveUses_inside hs hle] at hline
    exact ⟨⟨himm, hline⟩, fun v hv => (hmap v (h.slots o himm v hv)).1 (hchildren v hv)⟩
  · rintro ⟨⟨himm, hline⟩, hchildren⟩
    have hle := (h.start_le hs himm).1
    have hobj : (mapIndex s.start o : ℤ) < s.mapLen := (h.immix_index hs himm).2 (by omega)
    refine ⟨⟨hobj, ?_⟩, hobj, fun v hv => (hmap v (h.slots o himm v hv)).2 (hchildren v hv)⟩
    rw [if_pos ⟨hle, by rw [hs.stop]; omega⟩]
    exact (markLineLiveUses_inside hs hle).2 hline

end Object

/-! ## The loop is a search -/

section Rounds

variable {s : Blocks.ImmixSpace} {allocMap entries : ℕ → UInt8} {marks : ℕ → LineMark} {heap : ℕ → UInt64}
  {malloc : ℕ → ℕ → ℕ} {markState : UInt8} {q : AddressVector} {st : Search ℕ ℕ} {roots : List ℕ}

theorem processEdges_none {space : ImmixSpace} {bits : UInt8} (h : refOffsets bits = none) (base : ℕ) :
    processEdges malloc heap space markState bits base q = none := by
  unfold refOffsets at h
  unfold processEdges
  split_ifs at h ⊢
  rfl

/-- the space after the marks of a round -/
def touched (space : ImmixSpace) (obj : ℕ) (markState : UInt8) : ImmixSpace :=
  let space := { space with traceMap := markAsTraced space.traceMap obj space.start markState }
  if space.start ≤ obj ∧ obj < space.stop then
    { space with lineMarkTable := markLineLive space.lineMarkTable space.lineMarkTableLen space.start obj }
  else space

theorem traceObject_eq (space : ImmixSpace) (obj : ℕ) :
    traceObject malloc heap space obj q markState =
      match processEdges malloc heap (touched space obj markState) markState
        (lowerBits (getRefByte (touched space obj markState) obj) refBitsLen) obj q with
      | none => none
      | some workQueue =>
        if testNthBit (getRefByte (touched space obj markState) obj) shortEncodeBit then
          some (touched space obj markState, workQueue)
        else none := rfl

variable (s allocMap entries marks markState) in
theorem touched_eq (x : ℕ) :
    ∃ marks', touched (tracerSpace s allocMap entries marks) x markState =
      tracerSpace s allocMap (Function.update entries (mapIndex s.start x) markState) marks' := by
  unfold touched
  dsimp only
  split_ifs
  · exact ⟨_, rfl⟩
  · exact ⟨_, rfl⟩

variable (s allocMap entries marks heap malloc markState) in
/-- the round of an object: it pushes the children that are not marked then, or exits -/
theorem traceObject_spec (hq : q.WellFormed) {l : List ℕ} {x : ℕ} (hto : q.toList = l ++ [x]) :
    (Supported (allocMap (mapIndex s.start x)) → ∃ marks' q',
      traceObject malloc heap (tracerSpace s allocMap entries marks) q.pop.1 q.pop.2 markState =
        some (tracerSpace s allocMap (Function.update entries (mapIndex s.start x) markState) marks', q') ∧
      q'.WellFormed ∧ q'.toList = l ++ (children s allocMap heap x).filter fun v =>
        !(Function.update entries (mapIndex s.start x) markState (mapIndex s.start v) == markState)) ∧
    (¬ Supported (allocMap (mapIndex s.start x)) →
      traceObject malloc heap (tracerSpace s allocMap entries marks) q.pop.1 q.pop.2 markState = none) := by
  obtain ⟨hpop, hwf, hl⟩ := AddressVector.pop_spec hq hto
  obtain ⟨marks', hmarks⟩ := touched_eq s allocMap entries marks markState x
  generalize Function.update entries (mapIndex s.start x) markState = marked at hmarks ⊢
  have hbyte : getRefByte (tracerSpace s allocMap marked marks') x = allocMap (mapIndex s.start x) := rfl
  rw [hpop, traceObject_eq, hmarks, hbyte]
  change (_ → _) ∧ (_ → (match processEdges _ _ _ _ (refBits (allocMap (mapIndex s.start x))) _ _ with
    | none => none
    | some workQueue => if shortEncode (allocMap (mapIndex s.start x)) then _ else none) = none)
  constructor
  · intro hsup
    obtain ⟨q', hq', hwf', hto'⟩ := processEdges_spec malloc heap (tracerSpace s allocMap marked marks') markState
      hsup.refOffsets_eq hwf x
    refine ⟨marks', q', ?_, hwf', ?_⟩
    · have hedges : processEdges malloc heap (tracerSpace s allocMap marked marks') markState
        (lowerBits (allocMap (mapIndex s.start x)) refBitsLen) x q.pop.2 = some q' := hq'
      rw [hedges]
      exact if_pos hsup.2
    · rw [hto', hl]
      congr 1
      rw [children, List.filter_filter]
      apply List.filter_congr
      intro v hv
      exact Bool.and_comm _ _
  · intro hsup
    cases hoffs : refOffsets (refBits (allocMap (mapIndex s.start x))) with
    | none => rw [processEdges_none hoffs]
    | some offs =>
      have hshort : ¬ shortEncode (allocMap (mapIndex s.start x)) = true := fun hshort =>
        hsup ⟨by rw [hoffs]; rfl, hshort⟩
      obtain ⟨q', hq', -⟩ := processEdges_spec malloc heap (tracerSpace s allocMap marked marks') markState hoffs hwf x
      rw [hq']
      exact if_neg hshort

variable (markState entries q st) in
/-- the vector and the trace map of the loop, for a state of the search -/
structure Sim : Prop where
  wellFormed : q.WellFormed
  contents : q.toList = st.stack.reverse
  marked : ∀ g, st.marked g = (entries g == markState)

theorem Sim.start (hq : q.WellFormed) :
    Sim entries markState q ⟨q.toList.reverse, fun g => entries g == markState, []⟩ :=
  ⟨hq, (List.reverse_reverse _).symm, fun _ => rfl⟩

theorem Sim.isEmpty_iff (h : Sim entries markState q st) : q.isEmpty = true ↔ st.stack = [] := by
  rw [AddressVector.isEmpty_iff, h.contents]
  exact List.reverse_eq_nil_iff

variable (malloc s allocMap marks heap) in
/-- **Step lemma.** A round is a round of the search, or exits. -/
theorem Sim.step (h : Sim entries markState q st) {x : ℕ} {rest : List ℕ} (hstack : st.stack = x :: rest) :
    q.pop.1 = x ∧
    (Supported (allocMap (mapIndex s.start x)) → ∃ entries' marks' q',
      traceObject malloc heap (tracerSpace s allocMap entries marks) q.pop.1 q.pop.2 markState =
        some (tracerSpace s allocMap entries' marks', q') ∧
      Sim entries' markState q' (Search.step (mapIndex s.start) (children s allocMap heap) st)) ∧
    (¬ Supported (allocMap (mapIndex s.start x)) →
      traceObject malloc heap (tracerSpace s allocMap entries marks) q.pop.1 q.pop.2 markState = none) := by
  have hcontents : q.toList = rest.reverse ++ [x] := by rw [h.contents, hstack, List.reverse_cons]
  obtain ⟨hround, hexit⟩ := traceObject_spec s allocMap entries marks heap malloc markState h.wellFormed
    hcontents
  refine ⟨(AddressVector.pop_spec h.wellFormed hcontents).1, fun hsup => ?_, hexit⟩
  obtain ⟨marks', q', hq', hwf, hto⟩ := hround hsup
  have hmarked : ∀ g, Function.update st.marked (mapIndex s.start x) true g =
      (Function.update entries (mapIndex s.start x) markState g == markState) := by
    intro g
    simp only [Function.update_apply]
    split_ifs
    · exact (beq_self_eq_true markState).symm
    · exact h.marked g
  refine ⟨_, marks', q', hq', hwf, ?_, ?_⟩
  · rw [hto, Search.step_cons hstack, List.reverse_append, List.reverse_reverse]
    simp only [hmarked]
  · rw [Search.step_cons hstack]
    exact hmarked

/-- **Every access is one that tracing a reached object makes.** -/
theorem uses_of_reach {m : ℕ → Bool} (fuel : ℕ) (h : Sim entries markState q st)
    (hinv : Search.Inv (mapIndex s.start) (children s allocMap heap) m roots st) :
    ∀ u ∈ startTraceUses malloc heap markState fuel (tracerSpace s allocMap entries marks) q,
      ∃ o, Search.Reach (mapIndex s.start) (children s allocMap heap) m roots o ∧ u ∈ usesOf s allocMap heap o := by
  induction fuel generalizing entries marks q st with
  | zero =>
    intro u hu
    cases hu
  | succ fuel ih =>
    intro u hu
    unfold startTraceUses at hu
    cases hstack : st.stack with
    | nil =>
      rw [if_pos (h.isEmpty_iff.2 hstack)] at hu
      cases hu
    | cons x rest =>
      have hne : ¬ q.isEmpty = true := fun hempty => by
        rw [h.isEmpty_iff.1 hempty] at hstack
        cases hstack
      obtain ⟨hpop, hround, hexit⟩ := h.step s allocMap marks heap malloc hstack
      rw [if_neg hne, List.mem_append] at hu
      rcases hu with hu | hu
      · rw [hpop, traceObjectUses_static] at hu
        exact ⟨x, hinv.stack x (by rw [hstack]; exact List.mem_cons_self), hu⟩
      · by_cases hsup : Supported (allocMap (mapIndex s.start x))
        · obtain ⟨entries', marks', q', htrace, hsim⟩ := hround hsup
          rw [htrace] at hu
          exact ih hsim (Search.inv_step hinv) u hu
        · rw [hexit hsup] at hu
          cases hu

variable {spaceSize : Int32} {mmapStart : ℕ} {raw : Blocks.ImmixSpace} {blocks : ℕ → ℕ}

variable (malloc marks) in
/-- **As long as every access is inside**, the trace visits what the search visits, and its accesses are inside. -/
theorem uses_of_visited (hs : Blocks.Constructed blocks raw mmapStart spaceSize s) (h : MixedHeap s allocMap heap)
    (hstart : s.start < 2 ^ 63 + 2 ^ 16) (hscan : h.Scannable spaceSize) (n : ℕ) (hsim : Sim entries markState q st)
    (hstack : ∀ x ∈ st.stack, x ∈ h.immix ∪ h.large)
    (hinside : ∀ fuel, ∀ u ∈ startTraceUses malloc heap markState fuel (tracerSpace s allocMap entries marks) q,
      u.Inside s) :
    ∀ o ∈ ((Search.step (mapIndex s.start) (children s allocMap heap))^[n] st).visited,
      o ∈ st.visited ∨ o ∈ h.immix ∧ ∀ u ∈ usesOf s allocMap heap o, u.Inside s := by
  induction n generalizing entries marks q st with
  | zero => exact fun o ho => .inl ho
  | succ n ih =>
    rw [Function.iterate_succ_apply]
    cases hst : st.stack with
    | nil =>
      rw [Search.step_nil hst]
      exact ih marks hsim hstack hinside
    | cons x rest =>
      have hne : ¬ q.isEmpty = true := fun hempty => by
        rw [hsim.isEmpty_iff.1 hempty] at hst
        cases hst
      obtain ⟨hpop, hround, -⟩ := hsim.step s allocMap marks heap malloc hst
      have hx : x ∈ h.immix ∪ h.large := hstack x (by rw [hst]; exact List.mem_cons_self)
      -- the accesses of this round
      have huses : ∀ u ∈ usesOf s allocMap heap x, u.Inside s := by
        intro u hu
        apply hinside 1 u
        unfold startTraceUses
        rw [if_neg hne, List.mem_append, hpop, traceObjectUses_static]
        exact .inl hu
      obtain ⟨⟨himm, hlt⟩, -⟩ := (usesOf_inside hs h hstart hx).1 huses
      obtain ⟨entries', marks', q', htrace, hsim'⟩ := hround (hscan x himm (by omega))
      intro o ho
      have hvisited : (Search.step (mapIndex s.start) (children s allocMap heap) st).visited = st.visited ++ [x] := by
        rw [Search.step_cons hst]
      have hlater := ih marks' hsim' (fun v hv => ?_) (fun fuel u hu => ?_) o ho
      · rw [hvisited, List.mem_append, List.mem_singleton] at hlater
        rcases hlater with (hold | rfl) | hnew
        · exact .inl hold
        · exact .inr ⟨himm, huses⟩
        · exact .inr hnew
      · rw [Search.step_cons hst] at hv
        rcases List.mem_append.1 hv with hv | hv
        · exact h.slots x himm v (Search.mem_pushed.1 hv).1
        · exact hstack v (by rw [hst]; exact List.mem_cons_of_mem x hv)
      · apply hinside (fuel + 1) u
        rw [startTraceUses, if_neg hne, htrace, List.mem_append]
        exact .inr hu

variable (malloc s allocMap heap entries marks markState q) in
/-- **In the tables.** No round of `start_trace` uses an index past the end of a table. -/
def InTables : Prop :=
  ∀ fuel, ∀ u ∈ startTraceUses malloc heap markState fuel (tracerSpace s allocMap entries marks) q, u.Inside s

/-- the keys of a trace are finitely many -/
theorem mapIndex_lt {start x : ℕ} (hx : x < 2 ^ 64) : mapIndex start x < 2 ^ 61 := by
  rw [mapIndex, shiftRight_pointer, wrappingSub]
  unfold usize
  split_ifs <;> omega

theorem MixedHeap.lt (hs : Blocks.Constructed blocks raw mmapStart spaceSize s) (h : MixedHeap s allocMap heap)
    (hstart : s.start < 2 ^ 63 + 2 ^ 16) {o : ℕ} (ho : o ∈ h.immix ∪ h.large) : o < 2 ^ 64 := by
  have hsize := spaceSize.toInt_lt
  rcases ho with himm | hlarge
  · have := (h.start_le hs himm).2
    omega
  · have := (h.outside o hlarge).2.1
    omega

/-- a trace that stays in the tables visits every object it reaches -/
theorem visited_of_inTables (hs : Blocks.Constructed blocks raw mmapStart spaceSize s) (h : MixedHeap s allocMap heap)
    (hstart : s.start < 2 ^ 63 + 2 ^ 16) (hscan : h.Scannable spaceSize) (hq : q.WellFormed)
    (hroots : ∀ r ∈ q.toList, r ∈ h.immix ∪ h.large) (hin : InTables s allocMap entries marks heap malloc markState q)
    {o : ℕ} (ho : Reached s allocMap heap entries markState q.toList o) :
    o ∈ h.immix ∧ ∀ u ∈ usesOf s allocMap heap o, u.Inside s := by
  have hinv : Search.Inv (mapIndex s.start) (children s allocMap heap) (fun g => entries g == markState) q.toList
      ⟨q.toList.reverse, fun g => entries g == markState, []⟩ := Search.inv_start _ _
  obtain ⟨n, hn⟩ : Search.Halts (mapIndex s.start) (children s allocMap heap)
      ⟨q.toList.reverse, fun g => entries g == markState, []⟩ := by
    refine Search.halts (K := Finset.range (2 ^ 61)) (fun x hx => Finset.mem_range.2 (mapIndex_lt ?_)) hinv
    rcases hx.root_or_target with hr | ⟨y, -, hxy, -⟩
    · exact h.lt hs hstart (hroots x hr)
    · obtain ⟨hv, -⟩ := List.mem_filter.1 hxy
      obtain ⟨off, -, rfl⟩ := List.mem_map.1 hv
      exact (heap (y + off)).toNat_lt
  have hvisited : ∀ p ∈ ((Search.step (mapIndex s.start) (children s allocMap heap))^[n]
      ⟨q.toList.reverse, fun g => entries g == markState, []⟩).visited,
      p ∈ h.immix ∧ ∀ u ∈ usesOf s allocMap heap p, u.Inside s := by
    intro p hp
    exact (uses_of_visited marks malloc hs h hstart hscan n (.start hq)
      (fun x hx => hroots x (List.mem_reverse.1 hx)) hin p hp).resolve_left List.not_mem_nil
  refine hvisited o (Search.visited_of_reach (Search.inv_iterate hinv n) hn (fun p hp a ha v hav hk => ?_) ho)
  obtain ⟨hp, -⟩ := hvisited p hp
  obtain ⟨ha, huses⟩ := hvisited a ha
  obtain ⟨hv, -⟩ := ((usesOf_inside hs h hstart (.inl ha)).1 huses).2 v hav.1
  exact h.index_inj hs hp hv hk

/-- **The indexes of a trace.** For every space that `ImmixSpace_new` returns, every heap of Immix and large objects,
every content of the maps, mark state and line marks, and roots from both spaces: if no large object is reached, nor one
that the tables round off, every index that `start_trace` uses is inside its table; and where the tracer does not exit at
an Immix object, only then. -/
theorem trace_in_tables_iff (blocks : ℕ → ℕ) (hinj : blocks.Injective) (raw : Blocks.ImmixSpace) (mmap : ℕ → Option ℕ)
    (hmmap : Blocks.MmapSpec mmap) (spaceSize : Int32) (s : Blocks.ImmixSpace)
    (hnew : Blocks.ImmixSpace.new blocks mmap raw spaceSize = some s) (allocMap : ℕ → UInt8) (heap : ℕ → UInt64)
    (h : MixedHeap s allocMap heap) (entries : ℕ → UInt8) (markState : UInt8) (marks : ℕ → LineMark)
    (malloc : ℕ → ℕ → ℕ) (q : AddressVector) (hq : q.WellFormed) (hroots : ∀ r ∈ q.toList, r ∈ h.immix ∪ h.large) :
    (h.ImmixOnly spaceSize entries markState q.toList → InTables s allocMap entries marks heap malloc markState q) ∧
      (h.Scannable spaceSize → (InTables s allocMap entries marks heap malloc markState q ↔
        h.ImmixOnly spaceSize entries markState q.toList)) := by
  obtain ⟨mmapStart, hp⟩ : ∃ mmapStart, mmap (uintptr spaceSize.toInt) = some mmapStart := by
    cases hp : mmap (uintptr spaceSize.toInt) with
    | none =>
      rw [Blocks.ImmixSpace.new, hp] at hnew
      cases hnew
    | some mmapStart => exact ⟨mmapStart, rfl⟩
  obtain ⟨s', hnew', hs⟩ := Blocks.new_spec raw hmmap hinj hp
  obtain rfl : s' = s := Option.some.inj (hnew'.symm.trans hnew)
  have hstart : s'.start < 2 ^ 63 + 2 ^ 16 := by
    have hend := (hmmap.page _ _ hp).2.2.2
    rw [hs.start]
    omega
  have hif : h.ImmixOnly spaceSize entries markState q.toList →
      InTables s' allocMap entries marks heap malloc markState q := by
    intro honly fuel u hu
    obtain ⟨o, ho, huse⟩ := uses_of_reach fuel (Sim.start hq) (Search.inv_start _ q.toList) u hu
    have htraced := honly.traced o ho
    exact (usesOf_inside hs h hstart (.inl htraced.1)).2 ⟨htraced, honly.tested o ho⟩ u huse
  refine ⟨hif, fun hscan => ⟨fun hin => ?_, hif⟩⟩
  have hall : ∀ o, Reached s' allocMap heap entries markState q.toList o →
      (o ∈ h.immix ∧ o < s'.start + spaceSize.toInt.toNat / 256 * 256) ∧
        ∀ v ∈ children s' allocMap heap o, v ∈ h.immix ∧ v < s'.start + spaceSize.toInt.toNat / 8 * 8 := by
    intro o ho
    obtain ⟨himm, huses⟩ := visited_of_inTables hs h hstart hscan hq hroots hin ho
    exact (usesOf_inside hs h hstart (.inl himm)).1 huses
  exact ⟨fun o ho => (hall o ho).1, fun o ho => (hall o ho).2⟩

end Rounds

/-! ## One object of each space -/

section Both

open Blocks

/-- the space of one block at 524288 -/
def smallSpace : Blocks.ImmixSpace :=
  (Blocks.ImmixSpace.new blockPage (mmapAt 524288) (memory none) 65536).getD (memory none)

theorem smallSpace_spec : Blocks.ImmixSpace.new blockPage (mmapAt 524288) (memory none) 65536 = some smallSpace ∧
    Constructed blockPage (memory none) 524288 65536 smallSpace := by
  obtain ⟨s, hnew, hs⟩ := new_spec (memory none) (mmapAt_spec (p := 524288) (by norm_num) (by norm_num) (by norm_num))
    blockPage_injective (by decide +kernel : mmapAt 524288 (uintptr (Int32.toInt 65536)) = some 524288)
  have hsmall : smallSpace = s := by rw [smallSpace, hnew, Option.getD_some]
  rw [hsmall]
  exact ⟨hnew, hs⟩

/-- one slot, at the first word -/
def oneSlot : ℕ → UInt8 := fun _ => 0b11000001

/-- the slot of the Immix object at the start holds the large object -/
def crossHeap (a : ℕ) : UInt64 := if a = 524288 then 1048576 else 0

theorem crossHeap_children : children smallSpace oneSlot crossHeap 524288 = [1048576] := by decide +kernel

/-- one object of each space -/
def both : MixedHeap smallSpace oneSlot crossHeap where
  immix := {524288}
  large := {1048576}
  inBlock := by
    rintro o rfl
    refine ⟨blockPage 0, ?_, ?_⟩
    · rw [smallSpace_spec.2.blocks]
      decide +kernel
    · decide +kernel
  outside := by
    rintro o rfl
    decide +kernel
  apart := by
    rintro o (rfl | rfl) o' (rfl | rfl) hlt <;> omega
  slots := by
    rintro o rfl v hv
    rw [crossHeap_children, List.mem_singleton] at hv
    exact .inr hv

/-- a vector with one root -/
def oneRoot (r : ℕ) : AddressVector := ⟨1, 1, fun _ => r⟩

theorem oneRoot_wellFormed (r : ℕ) : (oneRoot r).WellFormed := ⟨le_rfl, le_rfl⟩

/-- on a fresh trace map, from the Immix object -/
theorem trace_in_tables_iff_both :
    (both.ImmixOnly 65536 (fun _ => 0) 1 (oneRoot 524288).toList →
      InTables smallSpace oneSlot (fun _ => 0) (fun _ => .free) crossHeap (fun _ _ => 0) 1 (oneRoot 524288)) ∧
    (both.Scannable 65536 →
      (InTables smallSpace oneSlot (fun _ => 0) (fun _ => .free) crossHeap (fun _ _ => 0) 1 (oneRoot 524288) ↔
        both.ImmixOnly 65536 (fun _ => 0) 1 (oneRoot 524288).toList)) :=
  trace_in_tables_iff blockPage blockPage_injective (memory none) (mmapAt 524288)
    (mmapAt_spec (by norm_num) (by norm_num) (by norm_num)) 65536 smallSpace smallSpace_spec.1 oneSlot crossHeap both
    (fun _ => 0) 1 (fun _ => .free) (fun _ _ => 0) (oneRoot 524288) (oneRoot_wellFormed 524288) fun r hr =>
      .inl (List.mem_singleton.1 hr)

/-- **A large child.** From the Immix object, the first round tests entry 65536 of a trace map of 8192 entries; from the
large one, it marks that entry. -/
theorem large_child :
    smallSpace.mapLen = 8192 ∧ (524288 ∈ both.immix ∧ 1048576 ∈ both.large) ∧
      (⟨.traceMap, 65536⟩ : Use) ∈ startTraceUses (fun _ _ => 0) crossHeap 1 1
        (tracerSpace smallSpace oneSlot (fun _ => 0) fun _ => .free) (oneRoot 524288) ∧
      ¬ InTables smallSpace oneSlot (fun _ => 0) (fun _ => .free) crossHeap (fun _ _ => 0) 1 (oneRoot 524288) ∧
      (⟨.traceMap, 65536⟩ : Use) ∈ startTraceUses (fun _ _ => 0) crossHeap 1 1
        (tracerSpace smallSpace oneSlot (fun _ => 0) fun _ => .free) (oneRoot 1048576) ∧
      ¬ InTables smallSpace oneSlot (fun _ => 0) (fun _ => .free) crossHeap (fun _ _ => 0) 1 (oneRoot 1048576) := by
  have hlen : smallSpace.mapLen = 8192 := by rw [smallSpace_spec.2.mapLen]; decide +kernel
  have hout : ¬ Use.Inside smallSpace ⟨.traceMap, 65536⟩ := by
    show ¬ (65536 : ℤ) < smallSpace.mapLen
    rw [hlen]
    norm_num
  have hchild : (⟨.traceMap, 65536⟩ : Use) ∈ startTraceUses (fun _ _ => 0) crossHeap 1 1
      (tracerSpace smallSpace oneSlot (fun _ => 0) fun _ => .free) (oneRoot 524288) := by decide +kernel
  have hroot : (⟨.traceMap, 65536⟩ : Use) ∈ startTraceUses (fun _ _ => 0) crossHeap 1 1
      (tracerSpace smallSpace oneSlot (fun _ => 0) fun _ => .free) (oneRoot 1048576) := by decide +kernel
  exact ⟨hlen, ⟨rfl, rfl⟩, hchild, fun h => hout (h 1 _ hchild), hroot, fun h => hout (h 1 _ hroot)⟩

end Both

end Immix.C.Tables
