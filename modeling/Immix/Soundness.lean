/-
Soundness of the collector over whole runs of a well-behaved program.

`Client` is the program's side: sizes and alignment of its objects, encodings the tracer supports, stores of null or of
object starts into named slots, root lists of object starts. `s.live sp roots` is what is reachable from the roots through
the slots, whatever the trace map says.
- `client_goodHeap`: such a program presents every collection with a heap the tracer can handle.
- `live_reached`: a collection traces everything live that the trace map does not hold for traced.
- `collector_sound`: if no collection meets a live object as already traced, no allocation overlaps an object that every
  collection since its allocation has found live.
- `live_object_overwritten`: a run in which an object that is live at the only collection is overwritten.
-/
import Immix.MarkState
import Immix.FreshMemory

namespace Immix.Heap

open Immix.Lib

/-! ## The program -/

/-- what the program keeps to -/
structure Client (sp : Space) (ops : List Op) : Prop where
  alloc : ∀ (k m : ℕ) layout, ops[k]? = some (.alloc m layout) → 8 ≤ layout.size ∧ layout.size ≤ 256 ∧ layout.align = 8
  /-- an object is initialised where it was allocated, with an encoding the tracer supports and slots that fit -/
  init : ∀ (k m a : ℕ) encode, ops[k]? = some (.initObject m a encode) → objStart encode = true ∧ Supported encode ∧
    ∃ i < k, ∃ n, AllocatedAt sp ops i (a, n) ∧ 8 * (slots encode).length ≤ n
  /-- null or the start of an object is stored in a slot of an object -/
  write : ∀ (k m a : ℕ) value, ops[k]? = some (.write m a value) →
    (value = 0 ∨ ∃ i < k, ∃ encode, InitAt sp ops i value.toNat encode) ∧
      ∃ i < k, ∃ o encode, InitAt sp ops i o encode ∧ ∃ off ∈ slots encode, a = o + off
  roots : ∀ (k : ℕ) roots cpus schedule, ops[k]? = some (.gc roots cpus schedule) →
    ∀ r ∈ roots, ∃ i < k, ∃ encode, InitAt sp ops i r encode

/-- `v` is a reference in a slot of `o` -/
def Points (sp : Space) (s : Heap) (o v : ℕ) : Prop :=
  ∃ off ∈ Trace.objSlots (s.env sp 1) o, v = Trace.slotValue (s.env sp 1) o off ∧ v ≠ 0

/-- the objects reachable from the roots through the slots their encodings name -/
def live (sp : Space) (s : Heap) (roots : List ℕ) : ℕ → Prop := Closure (Points sp s) (· ∈ roots)

variable {sp : Space} {s : Heap} {ops : List Op} {roots : List ℕ} {cpus : ℕ+} {schedule : List (ℕ × ℕ)} {k : ℕ}

/-! ## Layouts, words and objects of a run -/

/-- an allocation in progress was called -/
theorem step_layout (sp : Space) (s : Heap) (o : Op) {m : ℕ} {l : Layout}
    (h : ((step sp s o).mutator m).pc.layout = some l) : (s.mutator m).pc.layout = some l ∨ o = .alloc m l := by
  -- a step that sets one mutator, to a program point with the same layout or none
  have keep : ∀ {n : ℕ} {x : Mutator}, (Function.update s.mutator n x m).pc.layout = some l →
      (x.pc.layout = (s.mutator n).pc.layout ∨ x.pc.layout = none) → (s.mutator m).pc.layout = some l := by
    intro n x hl hx
    by_cases hmn : m = n
    · subst hmn
      rw [Function.update_self] at hl
      rcases hx with hx | hx
      · exact hx.symm.trans hl
      · cases hx.symm.trans hl
    · rwa [Function.update_of_ne hmn] at hl
  unfold step at h
  split_ifs at h with hcr
  · exact .inl h
  cases o with
  | new n =>
    simp only at h
    split_ifs at h
    · exact .inl h
    · exact .inl (keep h (.inr rfl))
  | alloc n layout =>
    simp only at h
    split_ifs at h
    · cases hpc : (s.mutator n).pc with
      | idle =>
        simp only [hpc, setMutator_mutator] at h
        by_cases hmn : m = n
        · subst hmn
          rw [Function.update_self] at h
          cases h
          exact .inr rfl
        · rw [Function.update_of_ne hmn] at h
          exact .inl h
      | _ => simp only [hpc] at h; exact .inl h
    · exact .inl h
  | tick n =>
    simp only at h
    split_ifs at h
    · unfold Heap.tick at h
      cases hpc : (s.mutator n).pc with
      | alloc layout =>
        simp only [hpc] at h
        cases hb : (s.mutator n).loc.bump layout with
        | none => rw [hb] at h; exact .inl (keep h (.inl (by rw [hpc]; rfl)))
        | some r => rw [hb] at h; exact .inl (keep h (.inr rfl))
      | tryAllocFromLocal layout =>
        simp only [hpc] at h
        cases hl : (s.mutator n).loc.tryAllocFromLocal s.lines with
        | hole loc lines => rw [hl] at h; exact .inl (keep h (.inl (by rw [hpc]; rfl)))
        | none => rw [hl] at h; exact .inl (keep h (.inl (by rw [hpc]; rfl)))
        | panicked => rw [hl] at h; exact .inl (keep h (.inr rfl))
      | allocFromGlobal layout => simp only [hpc] at h; exact .inl (keep h (.inl (by rw [hpc]; rfl)))
      | loop layout =>
        simp only [hpc] at h
        cases hu : s.usable with
        | nil => rw [hu] at h; exact .inl h
        | cons b usable => rw [hu] at h; exact .inl (keep h (.inl (by rw [hpc]; rfl)))
      | _ => simp only [hpc] at h; exact .inl h
    · exact .inl h
  | stop n =>
    simp only at h
    split_ifs at h
    · unfold Heap.stop at h
      cases hpc : (s.mutator n).pc with
      | idle => simp only [hpc] at h; exact .inl (keep h (.inr rfl))
      | loop layout => simp only [hpc] at h; exact .inl (keep h (.inl (by rw [hpc]; rfl)))
      | _ => simp only [hpc] at h; exact .inl h
    · exact .inl h
  | gc roots cpus schedule =>
    simp only at h
    unfold Heap.gc at h
    split_ifs at h
    · simp only [collect] at h
      left
      cases hpc : (s.mutator m).pc <;> rw [hpc] at h <;> exact h
    · exact .inl h
  | resume n =>
    simp only at h
    split_ifs at h
    · unfold Heap.resume at h
      cases hpc : (s.mutator n).pc with
      | released layout =>
        cases layout with
        | none => simp only [hpc] at h; exact .inl (keep h (.inr rfl))
        | some layout => simp only [hpc] at h; exact .inl (keep h (.inl (by rw [hpc]; rfl)))
      | _ => simp only [hpc] at h; exact .inl h
    · exact .inl h
  | destroy n =>
    simp only at h
    split_ifs at h
    · unfold Heap.destroy at h
      split at h <;> exact .inl h
    · exact .inl h
  | initObject n a encode =>
    simp only at h
    split_ifs at h
    · split at h <;> exact .inl h
    · exact .inl h
  | write n a value =>
    simp only at h
    split_ifs at h
    · split at h <;> exact .inl h
    · exact .inl h

theorem layout_called (k : ℕ) {m : ℕ} {l : Layout} (h : ((before sp ops k).mutator m).pc.layout = some l) :
    ∃ i < k, ops[i]? = some (.alloc m l) := by
  induction k with
  | zero => cases h
  | succ k ih =>
    cases ho : ops[k]? with
    | none =>
      rw [before_of_none ho] at h
      obtain ⟨i, hi, hop⟩ := ih h
      exact ⟨i, by omega, hop⟩
    | some o =>
      rw [before_succ ho] at h
      rcases step_layout sp _ o h with h | rfl
      · obtain ⟨i, hi, hop⟩ := ih h
        exact ⟨i, by omega, hop⟩
      · exact ⟨k, by omega, ho⟩

/-- every range returned was asked for: its size and alignment are those of a call -/
theorem allocated_called {r : ℕ × ℕ} (h : AllocatedAt sp ops k r) :
    ∃ (i m : ℕ) (layout : Layout), ops[i]? = some (.alloc m layout) ∧ r.2 = layout.size ∧ layout.align ∣ r.1 := by
  obtain ⟨o, ho, ha⟩ := h
  obtain ⟨m, layout, loc, -, -, -, hpc, -, -, hdvd, hsize, -⟩ := allocated_spec (inv_run sp ops k) ha
  obtain ⟨i, -, hop⟩ := layout_called k (by rw [hpc]; rfl)
  exact ⟨i, m, layout, hop, hsize, hdvd⟩

/-- every word of memory is null or the start of an object -/
theorem Client.word (h : Client sp ops) (k y : ℕ) :
    (before sp ops k).memory y = 0 ∨ ∃ i < k, ∃ encode, InitAt sp ops i ((before sp ops k).memory y).toNat encode := by
  rcases lastStore_or_never sp ops k y with ⟨j, hj, ⟨m, hop, -⟩, -⟩ | ⟨h0, -⟩
  · rcases (h.write j m y _ hop).1 with h0 | ⟨i, hi, encode, hinit⟩
    · exact .inl h0
    · exact .inr ⟨i, by omega, encode, hinit⟩
  · exact .inl h0

/-- every object is an object start with an encoding the tracer supports, from its initialisation on -/
theorem Client.object (h : Client sp ops) {i k a : ℕ} {encode : UInt8} (hi : i < k) (hinit : InitAt sp ops i a encode) :
    Trace.ObjectStart ((before sp ops k).env sp 1) a ∧
      Supported (getRefByte (before sp ops k).allocMap sp.start a) := by
  obtain ⟨m, hop, hcan⟩ := hinit
  have halign : 8 ∣ a := by
    obtain ⟨-, -, j, -, n, halloc, -⟩ := h.init i m a encode hop
    obtain ⟨u, m', layout, hcall, -, hdvd⟩ := allocated_called halloc
    rwa [(h.alloc u m' layout hcall).2.2] at hdvd
  have hbyte : objStart ((before sp ops k).allocMap (granule sp.start a)) = true ∧
      Supported ((before sp ops k).allocMap (granule sp.start a)) := by
    rcases lastInit_or_never sp ops k (granule sp.start a) with ⟨j, -, a', ⟨m', hop', -⟩, -⟩ | ⟨-, hnever⟩
    · have := h.init j m' a' _ hop'
      exact ⟨this.1, this.2.1⟩
    · exact absurd rfl (hnever i hi a encode ⟨m, hop, hcan⟩)
  exact ⟨⟨halign, isValidObject_iff.2 ⟨hcan.2.2.2.1, hcan.2.2.2.2, hbyte.1⟩⟩, hbyte.2⟩

/-- what a slot of the program's heap holds -/
theorem Client.slot (h : Client sp ops) (k o off : ℕ) :
    Trace.slotValue ((before sp ops k).env sp 1) o off = 0 ∨
      ∃ i < k, ∃ encode, InitAt sp ops i (Trace.slotValue ((before sp ops k).env sp 1) o off) encode := by
  rcases h.word k (o + off) with h0 | hobj
  · left
    simp only [Trace.slotValue, env, h0]
    rfl
  · exact .inr hobj

/-- **Such a program presents every collection with a heap the tracer can handle.** -/
theorem client_goodHeap (h : Client sp ops) (hgc : GcAt sp ops k roots cpus schedule) :
    (before sp ops k).GoodHeap sp roots where
  starts := fun r hr => by
    obtain ⟨i, hi, encode, hinit⟩ := h.roots k roots cpus schedule hgc.1 r hr
    exact (h.object hi hinit).1
  slots := fun o _ off _ => by
    rcases h.slot k o off with h0 | ⟨i, hi, encode, hinit⟩
    · left
      rw [h0, (inv_run sp ops k).traceMap]
      have := sp.pos
      exact fun hin => absurd hin.1 (by simp only [Space.traceMap_offset]; omega)
    · exact .inr (h.object hi hinit)

/-! ## Live objects -/

/-- no live object other than a root is taken for traced -/
def LiveUntraced (sp : Space) (ops : List Op) (k : ℕ) : Prop :=
  ∀ roots cpus schedule, GcAt sp ops k roots cpus schedule → ∀ o, (before sp ops k).live sp roots o →
    o ∈ roots ∨ Untraced sp (before sp ops k) o

/-- the collection reaches every live object -/
theorem live_reached (h : Client sp ops) (hun : LiveUntraced sp ops k) (hgc : GcAt sp ops k roots cpus schedule) {o : ℕ}
    (ho : (before sp ops k).live sp roots o) : (before sp ops k).reached sp roots o := by
  refine (Closure.least (S := fun o => (before sp ops k).live sp roots o ∧ (before sp ops k).reached sp roots o)
    (fun r hr => ⟨.root hr, .root hr⟩) (fun x v hx hv => ?_) ho).2
  have hlive := hx.1.step hv
  refine ⟨hlive, ?_⟩
  rcases hun roots cpus schedule hgc v hlive with hroot | hun
  · exact .root hroot
  · -- a reference is to an object of the space, so the tracer's test answers for it
    obtain ⟨off, hoff, rfl, hne⟩ := hv
    rcases h.slot k x off with h0 | ⟨i, hi, encode, hinit⟩
    · exact absurd h0 hne
    · have hb := (h.object hi hinit).1.bounds
      exact hx.2.step ⟨off, hoff, rfl, (untraced_iff (inv_run sp ops k) hb.2.1 hb.2.2).2 hun⟩

/-- an allocated range lies in the space's blocks -/
theorem allocated_has (h : Inv sp s) {o : Op} {r : ℕ × ℕ} (ha : s.allocated o = some r) {x : ℕ} (hx : x ∈ bytes r) :
    ∃ k < sp.size / 65536, (sp.block k).Has x := by
  obtain ⟨m, layout, loc, -, hm, -, hpc, h1, h2, -⟩ := allocated_spec h ha
  have hshape := h.shape m hm (by rw [hpc]; rfl)
  have hx1 := le_trans h1 hx.1
  have hx2 := lt_of_lt_of_le hx.2 h2
  obtain ⟨b, hb⟩ := hshape.block_of_lt (by omega)
  obtain ⟨k, hk, rfl⟩ := h.block_eq hm hb
  exact ⟨k, hk, hshape.has hb hx1 hx2⟩

/-- a collection keeps the lines of the objects it finds live -/
theorem live_not_freed (h : Client sp ops) (hun : LiveUntraced sp ops k) (hgc : GcAt sp ops k roots cpus schedule)
    {i : ℕ} {r : ℕ × ℕ} (ha : AllocatedAt sp ops i r) (hlive : (before sp ops k).live sp roots r.1) {x : ℕ}
    (hx : x ∈ bytes r) : ¬ TurnsFree sp ops k x := by
  rintro ⟨-, -, hfree⟩
  have hinv := inv_run sp ops k
  rw [willFree_iff (fun k roots cpus schedule => client_goodHeap h) hgc] at hfree
  refine hfree.1 r.1 (live_reached h hun hgc hlive) ?_
  -- the range is at most a line long, so `x` is in the line of its start or in the next one
  obtain ⟨o, ho, halloc⟩ := ha
  obtain ⟨j, hj, hx'⟩ := allocated_has (inv_run sp ops i) halloc hx
  obtain ⟨j', hj', hr'⟩ := allocated_has (inv_run sp ops i) halloc (x := r.1) ⟨le_rfl, lt_of_le_of_lt hx.1 hx.2⟩
  obtain ⟨u, m, layout, hcall, hsize, -⟩ := allocated_called ⟨o, ho, halloc⟩
  have hsmall := (h.alloc u m layout hcall).2.1
  have hx1 := hx.1
  have hx2 := hx.2
  unfold ImmixBlock.Has Space.block at hx' hr'
  simp only at hx' hr'
  unfold LineMarkTable.Covers
  rw [hinv.lines_len, lineOf_eq, lineOf_eq, hinv.spaceStart]
  omega

/-- **Collector soundness.** In every run of such a program in which no collection meets a live object, other than a root,
as already traced, no allocation overlaps an object that every collection since its allocation has found live. -/
theorem collector_sound (sp : Space) (ops : List Op) (hclient : Client sp ops) (huntraced : ∀ k, LiveUntraced sp ops k)
    (i j : ℕ) (r r' : ℕ × ℕ) (hij : i < j) (hi : AllocatedAt sp ops i r) (hj : AllocatedAt sp ops j r')
    (hlive : ∀ k roots cpus schedule, i < k → k < j → GcAt sp ops k roots cpus schedule →
      (before sp ops k).live sp roots r.1) :
    Disjoint (bytes r) (bytes r') := by
  refine allocated_disjoint hij hi hj fun k h1 h2 x hx hfree => ?_
  obtain ⟨roots, cpus, schedule, hop, hc⟩ := hfree.1
  have hgc : GcAt sp ops k roots cpus schedule := ⟨hop, hc⟩
  exact live_not_freed hclient (huntraced k) hgc hi (hlive k roots cpus schedule h1 h2 hgc) hx hfree

/-! ## Two runs -/

/-- an operation that neither allocates nor stores, or a collection without roots -/
def plain : Op → Bool
  | .new _ | .stop _ | .resume _ | .gc [] _ _ => true
  | _ => false

/-- the operations of `linked` that say what its objects are, and where they stand -/
theorem linked_cases {n i : ℕ} {o : Op} (h : (linked n)[i]? = some o) :
    (∃ m, o = .alloc m lineLayout ∨ o = .tick m ∨ o = .stop m ∨ o = .resume m) ∨
      i = 8 ∧ o = .initObject 0 524288 0xC1 ∨ i = 13 ∧ o = .initObject 0 524800 0xC1 ∨
      i = 14 ∧ o = .write 0 524288 524800 ∨ i = 16 ∧ o = .gc [524288] 1 (List.replicate n (0, 0)) := by
  have hi : i < 26 := (List.getElem?_eq_some_iff.1 h).1
  interval_cases i <;> simp [linked, allocLine] at h <;> simp [← h]

/-- the program of `linked`, after operations that leave its objects alone -/
theorem linked_client (pre : List Op) (n : ℕ) (hpre : ∀ o ∈ pre, plain o = true)
    (hfirst : (before .oneBlock (pre ++ linked n) (pre.length + 7)).allocated (.tick 0) = some (524288, 256) ∧
      CanInit .oneBlock (before .oneBlock (pre ++ linked n) (pre.length + 8)) 0 524288)
    (hthird : (before .oneBlock (pre ++ linked n) (pre.length + 12)).allocated (.tick 0) = some (524800, 256) ∧
      CanInit .oneBlock (before .oneBlock (pre ++ linked n) (pre.length + 13)) 0 524800) :
    Client .oneBlock (pre ++ linked n) := by
  have hget : ∀ {i : ℕ} {o : Op}, (linked n)[i]? = some o → (pre ++ linked n)[pre.length + i]? = some o := fun h => by
    rw [List.getElem?_append_right (Nat.le_add_right _ _), Nat.add_sub_cancel_left, h]
  have hsplit : ∀ {k : ℕ} {o : Op}, (pre ++ linked n)[k]? = some o →
      plain o = true ∨ ∃ i, k = pre.length + i ∧ (linked n)[i]? = some o := by
    intro k o hop
    rcases Nat.lt_or_ge k pre.length with hk | hk
    · rw [List.getElem?_append_left hk] at hop
      exact .inl (hpre o (List.mem_of_getElem? hop))
    · rw [List.getElem?_append_right hk] at hop
      exact .inr ⟨k - pre.length, by omega, hop⟩
  have hobj : InitAt .oneBlock (pre ++ linked n) (pre.length + 8) 524288 0xC1 := ⟨0, hget rfl, hfirst.2⟩
  have hobj' : InitAt .oneBlock (pre ++ linked n) (pre.length + 13) 524800 0xC1 := ⟨0, hget rfl, hthird.2⟩
  refine ⟨fun k m layout hop => ?_, fun k m a encode hop => ?_, fun k m a value hop => ?_,
    fun k roots cpus schedule hop r hr => ?_⟩
  all_goals rcases hsplit hop with hplain | ⟨i, rfl, hat⟩
  · cases hplain
  · rcases linked_cases hat with ⟨_, h | h | h | h⟩ | ⟨-, h⟩ | ⟨-, h⟩ | ⟨-, h⟩ | ⟨-, h⟩ <;> cases h
    decide
  · cases hplain
  · rcases linked_cases hat with ⟨_, h | h | h | h⟩ | ⟨rfl, h⟩ | ⟨rfl, h⟩ | ⟨-, h⟩ | ⟨-, h⟩ <;> cases h
    · exact ⟨by decide, by decide, pre.length + 7, by omega, 256, ⟨.tick 0, hget rfl, hfirst.1⟩, by decide⟩
    · exact ⟨by decide, by decide, pre.length + 12, by omega, 256, ⟨.tick 0, hget rfl, hthird.1⟩, by decide⟩
  · cases hplain
  · rcases linked_cases hat with ⟨_, h | h | h | h⟩ | ⟨-, h⟩ | ⟨-, h⟩ | ⟨rfl, h⟩ | ⟨-, h⟩ <;> cases h
    exact ⟨.inr ⟨pre.length + 13, by omega, 0xC1, hobj'⟩, pre.length + 8, by omega, 524288, 0xC1, hobj, 0, by decide, rfl⟩
  · cases roots with
    | nil => cases hr
    | cons => cases hplain
  · rcases linked_cases hat with ⟨_, h | h | h | h⟩ | ⟨-, h⟩ | ⟨-, h⟩ | ⟨-, h⟩ | ⟨rfl, h⟩ <;> cases h
    rw [List.mem_singleton.1 hr]
    exact ⟨pre.length + 8, by omega, 0xC1, hobj⟩

/-- the root refers to an object and nothing else is live -/
theorem live_link {s : Heap} {a b : ℕ} (h : s.Link sp a b) (hb : b ≠ 0) (o : ℕ) : s.live sp [a] o ↔ o = a ∨ o = b := by
  constructor
  · refine fun ho => Closure.least (S := fun o => o = a ∨ o = b) (fun r hr => .inl (List.mem_singleton.1 hr))
      (fun x v hx hv => ?_) ho
    obtain ⟨off, hoff, rfl, hne⟩ := hv
    exact .inr ((h.value hx hoff).resolve_right hne)
  · have hroot : s.live sp [a] a := .root (List.mem_singleton_self a)
    rintro (rfl | rfl)
    · exact hroot
    · refine hroot.step ⟨0, ?_, h.first.2.symm, hb⟩
      rw [h.first.1]
      exact List.mem_singleton_self 0

theorem survivor_client : Client .oneBlock survivor :=
  linked_client [.new 0, .stop 0, .gc [] 1 (List.replicate 10 (0, 0)), .resume 0] 30 (by decide)
    ⟨by decide +kernel, by decide +kernel⟩ ⟨by decide +kernel, by decide +kernel⟩

theorem survivor_live (o : ℕ) : (before .oneBlock survivor 20).live .oneBlock [524288] o ↔ o = 524288 ∨ o = 524800 :=
  live_link survivor_link (by norm_num) o

theorem survivor_liveUntraced (k : ℕ) : LiveUntraced .oneBlock survivor k := by
  intro roots cpus schedule hgc o ho
  rcases survivor_gc hgc with ⟨rfl, rfl⟩ | ⟨rfl, rfl⟩
  · exact .inl (Closure.least (S := (· ∈ [])) (fun r hr => hr) (fun x v hx _ => absurd hx List.not_mem_nil) ho)
  · rcases (survivor_live o).1 ho with rfl | rfl
    · exact .inl (List.mem_singleton_self _)
    · right
      unfold Untraced
      decide +kernel

/-- the third object of `survivor` is live at the second collection, and not a root -/
theorem collector_sound_survivor : Disjoint (bytes (524800, 256)) (bytes (525312, 256)) := by
  have hrun : (before .oneBlock survivor 16).allocated (.tick 0) = some (524800, 256) ∧
      (before .oneBlock survivor 29).allocated (.tick 0) = some (525312, 256) := by decide +kernel
  refine collector_sound .oneBlock survivor survivor_client survivor_liveUntraced 16 29 _ _ (by norm_num)
    ⟨.tick 0, rfl, hrun.1⟩ ⟨.tick 0, rfl, hrun.2⟩ fun k roots cpus schedule h1 h2 hgc => ?_
  rcases survivor_gc hgc with ⟨rfl, rfl⟩ | ⟨rfl, rfl⟩
  · omega
  · exact (survivor_live _).2 (.inr rfl)

/-- three objects of a line each; the first one refers to the third, and is the only root of the only collection -/
def lostObject : List Op :=
  .new 0 :: allocLine ++ [.initObject 0 524288 0xC1, .alloc 0 lineLayout, .tick 0, .alloc 0 lineLayout, .tick 0,
    .initObject 0 524800 0xC1, .write 0 524288 524800, .stop 0, .gc [524288] 1 (List.replicate 20 (0, 0)), .resume 0] ++
    allocLine

theorem lostObject_gc {k : ℕ} {roots : List ℕ} {cpus : ℕ+} {schedule : List (ℕ × ℕ)}
    (hop : lostObject[k]? = some (.gc roots cpus schedule)) : k = 17 ∧ roots = [524288] := by
  have hk : k < 27 := (List.getElem?_eq_some_iff.1 hop).1
  interval_cases k <;> simp [lostObject, allocLine] at hop ⊢
  exact hop.1.symm

/-- **The third object is lost.** It is live at the only collection of the run, which does not trace it: its entry and the
mark state are both still 0. The next allocation returns its bytes. -/
theorem live_object_overwritten :
    Client .oneBlock lostObject ∧ AllocatedAt .oneBlock lostObject 13 (524800, 256) ∧
      AllocatedAt .oneBlock lostObject 26 (524800, 256) ∧
      (∃ roots cpus schedule, GcAt .oneBlock lostObject 17 roots cpus schedule) ∧
      (∀ k roots cpus schedule, GcAt .oneBlock lostObject k roots cpus schedule →
        (before .oneBlock lostObject k).live .oneBlock roots 524800) := by
  have hrun : (before .oneBlock lostObject 8).allocated (.tick 0) = some (524288, 256) ∧
      CanInit .oneBlock (before .oneBlock lostObject 9) 0 524288 ∧
      (before .oneBlock lostObject 13).allocated (.tick 0) = some (524800, 256) ∧
      CanInit .oneBlock (before .oneBlock lostObject 14) 0 524800 ∧
      (before .oneBlock lostObject 17).Collects .oneBlock [524288] 1 (List.replicate 20 (0, 0)) ∧
      Trace.objSlots ((before .oneBlock lostObject 17).env .oneBlock 1) 524288 = [0] ∧
      Trace.slotValue ((before .oneBlock lostObject 17).env .oneBlock 1) 524288 0 = 524800 ∧
      (before .oneBlock lostObject 26).allocated (.tick 0) = some (524800, 256) := by decide +kernel
  obtain ⟨hfirst, hinit, hthird, hinit', hgc, hslots, hslot, hagain⟩ := hrun
  have hclient : Client .oneBlock lostObject := linked_client [.new 0] 20 (by decide) ⟨hfirst, hinit⟩
    ⟨hthird, hinit'⟩
  refine ⟨hclient, ⟨.tick 0, rfl, hthird⟩, ⟨.tick 0, rfl, hagain⟩, ⟨[524288], 1, _, rfl, hgc⟩,
    fun k roots cpus schedule hgc => ?_⟩
  obtain ⟨rfl, rfl⟩ := lostObject_gc hgc.1
  refine Closure.step (.root (List.mem_singleton_self 524288)) ⟨0, ?_, hslot.symm, by norm_num⟩
  rw [hslots]
  exact List.mem_singleton_self 0

end Immix.Heap
