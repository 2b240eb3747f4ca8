/-
One collection over the state before it, and what the line marks say over whole runs.

`s.reached sp roots` is what the trace of a collection of `s` computes (`Immix.TraceReach`): the roots and, with each
object, the values of its slots that the trace map holds for untraced. `GoodHeap` is what the tracer assumes of its input:
the roots are object starts, and the scanned slots hold object starts or words outside the space.
- `collect_free_iff`: the lines that are Free after a collection.
- `collect_entries`, `collect_markState`: the trace map after it.
- `garbage_reclaimed_iff`: in every run, every line without a traced object is reclaimed by every collection exactly when
  no collection starts with a Live or ConservLive line that its own trace does not account for.
- `mark_outlives_object`: a run in which such a line is left.
-/
import Immix.AllocMap

namespace Immix.Heap

open Immix.Lib

/-! ## One collection -/

/-- what a collection with these roots traces -/
def reached (sp : Space) (s : Heap) (roots : List ℕ) : ℕ → Prop := Trace.Reached (s.env sp 1) s.traceMap roots

/-- the roots and slots are as the tracer assumes them -/
structure GoodHeap (sp : Space) (s : Heap) (roots : List ℕ) : Prop where
  starts : ∀ r ∈ roots, Trace.ObjectStart (s.env sp 1) r
  slots : ∀ o, s.reached sp roots o → Trace.GoodSlots (s.env sp 1) s.traceMap o

/-- line `j` is the line of `o` or the one after it -/
def Near (s : Heap) (o j : ℕ) : Prop := j = s.lines.lineOf o ∨ j = s.lines.lineOf o + 1

section

variable {sp : Space} {s : Heap} {roots : List ℕ} {cpus : ℕ+} {schedule : List (ℕ × ℕ)}

theorem Collects.traced (h : Inv sp s) (hc : s.Collects sp roots cpus schedule) :
    Trace.Traced (s.env sp cpus) s.traceMap s.lines roots (s.startTrace sp roots cpus schedule) := h.traced hc.2.2

/-- in a good heap the objects processed are the reached ones, whatever the schedule -/
theorem processed_iff (h : Inv sp s) (hc : s.Collects sp roots cpus schedule) (hg : s.GoodHeap sp roots) (o : ℕ) :
    o ∈ (s.startTrace sp roots cpus schedule).processed ↔ s.reached sp roots o := by
  have hfit : s.traceMap.Fits := by rw [h.traceMap]; exact sp.traceMap_fits _ _
  have hoff : s.traceMap.offset = sp.start := by rw [h.traceMap]; rfl
  exact (hc.traced h).processed_iff hfit hoff hg.starts hg.slots o

/-- the lines that are Free after a collection: no traced object accounts for them, and they were Free before, or they
belong to a used block and were neither Live nor ConservLive -/
theorem collect_free_iff (h : Inv sp s) (hc : s.Collects sp roots cpus schedule) (j : ℕ) :
    (s.collect sp (s.startTrace sp roots cpus schedule)).lines.get j = .free ↔
      (∀ o ∈ (s.startTrace sp roots cpus schedule).processed, ¬ s.lines.Covers o j) ∧
        (s.lines.get j = .free ∨ LineIn s.used j ∧ ¬ (s.lines.get j).isLive) := by
  have ht := hc.traced h
  have hsw := h.swept ht.len
  set t := s.startTrace sp roots cpus schedule
  have hget : (s.collect sp t).lines.get j = (sweep t.lines s.usable s.used).lines.get j := rfl
  rw [hget]
  by_cases hcov : ∃ o ∈ t.processed, s.lines.Covers o j
  · obtain ⟨o, ho, hcov⟩ := hcov
    have hl := ht.covered o ho j hcov
    rw [hsw.get_live j hl]
    exact iff_of_false hl.ne_free fun hno => hno.1 o ho hcov
  · have hno : ∀ o ∈ t.processed, ¬ s.lines.Covers o j := fun o ho hco => hcov ⟨o, ho, hco⟩
    have hsame := ht.unchanged j hno
    rw [and_iff_right hno]
    by_cases hin : LineIn s.used j
    · by_cases hl : (s.lines.get j).isLive
      · rw [hsw.get_live j (by rw [hsame]; exact hl), hsame]
        exact iff_of_false hl.ne_free fun hor => hor.elim hl.ne_free fun hand => hand.2 hl
      · rw [hsw.get_in j hin (by rw [hsame]; exact hl)]
        exact iff_of_true rfl (.inr ⟨hin, hl⟩)
    · rw [hsw.get_out j hin, hsame]
      exact ⟨.inl, fun hor => hor.elim id fun hand => absurd hand.1 hin⟩

/-- the lines of used blocks are in the table -/
theorem line_lt (h : Inv sp s) {j : ℕ} (hj : LineIn s.used j) : j < s.lines.len := by
  obtain ⟨b, hb, h1, h2⟩ := hj
  obtain ⟨k, hk, rfl⟩ := mem_initBlocks.1 (h.blocks b (List.mem_append_right _ hb))
  have := slice_in_table hk
  rw [h.lines_len]
  simp only [Space.block] at h2
  omega

theorem collect_entries (h : Inv sp s) (hc : s.Collects sp roots cpus schedule) (g : ℕ) :
    (s.collect sp (s.startTrace sp roots cpus schedule)).traceMap.entries g =
      if ∃ o ∈ (s.startTrace sp roots cpus schedule).processed, granule sp.start o = g then s.traceMap.markState
      else s.traceMap.entries g := by
  have hm := (hc.traced h).marks.entries g
  have hoff : s.traceMap.offset = sp.start := by rw [h.traceMap]; rfl
  rw [hoff] at hm
  rw [← hm]
  simp only [collect]
  split_ifs <;> rfl

/-- the mark state flips, unless the sweep panics -/
theorem collect_markState (h : Inv sp s) (hc : s.Collects sp roots cpus schedule)
    (hcr : (s.collect sp (s.startTrace sp roots cpus schedule)).crashed = false) :
    (s.collect sp (s.startTrace sp roots cpus schedule)).traceMap.markState = s.traceMap.markState ^^^ 1 := by
  have hm := (hc.traced h).marks.table
  simp only [collect, decide_eq_false_iff_not] at hcr ⊢
  rw [if_neg hcr, hm]
  rfl

end

/-! ## Reclaimed lines, over runs -/

/-- operation `k` of the run is this collection, and is carried out -/
def GcAt (sp : Space) (ops : List Op) (k : ℕ) (roots : List ℕ) (cpus : ℕ+) (schedule : List (ℕ × ℕ)) : Prop :=
  ops[k]? = some (.gc roots cpus schedule) ∧ (before sp ops k).Collects sp roots cpus schedule

variable {sp : Space} {ops : List Op} {k : ℕ} {roots : List ℕ} {cpus : ℕ+} {schedule : List (ℕ × ℕ)}

theorem GcAt.after (hgc : GcAt sp ops k roots cpus schedule) :
    before sp ops (k + 1) =
      (before sp ops k).collect sp ((before sp ops k).startTrace sp roots cpus schedule) := by
  rw [before_succ hgc.1, step_collect hgc.2]

/-- every line of a block that was in use is Free after collection `k`, unless an object its trace processed starts in it
or in the line before -/
def Reclaims (sp : Space) (ops : List Op) (k : ℕ) : Prop :=
  ∀ roots cpus schedule, GcAt sp ops k roots cpus schedule → ∀ j, LineIn (before sp ops k).used j →
    (before sp ops (k + 1)).lines.get j = .free ∨
      ∃ o ∈ ((before sp ops k).startTrace sp roots cpus schedule).processed, (before sp ops k).Near o j

/-- every line of a block in use that is Live or ConservLive when collection `k` starts holds a reached object's start, or
the line before it does -/
def NoStaleMark (sp : Space) (ops : List Op) (k : ℕ) : Prop :=
  ∀ roots cpus schedule, GcAt sp ops k roots cpus schedule → ∀ j, LineIn (before sp ops k).used j →
    ((before sp ops k).lines.get j).isLive → ∃ o, (before sp ops k).reached sp roots o ∧ (before sp ops k).Near o j

/-- **Garbage is reclaimed, exactly without stale marks.** Over every run of a good heap: all collections reclaim every
line no object of their own trace accounts for if and only if none of them starts with a Live or ConservLive line that no
object it will reach accounts for. -/
theorem garbage_reclaimed_iff (sp : Space) (ops : List Op)
    (hgood : ∀ k roots cpus schedule, GcAt sp ops k roots cpus schedule → (before sp ops k).GoodHeap sp roots) :
    (∀ k, Reclaims sp ops k) ↔ ∀ k, NoStaleMark sp ops k := by
  refine forall_congr' fun k => forall_congr' fun roots => forall_congr' fun cpus => forall_congr' fun schedule =>
    forall_congr' fun hgc => forall_congr' fun j => forall_congr' fun hin => ?_
  have hinv := inv_run sp ops k
  have hproc := processed_iff hinv hgc.2 (hgood k roots cpus schedule hgc)
  have hlt := line_lt hinv hin
  have hnear : ∀ o, (before sp ops k).lines.Covers o j ↔ (before sp ops k).Near o j := fun o => and_iff_right hlt
  rw [hgc.after, collect_free_iff hinv hgc.2 j]
  simp only [hproc, hnear]
  constructor
  · rintro (⟨-, hfree | ⟨-, hdead⟩⟩ | hex) hlive
    · exact absurd hfree hlive.ne_free
    · exact absurd hlive hdead
    · exact hex
  · intro hstale
    by_cases hex : ∃ o, (before sp ops k).reached sp roots o ∧ (before sp ops k).Near o j
    · exact .inr hex
    · refine .inl ⟨fun o ho hno => hex ⟨o, ho, hno⟩, ?_⟩
      by_cases hlive : ((before sp ops k).lines.get j).isLive
      · exact absurd (hstale hlive) hex
      · exact .inr ⟨hin, hlive⟩

/-- nothing is reached from no roots -/
theorem goodHeap_nil (sp : Space) (s : Heap) : s.GoodHeap sp [] where
  starts := nofun
  slots := fun _ ho => (Closure.least (S := fun _ => False) (fun _ hr => List.not_mem_nil hr) (fun _ _ h _ => h) ho).elim

/-- `a` has one slot, which refers to `b`, whose one slot is null -/
structure Link (sp : Space) (s : Heap) (a b : ℕ) : Prop where
  first : Trace.objSlots (s.env sp 1) a = [0] ∧ Trace.slotValue (s.env sp 1) a 0 = b
  last : Trace.objSlots (s.env sp 1) b = [0] ∧ Trace.slotValue (s.env sp 1) b 0 = 0

theorem Link.value {s : Heap} {a b o off : ℕ} (h : s.Link sp a b) (ho : o = a ∨ o = b)
    (hoff : off ∈ Trace.objSlots (s.env sp 1) o) :
    Trace.slotValue (s.env sp 1) o off = b ∨ Trace.slotValue (s.env sp 1) o off = 0 := by
  rcases ho with rfl | rfl
  · rw [h.first.1] at hoff
    rw [List.mem_singleton.1 hoff]
    exact .inl h.first.2
  · rw [h.last.1] at hoff
    rw [List.mem_singleton.1 hoff]
    exact .inr h.last.2

/-- the root refers to an object and nothing else is reached -/
theorem goodHeap_link {s : Heap} {a b : ℕ} (h : s.Link sp a b) (ha : Trace.ObjectStart (s.env sp 1) a)
    (hb : Trace.ObjectStart (s.env sp 1) b ∧ Supported (getRefByte s.allocMap sp.start b))
    (hnull : ¬ s.traceMap.InRange 0 ∧ s.traceMap.isUntracedAndValid 0 = false) : s.GoodHeap sp [a] where
  starts r hr := by rwa [List.mem_singleton.1 hr]
  slots o ho off hoff := by
    have htwo : o = a ∨ o = b := by
      refine Closure.least (S := fun o => o = a ∨ o = b) (fun r hr => .inl (List.mem_singleton.1 hr))
        (fun x v hx hv => ?_) ho
      obtain ⟨off, hoff, rfl, hvalid⟩ := hv
      rcases h.value hx hoff with hv | hv
      · exact .inr hv
      · rw [hv, hnull.2] at hvalid
        cases hvalid
    rcases h.value htwo hoff with hv | hv
    · rw [hv]
      exact .inr hb
    · rw [hv]
      exact .inl hnull.1

/-- three objects of a line each; the first one refers to the third and is the only root of the collection after them, whose
worker takes `n` steps; then a line is allocated -/
def linked (n : ℕ) : List Op :=
  allocLine ++ [.initObject 0 524288 0xC1, .alloc 0 lineLayout, .tick 0, .alloc 0 lineLayout, .tick 0,
    .initObject 0 524800 0xC1, .write 0 524288 524800, .stop 0, .gc [524288] 1 (List.replicate n (0, 0)), .resume 0] ++
    allocLine

/-- `linked` after a collection of the new space -/
def survivor : List Op := [.new 0, .stop 0, .gc [] 1 (List.replicate 10 (0, 0)), .resume 0] ++ linked 30

theorem survivor_gc (hgc : GcAt .oneBlock survivor k roots cpus schedule) :
    k = 2 ∧ roots = [] ∨ k = 20 ∧ roots = [524288] := by
  have hop := hgc.1
  have hk : k < 30 := (List.getElem?_eq_some_iff.1 hop).1
  interval_cases k <;> simp [survivor, linked, allocLine] at hop ⊢
  · exact hop.1
  · exact hop.1.symm

/-- the first object refers to the third at the second collection -/
theorem survivor_link : (before .oneBlock survivor 20).Link .oneBlock 524288 524800 :=
  ⟨by decide +kernel, by decide +kernel⟩

theorem survivor_good (k : ℕ) (roots : List ℕ) (cpus : ℕ+) (schedule : List (ℕ × ℕ))
    (hgc : GcAt .oneBlock survivor k roots cpus schedule) : (before .oneBlock survivor k).GoodHeap .oneBlock roots := by
  rcases survivor_gc hgc with ⟨rfl, rfl⟩ | ⟨rfl, rfl⟩
  · exact goodHeap_nil _ _
  · exact goodHeap_link survivor_link ⟨by decide, by decide +kernel⟩
      ⟨⟨by decide, by decide +kernel⟩, by decide +kernel⟩
      ⟨by unfold TraceMap.InRange; decide +kernel, by decide +kernel⟩

theorem garbage_reclaimed_iff_survivor : (∀ k, Reclaims .oneBlock survivor k) ↔ ∀ k, NoStaleMark .oneBlock survivor k :=
  garbage_reclaimed_iff .oneBlock survivor survivor_good

/-- an object survives a first collection, and is garbage for a second one that finds its block in use again -/
def staleMark : List Op :=
  .new 0 :: allocLine ++ [.initObject 0 524288 0xC1, .stop 0, .gc [524288] 1 (List.replicate 20 (0, 0)), .resume 0] ++
    allocLine ++ [.stop 0, .gc [] 1 (List.replicate 10 (0, 0))]

/-- the second collection of this run traces nothing and sweeps the block, and leaves its first two lines unavailable -/
theorem mark_outlives_object :
    GcAt .oneBlock staleMark 22 [] 1 (List.replicate 10 (0, 0)) ∧
    ((before .oneBlock staleMark 22).startTrace .oneBlock [] 1 (List.replicate 10 (0, 0))).processed = [] ∧
    (before .oneBlock staleMark 22).used = [Space.oneBlock.block 0] ∧
    (before .oneBlock staleMark 23).lines.get 0 = .live ∧ (before .oneBlock staleMark 23).lines.get 1 = .conservLive ∧
    ¬ Reclaims .oneBlock staleMark 22 := by
  have hrun : (before .oneBlock staleMark 22).Collects .oneBlock [] 1 (List.replicate 10 (0, 0)) ∧
      ((before .oneBlock staleMark 22).startTrace .oneBlock [] 1 (List.replicate 10 (0, 0))).processed = [] ∧
      (before .oneBlock staleMark 22).used = [Space.oneBlock.block 0] ∧
      (before .oneBlock staleMark 23).lines.get 0 = .live ∧
      (before .oneBlock staleMark 23).lines.get 1 = .conservLive := by decide +kernel
  obtain ⟨hc, hproc, hused, h0, h1⟩ := hrun
  have hop : staleMark[22]? = some (.gc [] 1 (List.replicate 10 (0, 0))) := by simp [staleMark, allocLine]
  refine ⟨⟨hop, hc⟩, hproc, hused, h0, h1, fun hrec => ?_⟩
  have hin : LineIn (before .oneBlock staleMark 22).used 0 := by
    rw [hused]
    exact ⟨_, List.mem_singleton_self _, by decide, by decide⟩
  rcases hrec [] 1 _ ⟨hop, hc⟩ 0 hin with hfree | ⟨o, ho, -⟩
  · simp only [Nat.reduceAdd, h0] at hfree
    cases hfree
  · rw [hproc] at ho; cases ho

end Immix.Heap
