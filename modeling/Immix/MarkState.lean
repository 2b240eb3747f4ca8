/-
The mark state over whole runs. An entry of the trace map is written only by the tracer, and read against a mark state
that flips after each collection: an object must meet each collection with the value the mark state does not have. A new
map holds 0 everywhere and starts with mark state 0, and `init_object` leaves the entry of a reused granule as it is.

- `traceMap_eq`: between two collections the trace map does not change.
- `mark_state_iff`: in every run, every unreclaimed object is untraced at the start of every collection exactly when every
  object is initialised over an entry that differs from the mark state and no collection leaves an object it neither
  traces nor frees.
- `first_collection_sees_traced`: a run whose first collection meets an object as already traced.
-/
import Immix.Collect

namespace Immix.Heap

open Immix.Lib

variable {sp : Space} {s : Heap} {ops : List Op} {roots : List ℕ} {cpus : ℕ+} {schedule : List (ℕ × ℕ)}

/-- the trace-map entry of the granule of `a` differs from the mark state -/
def Untraced (sp : Space) (s : Heap) (a : ℕ) : Prop :=
  s.traceMap.entries (granule sp.start a) ≠ s.traceMap.markState

/-- inside the space this is what `is_untraced_and_valid` answers -/
theorem untraced_iff (h : Inv sp s) {a : ℕ} (h1 : sp.start ≤ a) (h2 : a < sp.stop) :
    s.traceMap.isUntracedAndValid a = true ↔ Untraced sp s a := by
  have hfit : s.traceMap.Fits := by rw [h.traceMap]; exact sp.traceMap_fits _ _
  have hoff : s.traceMap.offset = sp.start := by rw [h.traceMap]; rfl
  have hlt : a < usize := by
    have := sp.user
    simp only [Space.stop_eq] at h2
    unfold usize
    omega
  have hin : s.traceMap.InRange a := by rw [h.traceMap]; exact sp.inRange _ _ h1 h2
  rw [TraceMap.isUntracedAndValid_iff hfit hlt, and_iff_right hin, hoff]
  rfl

/-! ## Entries and mark states are bits -/

/-- every entry and the mark state are 0 or 1 -/
def Bits (s : Heap) : Prop :=
  (s.traceMap.markState = 0 ∨ s.traceMap.markState = 1) ∧ ∀ g, s.traceMap.entries g = 0 ∨ s.traceMap.entries g = 1

theorem bit_flip {a b : UInt8} (ha : a = 0 ∨ a = 1) (hb : b = 0 ∨ b = 1) : a = b ^^^ 1 ↔ a ≠ b := by
  rcases ha with rfl | rfl <;> rcases hb with rfl | rfl <;> decide

theorem bits_step (sp : Space) (s : Heap) (o : Op) (h : Inv sp s ∧ Bits s) : Inv sp (step sp s o) ∧ Bits (step sp s o) := by
  refine ⟨inv_step sp s o h.1, ?_⟩
  by_cases hmut : Mutates sp s o
  · unfold Bits
    rw [(step_kept h.1 hmut).traceMap]
    exact h.2
  · unfold Mutates at hmut
    push Not at hmut
    obtain ⟨roots, cpus, schedule, rfl, hc⟩ := hmut
    rw [step_collect hc]
    refine ⟨?_, fun g => ?_⟩
    · cases hcr : (s.collect sp (s.startTrace sp roots cpus schedule)).crashed with
      | false =>
        rw [collect_markState h.1 hc hcr]
        rcases h.2.1 with h0 | h1
        · right; rw [h0]; rfl
        · left; rw [h1]; rfl
      | true =>
        have hm := (hc.traced h.1).marks.table
        simp only [collect, decide_eq_true_eq] at hcr ⊢
        rw [if_pos hcr, hm]
        exact h.2.1
    · rw [collect_entries h.1 hc g]
      split_ifs
      · exact h.2.1
      · exact h.2.2 g

theorem bits_run (sp : Space) (ops : List Op) (k : ℕ) : Bits (before sp ops k) :=
  (stateAt_inv_all (I := fun s => Inv sp s ∧ Bits s) ops (bits_step sp) ⟨inv_new sp, .inl rfl, fun _ => .inl rfl⟩ k).2

/-! ## Objects between collections -/

/-- an object has been initialised at `a` before operation `k`, and no collection since has left its line Free -/
def Unreclaimed (sp : Space) (ops : List Op) (k a : ℕ) : Prop :=
  ∃ i < k, ∃ encode, InitAt sp ops i a encode ∧
    ∀ u, i < u → u < k → CollectsAt sp ops u → (before sp ops (u + 1)).mark a ≠ .free

theorem Unreclaimed.inSpace {k a : ℕ} (h : Unreclaimed sp ops k a) : sp.start ≤ a ∧ a < sp.stop := by
  obtain ⟨i, -, encode, ⟨m, -, hcan⟩, -⟩ := h
  exact hcan.2.2.2

theorem GcAt.collectsAt {k : ℕ} (h : GcAt sp ops k roots cpus schedule) : CollectsAt sp ops k :=
  ⟨roots, cpus, schedule, h.1, h.2⟩

/-- the trace map does not change without a collection -/
theorem traceMap_eq (sp : Space) (ops : List Op) {i j : ℕ} (hij : i ≤ j) (hno : ∀ k, i ≤ k → k < j → ¬ CollectsAt sp ops k) :
    (before sp ops j).traceMap = (before sp ops i).traceMap := by
  refine before_until (P := fun s => s.traceMap = (before sp ops i).traceMap) hij rfl fun k o h1 h2 ho hk => ?_
  rw [(step_kept (inv_run sp ops k) (mutates_of_not_collectsAt ho (hno k h1 h2))).traceMap, hk]

theorem not_collectsAt_of_initAt {k a : ℕ} {encode : UInt8} (h : InitAt sp ops k a encode) : ¬ CollectsAt sp ops k := by
  rintro ⟨roots, cpus, schedule, hop, -⟩
  obtain ⟨m, hop', -⟩ := h
  rw [hop'] at hop
  cases hop

/-- no sweep before a collection has panicked -/
theorem CollectsAt.not_crashed {i j : ℕ} (hj : CollectsAt sp ops j) (hij : i ≤ j) : (before sp ops i).crashed = false := by
  by_contra hcr
  have hlater : (before sp ops j).crashed = true := by
    refine before_until (P := fun s => s.crashed = true) hij (by simpa using hcr) fun k o _ _ _ hk => ?_
    unfold step
    rw [if_pos hk]
    exact hk
  obtain ⟨_, _, _, -, hc⟩ := hj
  exact absurd (hlater.symm.trans hc.1) (by simp)

/-- the collection of this state traces an object in the granule of `a` -/
def WillTrace (sp : Space) (s : Heap) (roots : List ℕ) (a : ℕ) : Prop :=
  ∃ p, s.reached sp roots p ∧ granule sp.start p = granule sp.start a

/-- the collection of this state leaves the line of `a` Free: no object it reaches starts there or in the line before, and
the line is Free already, or belongs to a used block and is neither Live nor ConservLive -/
def WillFree (sp : Space) (s : Heap) (roots : List ℕ) (a : ℕ) : Prop :=
  (∀ o, s.reached sp roots o → ¬ s.lines.Covers o (s.lines.lineOf a)) ∧
    (s.mark a = .free ∨ LineIn s.used (s.lines.lineOf a) ∧ ¬ (s.mark a).isLive)

variable {k : ℕ} (hgood : ∀ k roots cpus schedule, GcAt sp ops k roots cpus schedule →
  (before sp ops k).GoodHeap sp roots)
include hgood

theorem willFree_iff (hgc : GcAt sp ops k roots cpus schedule) (a : ℕ) :
    (before sp ops (k + 1)).mark a = .free ↔ WillFree sp (before sp ops k) roots a := by
  have hinv := inv_run sp ops k
  have hproc := processed_iff hinv hgc.2 (hgood k roots cpus schedule hgc)
  rw [mark_congr hinv (inv_run sp ops (k + 1)), hgc.after, collect_free_iff hinv hgc.2]
  simp only [hproc]
  rfl

/-- after a collection that another one follows, an object is untraced if it was traced, or had the other value before -/
theorem untraced_after (hgc : GcAt sp ops k roots cpus schedule) (hcr : (before sp ops (k + 1)).crashed = false) (a : ℕ) :
    Untraced sp (before sp ops (k + 1)) a ↔
      WillTrace sp (before sp ops k) roots a ∨ ¬ Untraced sp (before sp ops k) a := by
  have hinv := inv_run sp ops k
  have hbits := bits_run sp ops k
  have hproc := processed_iff hinv hgc.2 (hgood k roots cpus schedule hgc)
  have htrace : (∃ o ∈ ((before sp ops k).startTrace sp roots cpus schedule).processed,
      granule sp.start o = granule sp.start a) ↔ WillTrace sp (before sp ops k) roots a := by
    simp only [hproc, WillTrace]
  rw [hgc.after] at hcr
  unfold Untraced
  rw [hgc.after, collect_entries hinv hgc.2, collect_markState hinv hgc.2 hcr]
  split_ifs with htr
  · refine iff_of_true (fun heq => ?_) (.inl (htrace.1 htr))
    exact (bit_flip hbits.1 hbits.1).1 heq rfl
  · rw [or_iff_right (mt htrace.2 htr)]
    exact not_congr (bit_flip (hbits.2 _) hbits.1)

omit hgood

/-! ## The mark-state invariant -/

/-- collection `k` finds every unreclaimed object untraced -/
def MeetsUntraced (sp : Space) (ops : List Op) (k : ℕ) : Prop :=
  ∀ a, Unreclaimed sp ops k a →
    Untraced sp (before sp ops k) a ∧ (before sp ops k).traceMap.isUntracedAndValid a = true

/-- the objects initialised since the collection before operation `k` were initialised over untraced entries -/
def FreshOverUntraced (sp : Space) (ops : List Op) (k : ℕ) : Prop :=
  ∀ i < k, (∀ u, i < u → u < k → ¬ CollectsAt sp ops u) → ∀ a encode, InitAt sp ops i a encode →
    Untraced sp (before sp ops i) a

/-- the collection before operation `k` had to trace or to free every object that was unreclaimed when it started -/
def NoFloatingGarbage (sp : Space) (ops : List Op) (k : ℕ) : Prop :=
  ∀ v < k, (∀ u, v < u → u < k → ¬ CollectsAt sp ops u) → ∀ roots cpus schedule, GcAt sp ops v roots cpus schedule →
    ∀ a, Unreclaimed sp ops v a → WillTrace sp (before sp ops v) roots a ∨ WillFree sp (before sp ops v) roots a

/-- **The mark-state invariant, exactly.** Over every run of a good heap: every unreclaimed object is untraced when a
collection starts, for all collections of the run, if and only if, before each collection, the objects initialised since
the last one were initialised over entries that differed from the mark state, and the last one traced or freed every
object that was unreclaimed when it started. -/
theorem mark_state_iff (sp : Space) (ops : List Op)
    (hgood : ∀ k roots cpus schedule, GcAt sp ops k roots cpus schedule → (before sp ops k).GoodHeap sp roots) :
    (∀ k, CollectsAt sp ops k → MeetsUntraced sp ops k) ↔
      ∀ k, CollectsAt sp ops k → FreshOverUntraced sp ops k ∧ NoFloatingGarbage sp ops k := by
  constructor
  · refine fun hmeets k hk => ⟨fun i hi hno a encode hinit => ?_, fun v hv hno roots cpus schedule hgc a ha => ?_⟩
    · -- nothing is collected between the initialisation and the collection
      have hun : Unreclaimed sp ops k a := ⟨i, hi, encode, hinit, fun u h1 h2 hc => absurd hc (hno u h1 h2)⟩
      have hnow := (hmeets k hk a hun).1
      have htm := traceMap_eq sp ops hi.le fun u h1 h2 => by
        rcases Nat.eq_or_lt_of_le h1 with rfl | h1
        · exact not_collectsAt_of_initAt hinit
        · exact hno u h1 h2
      unfold Untraced at hnow ⊢
      rwa [htm] at hnow
    · refine or_iff_not_imp_right.2 fun hfree => ?_
      have hkept : (before sp ops (v + 1)).mark a ≠ .free := fun h => hfree ((willFree_iff hgood hgc a).1 h)
      have hun : Unreclaimed sp ops k a := by
        obtain ⟨i, hi, encode, hinit, hsince⟩ := ha
        refine ⟨i, by omega, encode, hinit, fun u h1 h2 hc => ?_⟩
        rcases lt_trichotomy u v with h | rfl | h
        · exact hsince u h1 h hc
        · exact hkept
        · exact absurd hc (hno u h h2)
      have hnow := (hmeets k hk a hun).1
      have htm := traceMap_eq sp ops (i := v + 1) hv fun u h1 h2 => hno u h1 h2
      have hcr := hk.not_crashed (i := v + 1) hv
      have hafter : Untraced sp (before sp ops (v + 1)) a := by
        unfold Untraced at hnow ⊢
        rwa [htm] at hnow
      rcases (untraced_after hgood hgc hcr a).1 hafter with htr | hnot
      · exact htr
      · exact absurd (hmeets v hgc.collectsAt a ha).1 hnot
  · intro hcond k hk a ha
    have hspace := ha.inSpace
    rw [untraced_iff (inv_run sp ops k) hspace.1 hspace.2, and_self]
    obtain ⟨hfresh, hgarbage⟩ := hcond k hk
    obtain ⟨i, hi, encode, hinit, hsince⟩ := ha
    rcases exists_last (P := CollectsAt sp ops) i k with hno | ⟨v, h1, h2, ⟨roots, cpus, schedule, hgc⟩, hno⟩
    · have hthen := hfresh i hi hno a encode hinit
      have htm := traceMap_eq sp ops hi.le fun u h1 h2 => by
        rcases Nat.eq_or_lt_of_le h1 with rfl | h1
        · exact not_collectsAt_of_initAt hinit
        · exact hno u h1 h2
      unfold Untraced at hthen ⊢
      rwa [htm]
    · -- the last collection after the initialisation traced the object: it did not free it
      have hgc : GcAt sp ops v roots cpus schedule := hgc
      have hkept := hsince v h1 h2 hgc.collectsAt
      have hun : Unreclaimed sp ops v a := ⟨i, h1, encode, hinit, fun u h3 h4 => hsince u h3 (by omega)⟩
      have htm := traceMap_eq sp ops (i := v + 1) h2 fun u h3 h4 => hno u h3 h4
      have hcr := hk.not_crashed (i := v + 1) h2
      rcases hgarbage v h2 hno roots cpus schedule hgc a hun with htr | hfree
      · have hafter := (untraced_after hgood hgc hcr a).2 (.inl htr)
        unfold Untraced at hafter ⊢
        rwa [htm]
      · exact absurd ((willFree_iff hgood hgc a).2 hfree) hkept

theorem mark_state_iff_survivor :
    (∀ k, CollectsAt .oneBlock survivor k → MeetsUntraced .oneBlock survivor k) ↔
      ∀ k, CollectsAt .oneBlock survivor k →
        FreshOverUntraced .oneBlock survivor k ∧ NoFloatingGarbage .oneBlock survivor k :=
  mark_state_iff .oneBlock survivor survivor_good

/-- in this run the first collection starts with an object whose entry equals the mark state: both are still 0 -/
theorem first_collection_sees_traced :
    CollectsAt .oneBlock reuse 11 ∧ Unreclaimed .oneBlock reuse 11 524288 ∧
      (before .oneBlock reuse 11).traceMap.isUntracedAndValid 524288 = false ∧ ¬ MeetsUntraced .oneBlock reuse 11 := by
  have hrun : (before .oneBlock reuse 11).Collects .oneBlock [] 1 (List.replicate 10 (0, 0)) ∧
      CanInit .oneBlock (before .oneBlock reuse 9) 0 524288 ∧
      (before .oneBlock reuse 11).traceMap.isUntracedAndValid 524288 = false := by decide +kernel
  obtain ⟨hc, hinit, htraced⟩ := hrun
  have hun : Unreclaimed .oneBlock reuse 11 524288 := by
    refine ⟨9, by norm_num, 0xC1, ⟨0, rfl, hinit⟩, fun u h1 h2 hu => ?_⟩
    obtain ⟨_, _, _, hop, -⟩ := hu
    obtain rfl : u = 10 := by omega
    simp [reuse, allocLine] at hop
  refine ⟨⟨[], 1, _, rfl, hc⟩, hun, htraced, fun hmeets => ?_⟩
  have := (hmeets 524288 hun).2
  rw [htraced] at this
  cases this

end Immix.Heap
