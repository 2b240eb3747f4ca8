/-
What memory holds when `alloc` hands it out (`try_alloc_from_local`, whose `memset` of the hole is commented out, and
`ImmixSpace::sweep`, which writes line marks only).

The mmapped space starts zeroed, and nothing but the program's stores writes it, so a byte holds what the last store left
there, whatever was allocated or collected since.
- `byteAt_zero_iff`: a byte is zero when the last store to its word left it zero, or there was none.
- `fresh_memory`: the ranges that are zero when they are returned; a byte that is not zero was handed out before and its
  line was freed by a sweep since; an object in a range that is zero has no edge until something is stored in it.
- `stale_reference`: a line is reused, and the slot of the new object still holds the old reference.
-/
import Immix.AllocMap

namespace Immix.Heap

open Immix.Lib

variable {sp : Space} {ops : List Op} {k : ℕ}

/-! ## Stores -/

/-- mutator `m` is between two calls and may store at `w` -/
def CanStore (s : Heap) (m w : ℕ) : Prop := s.crashed = false ∧ m ∈ s.ids ∧ (s.mutator m).pc = .idle ∧ 8 ∣ w

instance (s : Heap) (m w : ℕ) : Decidable (CanStore s m w) := by unfold CanStore; infer_instance

/-- the memory changes only where the program stores -/
theorem step_memory (sp : Space) (s : Heap) (o : Op) :
    (∃ m w value, o = .write m w value ∧ CanStore s m w ∧
      (step sp s o).memory = Function.update s.memory w value) ∨
    ((step sp s o).memory = s.memory ∧ ∀ m w value, o = .write m w value → ¬ CanStore s m w) := by
  cases o with
  | write m w value =>
    by_cases hc : CanStore s m w
    · refine .inl ⟨m, w, value, rfl, hc, ?_⟩
      obtain ⟨hcr, hm, hpc, hdvd⟩ := hc
      unfold step
      rw [if_neg (by simp [hcr])]
      simp only [if_pos (And.intro hm hdvd), hpc]
    · refine .inr ⟨?_, fun m' w' value' heq => by cases heq; exact hc⟩
      unfold step
      simp only
      split_ifs with hcr hif
      · rfl
      · cases hpc : (s.mutator m).pc with
        | idle => exact absurd ⟨by simpa using hcr, hif.1, hpc, hif.2⟩ hc
        | _ => rfl
      · rfl
  | initObject m a encode =>
    refine .inr ⟨?_, nofun⟩
    unfold step
    simp only
    split_ifs <;> [skip; split; skip] <;> rfl
  | _ => exact .inr ⟨(step_frame sp s _ (by simp) (by simp)).2, by simp⟩

/-- operation `k` of the run stores `value` in the word at `w` -/
def StoresAt (sp : Space) (ops : List Op) (k w : ℕ) (value : UInt64) : Prop :=
  ∃ m, ops[k]? = some (.write m w value) ∧ CanStore (before sp ops k) m w

/-- the last store to the word at `w` before operation `k` stored `value` -/
def LastStore (sp : Space) (ops : List Op) (k w : ℕ) (value : UInt64) : Prop :=
  ∃ i < k, StoresAt sp ops i w value ∧ ∀ u, i < u → u < k → ∀ value', ¬ StoresAt sp ops u w value'

theorem memory_event (sp : Space) (ops : List Op) (w k : ℕ) :
    StoresAt sp ops k w ((before sp ops (k + 1)).memory w) ∨
      (∀ v, ¬ StoresAt sp ops k w v) ∧ (before sp ops (k + 1)).memory w = (before sp ops k).memory w := by
  cases ho : ops[k]? with
  | none =>
    refine .inr ⟨fun v ⟨m, hop, _⟩ => ?_, by rw [before_of_none ho]⟩
    rw [ho] at hop
    cases hop
  | some o =>
    rw [before_succ ho]
    rcases step_memory sp (before sp ops k) o with ⟨m, w', value, rfl, hcan, hmem⟩ | ⟨hmem, hno⟩
    · rw [hmem, Function.update_apply]
      by_cases hw : w = w'
      · subst hw
        rw [if_pos rfl]
        exact .inl ⟨m, ho, hcan⟩
      · refine .inr ⟨fun v ⟨m', hop, _⟩ => ?_, if_neg hw⟩
        rw [ho] at hop
        cases hop
        exact hw rfl
    · rw [hmem]
      exact .inr ⟨fun v ⟨m, hop, hcan⟩ => hno m w v (Option.some.inj (ho.symm.trans hop)) hcan, rfl⟩

/-- a word holds what the last store left there, or 0 -/
theorem lastStore_or_never (sp : Space) (ops : List Op) (k w : ℕ) :
    LastStore sp ops k w ((before sp ops k).memory w) ∨
      (before sp ops k).memory w = 0 ∧ ∀ u < k, ∀ v, ¬ StoresAt sp ops u w v :=
  last_event (f := fun k => (before sp ops k).memory w) (memory_event sp ops w) k

theorem StoresAt.unique {w : ℕ} {v v' : UInt64} (h : StoresAt sp ops k w v) (h' : StoresAt sp ops k w v') : v = v' := by
  obtain ⟨m, hop, -⟩ := h
  obtain ⟨m', hop', -⟩ := h'
  rw [hop] at hop'
  cases hop'
  rfl

theorem LastStore.memory {w : ℕ} {v : UInt64} (h : LastStore sp ops k w v) : (before sp ops k).memory w = v := by
  obtain ⟨i, hi, hst, hlast⟩ := h
  rcases lastStore_or_never sp ops k w with ⟨j, hj, hst', hlast'⟩ | ⟨-, hnever⟩
  · rcases lt_trichotomy i j with hij | rfl | hij
    · exact absurd hst' (hlast j hij hj _)
    · exact hst'.unique hst
    · exact absurd hst (hlast' i hij hi v)
  · exact absurd hst (hnever i hi v)

/-! ## Bytes -/

/-- byte `i` of a word, the lowest first -/
def byteOf (value : UInt64) (i : ℕ) : ℕ := value.toNat / 256 ^ i % 256

def byteAt (s : Heap) (x : ℕ) : ℕ := byteOf (s.memory (x / 8 * 8)) (x % 8)

/-- the last store to the word of byte `x`, if any, left the byte zero -/
def LeftZero (sp : Space) (ops : List Op) (k x : ℕ) : Prop :=
  ∀ value, LastStore sp ops k (x / 8 * 8) value → byteOf value (x % 8) = 0

theorem byteAt_zero_iff (sp : Space) (ops : List Op) (k x : ℕ) :
    byteAt (before sp ops k) x = 0 ↔ LeftZero sp ops k x := by
  constructor
  · intro h0 value hlast
    rw [← hlast.memory]
    exact h0
  · intro h
    rcases lastStore_or_never sp ops k (x / 8 * 8) with hlast | ⟨h0, -⟩
    · exact h _ hlast
    · simp [byteAt, byteOf, h0]

/-- a number of `n` bytes, all of them zero -/
theorem eq_zero_of_bytes {n v : ℕ} (hlt : v < 256 ^ n) (h : ∀ i < n, v / 256 ^ i % 256 = 0) : v = 0 := by
  induction n generalizing v with
  | zero => exact Nat.lt_one_iff.1 hlt
  | succ n ih =>
    have hlow : v % 256 = 0 := by simpa using h 0 n.succ_pos
    have hhigh : v / 256 = 0 := by
      apply ih
      · rw [pow_succ'] at hlt
        exact Nat.div_lt_of_lt_mul hlt
      · intro i hi
        have hnext := h (i + 1) (Nat.succ_lt_succ hi)
        rwa [pow_succ', ← Nat.div_div_eq_div_mul] at hnext
    omega

/-- a word whose eight bytes are zero -/
theorem word_zero {value : UInt64} (h : ∀ i < 8, byteOf value i = 0) : value.toNat = 0 := by
  have hlt : value.toNat < 256 ^ 8 := UInt64.toNat_lt value
  exact eq_zero_of_bytes hlt h

/-! ## Ranges -/

/-- the program stores only into ranges it was handed before -/
def StoresInside (sp : Space) (ops : List Op) : Prop :=
  ∀ k w value, StoresAt sp ops k w value →
    ∃ i < k, ∃ r, AllocatedAt sp ops i r ∧ ∀ x, w ≤ x → x < w + 8 → x ∈ bytes r

/-- a byte of an earlier range that is handed out again was freed in between -/
theorem turnsFree_between {i j x : ℕ} (hij : i < j) {r r' : ℕ × ℕ} (hi : AllocatedAt sp ops i r)
    (hj : AllocatedAt sp ops j r') (hx : x ∈ bytes r) (hx' : x ∈ bytes r') :
    ∃ u, i < u ∧ u < j ∧ TurnsFree sp ops u x := by
  by_contra hno
  push Not at hno
  obtain ⟨o, ho, ha⟩ := hi
  obtain ⟨o', ho', ha'⟩ := hj
  have hsafe := safe_of_allocated (inv_run sp ops i) ha
  rw [← before_succ ho] at hsafe
  -- the byte alone is safe, and stays so
  have hone : ∀ y ∈ bytes (x, 1), y = x := by
    intro y hy
    have h1 : x ≤ y := hy.1
    have h2 : y < x + 1 := hy.2
    omega
  have hbyte : Safe (before sp ops (i + 1)) (x, 1) := by
    refine ⟨fun y hy => ?_, fun m y hy => ?_⟩
    · rw [hone y hy]
      exact hsafe.marked x hx
    · rw [hone y hy]
      exact hsafe.outside m x hx
  have hlater := hbyte.until hij fun u h1 h2 y hy => by
    rw [hone y hy]
    exact hno u h1 h2
  have hdisj := hlater.disjoint (inv_run sp ops j) ha'
  exact Set.disjoint_left.1 hdisj (Set.mem_Ico.2 ⟨le_refl x, Nat.lt_succ_self x⟩) hx'

/-- an object in a range whose bytes are zero, and into which nothing is stored, has no edge -/
theorem no_edge_of_zero {n : ℕ} {r : ℕ × ℕ} (hdvd : 8 ∣ r.1) (hzero : ∀ x ∈ bytes r, LeftZero sp ops k x)
    (hkn : k ≤ n) (hno : ∀ j, k ≤ j → j < n → ∀ w value, StoresAt sp ops j w value → w ∉ bytes r) (cpus : ℕ+)
    (hfit : ∀ off ∈ Trace.objSlots ((before sp ops n).env sp cpus) r.1, off + 8 ≤ r.2) (v : ℕ) :
    ¬ Trace.Edge ((before sp ops n).env sp cpus) (before sp ops n).traceMap r.1 v := by
  rintro ⟨off, hoff, rfl, hun⟩
  have hroom := hfit off hoff
  have hoff8 := (slots_aligned (show off ∈ slots _ from hoff)).1
  have hin : r.1 + off ∈ bytes r := by
    refine Set.mem_Ico.2 ⟨by omega, by omega⟩
  -- the word has not been stored to since, so it is still what it was
  have hsame : (before sp ops n).memory (r.1 + off) = (before sp ops k).memory (r.1 + off) := by
    refine before_until (P := fun s => s.memory (r.1 + off) = (before sp ops k).memory (r.1 + off)) hkn rfl ?_
    intro j o h1 h2 ho hj
    rcases memory_event sp ops (r.1 + off) j with hst | ⟨-, heq⟩
    · exact absurd hin (hno j h1 h2 _ _ hst)
    · rw [before_succ ho] at heq
      rw [heq]
      exact hj
  have hword : ((before sp ops k).memory (r.1 + off)).toNat = 0 := by
    apply word_zero
    intro i hi
    have hx : r.1 + off + i ∈ bytes r := Set.mem_Ico.2 ⟨by omega, by omega⟩
    have hbyte := (byteAt_zero_iff sp ops k (r.1 + off + i)).2 (hzero _ hx)
    have hdiv : (r.1 + off + i) / 8 * 8 = r.1 + off := by omega
    have hmod : (r.1 + off + i) % 8 = i := by omega
    rwa [byteAt, hdiv, hmod] at hbyte
  have hslot : Trace.slotValue ((before sp ops n).env sp cpus) r.1 off = 0 := by
    show ((before sp ops n).memory (r.1 + off)).toNat = 0
    rw [hsame, hword]
  rw [hslot] at hun
  -- null is outside the map
  have hinv := inv_run sp ops n
  have htm : (before sp ops n).traceMap.Fits := by
    rw [hinv.traceMap]
    exact sp.traceMap_fits _ _
  have hlo := ((TraceMap.isUntracedAndValid_iff htm (by unfold usize; norm_num)).1 hun).1.1
  rw [hinv.traceMap, Space.traceMap_offset] at hlo
  have := sp.pos
  omega

/-- **Fresh memory.** For every range that `alloc` returns in any run: its bytes are zero exactly when the last store to
each of them, if any, left it zero; when the program stores only into its ranges, a byte that is not zero belongs to an
earlier range and a sweep has turned its line Free since; and when they are zero, an object there has no edge for any
collection until the program stores into the range. -/
theorem fresh_memory (sp : Space) (ops : List Op) (k : ℕ) (r : ℕ × ℕ) (h : AllocatedAt sp ops k r) :
    ((∀ x ∈ bytes r, byteAt (before sp ops k) x = 0) ↔ ∀ x ∈ bytes r, LeftZero sp ops k x) ∧
    (StoresInside sp ops → ∀ x ∈ bytes r, ¬ LeftZero sp ops k x →
      ∃ i < k, ∃ r', AllocatedAt sp ops i r' ∧ x ∈ bytes r' ∧ ∃ u, i < u ∧ u < k ∧ TurnsFree sp ops u x) ∧
    (8 ∣ r.1 → (∀ x ∈ bytes r, LeftZero sp ops k x) → ∀ n, k ≤ n →
      (∀ j, k ≤ j → j < n → ∀ w value, StoresAt sp ops j w value → w ∉ bytes r) → ∀ cpus,
      (∀ off ∈ Trace.objSlots ((before sp ops n).env sp cpus) r.1, off + 8 ≤ r.2) → ∀ v,
        ¬ Trace.Edge ((before sp ops n).env sp cpus) (before sp ops n).traceMap r.1 v) := by
  refine ⟨forall₂_congr fun x _ => byteAt_zero_iff sp ops k x, fun hinside x hx hleft => ?_, ?_⟩
  · unfold LeftZero at hleft
    push Not at hleft
    obtain ⟨value, ⟨j, hj, hst, -⟩, -⟩ := hleft
    obtain ⟨i, hi, r', halloc, hword⟩ := hinside j _ value hst
    have hx' : x ∈ bytes r' := hword x (Nat.div_mul_le_self x 8) (by omega)
    exact ⟨i, by omega, r', halloc, hx', turnsFree_between (by omega) halloc h hx' hx⟩
  · intro hdvd hzero n hkn hno cpus hfit v
    exact no_edge_of_zero hdvd hzero hkn hno cpus hfit v

/-! ## Runs -/

/-- two objects, the first with a reference to the second, are swept; the first one's line is handed out again, and an
object is initialised there -/
def staleSlot : List Op :=
  .new 0 :: allocLine ++ [.alloc 0 lineLayout, .tick 0, .initObject 0 524288 0xC1, .initObject 0 524544 0xC1,
    .write 0 524288 524544, .stop 0, .gc [] 1 (List.replicate 10 (0, 0)), .resume 0] ++ allocLine ++
    [.initObject 0 524288 0xC1]

theorem staleSlot_stores {k w : ℕ} {value : UInt64} (h : StoresAt .oneBlock staleSlot k w value) :
    k = 13 ∧ w = 524288 ∧ value = 524544 := by
  obtain ⟨m, hop, -⟩ := h
  have hk : k < 26 := (List.getElem?_eq_some_iff.1 hop).1
  interval_cases k <;> simp [staleSlot, allocLine] at hop ⊢
  exact ⟨hop.2.1.symm, hop.2.2.symm⟩

/-- memory handed out for the first time is zero -/
theorem fresh_memory_staleSlot : byteAt (before .oneBlock staleSlot 8) 524288 = 0 := by
  have hrun : (before .oneBlock staleSlot 8).allocated (.tick 0) = some (524288, 256) := by decide +kernel
  have hbytes := (fresh_memory .oneBlock staleSlot 8 (524288, 256) ⟨.tick 0, rfl, hrun⟩).1.2
  refine hbytes (fun x _ value hlast => ?_) 524288 (Set.mem_Ico.2 (by norm_num))
  obtain ⟨i, hi, hst, -⟩ := hlast
  obtain ⟨rfl, -⟩ := staleSlot_stores hst
  exact absurd hi (by norm_num)

/-- **A stale reference.** The line is returned a second time with the old reference in it; nothing is stored in it
since, and the object initialised there has an edge. -/
theorem stale_reference :
    StoresInside .oneBlock staleSlot ∧ AllocatedAt .oneBlock staleSlot 24 (524288, 256) ∧
      byteAt (before .oneBlock staleSlot 24) 524289 = 1 ∧
      (∀ j, 24 ≤ j → ∀ w value, ¬ StoresAt .oneBlock staleSlot j w value) ∧
      InitAt .oneBlock staleSlot 25 524288 0xC1 ∧
      Trace.Edge ((before .oneBlock staleSlot 26).env .oneBlock 1) (before .oneBlock staleSlot 26).traceMap 524288
        524544 := by
  have hrun : (before .oneBlock staleSlot 8).allocated (.tick 0) = some (524288, 256) ∧
      (before .oneBlock staleSlot 24).allocated (.tick 0) = some (524288, 256) ∧
      byteAt (before .oneBlock staleSlot 24) 524289 = 1 ∧
      CanInit .oneBlock (before .oneBlock staleSlot 25) 0 524288 ∧
      Trace.objSlots ((before .oneBlock staleSlot 26).env .oneBlock 1) 524288 = [0] ∧
      Trace.slotValue ((before .oneBlock staleSlot 26).env .oneBlock 1) 524288 0 = 524544 ∧
      (before .oneBlock staleSlot 26).traceMap.isUntracedAndValid 524544 = true := by decide +kernel
  obtain ⟨hfirst, hagain, hbyte, hinit, hslots, hvalue, huntraced⟩ := hrun
  refine ⟨fun k w value hst => ?_, ⟨.tick 0, rfl, hagain⟩, hbyte, fun j hj w value hst => ?_, ⟨0, rfl, hinit⟩, 0, ?_,
    hvalue.symm, huntraced⟩
  · obtain ⟨rfl, rfl, -⟩ := staleSlot_stores hst
    exact ⟨8, by norm_num, (524288, 256), ⟨.tick 0, rfl, hfirst⟩, fun x h1 h2 => Set.mem_Ico.2 ⟨h1, by omega⟩⟩
  · obtain ⟨rfl, -⟩ := staleSlot_stores hst
    exact absurd hj (by norm_num)
  · rw [hslots]
    exact List.mem_singleton_self 0

end Immix.Heap
