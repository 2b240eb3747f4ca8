/-
The allocation map over whole runs. `init_object` is its only writer: collections leave it as it is ("these maps are
writable at allocation, read-only at collection"), so the start bit of a granule outlives the object.

- `lastInit_iff`: the byte of a granule is the encoding of the last `init_object` there.
- `start_bit_survives_sweep`: a run in which the start bit of an object is still set after a sweep has freed its line.
- `alloc_map_invariant`: what the start bit does say, and what `is_valid_object` accepts.
-/
import Immix.NoOverlap

namespace Immix.Heap

open Immix.Lib

variable {sp : Space} {s : Heap} {o : Op} {ops : List Op}

/-- mutator `m` is between two calls and may initialise an object at `a` -/
def CanInit (sp : Space) (s : Heap) (m a : ℕ) : Prop :=
  s.crashed = false ∧ m ∈ s.ids ∧ (s.mutator m).pc = .idle ∧ sp.start ≤ a ∧ a < sp.stop

instance (sp : Space) (s : Heap) (m a : ℕ) : Decidable (CanInit sp s m a) := by unfold CanInit; infer_instance

/-- only `init_object` writes the map and only the program's stores write the memory -/
theorem step_frame (sp : Space) (s : Heap) (o : Op) (hinit : ∀ m a encode, o ≠ .initObject m a encode)
    (hwrite : ∀ m a value, o ≠ .write m a value) :
    (step sp s o).allocMap = s.allocMap ∧ (step sp s o).memory = s.memory := by
  unfold step
  split_ifs with hcr
  · exact ⟨rfl, rfl⟩
  cases o with
  | initObject m a encode => exact absurd rfl (hinit m a encode)
  | write m a value => exact absurd rfl (hwrite m a value)
  | new m => simp only; split_ifs <;> exact ⟨rfl, rfl⟩
  | alloc m layout => simp only; split_ifs <;> [split; skip] <;> exact ⟨rfl, rfl⟩
  | tick m =>
    simp only
    split_ifs
    · unfold Heap.tick
      cases (s.mutator m).pc with
      | alloc layout => simp only; cases (s.mutator m).loc.bump layout <;> exact ⟨rfl, rfl⟩
      | tryAllocFromLocal layout =>
        simp only
        cases (s.mutator m).loc.tryAllocFromLocal s.lines <;> exact ⟨rfl, rfl⟩
      | loop layout => simp only; cases s.usable <;> exact ⟨rfl, rfl⟩
      | _ => exact ⟨rfl, rfl⟩
    · exact ⟨rfl, rfl⟩
  | stop m => simp only; split_ifs <;> [(unfold Heap.stop; split); skip] <;> exact ⟨rfl, rfl⟩
  | gc roots cpus schedule => simp only; unfold Heap.gc; split_ifs <;> exact ⟨rfl, rfl⟩
  | resume m => simp only; split_ifs <;> [(unfold Heap.resume; split); skip] <;> exact ⟨rfl, rfl⟩
  | destroy m => simp only; split_ifs <;> [(unfold Heap.destroy; split); skip] <;> exact ⟨rfl, rfl⟩

/-- the map changes only where an object is initialised -/
theorem step_allocMap (sp : Space) (s : Heap) (o : Op) :
    (∃ m a encode, o = .initObject m a encode ∧ CanInit sp s m a ∧
      (step sp s o).allocMap = initObject s.allocMap sp.start a encode) ∨
    ((step sp s o).allocMap = s.allocMap ∧ ∀ m a encode, o = .initObject m a encode → ¬ CanInit sp s m a) := by
  cases o with
  | initObject m a encode =>
    by_cases hc : CanInit sp s m a
    · refine .inl ⟨m, a, encode, rfl, hc, ?_⟩
      obtain ⟨hcr, hm, hpc, hspace⟩ := hc
      unfold step
      rw [if_neg (by simp [hcr])]
      simp only [if_pos (And.intro hm hspace), hpc]
    · refine .inr ⟨?_, fun m' a' encode' heq => by cases heq; exact hc⟩
      unfold step
      simp only
      split_ifs with hcr hif
      · rfl
      · cases hpc : (s.mutator m).pc with
        | idle => exact absurd ⟨by simpa using hcr, hif.1, hpc, hif.2⟩ hc
        | _ => rfl
      · rfl
  | write m a value =>
    refine .inr ⟨?_, nofun⟩
    unfold step
    simp only
    split_ifs <;> [skip; split; skip] <;> rfl
  | _ => exact .inr ⟨(step_frame sp s _ (by simp) (by simp)).1, by simp⟩

/-- operation `k` of the run initialises an object at `a` -/
def InitAt (sp : Space) (ops : List Op) (k a : ℕ) (encode : UInt8) : Prop :=
  ∃ m, ops[k]? = some (.initObject m a encode) ∧ CanInit sp (before sp ops k) m a

/-- the last object initialised in granule `g` before operation `k` has this encoding -/
def LastInit (sp : Space) (ops : List Op) (k g : ℕ) (encode : UInt8) : Prop :=
  ∃ i < k, ∃ a, InitAt sp ops i a encode ∧ granule sp.start a = g ∧
    ∀ u, i < u → u < k → ∀ a' encode', InitAt sp ops u a' encode' → granule sp.start a' ≠ g

/-- no object has been initialised in granule `g` before operation `k` -/
def NeverInit (sp : Space) (ops : List Op) (k g : ℕ) : Prop :=
  ∀ u < k, ∀ a encode, InitAt sp ops u a encode → granule sp.start a ≠ g

theorem before_of_none {k : ℕ} (h : ops[k]? = none) : before sp ops (k + 1) = before sp ops k := by
  have hlen := List.getElem?_eq_none_iff.1 h
  unfold before
  rw [stateAt_of_le _ _ hlen, stateAt_of_le _ _ (by omega : ops.length ≤ k + 1)]

/-- the cell of granule `g` is written at the objects initialised there -/
theorem allocMap_event (sp : Space) (ops : List Op) (g k : ℕ) :
    (∃ a, InitAt sp ops k a ((before sp ops (k + 1)).allocMap g) ∧ granule sp.start a = g) ∨
      (∀ v, ¬ ∃ a, InitAt sp ops k a v ∧ granule sp.start a = g) ∧
        (before sp ops (k + 1)).allocMap g = (before sp ops k).allocMap g := by
  cases ho : ops[k]? with
  | none =>
    refine .inr ⟨fun v ⟨a, ⟨m, hop, _⟩, _⟩ => ?_, by rw [before_of_none ho]⟩
    rw [ho] at hop
    cases hop
  | some o =>
    rw [before_succ ho]
    rcases step_allocMap sp (before sp ops k) o with ⟨m, a, encode, rfl, hcan, hmap⟩ | ⟨hmap, hno⟩
    · rw [hmap, initObject_apply]
      by_cases hg : granule sp.start a = g
      · rw [if_pos hg.symm]
        exact .inl ⟨a, ⟨m, ho, hcan⟩, hg⟩
      · refine .inr ⟨fun v ⟨a', ⟨m', hop, _⟩, hg'⟩ => ?_, if_neg fun h => hg h.symm⟩
        rw [ho] at hop
        cases hop
        exact hg hg'
    · rw [hmap]
      refine .inr ⟨fun v ⟨a, ⟨m, hop, hcan⟩, _⟩ => ?_, rfl⟩
      exact hno m a v (Option.some.inj (ho.symm.trans hop)) hcan

theorem lastInit_or_never (sp : Space) (ops : List Op) (k g : ℕ) :
    LastInit sp ops k g ((before sp ops k).allocMap g) ∨ (before sp ops k).allocMap g = 0 ∧ NeverInit sp ops k g := by
  rcases last_event (f := fun k => (before sp ops k).allocMap g)
    (E := fun k v => ∃ a, InitAt sp ops k a v ∧ granule sp.start a = g) (allocMap_event sp ops g) k with
    ⟨i, hi, ⟨a, hinit, hg⟩, hlast⟩ | ⟨h0, hnever⟩
  · exact .inl ⟨i, hi, a, hinit, hg, fun u h1 h2 a' encode' h' hg' => hlast u h1 h2 encode' ⟨a', h', hg'⟩⟩
  · exact .inr ⟨h0, fun u hu a encode h' hg' => hnever u hu encode ⟨a, h', hg'⟩⟩

/-- **The byte of a granule** is the encoding the last `init_object` there was given. -/
theorem lastInit_iff {k g : ℕ} {encode : UInt8} (hne : encode ≠ 0) :
    (before sp ops k).allocMap g = encode ↔ LastInit sp ops k g encode := by
  constructor
  · rintro rfl
    rcases lastInit_or_never sp ops k g with h | ⟨h, -⟩
    · exact h
    · exact absurd h hne
  · rintro ⟨i, hi, a, hinit, hg, hlast⟩
    rcases lastInit_or_never sp ops k g with ⟨j, hj, a', hinit', hg', hlast'⟩ | ⟨-, hnever⟩
    · -- both are the last one
      have hij : i = j := by
        rcases lt_trichotomy i j with h | h | h
        · exact absurd hg' (hlast j h hj a' _ hinit')
        · exact h
        · exact absurd hg (hlast' i h hi a _ hinit)
      subst hij
      obtain ⟨m, hop, -⟩ := hinit
      obtain ⟨m', hop', -⟩ := hinit'
      rw [hop] at hop'
      cases hop'
      rfl
    · exact absurd hg (hnever i hi a encode hinit)

/-- **What the start bit says.** In every state of every run: a granule whose byte has the start bit has had an object
initialised in it, and the byte is the encoding of the last one, whatever collections did since; `is_valid_object`
accepts exactly the words of the space in such granules; and until a sweep turns a line of an allocated range Free, no
byte of it is handed out again. -/
theorem alloc_map_invariant (sp : Space) (ops : List Op) (k : ℕ) :
    (∀ g, objStart ((before sp ops k).allocMap g) = true → LastInit sp ops k g ((before sp ops k).allocMap g)) ∧
    (∀ w, isValidObject w sp.start sp.stop ⟨sp.start, sp.stop, (before sp ops k).allocMap⟩ = true ↔
      sp.start ≤ w ∧ w < sp.stop ∧ ∃ encode, objStart encode = true ∧ LastInit sp ops k (granule sp.start w) encode) ∧
    (∀ i j r r', i < j → AllocatedAt sp ops i r → AllocatedAt sp ops j r' →
      (∀ u, i < u → u < j → ∀ x ∈ bytes r, ¬ TurnsFree sp ops u x) → Disjoint (bytes r) (bytes r')) := by
  have hne : ∀ encode : UInt8, objStart encode = true → encode ≠ 0 := by
    rintro encode h rfl
    exact absurd h (by decide)
  refine ⟨fun g hg => (lastInit_iff (hne _ hg)).1 rfl, fun w => ?_, fun i j r r' hij hi hj hkeep =>
    allocated_disjoint hij hi hj hkeep⟩
  rw [isValidObject_iff]
  refine and_congr_right fun _ => and_congr_right fun _ => ⟨fun h => ⟨_, h, (lastInit_iff (hne _ h)).1 rfl⟩, ?_⟩
  rintro ⟨encode, hstart, hlast⟩
  have := (lastInit_iff (hne _ hstart)).2 hlast
  simpa only [this] using hstart

/-- an object is allocated and initialised, a collection without roots frees its line, and the line is allocated again -/
def reuse : List Op :=
  .new 0 :: allocLine ++ [.initObject 0 524288 0xC1, .stop 0, .gc [] 1 (List.replicate 10 (0, 0)), .resume 0] ++ allocLine

/-- after this run the byte of the granule still has its start bit, and `is_valid_object` accepts the address, although
the only object initialised in the run has lost its line to a sweep and its bytes to another allocation -/
theorem start_bit_survives_sweep :
    objStart ((before Space.oneBlock reuse 21).allocMap 0) = true ∧
    isValidObject 524288 Space.oneBlock.start Space.oneBlock.stop
      ⟨Space.oneBlock.start, Space.oneBlock.stop, (before Space.oneBlock reuse 21).allocMap⟩ = true ∧
    ∀ i < 21, ∀ a encode, InitAt Space.oneBlock reuse i a encode →
      (∃ u, i < u ∧ u < 21 ∧ TurnsFree Space.oneBlock reuse u a) ∧
      ∃ j r, i < j ∧ j < 21 ∧ AllocatedAt Space.oneBlock reuse j r ∧ a ∈ bytes r := by
  -- one evaluation of the run for all facts about it
  have hrun : objStart ((before Space.oneBlock reuse 21).allocMap 0) = true ∧
      isValidObject 524288 Space.oneBlock.start Space.oneBlock.stop
        ⟨Space.oneBlock.start, Space.oneBlock.stop, (before Space.oneBlock reuse 21).allocMap⟩ = true ∧
      (before Space.oneBlock reuse 11).Collects Space.oneBlock [] 1 (List.replicate 10 (0, 0)) ∧
      (before Space.oneBlock reuse 11).mark 524288 ≠ .free ∧ (before Space.oneBlock reuse 12).mark 524288 = .free ∧
      (before Space.oneBlock reuse 20).allocated (.tick 0) = some (524288, 256) := by decide +kernel
  obtain ⟨hbit, hvalid, hcollects, hmarked, hfree, halloc⟩ := hrun
  refine ⟨hbit, hvalid, ?_⟩
  rintro i hi a encode ⟨m, hop, -⟩
  have hreuse : i = 9 ∧ a = 524288 := by
    interval_cases i <;> simp [reuse, allocLine] at hop ⊢
    exact hop.2.1.symm
  obtain ⟨rfl, rfl⟩ := hreuse
  refine ⟨⟨11, by norm_num, by norm_num, ⟨[], 1, _, rfl, hcollects⟩, hmarked, hfree⟩,
    20, (524288, 256), by norm_num, by norm_num, ⟨.tick 0, rfl, halloc⟩, ?_⟩
  simp [bytes]

end Immix.Heap
