/-
Allocations never overlap until a sweep frees their lines.

`Safe s r`: the lines of the range `r` are not Free, and no bump region has a byte of it. A range is safe when it is
returned (`safe_of_allocated`), stays safe until a sweep frees one of its lines (`Safe.until`), and no allocation touches
a safe range (`Safe.disjoint`).
- `step_kept`: what a step that is not a collection does to the tables, the bump regions and the blocks held.
- `allocated_disjoint`: two allocations are disjoint if no collection between them frees a line of the first.
- `no_overlap_between_collections`: between collections all allocations are disjoint, and they avoid the lines that were
  live when their block was taken.
-/
import Immix.Heap

namespace Immix.Heap

open Immix.Lib

/-! ## What a step changes -/

/-- the bytes `[r.1, r.1 + r.2)` -/
def bytes (r : ℕ × ℕ) : Set ℕ := Set.Ico r.1 (r.1 + r.2)

/-- `x` lies in the bump region of mutator `m` -/
def Region (s : Heap) (m x : ℕ) : Prop :=
  m ∈ s.ids ∧ (s.mutator m).pc.active = true ∧ (s.mutator m).loc.cursor ≤ x ∧ x < (s.mutator m).loc.limit

def Owns (s : Heap) (m : ℕ) (b : ImmixBlock) : Prop := m ∈ s.ids ∧ (s.mutator m).loc.block = some b

/-- the operation takes block `b` from the usable queue for mutator `m` -/
def Takes (s : Heap) (o : Op) (m : ℕ) (b : ImmixBlock) : Prop :=
  o = .tick m ∧ s.crashed = false ∧ m ∈ s.ids ∧ (∃ layout, (s.mutator m).pc = .loop layout) ∧ s.usable.head? = some b

def mark (s : Heap) (x : ℕ) : LineMark := s.lines.get (s.lines.lineOf x)

/-- what a step that is not a collection leaves as it was -/
structure Kept (s : Heap) (o : Op) (s' : Heap) : Prop where
  traceMap : s'.traceMap = s.traceMap
  lines : ∀ j, s'.lines.get j = s.lines.get j ∨ s.lines.get j = .free ∧ s'.lines.get j = .freshAlloc
  region : ∀ m x, Region s' m x → Region s m x ∨ s.mark x = .free
  owns : ∀ m b, Owns s' m b → Owns s m b ∨ Takes s o m b

variable {sp : Space} {s : Heap} {o : Op}

theorem Kept.refl (s : Heap) (o : Op) : Kept s o s :=
  ⟨rfl, fun _ => .inl rfl, fun _ _ h => .inl h, fun _ _ h => .inl h⟩

/-- a step that changes one mutator, which gains neither a byte in its bump region nor a block -/
theorem Kept.setMutator {m : ℕ} (hm : m ∈ s.ids) {x : Mutator} {s' : Heap} (htm : s'.traceMap = s.traceMap)
    (hl : s'.lines = s.lines) (hids : ∀ n ∈ s'.ids, n ∈ s.ids) (hmut : s'.mutator = Function.update s.mutator m x)
    (hregion : x.pc.active = true → ∀ y, x.loc.cursor ≤ y → y < x.loc.limit → Region s m y)
    (howns : ∀ b, x.loc.block = some b → (s.mutator m).loc.block = some b) : Kept s o s' := by
  refine ⟨htm, fun j => .inl (by rw [hl]), fun n y hy => .inl ?_, fun n b hb => .inl ?_⟩
  · obtain ⟨h1, h2, h3, h4⟩ := hy
    rw [hmut] at h2 h3 h4
    by_cases hnm : n = m
    · subst hnm
      rw [Function.update_self] at h2 h3 h4
      exact hregion h2 y h3 h4
    · rw [Function.update_of_ne hnm] at h2 h3 h4
      exact ⟨hids n h1, h2, h3, h4⟩
  · obtain ⟨h1, h2⟩ := hb
    rw [hmut] at h2
    by_cases hnm : n = m
    · subst hnm
      rw [Function.update_self] at h2
      exact ⟨hm, howns b h2⟩
    · rw [Function.update_of_ne hnm] at h2
      exact ⟨hids n h1, h2⟩

theorem kept_tick (h : Inv sp s) {m : ℕ} (hm : m ∈ s.ids) (hcr : s.crashed = false) : Kept s (.tick m) (s.tick m) := by
  unfold Heap.tick
  cases hpc : (s.mutator m).pc with
  | alloc layout =>
    have hact : (s.mutator m).pc.active = true := by rw [hpc]; rfl
    simp only
    cases hb : (s.mutator m).loc.bump layout with
    | none => exact Kept.setMutator hm rfl rfl (fun _ => id) rfl (fun _ y h1 h2 => ⟨hm, hact, h1, h2⟩) fun _ => id
    | some r =>
      obtain ⟨h1, -, -, hr⟩ := bump_spec (h.cursor_le hm hact) hb
      refine Kept.setMutator hm rfl rfl (fun _ => id) rfl (fun _ y hy1 hy2 => ?_) (by simp [hr])
      simp only [hr] at hy1 hy2
      exact ⟨hm, hact, by omega, hy2⟩
  | tryAllocFromLocal layout =>
    have hact : (s.mutator m).pc.active = true := by rw [hpc]; rfl
    simp only
    cases hl : (s.mutator m).loc.tryAllocFromLocal s.lines with
    | none => exact Kept.setMutator hm rfl rfl (fun _ => id) rfl (by rintro ⟨⟩) fun _ => id
    | panicked => exact absurd hl (h.shape m hm hact).not_panicked
    | hole loc lines =>
      obtain ⟨b, hb⟩ := tryAllocFromLocal_block hl
      obtain ⟨k, hk, rfl⟩ := h.block_eq hm hb
      obtain ⟨i, j, -, hij, hj, hfree, rfl, rfl⟩ := tryAllocFromLocal_hole hb rfl hl
      refine ⟨rfl, fun n => ?_, fun n y hy => ?_, fun n c hc => .inl ?_⟩
      · simp only
        rw [get_freshen_block hk h.lines_len hj]
        split_ifs with hn
        · refine .inr ⟨?_, rfl⟩
          have := hfree (n - k * 256) (by omega) (by omega)
          simp only [LineMarkTableSlice.get, Space.block] at this
          rwa [show k * 256 + (n - k * 256) = n by omega] at this
        · exact .inl rfl
      · obtain ⟨h1, h2, h3, h4⟩ := hy
        by_cases hnm : n = m
        · -- the new bump region is the hole, whose lines were Free
          subst hnm
          simp only [setMutator_mutator, Function.update_self] at h3 h4
          have hy : (sp.block k).Has y := by unfold ImmixBlock.Has; omega
          obtain ⟨hline, hlt⟩ := lineOf_block h.spaceStart hy
          right
          rw [mark, hline]
          exact hfree _ (by omega) (by omega)
        · simp only [setMutator_mutator, Function.update_of_ne hnm] at h2 h3 h4
          exact .inl ⟨h1, h2, h3, h4⟩
      · obtain ⟨h1, h2⟩ := hc
        by_cases hnm : n = m
        · subst hnm
          simp only [setMutator_mutator, Function.update_self] at h2
          exact ⟨hm, by rw [hb]; exact h2⟩
        · simp only [setMutator_mutator, Function.update_of_ne hnm] at h2
          exact ⟨h1, h2⟩
  | allocFromGlobal layout => exact Kept.setMutator hm rfl rfl (fun _ => id) rfl (by rintro ⟨⟩) (by simp)
  | loop layout =>
    simp only
    cases hu : s.usable with
    | nil => exact .refl s _
    | cons b usable =>
      refine ⟨rfl, fun _ => .inl rfl, fun n y hy => ?_, fun n c hc => ?_⟩
      · obtain ⟨h1, h2, h3, h4⟩ := hy
        by_cases hnm : n = m
        · subst hnm
          simp only [setMutator_mutator, Function.update_self, ImmixMutatorLocal.useBlock] at h3 h4
          omega
        · simp only [setMutator_mutator, Function.update_of_ne hnm] at h2 h3 h4
          exact .inl ⟨h1, h2, h3, h4⟩
      · obtain ⟨h1, h2⟩ := hc
        by_cases hnm : n = m
        · subst hnm
          simp only [setMutator_mutator, Function.update_self, ImmixMutatorLocal.useBlock] at h2
          exact .inr ⟨rfl, hcr, hm, ⟨layout, hpc⟩, by rw [hu]; exact h2⟩
        · simp only [setMutator_mutator, Function.update_of_ne hnm] at h2
          exact .inl ⟨h1, h2⟩
  | _ => exact .refl s _

/-- the operation is no collection, or one that is not carried out -/
def Mutates (sp : Space) (s : Heap) (o : Op) : Prop :=
  ∀ roots cpus schedule, o = .gc roots cpus schedule → ¬ s.Collects sp roots cpus schedule

/-- **What a step that is not a collection keeps.** -/
theorem step_kept (h : Inv sp s) (hmut : Mutates sp s o) : Kept s o (step sp s o) := by
  unfold step
  split_ifs with hcr
  · exact .refl s o
  have hcr : s.crashed = false := by simpa using hcr
  cases o with
  | new m =>
    simp only
    split_ifs with hm
    · exact .refl s _
    · -- a new mutator has an empty bump region and no block
      refine ⟨rfl, fun _ => .inl rfl, fun n y hy => .inl ?_, fun n b hb => .inl ?_⟩
      · obtain ⟨h1, h2, h3, h4⟩ := hy
        by_cases hnm : n = m
        · subst hnm
          simp only [setMutator_mutator, Function.update_self, ImmixMutatorLocal.new] at h4
          omega
        · simp only [setMutator_mutator, Function.update_of_ne hnm] at h2 h3 h4
          exact ⟨List.mem_of_ne_of_mem hnm h1, h2, h3, h4⟩
      · obtain ⟨h1, h2⟩ := hb
        by_cases hnm : n = m
        · subst hnm
          simp only [setMutator_mutator, Function.update_self, ImmixMutatorLocal.new] at h2
          cases h2
        · simp only [setMutator_mutator, Function.update_of_ne hnm] at h2
          exact ⟨List.mem_of_ne_of_mem hnm h1, h2⟩
  | alloc m layout =>
    simp only
    split_ifs with hm
    · split
      · rename_i hpc
        exact Kept.setMutator hm rfl rfl (fun _ => id) rfl (fun _ y h1 h2 => ⟨hm, by rw [hpc]; rfl, h1, h2⟩) fun _ => id
      · exact .refl s _
    · exact .refl s _
  | tick m => simp only; split_ifs with hm; exacts [kept_tick h hm hcr, .refl s _]
  | stop m =>
    simp only
    split_ifs with hm
    · unfold Heap.stop
      split
      · exact Kept.setMutator hm rfl rfl (fun _ => id) rfl (by rintro ⟨⟩) (by simp)
      · exact Kept.setMutator hm rfl rfl (fun _ => id) rfl (by rintro ⟨⟩) (by simp)
      · exact .refl s _
    · exact .refl s _
  | gc roots cpus schedule =>
    simp only
    unfold Heap.gc
    rw [if_neg fun hc => hmut roots cpus schedule rfl ⟨hcr, hc.1, hc.2⟩]
    exact .refl s _
  | resume m =>
    simp only
    split_ifs with hm
    · unfold Heap.resume
      split
      · exact Kept.setMutator hm rfl rfl (fun _ => id) rfl (fun _ y _ h2 => absurd h2 (Nat.not_lt_zero y))
          (by rintro c ⟨⟩)
      · exact Kept.setMutator hm rfl rfl (fun _ => id) rfl (by rintro ⟨⟩) (by rintro c ⟨⟩)
      · exact .refl s _
    · exact .refl s _
  | destroy m =>
    simp only
    split_ifs with hm
    · unfold Heap.destroy
      split
      · exact Kept.setMutator hm (x := s.mutator m) rfl rfl (fun n hn => (List.mem_filter.1 hn).1)
          (Function.update_eq_self m s.mutator).symm (fun h1 y h2 h3 => ⟨hm, h1, h2, h3⟩) fun _ => id
      · exact .refl s _
    · exact .refl s _
  | initObject m addr encode =>
    simp only
    split_ifs with hm
    · split
      · exact ⟨rfl, fun _ => .inl rfl, fun _ _ h => .inl h, fun _ _ h => .inl h⟩
      · exact .refl s _
    · exact .refl s _
  | write m addr value =>
    simp only
    split_ifs with hm
    · split
      · exact ⟨rfl, fun _ => .inl rfl, fun _ _ h => .inl h, fun _ _ h => .inl h⟩
      · exact .refl s _
    · exact .refl s _

theorem step_collect {roots : List ℕ} {cpus : ℕ+} {schedule : List (ℕ × ℕ)} (hc : s.Collects sp roots cpus schedule) :
    step sp s (.gc roots cpus schedule) = s.collect sp (s.startTrace sp roots cpus schedule) := by
  unfold step
  rw [if_neg (by simp [hc.1])]
  exact if_pos hc.2

/-- nobody has a bump region or a block when a collection ends -/
theorem collect_region (hstop : s.AllStopped) (t : Trace.St) (m x : ℕ) : ¬ Region (s.collect sp t) m x := by
  rintro ⟨hm, hact, -⟩
  have := hstop m hm
  simp only [collect] at hact
  cases hpc : (s.mutator m).pc <;> rw [hpc] at this hact <;> cases this
  cases hact

theorem collect_owns (h : Inv sp s) (hstop : s.AllStopped) (t : Trace.St) (m : ℕ) (b : ImmixBlock) :
    ¬ Owns (s.collect sp t) m b := by
  rintro ⟨hm, hb⟩
  have hnone := h.returned m hm (MutPc.returned_of_isStopped (hstop m hm))
  simp only [collect] at hb
  rw [hnone] at hb; cases hb

theorem mark_congr (h : Inv sp s) {s' : Heap} (h' : Inv sp s') (x : ℕ) : s'.mark x = s'.lines.get (s.lines.lineOf x) := by
  rw [mark, Trace.lineOf_congr (h'.spaceStart.trans h.spaceStart.symm)]

/-! ## Safe ranges -/

/-- **A safe range.** None of its lines is Free, and no bump region has a byte of it. -/
structure Safe (s : Heap) (r : ℕ × ℕ) : Prop where
  marked : ∀ x ∈ bytes r, s.mark x ≠ .free
  outside : ∀ m, ∀ x ∈ bytes r, ¬ Region s m x

/-- what `alloc` returns lies in the mutator's bump region, which it leaves behind -/
theorem allocated_spec (h : Inv sp s) {r : ℕ × ℕ} (ha : s.allocated o = some r) :
    ∃ m layout loc, o = .tick m ∧ m ∈ s.ids ∧ s.crashed = false ∧ (s.mutator m).pc = .alloc layout ∧
      (s.mutator m).loc.cursor ≤ r.1 ∧ r.1 + r.2 ≤ (s.mutator m).loc.limit ∧ layout.align ∣ r.1 ∧ r.2 = layout.size ∧
      loc = { (s.mutator m).loc with cursor := r.1 + r.2 } ∧ step sp s o = s.setMutator m ⟨loc, .idle⟩ := by
  cases o with
  | tick m =>
    unfold allocated at ha
    simp only at ha
    split_ifs at ha with hif
    split at ha
    · rename_i layout hpc
      obtain ⟨⟨a, loc⟩, hb, rfl⟩ := Option.map_eq_some_iff.1 ha
      obtain ⟨h1, h2, h3, h4⟩ := bump_spec (h.cursor_le hif.2 (by rw [hpc]; rfl)) hb
      refine ⟨m, layout, loc, rfl, hif.2, hif.1, hpc, h1, h2, h3, rfl, h4, ?_⟩
      simp only [step, hif.1, hif.2, Heap.tick, hpc, hb]
      rfl
    · cases ha
  | _ => cases ha

theorem safe_of_allocated (h : Inv sp s) {r : ℕ × ℕ} (ha : s.allocated o = some r) : Safe (step sp s o) r := by
  have h' := inv_step sp s o h
  obtain ⟨m, layout, loc, -, hm, -, hpc, h1, h2, -, -, hloc, hs⟩ := allocated_spec h ha
  have hact : (s.mutator m).pc.active = true := by rw [hpc]; rfl
  have hin : ∀ x ∈ bytes r, Region s m x := fun x hx => ⟨hm, hact, le_trans h1 hx.1, lt_of_lt_of_le hx.2 h2⟩
  refine ⟨fun x hx => ?_, fun n x hx hreg => ?_⟩
  · rw [mark_congr h h', hs]
    have := (h.shape m hm hact).fresh x (hin x hx).2.2.1 (hin x hx).2.2.2
    simp only [Heap.setMutator]
    rw [this]
    rintro ⟨⟩
  · rw [hs] at hreg
    obtain ⟨hn, hn2, hn3, hn4⟩ := hreg
    by_cases hnm : n = m
    · subst hnm
      simp only [setMutator_mutator, Function.update_self, hloc] at hn3
      exact absurd hx.2 (not_lt.2 hn3)
    · -- two bump regions with a common byte are of one mutator
      simp only [setMutator_mutator, Function.update_of_ne hnm] at hn2 hn3 hn4
      obtain ⟨-, -, hm3, hm4⟩ := hin x hx
      have hsn := h.shape n hn hn2
      have hsm := h.shape m hm hact
      obtain ⟨b, hb⟩ := hsm.block_of_lt (by omega)
      obtain ⟨c, hc⟩ := hsn.block_of_lt (by omega)
      obtain ⟨i, -, rfl⟩ := h.block_eq hm hb
      obtain ⟨j, -, rfl⟩ := h.block_eq hn hc
      have hij := block_eq_of_has (hsm.has hb hm3 hm4) (hsn.has hc hn3 hn4)
      subst hij
      exact hnm (h.owner n hn m hm _ hc hb)

/-- no allocation touches a safe range -/
theorem Safe.disjoint (h : Inv sp s) {r r' : ℕ × ℕ} (hs : Safe s r) (ha : s.allocated o = some r') :
    Disjoint (bytes r) (bytes r') := by
  obtain ⟨m, layout, loc, -, hm, -, hpc, h1, h2, -⟩ := allocated_spec h ha
  rw [Set.disjoint_left]
  intro x hx hx'
  exact hs.outside m x hx ⟨hm, by rw [hpc]; rfl, le_trans h1 hx'.1, lt_of_lt_of_le hx'.2 h2⟩

/-- **Step lemma.** A safe range stays safe unless a sweep frees one of its lines. -/
theorem Safe.step (h : Inv sp s) {r : ℕ × ℕ} (hs : Safe s r)
    (hkeep : ¬ Mutates sp s o → ∀ x ∈ bytes r, s.mark x ≠ .free → (step sp s o).mark x ≠ .free) :
    Safe (step sp s o) r := by
  have h' := inv_step sp s o h
  by_cases hmut : Mutates sp s o
  · have hk := step_kept h hmut
    refine ⟨fun x hx => ?_, fun m x hx hreg => ?_⟩
    · have hne := hs.marked x hx
      rw [mark_congr h h']
      rcases hk.lines (s.lines.lineOf x) with heq | ⟨hfree, -⟩
      · rw [heq]; exact hne
      · exact absurd hfree hne
    · rcases hk.region m x hreg with hreg | hfree
      · exact hs.outside m x hx hreg
      · exact hs.marked x hx hfree
  · refine ⟨fun x hx => hkeep hmut x hx (hs.marked x hx), fun m x _ => ?_⟩
    unfold Mutates at hmut
    push Not at hmut
    obtain ⟨roots, cpus, schedule, rfl, hc⟩ := hmut
    rw [step_collect hc]
    exact collect_region hc.2.1 _ m x

/-! ## Runs -/

/-- operation `k` of the run returns the range `r` from `alloc` -/
def AllocatedAt (sp : Space) (ops : List Op) (k : ℕ) (r : ℕ × ℕ) : Prop :=
  ∃ o, ops[k]? = some o ∧ (before sp ops k).allocated o = some r

/-- operation `k` of the run is a collection that is carried out -/
def CollectsAt (sp : Space) (ops : List Op) (k : ℕ) : Prop :=
  ∃ roots cpus schedule, ops[k]? = some (.gc roots cpus schedule) ∧
    (before sp ops k).Collects sp roots cpus schedule

/-- operation `k` of the run takes block `b` from the usable queue for mutator `m` -/
def TakesAt (sp : Space) (ops : List Op) (k m : ℕ) (b : ImmixBlock) : Prop :=
  ∃ o, ops[k]? = some o ∧ Takes (before sp ops k) o m b

theorem mutates_of_not_collectsAt {ops : List Op} {k : ℕ} (ho : ops[k]? = some o) (hno : ¬ CollectsAt sp ops k) :
    Mutates sp (before sp ops k) o := by
  rintro roots cpus schedule rfl hc
  exact hno ⟨roots, cpus, schedule, ho, hc⟩

/-- the line of byte `x` is turned Free by the sweep of operation `k` -/
def TurnsFree (sp : Space) (ops : List Op) (k x : ℕ) : Prop :=
  CollectsAt sp ops k ∧ (before sp ops k).mark x ≠ .free ∧ (before sp ops (k + 1)).mark x = .free

/-- a safe range stays safe until a sweep turns one of its lines Free -/
theorem Safe.until {ops : List Op} {i j : ℕ} (hij : i ≤ j) {r : ℕ × ℕ} (hs : Safe (before sp ops i) r)
    (hkeep : ∀ k, i ≤ k → k < j → ∀ x ∈ bytes r, ¬ TurnsFree sp ops k x) : Safe (before sp ops j) r := by
  refine before_until (P := fun s => Safe s r) hij hs fun k o h1 h2 ho hk =>
    hk.step (inv_run sp ops k) fun hmut x hx hne hfree => ?_
  rw [← before_succ ho] at hfree
  by_cases hc : CollectsAt sp ops k
  · exact hkeep k h1 h2 x hx ⟨hc, hne, hfree⟩
  · exact hmut (mutates_of_not_collectsAt ho hc)

/-- **Allocations stay apart.** An allocation is disjoint from every earlier one none of whose lines a sweep in between
has turned Free. -/
theorem allocated_disjoint {ops : List Op} {i j : ℕ} (hij : i < j) {r r' : ℕ × ℕ} (hi : AllocatedAt sp ops i r)
    (hj : AllocatedAt sp ops j r') (hkeep : ∀ k, i < k → k < j → ∀ x ∈ bytes r, ¬ TurnsFree sp ops k x) :
    Disjoint (bytes r) (bytes r') := by
  obtain ⟨o, ho, ha⟩ := hi
  obtain ⟨o', ho', ha'⟩ := hj
  have hsafe := safe_of_allocated (inv_run sp ops i) ha
  rw [← before_succ ho] at hsafe
  exact (hsafe.until hij fun k h1 h2 => hkeep k (by omega) h2).disjoint (inv_run sp ops j) ha'

/-- every block a mutator holds was taken after the last collection, and the lines that were live then still are -/
theorem owned_since {ops : List Op} {k : ℕ} (hk : k ≤ ops.length) {m : ℕ} {b : ImmixBlock}
    (hb : Owns (before sp ops k) m b) :
    ∃ t < k, TakesAt sp ops t m b ∧ (∀ u, t < u → u < k → ¬ CollectsAt sp ops u) ∧
      ∀ j, ((before sp ops t).lines.get j).isLive →
        ((before sp ops k).lines.get j).isLive := by
  induction k with
  | zero => cases hb.1
  | succ k ih =>
    obtain ⟨o, ho⟩ : ∃ o, ops[k]? = some o := ⟨ops[k], List.getElem?_eq_getElem hk⟩
    have hinv := inv_run sp ops k
    rw [before_succ ho] at hb ⊢
    by_cases hc : CollectsAt sp ops k
    · obtain ⟨roots, cpus, schedule, hop, hc⟩ := hc
      obtain rfl : o = .gc roots cpus schedule := Option.some.inj (ho.symm.trans hop)
      rw [step_collect hc] at hb
      exact absurd hb (collect_owns hinv hc.2.1 _ m b)
    · have hkept := step_kept hinv (mutates_of_not_collectsAt ho hc)
      have hlive : ∀ j, ((before sp ops k).lines.get j).isLive →
          ((step sp (before sp ops k) o).lines.get j).isLive := by
        intro j hj
        rcases hkept.lines j with heq | ⟨hfree, -⟩
        · rwa [heq]
        · rw [hfree] at hj; exact absurd hj (by simp)
      rcases hkept.owns m b hb with hold | htake
      · obtain ⟨t, ht, htake, hno, hl⟩ := ih (by omega) hold
        refine ⟨t, by omega, htake, fun u h1 h2 => ?_, fun j hj => hlive j (hl j hj)⟩
        rcases Nat.eq_or_lt_of_le (Nat.le_of_lt_succ h2) with rfl | h2
        · exact hc
        · exact hno u h1 h2
      · exact ⟨k, by omega, ⟨o, ho, htake⟩, fun u h1 h2 => by omega, hlive⟩

/-- **No two allocations overlap between collections.** In every run of any number of mutators, the ranges returned
between two collections are pairwise disjoint; and each lies in a block that its mutator took after the last collection,
in lines that were neither Live nor ConservLive when it took it. -/
theorem no_overlap_between_collections (sp : Space) (ops : List Op) :
    (∀ i j r r', i < j → AllocatedAt sp ops i r → AllocatedAt sp ops j r' →
      (∀ k, i < k → k < j → ¬ CollectsAt sp ops k) → Disjoint (bytes r) (bytes r')) ∧
    (∀ i r, AllocatedAt sp ops i r → 0 < r.2 → ∃ t m b, t < i ∧ ops[i]? = some (.tick m) ∧ TakesAt sp ops t m b ∧
      (∀ k, t < k → k < i → ¬ CollectsAt sp ops k) ∧
      ∀ x ∈ bytes r, b.Has x ∧ ¬ ((before sp ops t).mark x).isLive) := by
  refine ⟨fun i j r r' hij hi hj hno => allocated_disjoint hij hi hj fun k h1 h2 x _ hf => hno k h1 h2 hf.1,
    fun i r hi hpos => ?_⟩
  obtain ⟨o, ho, ha⟩ := hi
  have hinv := inv_run sp ops i
  have hlen : i < ops.length := (List.getElem?_eq_some_iff.1 ho).1
  obtain ⟨m, layout, loc, rfl, hm, -, hpc, h1, h2, -⟩ := allocated_spec hinv ha
  have hshape := hinv.shape m hm (by rw [hpc]; rfl)
  obtain ⟨b, hb⟩ := hshape.block_of_lt (by omega)
  obtain ⟨t, ht, htake, hno, hl⟩ := owned_since hlen.le ⟨hm, hb⟩
  refine ⟨t, m, b, ht, ho, htake, hno, fun x hx => ?_⟩
  have hx1 := le_trans h1 hx.1
  have hx2 := lt_of_lt_of_le hx.2 h2
  refine ⟨hshape.has hb hx1 hx2, fun hlive => ?_⟩
  -- a line that was live then would still be, but the bump region's lines are FreshAlloc
  have hnow := hl _ hlive
  rw [Trace.lineOf_congr ((inv_run sp ops t).spaceStart.trans hinv.spaceStart.symm),
    hshape.fresh x hx1 hx2] at hnow
  exact absurd hnow (by simp)

end Immix.Heap
