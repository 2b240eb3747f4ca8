/-
Which requests `alloc` can serve (`alloc`, `try_alloc_from_local`, `alloc_from_global` of `heap/immix/immix_mutator.rs`).

A bump region never leaves a block, so a request that fits in no empty block is never served: the mutator takes block
after block, uses up its lines and gives it back, and no address is ever returned. One that fits in some empty block is
served in some run: on a new space the mutator passes over the blocks before it.
- `Servable`: the request fits in an empty block, or is for nothing.
- `stays_in_call`: a call for another request is never over.
- `Loops`, `Entered`: the mutator asks for block `j`, and has it as its bump region.
- `servable_iff`: the two together.
-/
import Immix.HoleSearch
import Immix.AllocBounds
import Immix.AllocMap

namespace Immix.Heap

open Immix.Lib

/-- the request fits at the start of the empty block `b` -/
def FitsBlock (layout : Layout) (b : ImmixBlock) : Prop :=
  Address.alignUp b.start layout.align + layout.size ≤ b.start + bytesInBlock

/-- the request can be served in the space -/
def Servable (sp : Space) (layout : Layout) : Prop := layout.size = 0 ∨ ∃ b ∈ sp.initBlocks, FitsBlock layout b

/-- operation `k` of the run returns the address `a` from a call of `alloc` by mutator `m` for `layout` -/
def ServedAt (sp : Space) (ops : List Op) (k m : ℕ) (layout : Layout) (a : ℕ) : Prop :=
  ops[k]? = some (.tick m) ∧ ((before sp ops k).mutator m).pc = .alloc layout ∧
    (before sp ops k).allocated (.tick m) = some (a, layout.size)

variable {sp : Space} {s : Heap} {m : ℕ} {layout : Layout}

/-! ## Requests that fit nowhere -/

/-- rounding up gives the least multiple -/
theorem alignUp_le {a b : ℕ} (ha : a ≤ 2 ^ 63) (hab : a ≤ b) (hdvd : layout.align ∣ b) :
    Address.alignUp a layout.align ≤ b := by
  obtain ⟨h1, h2, h3⟩ := layout.alignUp_bounds ha
  by_contra hlt
  rw [not_le] at hlt
  have hgap := Nat.le_of_dvd (Nat.sub_pos_of_lt hlt) (Nat.dvd_sub h3 hdvd)
  omega

/-- a request served from a bump region is servable -/
theorem servable_of_bump (h : Inv sp s) (hm : m ∈ s.ids) (hact : (s.mutator m).pc.active = true) {a : ℕ}
    {x : ImmixMutatorLocal} (hb : (s.mutator m).loc.bump layout = some (a, x)) : Servable sp layout := by
  obtain ⟨h1, h2, h3, -⟩ := bump_spec (h.cursor_le hm hact) hb
  have hshape := h.shape m hm hact
  cases hblock : (s.mutator m).loc.block with
  | none =>
    obtain ⟨-, hlimit, -⟩ := hshape.empty hblock
    exact .inl (by omega)
  | some b =>
    obtain ⟨hmem, -⟩ := h.held m hm b hblock
    have hregion := hshape.region b hblock
    have hplaced := (block_placed hmem).2.1
    have hle : Address.alignUp b.start layout.align ≤ a := alignUp_le (by omega) (by omega) h3
    refine .inr ⟨b, hmem, ?_⟩
    rw [FitsBlock, bytesInBlock_eq]
    omega

/-- **Step lemma.** A call for a request that fits nowhere is still under way after every operation. -/
theorem stays_in_call (hno : ¬ Servable sp layout) (h : Inv sp s) (hm : m ∈ s.ids)
    (hcall : (s.mutator m).pc.layout = some layout) (o : Op) :
    m ∈ (step sp s o).ids ∧ ((step sp s o).mutator m).pc.layout = some layout := by
  have hpc : (s.mutator m).pc ≠ .idle := by
    intro hp
    rw [hp] at hcall
    cases hcall
  have hhold : Holding layout False (s.mutator m) := ⟨hcall, False.elim⟩
  obtain ⟨hids, hcases⟩ : m ∈ (step sp s o).ids ∧ _ := step_mutator o hm hpc
  refine ⟨hids, ?_⟩
  rcases hcases with heq | heq | ⟨-, heq⟩ | ⟨-, heq⟩ | ⟨-, heq⟩
  · rw [heq]
    exact hcall
  · rw [heq]
    exact hhold.release.1
  · rw [heq]
    refine (hhold.tick h hm fun hidle => ?_).1
    -- only the fast path returns
    unfold Heap.tick at hidle
    cases hp : (s.mutator m).pc with
    | alloc l =>
      rw [hp] at hcall
      cases hcall
      cases hb : (s.mutator m).loc.bump layout with
      | none => simp [hp, hb] at hidle
      | some r =>
        obtain ⟨a, x⟩ := r
        exact hno (servable_of_bump h hm (by rw [hp]; rfl) hb)
    | tryAllocFromLocal l =>
      simp only [hp] at hidle
      split at hidle <;> simp at hidle
    | allocFromGlobal l => simp [hp] at hidle
    | loop l =>
      simp only [hp] at hidle
      split at hidle
      · simp at hidle
      · rw [hp] at hidle
        cases hidle
    | _ =>
      simp only [hp] at hidle
      first | exact hpc hp | cases hidle
  · rw [heq]
    exact (hhold.stop hpc).1
  · rw [heq]
    exact hhold.resume.1

/-! ## Requests that fit somewhere -/

/-- mutator 0, the only one, is about to ask for a block; the blocks from `j` on are usable and empty -/
structure Loops (sp : Space) (layout : Layout) (j : ℕ) (s : Heap) : Prop where
  inv : Inv sp s
  running : s.crashed = false
  ids : s.ids = [0]
  pc : (s.mutator 0).pc = .loop layout
  usable : s.usable = sp.initBlocks.drop j
  free : ∀ n, j * 256 ≤ n → s.lines.get n = .free

/-- it has block `j` as its bump region -/
structure Entered (sp : Space) (layout : Layout) (j : ℕ) (s : Heap) : Prop where
  inv : Inv sp s
  running : s.crashed = false
  ids : s.ids = [0]
  pc : (s.mutator 0).pc = .alloc layout
  loc : (s.mutator 0).loc = ⟨(sp.block j).start, (sp.block j).start + 65536, 256, some (sp.block j)⟩
  usable : s.usable = sp.initBlocks.drop (j + 1)
  free : ∀ n, (j + 1) * 256 ≤ n → s.lines.get n = .free

/-- the only mutator takes `n` steps -/
def ticks (sp : Space) (n : ℕ) (s : Heap) : Heap := run (step sp) s (List.replicate n (.tick 0))

theorem ticks_add (sp : Space) (a b : ℕ) (s : Heap) : ticks sp (a + b) s = ticks sp b (ticks sp a s) := by
  rw [ticks, List.replicate_add, run_append]
  rfl

theorem inv_ticks (sp : Space) (n : ℕ) (h : Inv sp s) : Inv sp (ticks sp n s) :=
  run_inv_all _ (inv_step sp) h

theorem ticks_one (hcr : s.crashed = false) (hids : s.ids = [0]) : ticks sp 1 s = s.tick 0 := by
  simp [ticks, step, hcr, hids]

variable {j : ℕ}

/-- a block is taken, and its lines are the hole -/
theorem Loops.enter (h : Loops sp layout j s) (hj : j < sp.size / 65536) (hpos : 1 ≤ layout.size) :
    Entered sp layout j (ticks sp 3 s) := by
  have hmem : sp.block j ∈ sp.initBlocks := mem_initBlocks.2 ⟨j, hj, rfl⟩
  have hdrop : sp.initBlocks.drop j = sp.block j :: sp.initBlocks.drop (j + 1) := by
    have hlen : j < sp.initBlocks.length := by simpa [initBlocks_eq] using hj
    rw [List.drop_eq_getElem_cons hlen]
    congr 1
    simp [initBlocks_eq]
  -- the block, with an empty bump region
  have h1 : ticks sp 1 s = { s.setMutator 0 ⟨(s.mutator 0).loc.useBlock (sp.block j), .alloc layout⟩ with
      usable := sp.initBlocks.drop (j + 1) } := by
    rw [ticks_one h.running h.ids]
    simp [Heap.tick, h.pc, h.usable, hdrop]
  -- nothing fits in it
  have hbump : ((s.mutator 0).loc.useBlock (sp.block j)).bump layout = none :=
    bump_of_not_fits (s := ⟨(s.mutator 0).loc.useBlock (sp.block j), s.lines, []⟩)
      (not_fits_useBlock hmem hpos (s.mutator 0).loc)
  have h2 : ticks sp 2 s = { s.setMutator 0 ⟨(s.mutator 0).loc.useBlock (sp.block j), .tryAllocFromLocal layout⟩ with
      usable := sp.initBlocks.drop (j + 1) } := by
    rw [ticks_add sp 1 1, h1]
    refine Eq.trans (ticks_one h.running h.ids) ?_
    simp [Heap.tick, hbump, setMutator]
  -- the hole
  have hfree : ∀ i < 256, (sp.block j).FreeLine s.lines i := fun i hi => h.free _ (by simp only [Space.block]; omega)
  have hhole : ((s.mutator 0).loc.useBlock (sp.block j)).tryAllocFromLocal s.lines =
      .hole ⟨(sp.block j).lineStart 0, (sp.block j).lineStart 256, 256, some (sp.block j)⟩
        ((sp.block j).lineMarkTable.freshen s.lines 0 256) := by
    rcases tryAllocFromLocal_cases (x := (s.mutator 0).loc.useBlock (sp.block j)) (t := s.lines) (b := sp.block j) rfl rfl
      with ⟨i, k, hrun, heq⟩ | ⟨hnone, -⟩
    · have hi : i = 0 := by
        by_contra hne
        exact hrun.first 0 le_rfl (Nat.pos_of_ne_zero hne) (hfree 0 (by decide))
      have hk : k = 256 := by
        by_contra hne
        have hlt : k < 256 := lt_of_le_of_ne hrun.le hne
        exact hrun.stop hlt (hfree k hlt)
      rw [heq, hi, hk]
    · exact absurd (hfree 0 (by decide)) (hnone 0 le_rfl (by decide))
  have h3 : ticks sp 3 s = { s.setMutator 0 ⟨⟨(sp.block j).lineStart 0, (sp.block j).lineStart 256, 256, some (sp.block j)⟩,
      .alloc layout⟩ with
      usable := sp.initBlocks.drop (j + 1), lines := (sp.block j).lineMarkTable.freshen s.lines 0 256 } := by
    rw [ticks_add sp 2 1, h2]
    refine Eq.trans (ticks_one h.running h.ids) ?_
    simp [Heap.tick, hhole, setMutator]
  have hinv := inv_ticks sp 3 h.inv
  rw [h3] at hinv ⊢
  refine ⟨hinv, h.running, h.ids, by simp, ?_, rfl, fun n hn => ?_⟩
  · have hstart : (sp.block j).lineStart 0 = (sp.block j).start := by rw [lineStart_eq, Nat.zero_mul, Nat.add_zero]
    have hstop : (sp.block j).lineStart 256 = (sp.block j).start + 65536 := lineStart_eq _ _
    simp [hstart, hstop]
  · have hge : j * 256 ≤ n := (Nat.mul_le_mul_right 256 (Nat.le_succ j)).trans hn
    have hout : ¬ (j * 256 + 0 ≤ n ∧ n < j * 256 + 256) := by omega
    have hbefore : s.lines.get n = .free := h.free n hge
    have hget := get_freshen_block (i := 0) (j := 256) hj h.inv.lines_len le_rfl n
    rw [if_neg hout, hbefore] at hget
    dsimp only
    rw [hget]

/-- a block that the request does not fit in is used up and given back -/
theorem Entered.leave (h : Entered sp layout j s) (hno : ¬ FitsBlock layout (sp.block j)) :
    Loops sp layout (j + 1) (ticks sp 3 s) := by
  have hbump : (s.mutator 0).loc.bump layout = none := by
    refine if_neg ?_
    rw [h.loc]
    unfold FitsBlock at hno
    rw [bytesInBlock_eq] at hno
    exact hno
  have h1 : ticks sp 1 s = s.setMutator 0 ⟨(s.mutator 0).loc, .tryAllocFromLocal layout⟩ := by
    rw [ticks_one h.running h.ids]
    simp [Heap.tick, h.pc, hbump]
  -- no line is left
  have hnone : (s.mutator 0).loc.tryAllocFromLocal s.lines = .none := by
    unfold ImmixMutatorLocal.tryAllocFromLocal
    rw [if_neg]
    rw [h.loc, linesInBlock_eq]
    exact lt_irrefl _
  have h2 : ticks sp 2 s = s.setMutator 0 ⟨(s.mutator 0).loc, .allocFromGlobal layout⟩ := by
    rw [ticks_add sp 1 1, h1]
    refine Eq.trans (ticks_one h.running h.ids) ?_
    simp [Heap.tick, hnone, setMutator]
  have h3 : ticks sp 3 s = { s.setMutator 0 ⟨((s.mutator 0).loc.returnBlock s.used).1, .loop layout⟩ with
      used := ((s.mutator 0).loc.returnBlock s.used).2 } := by
    rw [ticks_add sp 2 1, h2]
    refine Eq.trans (ticks_one h.running h.ids) ?_
    simp [Heap.tick, setMutator]
  have hinv := inv_ticks sp 3 h.inv
  rw [h3] at hinv ⊢
  exact ⟨hinv, h.running, h.ids, by simp, h.usable, h.free⟩

/-- a block that the request fits in serves it -/
theorem Entered.serve (h : Entered sp layout j s) (hfits : FitsBlock layout (sp.block j)) :
    s.allocated (.tick 0) = some (Address.alignUp (sp.block j).start layout.align, layout.size) := by
  have hbump : (s.mutator 0).loc.bump layout = some (Address.alignUp (sp.block j).start layout.align,
      { (s.mutator 0).loc with cursor := Address.plus (Address.alignUp (sp.block j).start layout.align) layout.size }) := by
    unfold FitsBlock at hfits
    rw [bytesInBlock_eq] at hfits
    unfold ImmixMutatorLocal.bump
    rw [h.loc]
    exact if_pos hfits
  simp [allocated, h.running, h.ids, h.pc, hbump]

/-- the mutator comes to the first block that the request fits in -/
theorem loops_of_not_fits (hpos : 1 ≤ layout.size) (h : Loops sp layout 0 s) (hj : j ≤ sp.size / 65536)
    (hno : ∀ i < j, ¬ FitsBlock layout (sp.block i)) : Loops sp layout j (ticks sp (6 * j) s) := by
  induction j with
  | zero => exact h
  | succ j ih =>
    have hloops := ih (by omega) fun i hi => hno i (by omega)
    have hleave := (hloops.enter hj hpos).leave (hno j (by omega))
    rw [← ticks_add, ← ticks_add] at hleave
    have hcount : 6 * (j + 1) = 6 * j + (3 + 3) := by ring
    rw [hcount]
    exact hleave

/-- mutator 0 is registered and calls `alloc` -/
def request (layout : Layout) : List Op := [.new 0, .alloc 0 layout]

theorem loops_request (sp : Space) (hpos : 1 ≤ layout.size) :
    Loops sp layout 0 (ticks sp 3 (run (step sp) (new sp) (request layout))) := by
  have hround := layout.alignUp_of_dvd (Nat.zero_le _) (dvd_zero layout.align)
  have hbump : ImmixMutatorLocal.new.bump layout = none := by
    refine if_neg ?_
    show ¬ Address.plus (Address.alignUp 0 layout.align) layout.size ≤ 0
    rw [hround]
    unfold Address.plus
    omega
  have hnone : ∀ t, ImmixMutatorLocal.new.tryAllocFromLocal t = .none := fun t => if_neg (lt_irrefl _)
  have h0 : run (step sp) (new sp) (request layout) =
      { (new sp).setMutator 0 ⟨.new, .alloc layout⟩ with ids := [0] } := by
    simp [request, step, new, setMutator]
  have h1 : ticks sp 1 (run (step sp) (new sp) (request layout)) =
      { (new sp).setMutator 0 ⟨.new, .tryAllocFromLocal layout⟩ with ids := [0] } := by
    rw [h0]
    refine Eq.trans (ticks_one rfl rfl) ?_
    simp [Heap.tick, hbump, setMutator]
  have h2 : ticks sp 2 (run (step sp) (new sp) (request layout)) =
      { (new sp).setMutator 0 ⟨.new, .allocFromGlobal layout⟩ with ids := [0] } := by
    rw [ticks_add sp 1 1, h1]
    refine Eq.trans (ticks_one rfl rfl) ?_
    simp [Heap.tick, hnone, setMutator]
  have h3 : ticks sp 3 (run (step sp) (new sp) (request layout)) =
      { (new sp).setMutator 0 ⟨.new, .loop layout⟩ with ids := [0] } := by
    rw [ticks_add sp 2 1, h2]
    refine Eq.trans (ticks_one rfl rfl) ?_
    simp [Heap.tick, setMutator, new, ImmixMutatorLocal.returnBlock, ImmixMutatorLocal.new]
  have hinv := inv_ticks sp 3 (run_inv_all (request layout) (inv_step sp) (inv_new sp))
  rw [h3] at hinv ⊢
  exact ⟨hinv, rfl, rfl, by simp, by simp [new], fun n _ => rfl⟩

/-! ## Both -/

/-- a run in which a servable request is served -/
theorem exists_served (h : Servable sp layout) : ∃ ops k a, ServedAt sp ops k 0 layout a := by
  rcases Nat.eq_zero_or_pos layout.size with hzero | hpos
  · -- a new mutator answers a request for nothing at once
    have hround := layout.alignUp_of_dvd (Nat.zero_le _) (dvd_zero layout.align)
    have hstate : before sp (request layout ++ [.tick 0]) 2 =
        { (new sp).setMutator 0 ⟨.new, .alloc layout⟩ with ids := [0] } := by
      simp [before, stateAt, request, step, new, setMutator]
    have hbump : ImmixMutatorLocal.new.bump layout = some (0, { ImmixMutatorLocal.new with cursor := 0 }) := by
      unfold ImmixMutatorLocal.bump Address.plus
      simp [ImmixMutatorLocal.new, hround, hzero]
    refine ⟨request layout ++ [.tick 0], 2, 0, rfl, ?_, ?_⟩
    · rw [hstate]
      simp
    · have hcr : (new sp).crashed = false := rfl
      rw [hstate]
      simp [allocated, hcr, setMutator, hbump, hzero]
  · obtain ⟨b, hb, hfits⟩ := h.resolve_left (Nat.ne_of_gt hpos)
    obtain ⟨n, hn, rfl⟩ := mem_initBlocks.1 hb
    -- the first such block
    classical
    have hex : ∃ n, n < sp.size / 65536 ∧ FitsBlock layout (sp.block n) := ⟨n, hn, hfits⟩
    obtain ⟨hlt, hfirst⟩ := Nat.find_spec hex
    have hno : ∀ i < Nat.find hex, ¬ FitsBlock layout (sp.block i) := fun i hi hf =>
      Nat.find_min hex hi ⟨hi.trans hlt, hf⟩
    have hloops := loops_of_not_fits hpos (loops_request sp hpos) hlt.le hno
    have hentered := hloops.enter hlt hpos
    rw [← ticks_add, ← ticks_add, ← Nat.add_assoc] at hentered
    have hserved := hentered.serve hfirst
    have hpc := hentered.pc
    generalize hcount : 3 + 6 * Nat.find hex + 3 = count at hpc hserved
    have hlen : (request layout ++ List.replicate count (Op.tick 0)).length = count + 2 := by
      simp only [request, List.length_append, List.length_replicate, List.length_cons, List.length_nil]
      omega
    have hstate : before sp (request layout ++ List.replicate count (.tick 0) ++ [.tick 0]) (count + 2) =
        ticks sp count (run (step sp) (new sp) (request layout)) := by
      rw [before, stateAt, List.take_left' hlen, run_append]
      rfl
    rw [← hstate] at hpc hserved
    refine ⟨request layout ++ List.replicate count (.tick 0) ++ [.tick 0], count + 2, _, ?_, hpc, hserved⟩
    rw [List.getElem?_append_right hlen.le, hlen, Nat.sub_self]
    rfl

/-- **Which requests are served.** For every space and layout: some run serves a request for it if and only if it is for
nothing or fits in an empty block of the space; if it does not, then in every run a call of `alloc` for it, once made, is
under way in every later state, whatever the other mutators and the collections do. -/
theorem servable_iff (sp : Space) (layout : Layout) :
    ((∃ ops k m a, ServedAt sp ops k m layout a) ↔ Servable sp layout) ∧
      (¬ Servable sp layout → ∀ ops i m, m ∈ (before sp ops i).ids →
        ((before sp ops i).mutator m).pc.layout = some layout → ∀ k, i ≤ k →
          m ∈ (before sp ops k).ids ∧ ((before sp ops k).mutator m).pc.layout = some layout) := by
  refine ⟨⟨?_, fun h => ?_⟩, fun hno ops i m hm hcall k hik => ?_⟩
  · rintro ⟨ops, k, m, a, -, hpc, halloc⟩
    have hinv := inv_run sp ops k
    unfold allocated at halloc
    simp only at halloc
    split_ifs at halloc with hrun
    rw [hpc] at halloc
    simp only [Option.map_eq_some_iff] at halloc
    obtain ⟨⟨a', x⟩, hb, -⟩ := halloc
    exact servable_of_bump hinv hrun.2 (by rw [hpc]; rfl) hb
  · obtain ⟨ops, k, a, hserved⟩ := exists_served h
    exact ⟨ops, k, 0, a, hserved⟩
  · induction k, hik using Nat.le_induction with
    | base => exact ⟨hm, hcall⟩
    | succ k hik ih =>
      cases ho : ops[k]? with
      | none => rwa [before_of_none ho]
      | some o =>
        rw [before_succ ho]
        exact stays_in_call hno (inv_run sp ops k) ih.1 ih.2 o

/-- a request aligned to at most a block is servable exactly when it is no larger than one -/
theorem servable_of_align (hblock : 65536 ≤ sp.size) (halign : layout.align ≤ 65536) :
    Servable sp layout ↔ layout.size ≤ 65536 := by
  have hdvd : ∀ k, layout.align ∣ (sp.block k).start := by
    intro k
    obtain ⟨e, he⟩ := layout.pow
    have hpow : (2 : ℕ) ^ e ∣ 2 ^ 16 := by
      refine pow_dvd_pow 2 ?_
      by_contra hlt
      have : (2 : ℕ) ^ 17 ≤ 2 ^ e := Nat.pow_le_pow_right (by decide) (by omega)
      omega
    rw [he]
    exact hpow.trans ((Nat.dvd_add_right sp.dvd_start.1).2 (Dvd.intro_left k rfl))
  have hfits : ∀ b ∈ sp.initBlocks, FitsBlock layout b ↔ layout.size ≤ 65536 := by
    intro b hb
    have hplaced := (block_placed hb).2.1
    obtain ⟨k, -, rfl⟩ := mem_initBlocks.1 hb
    unfold FitsBlock
    rw [layout.alignUp_of_dvd (by omega) (hdvd k), bytesInBlock_eq]
    omega
  constructor
  · rintro (hzero | ⟨b, hb, hf⟩)
    · omega
    · exact (hfits b hb).1 hf
  · intro hle
    have hmem : sp.block 0 ∈ sp.initBlocks := mem_initBlocks.2 ⟨0, by omega, rfl⟩
    exact .inr ⟨sp.block 0, hmem, (hfits _ hmem).2 hle⟩

/-- one byte more than a block -/
def overBlock : Layout := ⟨65537, 8, lineLayout.pow, by norm_num⟩

theorem servable_iff_overBlock : ¬ ∃ ops k m a, ServedAt .oneBlock ops k m overBlock a := by
  have hno : ¬ Servable .oneBlock overBlock := by
    rw [servable_of_align (by decide) (by decide)]
    decide
  exact fun h => hno ((servable_iff .oneBlock overBlock).1.1 h)

end Immix.Heap
