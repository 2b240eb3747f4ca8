/-
Which space the roots of a collection belong to, when the process has several.

MUTATORS, CONTROLLER and ROOTS are process-wide: every mutator scans its stack for objects of its own space, and the
controller collects its own space with what all of them found.
- `roots_inside`: for mutators registered at the start, on spaces that do not overlap, the roots of every collection lie
  in the collected space exactly when in each cycle the stacks of the mutators of other spaces hold no object.
- `root_of_another_space`: two mutators on two spaces.
-/
import Immix.Passage

namespace Immix.Barrier

open Immix.Lib

/-! ## Runs with a panic -/

/-- after a panic nobody is controller again -/
theorem dead_until {u : Setup} {ops : List Op} {l k : ℕ} (h : Dead (before u ops k) l) {n : ℕ} (hkn : k ≤ n) :
    Dead (before u ops n) l := by
  induction n, hkn using Nat.le_induction with
  | base => exact h
  | succ n hkn ih =>
    cases ho : ops[n]? with
    | none =>
      rw [before_succ_none ho]
      exact ih
    | some o =>
      rw [before_succ ho]
      exact dead_step (base_before u ops n) ih o

theorem settled_of_noNew {u : Setup} {ops : List Op} (hops : LegalRun step (fun _ o => NoNew o) u.init ops) (k : ℕ) :
    Settled (before u ops k) :=
  before_inv (P := Settled) u (settled_init u) (fun _ _ hso h => settled_step h hso) hops k

/-- a gc() that panics leaves a dead state -/
theorem Stopped.dead_of_panic {s : State} {l : ℕ} (hb : Base s) (h : Stopped s l) {o : Op} (ho : ¬ NoGcPanic s o) :
    Dead (step s o) l := by
  cases o with
  | call m c => exact absurd trivial ho
  | next m env =>
    unfold NoGcPanic at ho
    cases hpc : (s.thread m).pc
    case gcTrace =>
      simp only [hpc, ne_eq, not_not] at ho
      obtain rfl : m = l := h.eq_of_leads hb (by rw [hpc]; rfl)
      simp only [step, next, hpc, ho]
      exact h.panic (by rw [hpc]; rfl) rfl rfl
    case gcSweep live usable =>
      simp only [hpc, Classical.not_imp, Bool.not_eq_false] at ho
      obtain rfl : m = l := h.eq_of_leads hb (by rw [hpc]; rfl)
      simp only [step, next, hpc, ho.1, ho.2, if_true]
      exact h.panic (by rw [hpc]; rfl) rfl rfl
    all_goals simp [hpc] at ho

theorem Dead.not_leads {s : State} {l : ℕ} (h : Dead s l) (m : ℕ) : (s.thread m).pc.leads = false := by
  rcases eq_or_ne m l with rfl | hml
  · rw [h.lead]
    rfl
  · rcases h.others m hml with hc | hj
    · exact hc.not_leads
    · exact hj.not_leads

/-- up to a collection, gc() has not panicked -/
theorem steady_take {u : Setup} {ops : List Op} (hops : LegalRun step (fun _ o => NoNew o) u.init ops) {l d : ℕ}
    (hd : StepAt u ops l .gcDrain d) : LegalRun step Steady u.init (ops.take (d + 1)) := by
  intro k o hk
  obtain ⟨hkd, ho⟩ : k < d + 1 ∧ ops[k]? = some o := by
    rw [List.getElem?_take] at hk
    split_ifs at hk with hkd
    exact ⟨hkd, hk⟩
  rw [stateAt_take _ _ _ hkd.le]
  change Steady (before u ops k) o
  refine ⟨hops k o ho, ?_⟩
  by_contra hpanic
  have hlate : LegalRun step NoLateNew u.init ops := fun n o _ => (settled_of_noNew hops n).noLateNew o
  -- the thread whose gc() panics is the controller
  obtain ⟨l', hl'⟩ : ∃ l', ((before u ops k).thread l').pc.stops = true := by
    cases o with
    | call m c => exact absurd trivial hpanic
    | next m env =>
      refine ⟨m, ?_⟩
      unfold NoGcPanic at hpanic
      cases hpc : ((before u ops k).thread m).pc
      case gcTrace | gcSweep => rfl
      all_goals simp [hpc] at hpanic
  have hdead := ((phase_before u hlate k).stopped hl').dead_of_panic (base_before u ops k) hpanic
  rw [← before_succ ho] at hdead
  rcases Nat.lt_succ_iff_lt_or_eq.1 hkd with h | rfl
  · have hl := (dead_until hdead h).not_leads l
    rw [hd.2] at hl
    cases hl
  · obtain ⟨⟨env, hop⟩, hpc⟩ := hd
    rw [ho] at hop
    cases hop
    exact hpanic (by simp [NoGcPanic, hpc])

/-! ## Spaces -/

theorem spaces_before (u : Setup) (ops : List Op) (k : ℕ) : (before u ops k).spaces = u.spaces := by
  apply before_inv_all (P := fun s => s.spaces = u.spaces) u ops rfl
  intro s o h
  rw [← h]
  cases o with
  | call m c =>
    rw [step]
    cases c <;> simp only [call] <;> split <;> rfl
  | next m env =>
    rw [step]
    cases hpc : (s.thread m).pc
    case' trigSet todo => cases todo
    case' clearYield todo => cases todo
    all_goals simp only [next, hpc]
    all_goals repeat' split
    all_goals rfl

/-- the space of thread `m` before step `k` -/
def spaceOf (u : Setup) (ops : List Op) (m k : ℕ) : ℕ := ((before u ops k).thread m).space

/-- the roots that `start_trace` is given lie in the space that is collected -/
def RootsInside (u : Setup) (ops : List Op) : Prop :=
  ∀ l d, StepAt u ops l .gcDrain d → ∀ x ∈ (before u ops (d + 1)).drained, ∀ w ∈ x.2,
    (u.spaces (spaceOf u ops l d)).start ≤ w ∧ w < (u.spaces (spaceOf u ops l d)).stop

/-- thread `l` becomes controller with step `i` and drains ROOTS with step `d` -/
structure Cycle (u : Setup) (ops : List Op) (l i d : ℕ) : Prop where
  lt : i < d
  wins : Wins u ops l i
  leads : ∀ k, i < k → k ≤ d → ((before u ops k).thread l).pc.leads = true
  drain : StepAt u ops l .gcDrain d

/-- a mutator that scans its stack in a cycle is of the space that is collected, or no word it finds is an object of its
own space -/
def ScansInside (u : Setup) (ops : List Op) : Prop :=
  ∀ l i d, Cycle u ops l i d → ∀ m k env, i < k → k < d → ops[k]? = some (.next m env) →
    (∃ saw, ((before u ops k).thread m).pc = .scan saw) → spaceOf u ops m k = spaceOf u ops l d ∨
      ∀ w ∈ env.words, isValidObject w (u.spaces (spaceOf u ops m k)).start (u.spaces (spaceOf u ops m k)).stop
        ⟨(u.spaces (spaceOf u ops m k)).start, (u.spaces (spaceOf u ops m k)).stop, env.allocMap⟩ = false

theorem Cycle.unique {u : Setup} {ops : List Op} {l i i' d : ℕ} (h : Cycle u ops l i d) (h' : Cycle u ops l i' d) :
    i = i' := by
  have hle : ∀ {i i'}, Cycle u ops l i d → Cycle u ops l i' d → ¬ i < i' := by
    intro i i' h h' hlt
    have hl := h.leads i' hlt h'.lt.le
    rw [h'.wins.1.2] at hl
    cases hl
  exact Nat.le_antisymm (not_lt.1 (hle h' h)) (not_lt.1 (hle h h'))

/-- what is drained is what was scanned in the cycle -/
theorem drained_iff {u : Setup} {ops : List Op} (hops : LegalRun step (fun _ o => NoNew o) u.init ops) {l d : ℕ}
    (hd : StepAt u ops l .gcDrain d) : ∃ i, Cycle u ops l i d ∧ ∀ m r, (m, r) ∈ (before u ops (d + 1)).drained ↔
      ∃ k, (i < k ∧ k < d) ∧ Scans u ops m r k := by
  have hsame : ∀ k, k ≤ d + 1 → before u (ops.take (d + 1)) k = before u ops k := fun k hk => stateAt_take _ _ _ hk
  have hget : ∀ k, k ≤ d → (ops.take (d + 1))[k]? = ops[k]? := fun k hk => List.getElem?_take_of_lt (by omega)
  have hstep : ∀ m pc k, k ≤ d → (StepAt u (ops.take (d + 1)) m pc k ↔ StepAt u ops m pc k) := by
    intro m pc k hk
    unfold StepAt
    rw [hget k hk, hsame k (by omega)]
  obtain ⟨i, hid, hwins, hleads, -, -, -, hiff⟩ := ownScans (steady_take hops hd) l d ((hstep _ _ d (le_refl d)).2 hd)
  refine ⟨i, ⟨hid, ?_, fun k h1 h2 => ?_, hd⟩, fun m r => ?_⟩
  · have hw := hwins.2
    rw [hsame i (by omega)] at hw
    exact ⟨(hstep _ _ i hid.le).1 hwins.1, hw⟩
  · rw [← hsame k (by omega)]
    exact hleads k h1 h2
  · rw [← hsame (d + 1) (le_refl _), hiff]
    apply exists_congr
    intro k
    apply and_congr_right
    intro hk
    unfold Scans
    rw [hget k (by omega), hsame k (by omega)]

/-- **Roots and spaces.** -/
theorem roots_inside (u : Setup) (ops : List Op)
    (hdisjoint : ∀ i j w, (u.spaces i).start ≤ w → w < (u.spaces i).stop → (u.spaces j).start ≤ w →
      w < (u.spaces j).stop → i = j)
    (hops : LegalRun step (fun _ o => NoNew o) u.init ops) : RootsInside u ops ↔ ScansInside u ops := by
  constructor
  · intro h l i d hcycle m k env hik hkd ho hpc
    obtain ⟨i', hcycle', hiff⟩ := drained_iff hops hcycle.drain
    obtain rfl := hcycle.unique hcycle'
    by_cases hspace : spaceOf u ops m k = spaceOf u ops l d
    · exact .inl hspace
    · right
      intro w hw
      by_contra hvalid
      rw [Bool.not_eq_false] at hvalid
      have hmem : (m, stackScan (u.spaces (spaceOf u ops m k)) env) ∈ (before u ops (d + 1)).drained := by
        rw [hiff]
        refine ⟨k, ⟨hik, hkd⟩, env, ho, hpc, ?_⟩
        rw [spaces_before]
        rfl
      have hin := h l d hcycle.drain _ hmem w (List.mem_filter.2 ⟨hw, hvalid⟩)
      obtain ⟨h1, h2, -⟩ := isValidObject_iff.1 hvalid
      exact hspace (hdisjoint _ _ w h1 h2 hin.1 hin.2)
  · rintro h l d hd ⟨m, r⟩ hx w hw
    obtain ⟨i, hcycle, hiff⟩ := drained_iff hops hd
    obtain ⟨k, ⟨hik, hkd⟩, env, ho, hpc, rfl⟩ := (hiff m r).1 hx
    obtain ⟨hmem, hvalid⟩ := List.mem_filter.1 hw
    rw [spaces_before] at hvalid
    rcases h l i d hcycle m k env hik hkd ho hpc with hspace | hnone
    · rw [← hspace]
      obtain ⟨h1, h2, -⟩ := isValidObject_iff.1 hvalid
      exact ⟨h1, h2⟩
    · have hfalse := hnone w hmem
      rw [spaceOf, hvalid] at hfalse
      cases hfalse

/-- mutator 0 is for space 0 and mutator 1 for space 1, of one block each -/
def twoSpaces : Setup where
  spaces
    | 0 => .oneBlock
    | 1 => ⟨2 * spaceAlign, bytesInBlock, by simp, by simp, by simp⟩
    | _ => { Space.oneBlock with size := 0, user := by simp [Space.oneBlock] }
  mutators := [0, 1]
  slot := id
  space := id
  debugAssertions := false
  nodup := pair.nodup
  slot_inj := pair.slot_inj

theorem twoSpaces_disjoint (i j w : ℕ) (h1 : (twoSpaces.spaces i).start ≤ w) (h2 : w < (twoSpaces.spaces i).stop)
    (h3 : (twoSpaces.spaces j).start ≤ w) (h4 : w < (twoSpaces.spaces j).stop) : i = j := by
  match i, j with
  | 0, 0 | 1, 1 => rfl
  | 0, 1 | 1, 0 | 0, _ + 2 | 1, _ + 2 | _ + 2, _ =>
    simp [twoSpaces, Space.oneBlock] at h1 h2 h3 h4
    omega

/-- mutator 0 requests a collection and is its controller; mutator 1 parks, with `word` on its stack -/
def collectBoth (word : ℕ) : List Op :=
  .call 0 .requestGc :: steps 0 9 ++ .call 1 .yieldpoint :: steps 1 3 ++
    .next 1 { words := [word], allocMap := fun _ => 0xC1 } :: steps 1 5 ++ steps 0 6

theorem roots_inside_twoSpaces : StepAt twoSpaces (collectBoth 0) 0 .gcDrain 25 ∧
    (RootsInside twoSpaces (collectBoth 0) ↔ ScansInside twoSpaces (collectBoth 0)) :=
  ⟨⟨⟨{}, rfl⟩, by decide +kernel⟩,
    roots_inside twoSpaces (collectBoth 0) twoSpaces_disjoint (by decide +kernel)⟩

/-- **A root of another space.** -/
theorem root_of_another_space : ¬ RootsInside twoSpaces (collectBoth 1048576) := by
  intro h
  have hrun : ((before twoSpaces (collectBoth 1048576) 25).thread 0).pc = .gcDrain ∧
      (before twoSpaces (collectBoth 1048576) 26).drained = [(0, []), (1, [1048576])] ∧
      spaceOf twoSpaces (collectBoth 1048576) 0 25 = 0 := by
    decide +kernel
  have hin := h 0 25 ⟨⟨{}, rfl⟩, hrun.1⟩ (1, [1048576]) (by simp [hrun.2.1]) 1048576 (by simp)
  rw [hrun.2.2] at hin
  simp [twoSpaces, Space.oneBlock] at hin

end Immix.Barrier
