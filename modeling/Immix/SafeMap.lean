/-
The bounds check of `SafeAddressMap` (`new_of`, `get`, `Index` and `IndexMut` of `src/common/address_map.rs`).

A reference to an entry is its position in the vector. `checks` says whether the build has overflow checks: an operation
on two `usize`s that does not fit panics (`none`) or wraps. Memory is assumed to suffice.
- `Exact`: `get` answers as two comparisons would, and as `Index` and `IndexMut` do.
- `exact_of_len`: it does in every map with one entry for each granule.
- `traceMap_new`: the map `TraceMap` keeps.
- `safe_map_iff`: `new_of` builds such a map unless its sum overflows.
- `whole_address_space`: the map of all addresses but one has no entry.
-/
import Immix.SideTables

namespace Immix

/-! ## Model -/

def usizeAdd (checks : Bool) (a b : ℕ) : Option ℕ :=
  if a + b < usize then some (a + b) else if checks then none else some (a + b - usize)

def usizeSub (checks : Bool) (a b : ℕ) : Option ℕ :=
  if b ≤ a then some (a - b) else if checks then none else some (wrappingSub a b)

/-- `addresses i` is entry `i` of the vector, for `i` below `len` -/
structure SafeAddressMap (α : Type*) where
  offset : ℕ
  len : ℕ
  addresses : ℕ → α

namespace SafeAddressMap

variable {α : Type*}

/-- `((end - start) + ptr_size - 1) / ptr_size` -/
def lenOf (checks : Bool) (start stop : ℕ) : Option ℕ := do
  let bytes ← usizeSub checks stop start
  let sum ← usizeAdd checks bytes pointerSize
  let sum ← usizeSub checks sum 1
  return sum / pointerSize

/-- `f i` is the answer of call `i` of the closure; `none` when the build panics -/
def newOf (checks : Bool) (start stop : ℕ) (f : ℕ → α) : Option (SafeAddressMap α) :=
  (lenOf checks start stop).map fun len => ⟨start, len, f⟩

variable (m : SafeAddressMap α)

/-- `get` of the vector -/
def entry (i : ℕ) : Option (Fin m.len) := if h : i < m.len then some ⟨i, h⟩ else none

def get (index : ℕ) : Option (Fin m.len) := m.entry (wrappingSub index m.offset / pointerSize)

/-- `Index::index`; `none` when it panics -/
def index (checks : Bool) (index : ℕ) : Option (Fin m.len) :=
  (usizeSub checks index m.offset).bind fun d => m.entry (d / pointerSize)

/-- `IndexMut::index_mut` -/
def indexMut (checks : Bool) (index : ℕ) : Option (Fin m.len) :=
  (usizeSub checks index m.offset).bind fun d => m.entry (d / pointerSize)

/-- a trace map over this map, with any entries -/
def traceMap (entries : ℕ → UInt8) (markState : UInt8) : TraceMap := ⟨m.offset, m.len, entries, markState⟩

/-- the first address past the granules of a space from `start` to `stop` -/
def granulesEnd (start stop : ℕ) : ℕ := start + 8 * ((stop - start + 7) / 8)

/-- **The bounds check is exact** for the granules of the space from `start` to `stop`. -/
structure Exact (checks : Bool) (start stop : ℕ) : Prop where
  isSome : ∀ i < usize, (m.get i).isSome = true ↔ start ≤ i ∧ i < granulesEnd start stop
  /-- the subtraction of `Index` and `IndexMut` does not wrap where `get` answers -/
  select : ∀ i < usize, ∀ r, m.get i = some r → m.offset ≤ i ∧ m.index checks i = some r ∧ m.indexMut checks i = some r
  granule : ∀ i < usize, ∀ j < usize, ∀ r r', m.get i = some r → m.get j = some r' →
    (r = r' ↔ granule start i = granule start j)
  null : 0 < start → ∀ entries markState, (m.traceMap entries markState).isUntracedAndValid 0 = false
  outside : ∀ i < usize, ¬ (start ≤ i ∧ i < granulesEnd start stop) → ∀ entries markState,
    (m.traceMap entries markState).isUntracedAndValid i = false

/-! ## The check -/

variable {m} {checks : Bool} {start stop : ℕ}

theorem entry_eq_some {i : ℕ} {r : Fin m.len} : m.entry i = some r ↔ (r : ℕ) = i := by
  unfold entry
  split_ifs with h
  · rw [Option.some_inj, Fin.ext_iff]
    exact eq_comm
  · exact iff_of_false (fun hnone => by cases hnone) fun heq => h (heq ▸ r.isLt)

/-- `get` is the check of the trace map over this map -/
theorem get_isSome (entries : ℕ → UInt8) (markState : UInt8) (i : ℕ) :
    (m.get i).isSome = true ↔ (m.traceMap entries markState).normalized i < (m.traceMap entries markState).len := by
  unfold get entry
  show (dite _ _ _ : Option (Fin m.len)).isSome = true ↔ wrappingSub i m.offset / pointerSize < m.len
  split_ifs with h
  · exact iff_of_true rfl h
  · exact iff_of_false Bool.false_ne_true h

theorem get_eq_some (hfits : (m.traceMap (fun _ => 0) 0).Fits) {i : ℕ} (hi : i < usize) {r : Fin m.len} :
    m.get i = some r ↔ (m.offset ≤ i ∧ i < m.offset + 8 * m.len) ∧ (r : ℕ) = granule m.offset i := by
  obtain ⟨hlt, heq⟩ := TraceMap.normalized_lt hfits hi
  constructor
  · intro h
    have hin : m.offset ≤ i ∧ i < m.offset + 8 * m.len := hlt.1 ((get_isSome _ _ i).1 (by rw [h]; rfl))
    exact ⟨hin, (entry_eq_some.1 h).trans (heq hin)⟩
  · rintro ⟨hin, hr⟩
    exact entry_eq_some.2 (hr.trans (heq hin).symm)

variable (checks) in
/-- where the index is in the map, nothing wraps -/
theorem index_of_le {i : ℕ} (h : m.offset ≤ i) :
    m.index checks i = m.entry (granule m.offset i) ∧ m.indexMut checks i = m.entry (granule m.offset i) := by
  have hsub : usizeSub checks i m.offset = some (i - m.offset) := if_pos h
  constructor
  · rw [index, hsub]
    rfl
  · rw [indexMut, hsub]
    rfl

/-- **The check is exact** in a map with one entry for each granule, the last one rounded up. -/
theorem exact_of_len (hoffset : m.offset = start) (hlen : m.len = (stop - start + 7) / 8)
    (hfit : granulesEnd start stop ≤ usize) : m.Exact checks start stop := by
  have hend : m.offset + 8 * m.len = granulesEnd start stop := by rw [hoffset, hlen, granulesEnd]
  have hfits : ∀ entries markState, (m.traceMap entries markState).Fits := by
    intro entries markState
    show m.offset + 8 * m.len ≤ usize
    rw [hend]
    exact hfit
  have houtside : ∀ i < usize, ¬ (start ≤ i ∧ i < granulesEnd start stop) → ∀ entries markState,
      (m.traceMap entries markState).isUntracedAndValid i = false := by
    intro i hi hout entries markState
    rw [← Bool.not_eq_true, TraceMap.isUntracedAndValid_iff (hfits entries markState) hi]
    rintro ⟨hin, -⟩
    have hrange : m.offset ≤ i ∧ i < m.offset + 8 * m.len := hin
    rw [hend, hoffset] at hrange
    exact hout hrange
  refine ⟨fun i hi => ?_, fun i hi r hr => ?_, fun i hi j hj r r' hr hr' => ?_, fun hpos => ?_, houtside⟩
  · rw [get_isSome (fun _ => 0) 0, (TraceMap.normalized_lt (hfits _ _) hi).1, ← hend, ← hoffset]
    exact Iff.rfl
  · obtain ⟨hin, hval⟩ := (get_eq_some (hfits _ _) hi).1 hr
    obtain ⟨h1, h2⟩ := index_of_le checks hin.1
    exact ⟨hin.1, h1.trans (entry_eq_some.2 hval), h2.trans (entry_eq_some.2 hval)⟩
  · rw [Fin.ext_iff, ((get_eq_some (hfits _ _) hi).1 hr).2, ((get_eq_some (hfits _ _) hj).1 hr').2, hoffset]
  · apply houtside 0 (by unfold usize; norm_num)
    omega

/-- an exact map of a space with a granule has an entry -/
theorem Exact.len_pos (h : m.Exact checks start stop) (hstart : start < usize) (hlt : start < granulesEnd start stop) :
    0 < m.len := by
  have hget := (h.isSome start hstart).2 ⟨le_rfl, hlt⟩
  rw [get_isSome (fun _ => 0) 0] at hget
  exact Nat.zero_lt_of_lt hget

/-! ## The constructor -/

/-- the three operations that can overflow -/
theorem lenOf_eq (hle : start ≤ stop) :
    lenOf checks start stop =
      if stop - start + 8 < usize then some ((stop - start + 7) / 8)
      else if checks then none
      else some ((if stop - start + 8 = usize then usize - 1 else stop - start + 7 - usize) / 8) := by
  have hsub : usizeSub checks stop start = some (stop - start) := if_pos hle
  unfold lenOf
  rw [hsub]
  show (usizeAdd checks (stop - start) 8).bind _ = _
  unfold usizeAdd
  split_ifs with hsum hchecks hzero
  · rw [Option.bind_some]
    unfold usizeSub
    rw [if_pos (by omega)]
    rfl
  · rfl
  · rw [Option.bind_some, hzero, Nat.sub_self]
    unfold usizeSub
    rw [if_neg (by omega), if_neg hchecks]
    rfl
  · rw [Option.bind_some]
    unfold usizeSub
    rw [if_pos (by omega), show stop - start + 8 - usize - 1 = stop - start + 7 - usize by omega]
    rfl

/-- without an overflow, the map of a new `TraceMap` is the one `new_of` builds -/
theorem traceMap_new (hle : start ≤ stop) (hsum : stop - start + 8 < usize) (f : ℕ → α) :
    (newOf checks start stop f).map (fun m => m.traceMap (fun _ => 0) 0) = some (TraceMap.new start stop) := by
  rw [newOf, lenOf_eq hle, if_pos hsum]
  rfl

/-- **When the bounds check is exact.** For all 64-bit `start` and `stop` whose granules end in the address space, in
every build and for every closure: `new_of` builds a map whose check is exact, if and only if
`(end - start) + ptr_size - 1` does not overflow. -/
theorem safe_map_iff (checks : Bool) (start stop : ℕ) (hle : start ≤ stop) (hstop : stop < usize)
    (hfit : granulesEnd start stop ≤ usize) (f : ℕ → α) :
    (∃ m, newOf checks start stop f = some m ∧ m.Exact checks start stop) ↔
      stop - start + (if checks then 8 else 7) < usize := by
  have hwords : 8 ≤ usize := by
    unfold usize
    norm_num
  unfold newOf
  rw [lenOf_eq hle]
  by_cases hsum : stop - start + 8 < usize
  · rw [if_pos hsum]
    refine iff_of_true ⟨_, rfl, exact_of_len rfl rfl hfit⟩ ?_
    split_ifs <;> omega
  rw [if_neg hsum]
  cases checks with
  | true => simp [hsum]
  | false =>
    simp only [Bool.false_eq_true, if_false]
    by_cases hzero : stop - start + 8 = usize
    · -- the sum wraps to 0, and back
      rw [if_pos hzero]
      refine iff_of_true ⟨_, rfl, exact_of_len rfl ?_ hfit⟩ (by omega)
      show (usize - 1) / 8 = (stop - start + 7) / 8
      rw [← hzero]
      rfl
    · -- the vector is empty
      rw [if_neg hzero]
      refine iff_of_false ?_ (by omega)
      rintro ⟨m, hm, hexact⟩
      have hsmall : (stop - start + 7 - usize) / 8 = 0 := by omega
      rw [hsmall, Option.map_some, Option.some_inj] at hm
      subst hm
      have hfirst : start < granulesEnd start stop := by
        unfold granulesEnd
        omega
      exact absurd (hexact.len_pos (by omega) hfirst) (Nat.lt_irrefl 0)

/-- 13 bytes, so two granules, in a build with overflow checks -/
theorem safe_map_iff_rounded :
    (∃ m, newOf true 524288 524301 (fun _ => (0 : UInt8)) = some m ∧ m.Exact true 524288 524301) ↔
      524301 - 524288 + (if true then 8 else 7) < usize :=
  safe_map_iff true 524288 524301 (by norm_num) (by unfold usize; norm_num)
    (by unfold granulesEnd usize; norm_num) fun _ => 0

/-- **The whole address space.** From address 0 to the last one, 2^61 granules: the sum wraps to 6 and the map has no
entry, or the sum panics. -/
theorem whole_address_space :
    (2 ^ 64 - 1 < usize ∧ granulesEnd 0 (2 ^ 64 - 1) ≤ usize) ∧
      (∀ f : ℕ → UInt8, newOf false 0 (2 ^ 64 - 1) f = some ⟨0, 0, f⟩) ∧
      (∀ f : ℕ → UInt8, newOf true 0 (2 ^ 64 - 1) f = none) ∧
      ∀ checks, ¬ ∃ m, newOf checks 0 (2 ^ 64 - 1) (fun _ => (0 : UInt8)) = some m ∧ m.Exact checks 0 (2 ^ 64 - 1) := by
  have hfits : 2 ^ 64 - 1 < usize ∧ granulesEnd 0 (2 ^ 64 - 1) ≤ usize := by
    unfold granulesEnd usize
    norm_num
  have hlen : lenOf false 0 (2 ^ 64 - 1) = some 0 ∧ lenOf true 0 (2 ^ 64 - 1) = none := by
    rw [lenOf_eq (Nat.zero_le _), lenOf_eq (Nat.zero_le _)]
    unfold usize
    norm_num
  refine ⟨hfits, fun f => ?_, fun f => ?_, fun checks => ?_⟩
  · rw [newOf, hlen.1]
    rfl
  · rw [newOf, hlen.2]
    rfl
  · rintro ⟨m, hm, hexact⟩
    cases checks with
    | true =>
      rw [newOf, hlen.2] at hm
      cases hm
    | false =>
      rw [newOf, hlen.1, Option.map_some, Option.some_inj] at hm
      subst hm
      have hfirst : 0 < granulesEnd 0 (2 ^ 64 - 1) := by
        unfold granulesEnd
        norm_num
      exact absurd (hexact.len_pos (by unfold usize; norm_num) hfirst) (Nat.lt_irrefl 0)

end SafeAddressMap

end Immix
