/-
Line marks (`src/heap/immix/line_mark.rs`): the table of a space, the slice of it a block owns, the two scans the
allocator makes over a slice and the pass the sweep makes over it.

The table is accessed through raw pointers in the source. A store past its end lands outside the table and leaves every
entry as it was (`set`).
- `nextAvailable_some`, `nextAvailable_none`, `nextUnavailable_spec`: what the two scans find.
- `get_freshen`, `get_sweepSlice`, `sweepSlice_hasFree`: the marks after a hole is taken and after a slice is swept.
-/
import Immix.Common

namespace Immix

inductive LineMark where
  | free
  | live
  | freshAlloc
  | conservLive
  | prevLive
deriving DecidableEq, Repr

/-- the marks a sweep keeps -/
def LineMark.isLive (m : LineMark) : Prop := m = .live ∨ m = .conservLive

instance (m : LineMark) : Decidable m.isLive := by unfold LineMark.isLive; infer_instance

@[simp] theorem isLive_live : LineMark.live.isLive := .inl rfl
@[simp] theorem isLive_conservLive : LineMark.conservLive.isLive := .inr rfl
@[simp] theorem not_isLive_free : ¬ LineMark.free.isLive := by decide
@[simp] theorem not_isLive_freshAlloc : ¬ LineMark.freshAlloc.isLive := by decide

theorem LineMark.isLive.ne_free {m : LineMark} (h : m.isLive) : m ≠ .free := by rintro rfl; simp at h

structure LineMarkTable where
  spaceStart : ℕ
  len : ℕ
  get : ℕ → LineMark

namespace LineMarkTable

def new (spaceStart spaceEnd : ℕ) : LineMarkTable :=
  ⟨spaceStart, Address.diff spaceEnd spaceStart / bytesInLine, fun _ => .free⟩

def set (t : LineMarkTable) (i : ℕ) (m : LineMark) : LineMarkTable :=
  if i < t.len then { t with get := Function.update t.get i m } else t

/-- the entry of the line that holds the byte at `addr` -/
def lineOf (t : LineMarkTable) (addr : ℕ) : ℕ := Address.diff addr t.spaceStart >>> logBytesInLine

/-- the first store of `mark_line_live` -/
def markLive (t : LineMarkTable) (addr : ℕ) : LineMarkTable := t.set (t.lineOf addr) .live

/-- the second store of `mark_line_live`: not made for the last line of the table -/
def markConserv (t : LineMarkTable) (addr : ℕ) : LineMarkTable :=
  if t.lineOf addr < t.len - 1 then t.set (t.lineOf addr + 1) .conservLive else t

def markLineLive (t : LineMarkTable) (addr : ℕ) : LineMarkTable := (t.markLive addr).markConserv addr

@[simp] theorem set_len (t : LineMarkTable) (i : ℕ) (m : LineMark) : (t.set i m).len = t.len := by
  unfold set; split <;> rfl

@[simp] theorem set_spaceStart (t : LineMarkTable) (i : ℕ) (m : LineMark) : (t.set i m).spaceStart = t.spaceStart := by
  unfold set; split <;> rfl

theorem get_set (t : LineMarkTable) (i j : ℕ) (m : LineMark) :
    (t.set i m).get j = if j = i ∧ i < t.len then m else t.get j := by
  unfold set
  split
  · by_cases hj : j = i <;> simp_all
  · simp_all

@[simp] theorem markLive_len (t : LineMarkTable) (a : ℕ) : (t.markLive a).len = t.len := set_len _ _ _
@[simp] theorem markLive_spaceStart (t : LineMarkTable) (a : ℕ) : (t.markLive a).spaceStart = t.spaceStart :=
  set_spaceStart _ _ _

@[simp] theorem markConserv_len (t : LineMarkTable) (a : ℕ) : (t.markConserv a).len = t.len := by
  unfold markConserv; split <;> simp

@[simp] theorem markConserv_spaceStart (t : LineMarkTable) (a : ℕ) : (t.markConserv a).spaceStart = t.spaceStart := by
  unfold markConserv; split <;> simp

theorem len_new (start size : ℕ) : (new start (start + size)).len = size / 256 := by
  show (start + size - start) / 256 = size / 256
  rw [Nat.add_sub_cancel_left]

theorem lineOf_new (start stop addr : ℕ) : (new start stop).lineOf addr = (addr - start) / 256 := shiftRight_line _

/-- the lines `mark_line_live` of `addr` writes: its own and the next one, inside the table -/
def Covers (t : LineMarkTable) (addr j : ℕ) : Prop :=
  j < t.len ∧ (j = t.lineOf addr ∨ j = t.lineOf addr + 1)

theorem get_markLive (t : LineMarkTable) (a j : ℕ) :
    (t.markLive a).get j = if j = t.lineOf a ∧ j < t.len then .live else t.get j := by
  rw [markLive, get_set]
  by_cases h : j = t.lineOf a <;> simp [h]

theorem get_markConserv (t : LineMarkTable) (a j : ℕ) :
    (t.markConserv a).get j = if j = t.lineOf a + 1 ∧ j < t.len then .conservLive else t.get j := by
  unfold markConserv
  split_ifs with h1 h2 h2
  · rw [get_set]; simp [h2.1, h2.1 ▸ h2.2]
  · rw [get_set, if_neg (by omega)]
  · omega
  · rfl

theorem lineOf_with (t : LineMarkTable) (marks : ℕ → LineMark) (a : ℕ) :
    ({ t with get := marks } : LineMarkTable).lineOf a = t.lineOf a := rfl

/-- the line of the byte at `addr` is Live after `mark_line_live` -/
theorem get_markLineLive_lineOf (t : LineMarkTable) (a : ℕ) (ha : t.lineOf a < t.len) :
    (t.markLineLive a).get (t.lineOf a) = .live := by
  have hsame : (t.markLive a).lineOf a = t.lineOf a := by rw [lineOf, markLive_spaceStart, lineOf]
  rw [markLineLive, get_markConserv, hsame, if_neg (by omega), get_markLive, if_pos ⟨rfl, ha⟩]

end LineMarkTable

/-- a segment of the table: `len` entries from entry `ptr` on -/
structure LineMarkTableSlice where
  ptr : ℕ
  len : ℕ
deriving DecidableEq, Repr

namespace LineMarkTableSlice

variable (sl : LineMarkTableSlice) (t : LineMarkTable)

def get (i : ℕ) : LineMark := t.get (sl.ptr + i)

def set (i : ℕ) (m : LineMark) : LineMarkTable := t.set (sl.ptr + i) m

/-- the loop of `get_next_available_line` from line `i` on; the fuel is the number of lines left -/
def availableFrom : ℕ → ℕ → Option ℕ
  | 0, _ => none
  | fuel + 1, i => if sl.get t i = .free then some i else availableFrom fuel (i + 1)

def getNextAvailableLine (curLine : ℕ) : Option ℕ := sl.availableFrom t (sl.len - curLine) curLine

/-- the loop of `get_next_unavailable_line` -/
def unavailableFrom : ℕ → ℕ → ℕ
  | 0, i => i
  | fuel + 1, i => if sl.get t i = .free then unavailableFrom fuel (i + 1) else i

def getNextUnavailableLine (curLine : ℕ) : ℕ := sl.unavailableFrom t (sl.len - curLine) curLine

/-- `for line in first..last { set(line, FreshAlloc) }` -/
def freshen (first last : ℕ) : LineMarkTable :=
  (List.range' first (last - first)).foldl (fun t line => sl.set t line .freshAlloc) t

/-- one line of the sweep's pass over a slice: the mark, and whether the slice has free lines so far -/
def sweepLine (acc : LineMarkTable × Bool) (i : ℕ) : LineMarkTable × Bool :=
  if sl.get acc.1 i ≠ .live ∧ sl.get acc.1 i ≠ .conservLive then (sl.set acc.1 i .free, true) else acc

/-- the sweep's pass over a slice: the table and `has_free_lines` -/
def sweepSlice : LineMarkTable × Bool := (List.range sl.len).foldl sl.sweepLine (t, false)

/-! ## What the scans find -/

theorem availableFrom_some {fuel i j : ℕ} (h : sl.availableFrom t fuel i = some j) :
    i ≤ j ∧ j < i + fuel ∧ sl.get t j = .free ∧ ∀ k, i ≤ k → k < j → sl.get t k ≠ .free := by
  induction fuel generalizing i with
  | zero => simp [availableFrom] at h
  | succ fuel ih =>
    simp only [availableFrom] at h
    split_ifs at h with hf
    · cases h
      exact ⟨le_rfl, by omega, hf, fun k h1 h2 => by omega⟩
    · obtain ⟨h1, h2, h3, h4⟩ := ih h
      refine ⟨by omega, by omega, h3, fun k hk1 hk2 => ?_⟩
      rcases Nat.eq_or_lt_of_le hk1 with rfl | hlt
      · exact hf
      · exact h4 k hlt hk2

theorem availableFrom_none {fuel i : ℕ} (h : sl.availableFrom t fuel i = none) :
    ∀ k, i ≤ k → k < i + fuel → sl.get t k ≠ .free := by
  induction fuel generalizing i with
  | zero => intro k h1 h2; omega
  | succ fuel ih =>
    simp only [availableFrom] at h
    split_ifs at h with hf
    intro k hk1 hk2
    rcases Nat.eq_or_lt_of_le hk1 with rfl | hlt
    · exact hf
    · exact ih h k hlt (by omega)

theorem unavailableFrom_spec (fuel i : ℕ) :
    i ≤ sl.unavailableFrom t fuel i ∧ sl.unavailableFrom t fuel i ≤ i + fuel ∧
      (∀ k, i ≤ k → k < sl.unavailableFrom t fuel i → sl.get t k = .free) ∧
      (sl.unavailableFrom t fuel i < i + fuel → sl.get t (sl.unavailableFrom t fuel i) ≠ .free) := by
  induction fuel generalizing i with
  | zero => exact ⟨le_rfl, le_rfl, fun k h1 h2 => by simp [unavailableFrom] at h2; omega, fun h => by
      simp [unavailableFrom] at h⟩
  | succ fuel ih =>
    simp only [unavailableFrom]
    split_ifs with hf
    · obtain ⟨h1, h2, h3, h4⟩ := ih (i + 1)
      refine ⟨by omega, by omega, fun k hk1 hk2 => ?_, fun h => h4 (by omega)⟩
      rcases Nat.eq_or_lt_of_le hk1 with rfl | hlt
      · exact hf
      · exact h3 k hlt hk2
    · exact ⟨le_rfl, by omega, fun k h1 h2 => by omega, fun _ => hf⟩

/-- the line found is the first free one at or after the line asked for -/
theorem nextAvailable_some {cur j : ℕ} (h : sl.getNextAvailableLine t cur = some j) :
    cur ≤ j ∧ j < sl.len ∧ sl.get t j = .free ∧ ∀ k, cur ≤ k → k < j → sl.get t k ≠ .free := by
  obtain ⟨h1, h2, h3, h4⟩ := sl.availableFrom_some t h
  exact ⟨h1, by omega, h3, h4⟩

theorem nextAvailable_none {cur : ℕ} (h : sl.getNextAvailableLine t cur = none) :
    ∀ k, cur ≤ k → k < sl.len → sl.get t k ≠ .free :=
  fun k h1 h2 => sl.availableFrom_none t h k h1 (by omega)

/-- the scan for the end of a hole stops at the first line that is not free, or at the end of the slice -/
theorem nextUnavailable_spec {cur : ℕ} (hcur : cur ≤ sl.len) :
    cur ≤ sl.getNextUnavailableLine t cur ∧ sl.getNextUnavailableLine t cur ≤ sl.len ∧
      (∀ k, cur ≤ k → k < sl.getNextUnavailableLine t cur → sl.get t k = .free) ∧
      (sl.getNextUnavailableLine t cur < sl.len → sl.get t (sl.getNextUnavailableLine t cur) ≠ .free) := by
  obtain ⟨h1, h2, h3, h4⟩ := sl.unavailableFrom_spec t (sl.len - cur) cur
  exact ⟨h1, by unfold getNextUnavailableLine; omega, h3, fun h => h4 (by unfold getNextUnavailableLine at h; omega)⟩

/-- a hole that starts at a free line has at least one line -/
theorem nextUnavailable_gt {cur : ℕ} (hcur : cur < sl.len) (hf : sl.get t cur = .free) :
    cur < sl.getNextUnavailableLine t cur := by
  obtain ⟨h1, -, -, h4⟩ := sl.nextUnavailable_spec t hcur.le
  rcases Nat.eq_or_lt_of_le h1 with h | h
  · exact absurd hf (h ▸ h4 (h ▸ hcur))
  · exact h

/-! ## The marks after a hole is taken -/

@[simp] theorem freshen_len (first last : ℕ) : (sl.freshen t first last).len = t.len := by
  unfold freshen
  generalize List.range' first (last - first) = l
  induction l generalizing t with
  | nil => rfl
  | cons i l ih => rw [List.foldl_cons, ih]; exact LineMarkTable.set_len _ _ _

@[simp] theorem freshen_spaceStart (first last : ℕ) : (sl.freshen t first last).spaceStart = t.spaceStart := by
  unfold freshen
  generalize List.range' first (last - first) = l
  induction l generalizing t with
  | nil => rfl
  | cons i l ih => rw [List.foldl_cons, ih]; exact LineMarkTable.set_spaceStart _ _ _

theorem get_freshenList (l : List ℕ) (hl : ∀ i ∈ l, sl.ptr + i < t.len) (j : ℕ) :
    (l.foldl (fun t line => sl.set t line .freshAlloc) t).get j =
      if ∃ i ∈ l, j = sl.ptr + i then .freshAlloc else t.get j := by
  induction l generalizing t with
  | nil => simp
  | cons i l ih =>
    have hi : sl.ptr + i < t.len := hl i List.mem_cons_self
    rw [List.foldl_cons, ih (sl.set t i .freshAlloc) fun k hk => by
      simpa [LineMarkTableSlice.set] using hl k (List.mem_cons_of_mem i hk)]
    simp only [LineMarkTableSlice.set, LineMarkTable.get_set, hi, and_true, List.mem_cons, exists_eq_or_imp]
    by_cases h : j = sl.ptr + i <;> simp [h]

theorem get_freshen {first last : ℕ} (hlast : sl.ptr + last ≤ t.len) (j : ℕ) :
    (sl.freshen t first last).get j =
      if sl.ptr + first ≤ j ∧ j < sl.ptr + last then .freshAlloc else t.get j := by
  have hmem : ∀ i ∈ List.range' first (last - first), sl.ptr + i < t.len := fun i hi => by
    simp only [List.mem_range'_1] at hi; omega
  rw [freshen, get_freshenList sl t _ hmem]
  have : (∃ i ∈ List.range' first (last - first), j = sl.ptr + i) ↔ sl.ptr + first ≤ j ∧ j < sl.ptr + last := by
    simp only [List.mem_range'_1]
    constructor
    · rintro ⟨i, hi, rfl⟩; omega
    · intro h; exact ⟨j - sl.ptr, by omega, by omega⟩
  simp only [this]

/-! ## The marks after a slice is swept -/

/-- the sweep's pass over the lines `l` of a slice -/
theorem sweepLines_spec (l : List ℕ) (hl : ∀ i ∈ l, sl.ptr + i < t.len) (b : Bool) :
    (l.foldl sl.sweepLine (t, b)).1.len = t.len ∧ (l.foldl sl.sweepLine (t, b)).1.spaceStart = t.spaceStart ∧
      (∀ j, (l.foldl sl.sweepLine (t, b)).1.get j =
        if (∃ i ∈ l, j = sl.ptr + i) ∧ ¬ (t.get j).isLive then .free else t.get j) ∧
      ((l.foldl sl.sweepLine (t, b)).2 = true ↔ b = true ∨ ∃ i ∈ l, ¬ (sl.get t i).isLive) := by
  induction l generalizing t b with
  | nil => simp
  | cons i l ih =>
    have hi : sl.ptr + i < t.len := hl i List.mem_cons_self
    have hl' : ∀ k ∈ l, sl.ptr + k < t.len := fun k hk => hl k (List.mem_cons_of_mem i hk)
    rw [List.foldl_cons]
    by_cases hlive : (sl.get t i).isLive
    · have hstep : sl.sweepLine (t, b) i = (t, b) := by
        unfold sweepLine LineMark.isLive at *; rw [if_neg (by tauto)]
      rw [hstep]
      obtain ⟨h1, h2, h3, h4⟩ := ih t hl' b
      refine ⟨h1, h2, fun j => ?_, ?_⟩
      · rw [h3 j]
        by_cases hj : j = sl.ptr + i
        · subst hj
          have : (t.get (sl.ptr + i)).isLive := hlive
          simp [this]
        · simp [hj]
      · rw [h4]; simp [hlive]
    · have hstep : sl.sweepLine (t, b) i = (sl.set t i .free, true) := by
        unfold sweepLine LineMark.isLive at *; rw [if_pos (by tauto)]
      rw [hstep]
      have hget : ∀ j, (sl.set t i .free).get j = if j = sl.ptr + i then .free else t.get j := fun j => by
        rw [LineMarkTableSlice.set, LineMarkTable.get_set]; simp [hi]
      obtain ⟨h1, h2, h3, h4⟩ := ih (sl.set t i .free) (fun k hk => by simpa [set] using hl' k hk) true
      refine ⟨by rw [h1]; exact LineMarkTable.set_len _ _ _, by rw [h2]; exact LineMarkTable.set_spaceStart _ _ _,
        fun j => ?_, ?_⟩
      · rw [h3 j, hget j]
        by_cases hj : j = sl.ptr + i
        · subst hj
          have : ¬ (t.get (sl.ptr + i)).isLive := hlive
          simp [this]
        · simp [hj]
      · rw [h4]; simp [hlive]

variable (hsl : sl.ptr + sl.len ≤ t.len)

section
include hsl

theorem sweepSlice_table :
    (sl.sweepSlice t).1.len = t.len ∧ (sl.sweepSlice t).1.spaceStart = t.spaceStart := by
  obtain ⟨h1, h2, -, -⟩ := sl.sweepLines_spec t (List.range sl.len) (fun i hi => by simp at hi; omega) false
  exact ⟨h1, h2⟩

/-- every line of the slice that is not Live or ConservLive becomes Free; nothing else changes -/
theorem get_sweepSlice (j : ℕ) :
    (sl.sweepSlice t).1.get j =
      if (sl.ptr ≤ j ∧ j < sl.ptr + sl.len) ∧ ¬ (t.get j).isLive then .free else t.get j := by
  obtain ⟨-, -, h3, -⟩ := sl.sweepLines_spec t (List.range sl.len) (fun i hi => by simp at hi; omega) false
  have : (∃ i ∈ List.range sl.len, j = sl.ptr + i) ↔ sl.ptr ≤ j ∧ j < sl.ptr + sl.len := by
    simp only [List.mem_range]
    constructor
    · rintro ⟨i, hi, rfl⟩; omega
    · intro h; exact ⟨j - sl.ptr, by omega, by omega⟩
  rw [sweepSlice, h3 j]
  simp only [this]

theorem sweepSlice_hasFree : (sl.sweepSlice t).2 = true ↔ ∃ i < sl.len, ¬ (sl.get t i).isLive := by
  obtain ⟨-, -, -, h4⟩ := sl.sweepLines_spec t (List.range sl.len) (fun i hi => by simp at hi; omega) false
  rw [sweepSlice, h4]
  simp

end

end LineMarkTableSlice

end Immix
