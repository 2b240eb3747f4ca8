/-
The C mutator (`ImmixMutatorLocal_alloc` of `c_src/immix.h`, `ImmixMutatorLocal_try_alloc_from_local` of
`c_src/immix_mutator.c`, the scans of `c_src/immix_space.c`) and its agreement with the Rust one on a block.

Both allocators are run on a list of requests from the moment `alloc_from_global` has installed a block, until a request
falls through to `alloc_from_global` again. The two functions call each other; the fuel counts the calls of `alloc`, and
`serve_agree` says that one call for each line, and one more, is enough. The `memset` of a hole is left out: it writes
no field that is compared.
- `Agree`: the two mutators on one block of a space, with the same table.
- `next_available_agree`, `next_unavailable_agree`: the scans, -1 against `None`.
- `allocators_agree`: the same addresses, fall-through, cursor, limit, line and marks, for every list of requests.
-/
import Immix.Mutator
import Immix.CScalars

namespace Immix

/-- how a call of `alloc` ends: with an address, at the call of `alloc_from_global`, or at a missing block -/
inductive Served (σ : Type*) where
  | address (a : ℕ) (s : σ)
  | allocFromGlobal (s : σ)
  | noBlock

/-- a request with a size and an alignment that an `int` holds -/
structure Request where
  size : ℕ
  align : ℕ
  size_pos : 1 ≤ size
  size_lt : size < 2 ^ 31
  align_pow : ∃ k < 31, align = 2 ^ k

def Request.layout (r : Request) : Layout where
  size := r.size
  align := r.align
  pow := let ⟨k, _, hk⟩ := r.align_pow; ⟨k, hk⟩
  fits := by
    obtain ⟨k, hk, hal⟩ := r.align_pow
    have hpow : (2 : ℕ) ^ k < 2 ^ 31 := Nat.pow_lt_pow_right (by norm_num) hk
    have := r.size_lt
    omega

/-! ## The Rust mutator -/

/-- `alloc` and `try_alloc_from_local`; `none` when the fuel runs out -/
def ImmixMutatorLocal.alloc (layout : Layout) :
    ℕ → ImmixMutatorLocal × LineMarkTable → Option (Served (ImmixMutatorLocal × LineMarkTable))
  | 0, _ => none
  | fuel + 1, (x, t) =>
    match x.bump layout with
    | some (a, x') => some (.address a (x', t))
    | none =>
      match x.tryAllocFromLocal t with
      | .hole x' t' => alloc layout fuel (x', t')
      | .none => some (.allocFromGlobal (x, t))
      | .panicked => some .noBlock

namespace C

/-! ## The C mutator -/

/-- `lineMarkPtr` is the entry of the table that the pointer names -/
structure ImmixBlock where
  start : ℕ
  lineMarkPtr : ℕ
  lineMarkLen : ℤ

structure ImmixMutatorLocal where
  cursor : ℕ
  limit : ℕ
  line : ℕ
  /-- `none` is the null pointer -/
  block : Option ImmixBlock

namespace ImmixBlock

/-- the entry `line_mark_ptr[i]` -/
def entry (b : ImmixBlock) (i : ℤ) : ℕ := ((b.lineMarkPtr : ℤ) + i).toNat

/-- the loop from `i` on; the fuel bounds the number of lines left -/
def nextAvailableFrom (b : ImmixBlock) (t : ℕ → LineMark) : ℕ → ℤ → ℤ
  | 0, _ => -1
  | fuel + 1, i =>
    if i < b.lineMarkLen then
      if t (b.entry i) = .free then i else nextAvailableFrom b t fuel (i + 1)
    else -1

def getNextAvaiableLine (b : ImmixBlock) (t : ℕ → LineMark) (line : ℤ) : ℤ :=
  b.nextAvailableFrom t (b.lineMarkLen - line).toNat line

def nextUnavailableFrom (b : ImmixBlock) (t : ℕ → LineMark) : ℕ → ℤ → ℤ
  | 0, i => i
  | fuel + 1, i =>
    if i < b.lineMarkLen then
      if t (b.entry i) = .free then nextUnavailableFrom b t fuel (i + 1) else i
    else i

def getNextUnavailableLine (b : ImmixBlock) (t : ℕ → LineMark) (line : ℤ) : ℤ :=
  b.nextUnavailableFrom t (b.lineMarkLen - line).toNat line

end ImmixBlock

namespace ImmixMutatorLocal

/-- `for (; line < end_line; line++) line_mark_ptr[line] = IMMIX_LINE_MARK_FRESH_ALLOC` -/
def freshen (b : ImmixBlock) (t : ℕ → LineMark) (line endLine : ℤ) : ℕ → LineMark :=
  (List.range (endLine - line).toNat).foldl (fun t (i : ℕ) => Function.update t (b.entry (line + i)) .freshAlloc) t

/-- the fast path of `alloc`: the address returned, or `none` where it calls `try_alloc_from_local` -/
def bump (x : ImmixMutatorLocal) (size align : ℤ) : Option (ℕ × ImmixMutatorLocal) :=
  let start := alignUp x.cursor align
  let stop := uintptr (start + size)
  if stop > x.limit then none else some (start, { x with cursor := stop })

def alloc (size align : ℤ) :
    ℕ → ImmixMutatorLocal × (ℕ → LineMark) → Option (Served (ImmixMutatorLocal × (ℕ → LineMark)))
  | 0, _ => none
  | fuel + 1, (x, t) =>
    match x.bump size align with
    | some (a, x') => some (.address a (x', t))
    | none =>
      if x.line < linesInBlock then
        match x.block with
        | none => some .noBlock
        | some b =>
          let nextAvailableLine := b.getNextAvaiableLine t (toInt x.line)
          if nextAvailableLine ≠ -1 then
            let endLine := b.getNextUnavailableLine t nextAvailableLine
            let x' : ImmixMutatorLocal :=
              ⟨uintptr (b.start + nextAvailableLine <<< logBytesInLine),
                uintptr (b.start + endLine <<< logBytesInLine), uintptr endLine, some b⟩
            alloc size align fuel (x', freshen b t nextAvailableLine endLine)
          else some (.allocFromGlobal (x, t))
      else some (.allocFromGlobal (x, t))

/-- `alloc_from_global` with the block it took -/
def useBlock (_ : ImmixMutatorLocal) (b : ImmixBlock) : ImmixMutatorLocal := ⟨b.start, b.start, 0, some b⟩

end ImmixMutatorLocal

end C

/-! ## Requests -/

/-- what a mutator has handed out when it stops: at the end of the list, or at the first request that falls through -/
structure Session (σ : Type*) where
  addresses : List ℕ
  fellThrough : Bool
  state : σ

/-- `none` when a call does not return an address and does not get to `alloc_from_global` -/
def serve {σ : Type*} (alloc : Request → σ → Option (Served σ)) : List Request → σ → Option (Session σ)
  | [], s => some ⟨[], false, s⟩
  | r :: requests, s =>
    match alloc r s with
    | some (.address a s') =>
      (serve alloc requests s').map fun u => { u with addresses := a :: u.addresses }
    | some (.allocFromGlobal s') => some ⟨[], true, s'⟩
    | some .noBlock => none
    | none => none

/-- two calls that end in the same way, with the same address, in related states -/
inductive ServedRel {σ τ : Type*} (R : σ → τ → Prop) : Served σ → Served τ → Prop where
  | address {a : ℕ} {s : σ} {t : τ} : R s t → ServedRel R (.address a s) (.address a t)
  | allocFromGlobal {s : σ} {t : τ} : R s t → ServedRel R (.allocFromGlobal s) (.allocFromGlobal t)

/-- **Simulation of sessions.** When every call keeps two states related and ends in the same way, so does every list of
requests. -/
theorem serve_rel {σ τ : Type*} {R : σ → τ → Prop} {f : Request → σ → Option (Served σ)}
    {g : Request → τ → Option (Served τ)}
    (hstep : ∀ r s t, R s t → ∃ o o', f r s = some o ∧ g r t = some o' ∧ ServedRel R o o') (requests : List Request)
    {s : σ} {t : τ} (h : R s t) :
    ∃ u v, serve f requests s = some u ∧ serve g requests t = some v ∧ v.addresses = u.addresses ∧
      v.fellThrough = u.fellThrough ∧ R u.state v.state := by
  induction requests generalizing s t with
  | nil => exact ⟨⟨[], false, s⟩, ⟨[], false, t⟩, rfl, rfl, rfl, rfl, h⟩
  | cons r requests ih =>
    obtain ⟨o, o', hf, hg, hrel⟩ := hstep r s t h
    cases hrel with
    | @address a s' t' h' =>
      obtain ⟨u, v, hu, hv, h1, h2, h3⟩ := ih h'
      refine ⟨{ u with addresses := a :: u.addresses }, { v with addresses := a :: v.addresses }, ?_, ?_, ?_, h2, h3⟩
      · simp only [serve, hf, hu, Option.map_some]
      · simp only [serve, hg, hv, Option.map_some]
      · simp only [h1]
    | @allocFromGlobal s' t' h' =>
      refine ⟨⟨[], true, s'⟩, ⟨[], true, t'⟩, ?_, ?_, rfl, rfl, h'⟩
      · rw [serve, hf]
      · rw [serve, hg]

/-! ## The scans and the marks -/

namespace C

/-- a block, as the C program sees it -/
def ImmixBlock.ofBlock (b : Immix.ImmixBlock) : ImmixBlock := ⟨b.start, b.lineMarkTable.ptr, b.lineMarkTable.len⟩

section Scans

variable {b : Immix.ImmixBlock} {t : LineMarkTable}

@[simp] theorem entry_natCast (i : ℕ) : (ImmixBlock.ofBlock b).entry i = b.lineMarkTable.ptr + i := by
  show ((b.lineMarkTable.ptr : ℤ) + i).toNat = _
  omega

theorem nextAvailableFrom_agree {fuel i : ℕ} (h : i + fuel = b.lineMarkTable.len) :
    (ImmixBlock.ofBlock b).nextAvailableFrom t.get fuel i =
      match b.lineMarkTable.availableFrom t fuel i with
      | some j => (j : ℤ)
      | none => -1 := by
  induction fuel generalizing i with
  | zero => rfl
  | succ fuel ih =>
    have hlt : (i : ℤ) < (ImmixBlock.ofBlock b).lineMarkLen := by
      show (i : ℤ) < (b.lineMarkTable.len : ℤ)
      omega
    have hnext := ih (i := i + 1) (by omega)
    rw [ImmixBlock.nextAvailableFrom, if_pos hlt, LineMarkTableSlice.availableFrom, entry_natCast]
    show (if b.lineMarkTable.get t i = .free then (i : ℤ) else _) = _
    split_ifs with hfree
    · rfl
    · exact_mod_cast hnext

theorem nextUnavailableFrom_agree {fuel i : ℕ} (h : i + fuel = b.lineMarkTable.len) :
    (ImmixBlock.ofBlock b).nextUnavailableFrom t.get fuel i = (b.lineMarkTable.unavailableFrom t fuel i : ℤ) := by
  induction fuel generalizing i with
  | zero => rfl
  | succ fuel ih =>
    have hlt : (i : ℤ) < (ImmixBlock.ofBlock b).lineMarkLen := by
      show (i : ℤ) < (b.lineMarkTable.len : ℤ)
      omega
    have hnext := ih (i := i + 1) (by omega)
    rw [ImmixBlock.nextUnavailableFrom, if_pos hlt, LineMarkTableSlice.unavailableFrom, entry_natCast]
    show (if b.lineMarkTable.get t i = .free then _ else (i : ℤ)) = _
    split_ifs with hfree
    · exact_mod_cast hnext
    · rfl

/-- the scan of the C program answers -1 where the Rust one answers `None` -/
theorem next_available_agree {line : ℕ} (h : line ≤ b.lineMarkTable.len) :
    (ImmixBlock.ofBlock b).getNextAvaiableLine t.get line =
      match b.lineMarkTable.getNextAvailableLine t line with
      | some j => (j : ℤ)
      | none => -1 := by
  have hfuel : ((ImmixBlock.ofBlock b).lineMarkLen - line).toNat = b.lineMarkTable.len - line := by
    show ((b.lineMarkTable.len : ℤ) - line).toNat = _
    omega
  rw [ImmixBlock.getNextAvaiableLine, hfuel]
  exact nextAvailableFrom_agree (by omega)

theorem next_unavailable_agree {line : ℕ} (h : line ≤ b.lineMarkTable.len) :
    (ImmixBlock.ofBlock b).getNextUnavailableLine t.get line = (b.lineMarkTable.getNextUnavailableLine t line : ℤ) := by
  have hfuel : ((ImmixBlock.ofBlock b).lineMarkLen - line).toNat = b.lineMarkTable.len - line := by
    show ((b.lineMarkTable.len : ℤ) - line).toNat = _
    omega
  rw [ImmixBlock.getNextUnavailableLine, hfuel]
  exact nextUnavailableFrom_agree (by omega)

/-- the two loops that mark a hole write the same entries -/
theorem freshen_agree {first last : ℕ} (hle : first ≤ last) (hlen : b.lineMarkTable.ptr + last ≤ t.len) :
    ImmixMutatorLocal.freshen (ImmixBlock.ofBlock b) t.get first last = (b.lineMarkTable.freshen t first last).get := by
  have hfold : ∀ n j, (List.range n).foldl (fun t (i : ℕ) =>
      Function.update t ((ImmixBlock.ofBlock b).entry ((first : ℤ) + i)) .freshAlloc) t.get j =
        if b.lineMarkTable.ptr + first ≤ j ∧ j < b.lineMarkTable.ptr + first + n then .freshAlloc else t.get j := by
    intro n j
    induction n with
    | zero => simp
    | succ n ih =>
      have hentry : (ImmixBlock.ofBlock b).entry ((first : ℤ) + n) = b.lineMarkTable.ptr + first + n := by
        rw [← Nat.cast_add, entry_natCast, Nat.add_assoc]
      rw [List.range_succ, List.foldl_append, List.foldl_cons, List.foldl_nil, hentry, Function.update_apply, ih]
      split_ifs <;> first | rfl | omega
  have hcount : ((last : ℤ) - first).toNat = last - first := by omega
  funext j
  rw [ImmixMutatorLocal.freshen, hcount, hfold, LineMarkTableSlice.get_freshen _ _ hlen]
  have hsum : b.lineMarkTable.ptr + first + (last - first) = b.lineMarkTable.ptr + last := by omega
  rw [hsum]

end Scans

/-! ## Agreement -/

/-- the two mutators hold block `k` of a space and agree on every field and on the table -/
structure Agree (sp : Space) (k : ℕ) (s : Immix.ImmixMutatorLocal × LineMarkTable)
    (s' : ImmixMutatorLocal × (ℕ → LineMark)) : Prop where
  cursor : s'.1.cursor = s.1.cursor
  limit : s'.1.limit = s.1.limit
  line : s'.1.line = s.1.line
  block : s.1.block = some (sp.block k)
  block' : s'.1.block = some (.ofBlock (sp.block k))
  marks : s'.2 = s.2.get
  len : s.2.len = sp.size / 256
  region : s.1.cursor ≤ s.1.limit ∧ s.1.limit ≤ (sp.block k).start + 65536 ∧ s.1.line ≤ 256

section Agreement

variable {sp : Space} {k : ℕ} {s : Immix.ImmixMutatorLocal × LineMarkTable} {s' : ImmixMutatorLocal × (ℕ → LineMark)}

theorem block_le (hk : k < sp.size / 65536) : (sp.block k).start + 65536 ≤ 2 ^ 63 := by
  have huser := sp.user
  show sp.start + k * 65536 + 65536 ≤ 2 ^ 63
  omega

/-- the fast paths: the test the one way and the other -/
theorem bump_agree (hk : k < sp.size / 65536) (h : Agree sp k s s') (r : Request) :
    s'.1.bump r.size r.align = (s.1.bump r.layout).map fun p => (p.1, { s'.1 with cursor := p.2.cursor }) := by
  obtain ⟨i, hi, hal⟩ := r.align_pow
  have hend := block_le hk
  have hcur : s.1.cursor ≤ 2 ^ 63 := by
    have := h.region
    omega
  have hpow : (2 : ℕ) ^ i < 2 ^ 31 := Nat.pow_lt_pow_right (by norm_num) hi
  have hsize := r.size_lt
  -- the two roundings, and the sum that does not wrap
  have halign : alignUp s'.1.cursor r.align = Address.alignUp s.1.cursor r.layout.align := by
    rw [h.cursor]
    show alignUp s.1.cursor (r.align : ℤ) = Address.alignUp s.1.cursor r.align
    rw [hal]
    exact alignUp_eq hi (by omega)
  have hbounds := r.layout.alignUp_bounds hcur
  have hlt : r.layout.align < 2 ^ 31 := by
    show r.align < 2 ^ 31
    rw [hal]
    exact hpow
  have hstop : uintptr ((Address.alignUp s.1.cursor r.layout.align : ℕ) + (r.size : ℤ)) =
      Address.plus (Address.alignUp s.1.cursor r.layout.align) r.layout.size := by
    rw [← Nat.cast_add, uintptr_natCast]
    · rfl
    · omega
  unfold ImmixMutatorLocal.bump Immix.ImmixMutatorLocal.bump
  simp only [halign, hstop, h.limit, gt_iff_lt, ← not_le]
  split_ifs <;> rfl

/-- a request served by the fast path -/
theorem Agree.bump (hk : k < sp.size / 65536) (h : Agree sp k s s') {r : Request} {a : ℕ}
    {x : Immix.ImmixMutatorLocal} (hb : s.1.bump r.layout = some (a, x)) :
    Agree sp k (x, s.2) ({ s'.1 with cursor := x.cursor }, s'.2) := by
  have hend := block_le hk
  have hregion := h.region
  obtain ⟨-, h2, -, rfl⟩ := bump_spec (by omega) hb
  exact ⟨rfl, h.limit, h.line, h.block, h.block', h.marks, h.len, h2, hregion.2⟩

/-- a hole taken by both -/
theorem Agree.hole (hk : k < sp.size / 65536) (h : Agree sp k s s') {i j : ℕ} (hij : i < j) (hj : j ≤ 256) :
    Agree sp k
      (⟨Address.plus (sp.block k).start (i <<< logBytesInLine), Address.plus (sp.block k).start (j <<< logBytesInLine), j,
        some (sp.block k)⟩, (sp.block k).lineMarkTable.freshen s.2 i j)
      (⟨uintptr ((sp.block k).start + (i : ℤ) <<< logBytesInLine),
        uintptr ((sp.block k).start + (j : ℤ) <<< logBytesInLine), uintptr j, some (.ofBlock (sp.block k))⟩,
        ImmixMutatorLocal.freshen (.ofBlock (sp.block k)) s'.2 i j) := by
  have hend := block_le hk
  have hslice : k * 256 + 256 ≤ sp.size / 256 := slice_in_table hk
  have haddr : ∀ n : ℕ, n ≤ 256 → uintptr ((sp.block k).start + (n : ℤ) <<< logBytesInLine) =
      Address.plus (sp.block k).start (n <<< logBytesInLine) := by
    intro n hn
    have hshift : (n : ℤ) <<< logBytesInLine = (n * 256 : ℕ) := by
      rw [Int.shiftLeft_eq]
      push_cast
      rfl
    rw [hshift, ← Nat.cast_add, uintptr_natCast (by omega), shiftLeft_line]
    rfl
  refine ⟨haddr i (by omega), haddr j hj, uintptr_natCast (by omega), rfl, rfl, ?_, ?_, ?_⟩
  · simp only [h.marks]
    exact freshen_agree hij.le (by rw [h.len]; show k * 256 + j ≤ _; omega)
  · simp only [LineMarkTableSlice.freshen_len, h.len]
  · simp only [Address.plus, shiftLeft_line]
    omega

/-- **A call.** The two mutators end a call in the same way, in agreement; one call for each line that is left, and one
more, are enough. -/
theorem alloc_agree (hk : k < sp.size / 65536) (r : Request) (fuel : ℕ) (hfuel : 256 < s.1.line + fuel)
    (h : Agree sp k s s') :
    ∃ o o', Immix.ImmixMutatorLocal.alloc r.layout fuel s = some o ∧
      ImmixMutatorLocal.alloc r.size r.align fuel s' = some o' ∧ ServedRel (Agree sp k) o o' := by
  induction fuel generalizing s s' with
  | zero =>
    have := h.region
    omega
  | succ fuel ih =>
    obtain ⟨x, t⟩ := s
    obtain ⟨y, u⟩ := s'
    obtain rfl : u = t.get := h.marks
    have hbump := bump_agree hk h r
    unfold Immix.ImmixMutatorLocal.alloc ImmixMutatorLocal.alloc
    cases hb : x.bump r.layout with
    | some p =>
      obtain ⟨a, x'⟩ := p
      simp only [hb, Option.map_some] at hbump ⊢
      rw [hbump]
      exact ⟨_, _, rfl, rfl, .address (h.bump hk hb)⟩
    | none =>
      simp only [hb, Option.map_none] at hbump ⊢
      rw [hbump]
      simp only [Immix.ImmixMutatorLocal.tryAllocFromLocal, show x.block = _ from h.block, show y.block = _ from h.block',
        show y.line = x.line from h.line]
      by_cases hline : x.line < linesInBlock
      swap
      · simp only [if_neg hline]
        exact ⟨_, _, rfl, rfl, .allocFromGlobal h⟩
      simp only [if_pos hline]
      rw [linesInBlock_eq] at hline
      have hslice : (sp.block k).lineMarkTable.len = 256 := rfl
      rw [toInt_of_lt (by omega), next_available_agree (by omega)]
      cases hnext : (sp.block k).lineMarkTable.getNextAvailableLine t x.line with
      | none =>
        simp only [ne_eq, not_true_eq_false, if_false]
        exact ⟨_, _, rfl, rfl, .allocFromGlobal h⟩
      | some i =>
        obtain ⟨h1, h2, hfree, -⟩ := (sp.block k).lineMarkTable.nextAvailable_some t hnext
        obtain ⟨-, h4, -⟩ := (sp.block k).lineMarkTable.nextUnavailable_spec t h2.le
        have hgt := (sp.block k).lineMarkTable.nextUnavailable_gt t h2 hfree
        have hne : (i : ℤ) ≠ -1 := by omega
        simp only [if_pos hne, next_unavailable_agree h2.le]
        exact ih (by simp only at hfuel ⊢; omega) (h.hole hk hgt (by omega))

end Agreement

/-- **The two allocators agree on a block.** For every block of every space, with any line marks, and every list of
requests: after both mutators have installed the block they hand out the same addresses, fall through to
`alloc_from_global` at the same request or not at all, and end with the same cursor, limit and line and the same marks. -/
theorem allocators_agree (sp : Space) (k : ℕ) (hk : k < sp.size / 65536) (marks : ℕ → LineMark)
    (x : Immix.ImmixMutatorLocal) (y : ImmixMutatorLocal) (requests : List Request) (fuel : ℕ) (hfuel : 256 < fuel) :
    ∃ u v,
      serve (fun r => Immix.ImmixMutatorLocal.alloc r.layout fuel) requests
        (x.useBlock (sp.block k), sp.lineTable marks) = some u ∧
      serve (fun r => ImmixMutatorLocal.alloc r.size r.align fuel) requests
        (y.useBlock (.ofBlock (sp.block k)), marks) = some v ∧
      v.addresses = u.addresses ∧ v.fellThrough = u.fellThrough ∧ v.state.1.cursor = u.state.1.cursor ∧
      v.state.1.limit = u.state.1.limit ∧ v.state.1.line = u.state.1.line ∧ v.state.2 = u.state.2.get := by
  have hstart : Agree sp k (x.useBlock (sp.block k), sp.lineTable marks) (y.useBlock (.ofBlock (sp.block k)), marks) := by
    refine ⟨rfl, rfl, rfl, rfl, rfl, rfl, Space.lineTable_len sp marks, ?_⟩
    simp [Immix.ImmixMutatorLocal.useBlock]
  obtain ⟨u, v, hu, hv, h1, h2, h3⟩ := serve_rel (R := Agree sp k)
    (f := fun r => Immix.ImmixMutatorLocal.alloc r.layout fuel)
    (g := fun r => ImmixMutatorLocal.alloc r.size r.align fuel)
    (fun r s s' h => alloc_agree hk r fuel (by omega) h) requests hstart
  exact ⟨u, v, hu, hv, h1, h2, h3.cursor, h3.limit, h3.line, h3.marks⟩

/-- a block with every other line taken: three requests, the second of which does not fit in what is left of a hole -/
theorem allocators_agree_holes :
    ∃ u v,
      serve (fun r => Immix.ImmixMutatorLocal.alloc r.layout 300) [⟨200, 8, by decide, by decide, 3, by decide, rfl⟩,
          ⟨100, 16, by decide, by decide, 4, by decide, rfl⟩, ⟨512, 8, by decide, by decide, 3, by decide, rfl⟩]
        (Immix.ImmixMutatorLocal.new.useBlock (Space.oneBlock.block 0),
          Space.oneBlock.lineTable fun i => if i % 2 = 0 then .free else .live) = some u ∧
      serve (fun r => ImmixMutatorLocal.alloc r.size r.align 300) [⟨200, 8, by decide, by decide, 3, by decide, rfl⟩,
          ⟨100, 16, by decide, by decide, 4, by decide, rfl⟩, ⟨512, 8, by decide, by decide, 3, by decide, rfl⟩]
        (ImmixMutatorLocal.useBlock ⟨0, 0, 256, none⟩ (.ofBlock (Space.oneBlock.block 0)),
          fun i => if i % 2 = 0 then .free else .live) = some v ∧
      v.addresses = u.addresses ∧ v.fellThrough = u.fellThrough ∧ v.state.1.cursor = u.state.1.cursor ∧
      v.state.1.limit = u.state.1.limit ∧ v.state.1.line = u.state.1.line ∧ v.state.2 = u.state.2.get :=
  allocators_agree .oneBlock 0 (by decide) (fun i => if i % 2 = 0 then .free else .live) Immix.ImmixMutatorLocal.new ⟨0, 0, 256, none⟩
    [⟨200, 8, by decide, by decide, 3, by decide, rfl⟩, ⟨100, 16, by decide, by decide, 4, by decide, rfl⟩,
      ⟨512, 8, by decide, by decide, 3, by decide, rfl⟩] 300 (by decide)

end C

end Immix
